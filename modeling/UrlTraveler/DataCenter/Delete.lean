import UrlTraveler.DataCenter.Folders

/-! `DeleteFavoriteFold`: which records one deletion marks.

    The loop marks the record it is asked for and the records below it, and calls itself on every
    folder it marks. A nested call runs over the whole vector, so it may mark records the outer loop
    has not reached yet; what is marked already is skipped, which is what ends the recursion on a
    parent cycle. Two facts about a finished call say everything:

        sound    a new mark lies on the named id, or below it
        closed   with every new mark on a folder, all records that name its id are marked

    Marked ids are followed, not records: where two records share an id, both go. -/

namespace UrlTraveler.DataCenter
open Runs Relation Cycles

/-! ### Below a folder -/

/-- One step down: a folder that is not deleted has the id `y` and lies in `x`. -/
def Down (v : Favorites) (x y : ℤ) : Prop :=
  ∃ r ∈ v, r.bDelete = false ∧ r.bFolder = true ∧ r.nPid = x ∧ r.nId = y

/-- The record lies in `d`, or in a folder reached from `d` by steps down. -/
def Below (v : Favorites) (d : ℤ) (r : FavoriteLineData) : Prop := ReflTransGen (Down v) d r.nPid

/-- The records a deletion of `d` can meet: those below it, and all that carry a reached id. -/
def Hit (v : Favorites) (d : ℤ) (r : FavoriteLineData) : Prop :=
  Below v d r ∨ ReflTransGen (Down v) d r.nId

/-! ### Marks -/

/-- `w` is `v` with some more records marked. -/
def Grows (v w : Favorites) : Prop :=
  ∀ i : ℕ, w[i]? = v[i]? ∨ w[i]? = (v[i]?).map markDeleted

/-- Every record with the parent `x`, or the id `x`, is deleted. -/
def Emptied (v : Favorites) (x : ℤ) : Prop :=
  ∀ (i : ℕ) (r : FavoriteLineData), v[i]? = some r → r.nPid = x ∨ r.nId = x → r.bDelete = true

theorem Grows.refl (v : Favorites) : Grows v v := fun _ => .inl rfl

theorem Grows.trans {u v w : Favorites} (huv : Grows u v) (hvw : Grows v w) : Grows u w := by
  intro i
  rcases hvw i with h | h
  · rw [h]
    exact huv i
  · right
    rcases huv i with h' | h'
    · rw [h, h']
    · rw [h, h', Option.map_map]
      rfl

theorem grows_modify (v : Favorites) (i : ℕ) : Grows v (v.modify i markDeleted) := by
  intro k
  rw [List.getElem?_modify]
  by_cases h : i = k
  · exact .inr (by simp [h])
  · exact .inl (by cases v[k]? <;> simp [h])

theorem Grows.none_iff {v w : Favorites} (h : Grows v w) {i : ℕ} :
    w[i]? = none ↔ v[i]? = none := by
  rcases h i with h | h
  · rw [h]
  · rw [h, Option.map_eq_none_iff]

theorem Grows.length {v w : Favorites} (h : Grows v w) : w.length = v.length := by
  have hle : ∀ n, w.length ≤ n ↔ v.length ≤ n := fun n => by
    rw [← List.getElem?_eq_none_iff, h.none_iff, List.getElem?_eq_none_iff]
  exact le_antisymm ((hle _).mpr le_rfl) ((hle _).mp le_rfl)

/-- A record of the larger state is a record of the smaller one, up to the mark. -/
theorem Grows.back {v w : Favorites} (h : Grows v w) {i : ℕ} {s : FavoriteLineData}
    (hs : w[i]? = some s) : ∃ r, v[i]? = some r ∧ (s = r ∨ s = markDeleted r) := by
  rcases h i with h | h
  · exact ⟨s, h.symm.trans hs, .inl rfl⟩
  · rw [h, Option.map_eq_some_iff] at hs
    obtain ⟨r, hr, rfl⟩ := hs
    exact ⟨r, hr, .inr rfl⟩

theorem Grows.back_live {v w : Favorites} (h : Grows v w) {i : ℕ} {s : FavoriteLineData}
    (hs : w[i]? = some s) (hd : s.bDelete = false) : v[i]? = some s := by
  obtain ⟨r, hr, rfl | rfl⟩ := h.back hs
  · exact hr
  · simp [markDeleted] at hd

theorem Grows.emptied {v w : Favorites} (h : Grows v w) {x : ℤ} (hx : Emptied v x) :
    Emptied w x := by
  intro i s hs hid
  obtain ⟨r, hr, rfl | rfl⟩ := h.back hs
  · exact hx i s hr hid
  · rfl

theorem Grows.down {v w : Favorites} (h : Grows v w) {x y : ℤ} (hxy : Down w x y) : Down v x y := by
  obtain ⟨s, hs, hd, hf⟩ := hxy
  obtain ⟨i, hi⟩ := List.mem_iff_getElem?.mp hs
  exact ⟨s, List.mem_of_getElem? (h.back_live hi hd), hd, hf⟩

theorem Grows.hit {v w : Favorites} (h : Grows v w) {x : ℤ} {r : FavoriteLineData}
    (hr : Hit w x r) : Hit v x r :=
  hr.imp (fun hp => ReflTransGen.mono (fun _ _ => h.down) _ _ hp)
    (fun hp => ReflTransGen.mono (fun _ _ => h.down) _ _ hp)

theorem Hit.of_reached {v : Favorites} {x y : ℤ} {r : FavoriteLineData} (h : Hit v y r)
    (hxy : ReflTransGen (Down v) x y) : Hit v x r :=
  h.imp hxy.trans hxy.trans

/-- Record `i` is `r`, live in `v` and marked in `w`. -/
structure New (v w : Favorites) (i : ℕ) (r : FavoriteLineData) : Prop where
  here : v[i]? = some r
  live : r.bDelete = false
  marked : w[i]? = some (markDeleted r)

theorem not_new_self {v : Favorites} {i : ℕ} {r : FavoriteLineData} : ¬ New v v i r := by
  rintro ⟨hr, hd, hm⟩
  rw [Option.some.inj (hr.symm.trans hm)] at hd
  cases hd

theorem New.split {u v w : Favorites} {i : ℕ} {r : FavoriteLineData} (h : New u w i r)
    (huv : Grows u v) : New u v i r ∨ New v w i r := by
  rcases huv i with hi | hi
  · exact .inr ⟨hi.trans h.here, h.live, h.marked⟩
  · exact .inl ⟨h.here, h.live, by rw [hi, h.here]; rfl⟩

theorem New.of_modify {v : Favorites} {i k : ℕ} {r s : FavoriteLineData} (hr : v[k]? = some r)
    (h : New v (v.modify k markDeleted) i s) : s = r := by
  obtain ⟨hs, hd, hm⟩ := h
  by_cases hk : k = i
  · subst hk
    exact Option.some.inj (hs.symm.trans hr)
  · rw [List.getElem?_modify, hs] at hm
    simp only [hk, if_false, Option.map_eq_map, Option.map_some, Option.some.injEq] at hm
    rw [hm] at hd
    cases hd

/-! ### One call -/

/-- What a call on `d` has done, at any point of its loop. -/
structure Deletes (v : Favorites) (d : ℤ) (w : Favorites) : Prop where
  grows : Grows v w
  sound : ∀ i r, New v w i r → Hit v d r
  closed : ∀ i r, New v w i r → r.bFolder = true → r.nId = d ∨ Emptied w r.nId

section Loop
variable {v w w' : Favorites} {d : ℤ} {k : ℕ} {r : FavoriteLineData}

theorem Deletes.refl (v : Favorites) (d : ℤ) : Deletes v d v where
  grows := Grows.refl v
  sound _ _ h := absurd h not_new_self
  closed _ _ h := absurd h not_new_self

/-- What the loop body can do at index `k`. -/
theorem deleteAt_cases {call : Favorites → ℤ → Option Favorites}
    (h : deleteAt call d w k = some w') :
    (w' = w ∧ ∀ r, w[k]? = some r → r.nPid = d ∨ r.nId = d → r.bDelete = true) ∨
    (∃ r, w[k]? = some r ∧ (r.nPid = d ∧ r.bFolder = false ∨ r.nId = d) ∧
      w' = w.modify k markDeleted) ∨
    (∃ r, w[k]? = some r ∧ r.bDelete = false ∧ r.nPid = d ∧ r.bFolder = true ∧
      call (w.modify k markDeleted) r.nId = some w') := by
  cases hr : w[k]? with
  | none =>
    simp only [deleteAt, hr, Option.some.injEq] at h
    exact .inl ⟨h.symm, by simp⟩
  | some r =>
    simp only [deleteAt, hr] at h
    split_ifs at h with hd hp hf hi
    · exact .inl ⟨(Option.some.inj h).symm, by rintro _ ⟨⟩ _; exact hd⟩
    · exact .inr (.inr ⟨r, rfl, by simpa using hd, hp, hf, h⟩)
    · exact .inr (.inl ⟨r, rfl, .inl ⟨hp, by simpa using hf⟩, (Option.some.inj h).symm⟩)
    · exact .inr (.inl ⟨r, rfl, .inr hi, (Option.some.inj h).symm⟩)
    · refine .inl ⟨(Option.some.inj h).symm, ?_⟩
      rintro _ ⟨⟩ (hp' | hi')
      · exact absurd hp' hp
      · exact absurd hi' hi

/-- Marking a record that is in `d` and no folder, or is `d`. -/
theorem Deletes.mark (hw : Deletes v d w) (hr : w[k]? = some r)
    (hc : r.nPid = d ∧ r.bFolder = false ∨ r.nId = d) : Deletes v d (w.modify k markDeleted) where
  grows := hw.grows.trans (grows_modify w k)
  sound i s hs := by
    rcases hs.split hw.grows with hs | hs
    · exact hw.sound i s hs
    · obtain rfl := hs.of_modify hr
      rcases hc with ⟨hp, _⟩ | hi
      · exact .inl (hp ▸ .refl)
      · exact .inr (hi ▸ .refl)
  closed i s hs hf := by
    rcases hs.split hw.grows with hs | hs
    · exact (hw.closed i s hs hf).imp_right (grows_modify w k).emptied
    · obtain rfl := hs.of_modify hr
      rcases hc with ⟨_, hf'⟩ | hi
      · rw [hf] at hf'
        cases hf'
      · exact .inl hi

/-- Marking a folder in `d` and calling on its id. -/
theorem Deletes.nested (hw : Deletes v d w) (hr : w[k]? = some r) (hd : r.bDelete = false)
    (hp : r.nPid = d) (hf : r.bFolder = true) (hcall : Deletes (w.modify k markDeleted) r.nId w')
    (hall : Emptied w' r.nId) : Deletes v d w' := by
  have hg := hw.grows.trans (grows_modify w k)
  have hdown : ReflTransGen (Down v) d r.nId :=
    .single ⟨r, List.mem_of_getElem? (hw.grows.back_live hr hd), hd, hf, hp, rfl⟩
  refine ⟨hg.trans hcall.grows, fun i s hs => ?_, fun i s hs hsf => ?_⟩
  · rcases hs.split hg with hs | hs
    · rcases hs.split hw.grows with hs | hs
      · exact hw.sound i s hs
      · obtain rfl := hs.of_modify hr
        exact .inr hdown
    · exact (hg.hit (hcall.sound i s hs)).of_reached hdown
  · rcases hs.split hg with hs | hs
    · rcases hs.split hw.grows with hs | hs
      · exact (hw.closed i s hs hsf).imp_right ((grows_modify w k).trans hcall.grows).emptied
      · obtain rfl := hs.of_modify hr
        exact .inr hall
    · rcases hcall.closed i s hs hsf with hi | he
      · exact .inr (hi ▸ hall)
      · exact .inr he

end Loop

/-- A call that returns has emptied `d`. -/
theorem deleteFavoriteFold_deletes : ∀ (fuel : ℕ) {v w : Favorites} {d : ℤ},
    deleteFavoriteFold fuel v d = some w → Deletes v d w ∧ Emptied w d := by
  intro fuel
  induction fuel with
  | zero =>
    intro v w d h
    cases h
  | succ fuel ih =>
    intro v w d h
    -- behind index `k` nothing live names `d`
    let Swept (k : ℕ) (w : Favorites) : Prop := ∀ i < k, ∀ r : FavoriteLineData, w[i]? = some r →
      r.nPid = d ∨ r.nId = d → r.bDelete = true
    have hkeep : ∀ {k : ℕ} {w w' : Favorites}, Swept k w → Grows w w' →
        (∀ r, w'[k]? = some r → r.nPid = d ∨ r.nId = d → r.bDelete = true) → Swept (k + 1) w' := by
      intro k w w' hw hg hk i hi r hr hid
      rcases Nat.lt_succ_iff_lt_or_eq.mp hi with hi | rfl
      · obtain ⟨s, hs, rfl | rfl⟩ := hg.back hr
        · exact hw i hi r hs hid
        · rfl
      · exact hk r hr hid
    have hbody : ∀ k w w', Deletes v d w ∧ Swept k w →
        deleteAt (deleteFavoriteFold fuel) d w k = some w' → Deletes v d w' ∧ Swept (k + 1) w' := by
      rintro k w w' ⟨hw, hs⟩ hstep
      have hmarked : ∀ r s : FavoriteLineData, w[k]? = some r →
          (w.modify k markDeleted)[k]? = some s → s.bDelete = true := by
        intro r s hr hs
        rw [List.getElem?_modify, hr] at hs
        simp only [if_true, Option.map_eq_map, Option.map_some, Option.some.injEq] at hs
        rw [← hs]
        rfl
      rcases deleteAt_cases hstep with ⟨rfl, hk⟩ | ⟨r, hr, hc, rfl⟩ | ⟨r, hr, hd, hp, hf, hcall⟩
      · exact ⟨hw, hkeep hs (Grows.refl _) hk⟩
      · exact ⟨hw.mark hr hc, hkeep hs (grows_modify w k) fun s hs _ => hmarked r s hr hs⟩
      · obtain ⟨hdel, hall⟩ := ih hcall
        refine ⟨hw.nested hr hd hp hf hdel hall,
          hkeep hs ((grows_modify w k).trans hdel.grows) fun s hs _ => ?_⟩
        obtain ⟨t, ht, rfl | rfl⟩ := hdel.grows.back hs
        · exact hmarked r s hr ht
        · rfl
    obtain ⟨hw, hs⟩ := foldlM_range_rule hbody v.length
      ⟨Deletes.refl v d, fun i hi => absurd hi (Nat.not_lt_zero i)⟩ h
    refine ⟨hw, fun i r hr hid => hs i ?_ r hr hid⟩
    obtain ⟨s, hs, _⟩ := hw.grows.back hr
    exact (List.getElem?_eq_some_iff.mp hs).1

/-! ### What is marked -/

/-- Every reached id is emptied: the folder that leads to it was marked, or was so before. -/
theorem Deletes.emptied {v w : Favorites} {d : ℤ} (h : Deletes v d w) (hd : Emptied w d) {x : ℤ}
    (hx : ReflTransGen (Down v) d x) : Emptied w x := by
  induction hx with
  | refl => exact hd
  | tail _ hyz ih =>
    obtain ⟨p, hp, hlive, hf, rfl, rfl⟩ := hyz
    obtain ⟨i, hi⟩ := List.mem_iff_getElem?.mp hp
    have hmark : w[i]? = some (markDeleted p) := by
      rcases h.grows i with hsame | hmark
      · rw [hi] at hsame
        rw [ih i p hsame (.inl rfl)] at hlive
        cases hlive
      · rw [hmark, hi]
        rfl
    rcases h.closed i p ⟨hi, hlive, hmark⟩ hf with he | he
    · rw [he]
      exact hd
    · exact he

/-- MARKS: the new marks are exactly the live records that carry or name a reached id. -/
theorem Deletes.new_iff {v w : Favorites} {d : ℤ} (h : Deletes v d w) (hd : Emptied w d) {i : ℕ}
    {r : FavoriteLineData} (hr : v[i]? = some r) (hlive : r.bDelete = false) :
    New v w i r ↔ Hit v d r := by
  refine ⟨h.sound i r, fun hit => ?_⟩
  have hgone : ∀ s, w[i]? = some s → s.nPid = r.nPid → s.nId = r.nId → s.bDelete = true := by
    intro s hs hp hid
    rcases hit with hb | hb
    · exact h.emptied hd hb i s hs (.inl hp)
    · exact h.emptied hd hb i s hs (.inr hid)
  rcases h.grows i with hi | hi
  · rw [hr] at hi
    rw [hgone r hi rfl rfl] at hlive
    cases hlive
  · exact ⟨hr, hlive, by rw [hi, hr]; rfl⟩

/-- And everything else stays. -/
theorem Deletes.kept {v w : Favorites} {d : ℤ} (h : Deletes v d w) {i : ℕ} {r : FavoriteLineData}
    (hr : v[i]? = some r) (hno : ¬ (r.bDelete = false ∧ Hit v d r)) : w[i]? = some r := by
  rcases h.grows i with hi | hi
  · exact hi.trans hr
  · rw [hr, Option.map_some] at hi
    cases hd : r.bDelete with
    | true => simpa [markDeleted, ← hd] using hi
    | false => exact absurd ⟨hd, h.sound i r ⟨hr, hd, hi⟩⟩ hno

theorem Deletes.unique {v w w' : Favorites} {d : ℤ} (h : Deletes v d w) (hd : Emptied w d)
    (h' : Deletes v d w') (hd' : Emptied w' d) : w = w' := by
  refine List.ext_getElem? fun i => ?_
  cases hr : v[i]? with
  | none =>
    rw [h.grows.none_iff.mpr hr, h'.grows.none_iff.mpr hr]
  | some r =>
    by_cases hit : r.bDelete = false ∧ Hit v d r
    · rw [((h.new_iff hd hr hit.1).mpr hit.2).marked, ((h'.new_iff hd' hr hit.1).mpr hit.2).marked]
    · rw [h.kept hr hit, h'.kept hr hit]

/-- Where ids are distinct, a reached id leads to the record itself. -/
theorem hit_iff {v : Favorites} (hv : (v.map (·.nId)).Nodup) {d : ℤ} {r : FavoriteLineData}
    (hr : r ∈ v) : Hit v d r ↔ r.nId = d ∨ Below v d r := by
  constructor
  · rintro (hb | hid)
    · exact .inr hb
    · rcases ReflTransGen.cases_tail hid with he | ⟨_, hup, p, hp, _, _, rfl, hpid⟩
      · exact .inl he
      · rw [List.inj_on_of_nodup_map hv hp hr hpid] at hup
        exact .inr hup
  · rintro (rfl | hb)
    · exact .inr .refl
    · exact .inl hb

/-! ### The listing -/

/-- `x` is reached through the sub-folder `r` of `d`. -/
def Through (v : Favorites) (d x : ℤ) (r : FavoriteLineData) : Prop :=
  r.bDelete = false ∧ r.bFolder = true ∧ r.nPid = d ∧ ReflTransGen (Down v) r.nId x

theorem exists_through (v : Favorites) (d x : ℤ) :
    (∃ r ∈ v, Through v d x r) ↔ TransGen (Down v) d x := by
  rw [TransGen.head'_iff]
  constructor
  · rintro ⟨r, hr, hd, hf, hp, hx⟩
    exact ⟨r.nId, ⟨r, hr, hd, hf, hp, rfl⟩, hx⟩
  · rintro ⟨_, ⟨r, hr, hd, hf, hp, rfl⟩, hx⟩
    exact ⟨r, hr, hd, hf, hp, hx⟩

/-- What `GetSubFolderId` has listed: the ids reached by at least one step down. -/
theorem getSubFolderId_mem : ∀ (fuel : ℕ) {v : Favorites} {pvId out : List ℤ} {d : ℤ},
    getSubFolderId v fuel pvId d = some out →
    ∀ x, x ∈ out ↔ x ∈ pvId ∨ TransGen (Down v) d x := by
  intro fuel
  induction fuel with
  | zero =>
    intro v pvId out d h
    cases h
  | succ fuel ih =>
    intro v pvId out d h x
    rw [← exists_through]
    -- the loop over any part of the vector lists what the folders of that part lead to
    have hloop : ∀ (l : Favorites) (pvId : List ℤ), l.foldlM (fun pvId r =>
        if r.bDelete then some pvId
        else if r.nPid = d ∧ r.bFolder = true then getSubFolderId v fuel (pvId ++ [r.nId]) r.nId
        else some pvId) pvId = some out →
        (x ∈ out ↔ x ∈ pvId ∨ ∃ r ∈ l, Through v d x r) := by
      intro l
      induction l with
      | nil =>
        intro pvId h
        cases h
        simp
      | cons r l ihl =>
        intro pvId h
        rw [List.foldlM_cons, Option.bind_eq_bind, Option.bind_eq_some_iff] at h
        obtain ⟨pvId', hstep, h⟩ := h
        rw [ihl pvId' h, List.exists_mem_cons_iff, ← or_assoc]
        refine or_congr ?_ Iff.rfl
        split_ifs at hstep with hd hc
        · obtain rfl := Option.some.inj hstep
          simp [Through, hd]
        · rw [ih hstep x, List.mem_append, List.mem_singleton, or_assoc,
            ← reflTransGen_iff_eq_or_transGen]
          simp [Through, hd, hc]
        · obtain rfl := Option.some.inj hstep
          have hno : ¬ Through v d x r := fun h => hc ⟨h.2.2.1, h.2.1⟩
          simp [hno]
    exact hloop v pvId h

/-! ### The whole deletion -/

theorem deleteFavoriteFold_returns (v : Favorites) (d : ℤ) : ∃ w, Deletes v d w ∧ Emptied w d ∧
    ∀ fuel > v.length, deleteFavoriteFold fuel v d = some w := by
  have hsome : ∀ fuel > v.length, ∃ w, deleteFavoriteFold fuel v d = some w := by
    intro fuel hf
    obtain ⟨w, hw, _⟩ := deleteFavoriteFold_marks fuel v d
      (Nat.lt_of_le_of_lt List.countP_le_length hf)
    exact ⟨w, hw⟩
  obtain ⟨w, hw⟩ := hsome (v.length + 1) (Nat.lt_succ_self _)
  obtain ⟨hdel, hd⟩ := deleteFavoriteFold_deletes _ hw
  refine ⟨w, hdel, hd, fun fuel hf => ?_⟩
  obtain ⟨w', hw'⟩ := hsome fuel hf
  obtain ⟨hdel', hd'⟩ := deleteFavoriteFold_deletes _ hw'
  rw [hw', hdel.unique hd hdel' hd']

/-- The ids of the folders a deletion marks, the named one aside. -/
theorem Deletes.marked_folders {v w : Favorites} {d : ℤ} (h : Deletes v d w) (hd : Emptied w d)
    (x : ℤ) : (∃ i r, New v w i r ∧ r.bFolder = true ∧ r.nId = x ∧ x ≠ d) ↔
    x ≠ d ∧ TransGen (Down v) d x := by
  constructor
  · rintro ⟨i, r, hnew, hf, rfl, hne⟩
    refine ⟨hne, ?_⟩
    rcases h.sound i r hnew with hb | hid
    · exact TransGen.tail' hb ⟨r, List.mem_of_getElem? hnew.here, hnew.live, hf, rfl, rfl⟩
    · exact (reflTransGen_iff_eq_or_transGen.mp hid).resolve_left hne
  · rintro ⟨hne, hx⟩
    obtain ⟨_, hup, r, hr, hlive, hf, rfl, rfl⟩ := TransGen.tail'_iff.mp hx
    obtain ⟨i, hi⟩ := List.mem_iff_getElem?.mp hr
    exact ⟨i, r, (h.new_iff hd hi hlive).mpr (.inl hup), hf, rfl, hne⟩

/-- A path down is a path of `FolderUp`, read backwards. -/
theorem down_irrefl {v : Favorites} (hv : NoCycle (FolderUp v)) {d x : ℤ}
    (hx : TransGen (Down v) d x) : x ≠ d := by
  rintro rfl
  refine hv x (transGen_swap.mp (TransGen.mono ?_ _ _ hx))
  rintro a b ⟨r, hr, _, hf, rfl, rfl⟩
  exact ⟨r, hr, hf, rfl, rfl⟩

/-- SUBTREE: `DeleteFavoriteFold` returns on every vector, at whatever depth above the number of
    records its recursion is cut. With distinct ids it marks the named record and the records below
    it and changes nothing else. Without parent cycles the folders it marks, the named one aside,
    are those `GetSubFolderId` lists. -/
theorem deleteFavoriteFold_subtree (v : Favorites) (d : ℤ) :
    ∃ w, (∀ fuel > v.length, deleteFavoriteFold fuel v d = some w) ∧
    ((v.map (·.nId)).Nodup → w.length = v.length ∧ ∀ (i : ℕ) (r : FavoriteLineData),
      v[i]? = some r →
        (r.bDelete = false ∧ (r.nId = d ∨ Below v d r) → w[i]? = some (markDeleted r)) ∧
        (¬ (r.bDelete = false ∧ (r.nId = d ∨ Below v d r)) → w[i]? = some r)) ∧
    (NoCycle (FolderUp v) → ∃ n, ∀ fuel ≥ n, ∃ ids, getSubFolderId v fuel [] d = some ids ∧
      ∀ x, x ∈ ids ↔ ∃ i r, New v w i r ∧ r.bFolder = true ∧ r.nId = x ∧ x ≠ d) := by
  obtain ⟨w, h, hd, hret⟩ := deleteFavoriteFold_returns v d
  refine ⟨w, hret, fun hnodup => ⟨h.grows.length, fun i r hr => ?_⟩, fun hacyc => ?_⟩
  · rw [← hit_iff hnodup (List.mem_of_getElem? hr)]
    exact ⟨fun hit => ((h.new_iff hd hr hit.1).mpr hit.2).marked, h.kept hr⟩
  · obtain ⟨n, hn⟩ := getSubFolderId_ends hacyc d
    refine ⟨n, fun fuel hf => ?_⟩
    obtain ⟨ids, hids⟩ := hn fuel hf []
    refine ⟨ids, hids, fun x => ?_⟩
    rw [getSubFolderId_mem fuel hids x, h.marked_folders hd x]
    simp only [List.not_mem_nil, false_or]
    exact ⟨fun hx => ⟨down_irrefl hacyc hx, hx⟩, fun hx => hx.2⟩

/-- Both folders of `nested` go with the outer one, and the inner one is listed. -/
theorem deleteFavoriteFold_nested : (nested.map (·.nId)).Nodup ∧ NoCycle (FolderUp nested) ∧
    ∃ w, deleteFavoriteFold 3 nested 1 = some w ∧
      (∀ (i : ℕ) (r : FavoriteLineData), nested[i]? = some r → w[i]? = some (markDeleted r)) ∧
      ∃ n, ∀ fuel ≥ n, ∃ ids, getSubFolderId nested fuel [] 1 = some ids ∧
        ∀ x, x ∈ ids ↔ ∃ i r, New nested w i r ∧ r.bFolder = true ∧ r.nId = x ∧ x ≠ 1 := by
  have hids : (nested.map (·.nId)).Nodup := by decide
  obtain ⟨w, hret, hmarks, hlist⟩ := deleteFavoriteFold_subtree nested 1
  refine ⟨hids, nested_noCycle, w, hret 3 (by decide), fun i r hr => ?_, hlist nested_noCycle⟩
  have hall : ∀ r ∈ nested, r.bDelete = false ∧ (r.nId = 1 ∨ r.nPid = 1) := by decide
  obtain ⟨hlive, hid⟩ := hall r (List.mem_of_getElem? hr)
  exact ((hmarks hids).2 i r hr).1 ⟨hlive, hid.imp_right fun hp => by rw [Below, hp]⟩

end UrlTraveler.DataCenter
