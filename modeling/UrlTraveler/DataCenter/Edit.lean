import UrlTraveler.DataCenter.Renumber

/-! Editing runs: which ids the vector holds after any sequence of operations.

    Start from ids 1..n in vector order. Every operation keeps them a permutation of 1..n, n being
    the new length, as long as a bookmark is added while the last record carries the greatest id:

        [1 (0), 2 (1)]  ──add below 0──▶  [1 (0), 3 (0), 2 (1)]  ──add below 0──▶  3 again

    The vector is sorted by `nPid`, so after the first add the last record is not the newest one,
    and `AddFavorite`, unlike `AddFavoriteFolder`, does not renumber. -/

namespace UrlTraveler.DataCenter
open Sorting Runs

/-! ### Deleting only marks -/

/-- What editing reads of a record: its id, its parent's id, and whether it is a folder. -/
def link (r : FavoriteLineData) : ℤ × ℤ × Bool := (r.nId, r.nPid, r.bFolder)

/-- The number of records that are not deleted. -/
def live (v : Favorites) : ℕ := v.countP fun r => !r.bDelete

/-- `v'` is `v` with some more marks. -/
structure Marks (v v' : Favorites) : Prop where
  link : v'.map link = v.map link
  live : live v' ≤ live v

theorem Marks.refl (v : Favorites) : Marks v v := ⟨rfl, le_rfl⟩

theorem Marks.trans {u v w : Favorites} (huv : Marks u v) (hvw : Marks v w) : Marks u w :=
  ⟨hvw.link.trans huv.link, hvw.live.trans huv.live⟩

theorem live_modify : ∀ {v : Favorites} {i : ℕ} {r : FavoriteLineData}, v[i]? = some r →
    r.bDelete = false → live (v.modify i markDeleted) < live v
  | [], _, _, h, _ => by simp at h
  | s :: v, 0, r, h, hd => by
    obtain rfl : s = r := by simpa using h
    simp [live, markDeleted, hd]
  | s :: v, i + 1, r, h, hd => by
    have := live_modify (v := v) (i := i) (by simpa using h) hd
    simp only [live, List.modify_succ_cons, List.countP_cons] at this ⊢
    omega

theorem link_modify (v : Favorites) (i : ℕ) : (v.modify i markDeleted).map link = v.map link := by
  refine List.ext_getElem? fun k => ?_
  rw [List.getElem?_map, List.getElem?_map, List.getElem?_modify]
  cases v[k]? with
  | none => rfl
  | some r => by_cases h : i = k <;> simp [h, link, markDeleted]

theorem marks_modify {v : Favorites} {i : ℕ} {r : FavoriteLineData} (h : v[i]? = some r)
    (hd : r.bDelete = false) : Marks v (v.modify i markDeleted) :=
  ⟨link_modify v i, (live_modify h hd).le⟩

/-- The recursion of `DeleteFavoriteFold` ends: before each call a live record is marked. -/
theorem deleteFavoriteFold_marks : ∀ (fuel : ℕ) (v : Favorites) (nId : ℤ), live v < fuel →
    ∃ v', deleteFavoriteFold fuel v nId = some v' ∧ Marks v v'
  | 0, _, _, h => by omega
  | fuel + 1, v, nId, h => by
    refine foldlM_rule (I := Marks v) _ (fun w i _ hw => ?_) v (Marks.refl v)
    simp only [deleteAt]
    split
    · exact ⟨w, rfl, hw⟩
    next r hr =>
      cases hd : r.bDelete with
      | true => exact ⟨w, by simp, hw⟩
      | false =>
        have hm := hw.trans (marks_modify hr hd)
        by_cases hp : r.nPid = nId
        · cases hf : r.bFolder with
          | true =>
            have hlt := live_modify hr hd
            have hle := hw.live
            obtain ⟨v', hv', hmarks⟩ := deleteFavoriteFold_marks fuel (w.modify i markDeleted) r.nId
              (by omega)
            exact ⟨v', by simp [hp, hv'], hm.trans hmarks⟩
          | false => exact ⟨_, by simp [hp], hm⟩
        · by_cases hi : r.nId = nId
          · exact ⟨_, by simp [hp, hi], hm⟩
          · exact ⟨w, by simp [hp, hi], hw⟩

theorem deleteFavoriteFolder_link {v v' : Favorites} {nDeleteId : ℤ} {sel : List ℤ}
    (h : deleteFavoriteFolder v nDeleteId = some (v', sel)) : v'.map link = v.map link := by
  obtain ⟨w, hw, hmarks⟩ := deleteFavoriteFold_marks (v.length + 1) v nDeleteId
    (Nat.lt_succ_of_le List.countP_le_length)
  have hv : v' = w := by
    simp only [deleteFavoriteFolder, hw, Option.bind_eq_bind, Option.bind_eq_some_iff,
      Option.some.injEq, exists_eq_left'] at h
    obtain ⟨_, _, r, _, h⟩ := h
    split at h
    · cases h' : w[‹ℕ›]? <;> simp_all
    · split_ifs at h
      · cases h' : w[0]? <;> simp_all
      · cases h' : w[(‹ℤ› - 1).toNat]? <;> simp_all
  rw [hv]
  exact hmarks.link

theorem deleteFavorite_link (v : Favorites) (nFavoriteId : ℤ) (szUrl : WStr) :
    (deleteFavorite v nFavoriteId szUrl).map link = v.map link := by
  rw [deleteFavorite, List.map_map]
  refine List.map_congr_left fun r _ => ?_
  by_cases h : r.nPid = nFavoriteId ∧ r.szUrl = szUrl <;> simp [h, link, markDeleted]

/-! ### What one operation can do -/

/-- Adding a bookmark, adding a folder, marking, renumbering, moving a folder. -/
theorem step_cases {v v' : Favorites} {e : Env} {op : Op} (h : step v (e, op) = some v') :
    (∃ p t u last, op = .addFavorite p t u ∧ v.getLast? = some last ∧
      v' = e.σ.sort (·.nPid) (v ++ [newRecord last p t u false e.now])) ∨
    (∃ p t last, op = .addFavoriteFolder p t ∧ v.getLast? = some last ∧
      reArrange (e.σ.sort (·.nPid) (v ++ [newRecord last p t [] true e.now])) = some v') ∨
    ((∀ p t u, op ≠ .addFavorite p t u) ∧ v'.map link = v.map link) ∨
    (op = .reArrange ∧ reArrange v = some v') ∨
    (∃ src dst, op = .dragEnd src dst ∧ v' = dragEnd e.now v src dst) := by
  cases op with
  | addFavorite p t u =>
    obtain ⟨last, hlast, rfl⟩ := Option.map_eq_some_iff.mp h
    exact .inl ⟨p, t, u, last, rfl, hlast, rfl⟩
  | addFavoriteFolder p t =>
    obtain ⟨last, hlast, h⟩ := Option.bind_eq_some_iff.mp h
    exact .inr (.inl ⟨p, t, last, rfl, hlast, h⟩)
  | deleteFavorite n u =>
    obtain rfl := Option.some.inj h
    exact .inr (.inr (.inl ⟨by simp, deleteFavorite_link v n u⟩))
  | deleteFavoriteFolder n =>
    obtain ⟨⟨w, sel⟩, hw, rfl⟩ := Option.map_eq_some_iff.mp h
    exact .inr (.inr (.inl ⟨by simp, deleteFavoriteFolder_link hw⟩))
  | reArrange => exact .inr (.inr (.inr (.inl ⟨rfl, h⟩)))
  | dragEnd src dst =>
    obtain rfl := Option.some.inj h
    exact .inr (.inr (.inr (.inr ⟨src, dst, rfl, rfl⟩)))

theorem ids_of_link {v w : Favorites} (h : w.map link = v.map link) :
    w.map (·.nId) = v.map (·.nId) := by
  have := congrArg (List.map Prod.fst) h
  rwa [List.map_map, List.map_map] at this

theorem dragEnd_ids (now : ℤ) (v : Favorites) (src dst : ℤ) :
    (dragEnd now v src dst).map (·.nId) = v.map (·.nId) := by
  rw [dragEnd]
  split
  · rfl
  · split
    · rfl
    next i _ =>
      refine List.ext_getElem? fun k => ?_
      rw [List.getElem?_map, List.getElem?_map, List.getElem?_modify]
      cases v[k]? with
      | none => rfl
      | some r => by_cases h : i = k <;> simp [h]

/-! ### Ids along a run -/

/-- The ids of `v` are 1..n, in any order. -/
def Numbered (v : Favorites) : Prop :=
  (v.map (·.nId)).Perm ((List.range v.length).map fun i : ℕ => (i : ℤ) + 1)

/-- A bookmark is only added while the last record carries the greatest id. -/
def LastIsGreatest (v : Favorites) : Env × Op → Prop
  | (_, .addFavorite _ _ _) => ∀ last ∈ v.getLast?, ∀ r ∈ v, r.nId ≤ last.nId
  | _ => True

theorem Numbered.nodup {v : Favorites} (h : Numbered v) : (v.map (·.nId)).Nodup := by
  refine (List.Perm.nodup_iff h).mpr (List.nodup_range.map fun i j hij => ?_)
  have : (i : ℤ) + 1 = j + 1 := hij
  omega

theorem Numbered.mem_iff {v : Favorites} (h : Numbered v) (x : ℤ) :
    (∃ r ∈ v, r.nId = x) ↔ 1 ≤ x ∧ x ≤ v.length := by
  have hx := List.Perm.mem_iff (a := x) h
  simp only [List.mem_map, List.mem_range] at hx
  rw [hx]
  constructor
  · rintro ⟨i, hi, rfl⟩
    omega
  · rintro ⟨h1, hn⟩
    exact ⟨(x - 1).toNat, by omega, by omega⟩

theorem Indexed.numbered {v : Favorites} (h : Indexed v) : Numbered v := by
  have hmap : v.map (·.nId) = (List.range v.length).map fun i : ℕ => (i : ℤ) + 1 := by
    refine List.ext_getElem? fun k => ?_
    rw [List.getElem?_map, List.getElem?_map]
    by_cases hk : k < v.length
    · rw [List.getElem?_eq_getElem hk, List.getElem?_range hk, Option.map_some, Option.map_some,
        h k v[k] (List.getElem?_eq_getElem hk)]
    · rw [List.getElem?_eq_none (not_lt.mp hk), List.getElem?_eq_none (by simpa using hk)]
      rfl
  rw [Numbered, hmap]

theorem Numbered.congr {v w : Favorites} (h : Numbered v)
    (hids : w.map (·.nId) = v.map (·.nId)) : Numbered w := by
  have hlen : w.length = v.length := by simpa using congrArg List.length hids
  rw [Numbered, hids, hlen]
  exact h

theorem Numbered.sort {v : Favorites} (h : Numbered v) (σ : Sorter FavoriteLineData) :
    Numbered (σ.sort (·.nPid) v) := by
  have hp := σ.perm (·.nPid) v
  rw [Numbered, hp.length_eq]
  exact (hp.map _).trans h

/-- The greatest id is the length, so the new record gets the next number. -/
theorem Numbered.concat {v : Favorites} (h : Numbered v) {last r : FavoriteLineData}
    (hlast : last ∈ v) (hmax : ∀ s ∈ v, s.nId ≤ last.nId) (hr : r.nId = last.nId + 1) :
    Numbered (v ++ [r]) := by
  have hlen : last.nId = v.length := by
    have hpos : 0 < v.length := List.length_pos_of_mem hlast
    obtain ⟨s, hs, hid⟩ := (h.mem_iff v.length).mpr ⟨by omega, le_rfl⟩
    have := hmax s hs
    have := ((h.mem_iff last.nId).mp ⟨last, hlast, rfl⟩).2
    omega
  rw [Numbered, List.map_append, List.length_append, List.length_singleton, List.range_succ,
    List.map_append, List.map_singleton, List.map_singleton, hr, hlen]
  exact List.Perm.append_right _ h

/-- A smaller id plus one is there already. -/
theorem Numbered.duplicate {v : Favorites} (h : Numbered v) {last r s : FavoriteLineData}
    (hlast : last ∈ v) (hs : s ∈ v) (hlt : last.nId < s.nId) (hr : r.nId = last.nId + 1) :
    ¬ ((v ++ [r]).map (·.nId)).Nodup := by
  have h1 := (h.mem_iff last.nId).mp ⟨last, hlast, rfl⟩
  have h2 := (h.mem_iff s.nId).mp ⟨s, hs, rfl⟩
  obtain ⟨t, ht, hid⟩ := (h.mem_iff (last.nId + 1)).mpr ⟨by omega, by omega⟩
  intro hnd
  rw [List.map_append, List.nodup_append] at hnd
  exact hnd.2.2 t.nId (List.mem_map_of_mem ht) r.nId (by simp) (by rw [hid, hr])

theorem step_numbered {v v' : Favorites} {a : Env × Op} (hv : Numbered v)
    (hok : LastIsGreatest v a) (h : step v a = some v') : Numbered v' := by
  obtain ⟨e, op⟩ := a
  rcases step_cases h with ⟨p, t, u, last, rfl, hlast, rfl⟩ | ⟨p, t, last, rfl, hlast, hre⟩ |
    ⟨_, hlink⟩ | ⟨rfl, hre⟩ | ⟨src, dst, rfl, rfl⟩
  · exact (hv.concat (List.mem_of_getLast? hlast) (hok last hlast) rfl).sort e.σ
  · exact (reArrange_indexed hre).numbered
  · exact hv.congr (ids_of_link hlink)
  · exact (reArrange_indexed hre).numbered
  · exact hv.congr (dragEnd_ids _ _ _ _)

theorem step_duplicate {v v' : Favorites} {a : Env × Op} (hv : Numbered v)
    (hbad : ¬ LastIsGreatest v a) (h : step v a = some v') : ¬ (v'.map (·.nId)).Nodup := by
  obtain ⟨e, op⟩ := a
  cases op with
  | addFavorite p t u =>
    obtain ⟨last, hlast, rfl⟩ := Option.map_eq_some_iff.mp h
    simp only [LastIsGreatest, not_forall, not_le] at hbad
    obtain ⟨last', hlast', s, hs, hlt⟩ := hbad
    obtain rfl : last = last' := Option.some.inj (hlast.symm.trans hlast')
    rw [((e.σ.perm _ _).map _).nodup_iff]
    exact hv.duplicate (List.mem_of_getLast? hlast) hs hlt rfl
  | _ => exact absurd trivial hbad

/-- DISTINCT IDS: in a run from a vector numbered 1..n in order, every state has distinct ids
    exactly when every bookmark is added while the last record carries the greatest id. -/
theorem ids_distinct_iff (v : Favorites) (hv : Indexed v) (acts : List (Env × Op)) :
    (∀ w ∈ states step v acts, (w.map (·.nId)).Nodup) ↔ Along step LastIsGreatest v acts :=
  invariant_iff (I := Numbered) (fun _ h => h.nodup) (fun _ _ _ => step_numbered)
    (fun _ _ _ => step_duplicate) acts v hv.numbered

/-- A folder with one bookmark in it. -/
def oneFolder : Favorites :=
  [{ nId := 1, szTitle := ['f'], bFolder := true },
   { nId := 2, nPid := 1, szTitle := ['u'], szUrl := ['x'] }]

theorem oneFolder_indexed : Indexed oneFolder := by
  intro k r h
  match k with
  | 0 => cases h; rfl
  | 1 => cases h; rfl
  | k + 2 => cases h

def anyEnv : Env := ⟨insertion, 0⟩

theorem ids_distinct_oneFolder : oneFolder ≠ [] ∧ ∀ w ∈ states step oneFolder
    [(anyEnv, .addFavorite 1 ['v'] ['y']), (anyEnv, .addFavoriteFolder 0 ['g'])],
      (w.map (·.nId)).Nodup := by
  refine ⟨by decide, (ids_distinct_iff oneFolder oneFolder_indexed _).mpr ?_⟩
  intro v hv
  refine ⟨by rw [LastIsGreatest]; decide, fun w hw => ⟨trivial, trivial⟩⟩

/-- Two bookmarks added at top level get the same id. -/
theorem addFavorite_twice_same_id : oneFolder ≠ [] ∧ Indexed oneFolder ∧
    ∃ w ∈ states step oneFolder
      [(anyEnv, .addFavorite 0 ['v'] ['y']), (anyEnv, .addFavorite 0 ['w'] ['z'])],
      w.map (·.nId) = [1, 3, 3, 2] ∧ ¬ (w.map (·.nId)).Nodup := by
  have hrun : (states step oneFolder [(anyEnv, .addFavorite 0 ['v'] ['y']),
      (anyEnv, .addFavorite 0 ['w'] ['z'])]).any
        fun w => w.map (·.nId) = [1, 3, 3, 2] ∧ ¬ (w.map (·.nId)).Nodup := by decide
  obtain ⟨w, hw, hdup⟩ := List.any_eq_true.mp hrun
  exact ⟨by decide, oneFolder_indexed, w, hw, by simpa using hdup⟩

end UrlTraveler.DataCenter
