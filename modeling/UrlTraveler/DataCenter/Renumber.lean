import UrlTraveler.DataCenter.Favorites

/-! `ReArrange` between two sorts: the end of `DoExportThread`.

    After renumbering, the record at position k has the id k + 1 (`Indexed`). The last sort, by the
    new parent ids, keeps it that way only when the new parent ids are in order already, that is
    when parents come in the order of their old ids:

        id pid             sort by pid       ReArrange         sort by pid
        10  0   A          A  B  d  c        1  2  3  4        A  B  c  d
         5  0   B                            pids 0 0 2 1      ids 1 2 4 3
         1 10   c
         2  5   d

    `exportTail_indexed_iff` says this of the input vector, for sorts that keep ties in order and
    for all tie orders. -/

namespace UrlTraveler.DataCenter
open Sorting

/-- The record at position `k` has the id `k + 1`. -/
def Indexed (v : Favorites) : Prop := ∀ (k : ℕ) r, v[k]? = some r → r.nId = (k : ℤ) + 1

/-- The final steps of `DoExportThread`, which returns before them when nothing survived. -/
def exportTail (σ₁ σ₂ : Sorter FavoriteLineData) (v : Favorites) : Option Favorites :=
  if v = [] then some []
  else (reArrange (σ₁.sort (·.nPid) v)).map (σ₂.sort (·.nPid))

/-! ### What `ReArrange` does -/

theorem newPid_concat (v : Favorites) (r : FavoriteLineData) (x : ℤ) :
    newPid (v ++ [r]) x = if x = r.nId then (v.length : ℤ) + 1 else newPid v x := by
  simp [newPid, List.zipIdx_append, List.foldl_append]

/-- The new parent id is 0, and no record has the old one, or it is a position that has it. -/
theorem newPid_spec (x : ℤ) : ∀ v : Favorites, (newPid v x = 0 ∧ ∀ r ∈ v, r.nId ≠ x) ∨
    ∃ (i : ℕ) (r : FavoriteLineData), v[i]? = some r ∧ r.nId = x ∧ newPid v x = (i : ℤ) + 1 := by
  intro v
  induction v using List.reverseRecOn with
  | nil => exact .inl ⟨rfl, by simp⟩
  | append_singleton v r ih =>
    rw [newPid_concat]
    rcases eq_or_ne x r.nId with rfl | hne
    · exact .inr ⟨v.length, r, by simp, rfl, by simp⟩
    · rw [if_neg hne]
      rcases ih with ⟨h0, hno⟩ | ⟨i, s, hi, hs, h⟩
      · refine .inl ⟨h0, fun s hs => ?_⟩
        rcases List.mem_append.mp hs with hs | hs
        · exact hno s hs
        · rw [List.mem_singleton.mp hs]
          exact hne.symm
      · have hlt : i < v.length := (List.getElem?_eq_some_iff.mp hi).1
        exact .inr ⟨i, s, by rw [List.getElem?_append_left hlt, hi], hs, h⟩

theorem reArrange_some {v w : Favorites} (h : reArrange v = some w) : v ≠ [] ∧
    w = v.mapIdx fun i r => { r with nId := (i : ℤ) + 1, nPid := newPid v r.nPid } := by
  rw [reArrange] at h
  split at h
  · cases h
  · cases h
    exact ⟨‹_›, rfl⟩

theorem reArrange_getElem? {v w : Favorites} (h : reArrange v = some w) (k : ℕ) : w[k]? =
    v[k]?.map fun r => { r with nId := (k : ℤ) + 1, nPid := newPid v r.nPid } := by
  rw [(reArrange_some h).2, List.getElem?_mapIdx]

/-- The records after renumbering. -/
theorem mem_reArrange {u w : Favorites} (h : reArrange u = some w) {r : FavoriteLineData} : r ∈ w ↔
    ∃ (k : ℕ) (r₀ : FavoriteLineData), u[k]? = some r₀ ∧
      r = { r₀ with nId := (k : ℤ) + 1, nPid := newPid u r₀.nPid } := by
  rw [List.mem_iff_getElem?]
  refine exists_congr fun k => ?_
  rw [reArrange_getElem? h, Option.map_eq_some_iff]
  exact exists_congr fun r₀ => and_congr_right fun _ => eq_comm

theorem reArrange_indexed {v w : Favorites} (h : reArrange v = some w) : Indexed w := by
  intro k r hr
  rw [reArrange_getElem? h, Option.map_eq_some_iff] at hr
  obtain ⟨r₀, _, rfl⟩ := hr
  rfl

/-! ### The last sort -/

/-- Two indexed vectors with the same records are equal. -/
theorem Indexed.eq_of_perm {v w : Favorites} (hv : Indexed v) (hw : Indexed w)
    (hp : v.Perm w) : v = w := by
  refine List.ext_getElem? fun k => ?_
  cases hvk : v[k]? with
  | none =>
    rw [List.getElem?_eq_none_iff, hp.length_eq] at hvk
    exact (List.getElem?_eq_none hvk).symm
  | some r =>
    -- the record is somewhere in `w`, and its id says where
    obtain ⟨j, hj⟩ := List.mem_iff_getElem?.mp (hp.mem_iff.mp (List.mem_of_getElem? hvk))
    have hkj : (k : ℤ) + 1 = j + 1 := (hv k r hvk).symm.trans (hw j r hj)
    have : k = j := by omega
    rw [this, hj]

theorem Indexed.pairwise {v : Favorites} (hv : Indexed v) :
    v.Pairwise fun r s => r.nId < s.nId := by
  rw [List.pairwise_iff_getElem]
  intro i j hi hj hij
  rw [hv i v[i] (List.getElem?_eq_getElem hi), hv j v[j] (List.getElem?_eq_getElem hj)]
  omega

theorem sort_indexed_iff {σ : Sorter FavoriteLineData} (hσ : σ.Stable) {v : Favorites}
    (hv : Indexed v) : Indexed (σ.sort (·.nPid) v) ↔ v.Pairwise fun r s => r.nPid ≤ s.nPid := by
  constructor
  · intro h
    rw [← h.eq_of_perm hv (σ.perm _ v)]
    exact σ.sorted _ v
  · intro h
    rw [hσ.fixed h]
    exact hv

/-- Ties in reverse order. -/
def reversing : Sorter FavoriteLineData where
  sort key l := insertion.sort key l.reverse
  perm key l := (insertion.perm key _).trans (List.reverse_perm l)
  sorted key _ := insertion.sorted key _

theorem sort_indexed_all_iff {v : Favorites} (hv : Indexed v) :
    (∀ σ : Sorter FavoriteLineData, Indexed (σ.sort (·.nPid) v)) ↔
      v.Pairwise fun r s => r.nPid < s.nPid := by
  constructor
  · intro h
    have hle := (sort_indexed_iff insertion_stable hv).mp (h insertion)
    have hrev : (reversing.sort (·.nPid) v).Pairwise fun r s =>
        r.nPid = s.nPid → s.nId < r.nId :=
      insertion_stable.ties (List.pairwise_reverse.mpr hv.pairwise)
    rw [(h reversing).eq_of_perm hv (reversing.perm _ v)] at hrev
    refine (hle.and (hrev.and hv.pairwise)).imp ?_
    rintro r s ⟨hrs, htie, hid⟩
    exact lt_of_le_of_ne hrs fun he => absurd (htie he) (by omega)
  · intro h σ
    have hsort : σ.sort (·.nPid) v = v := by
      refine (σ.perm _ v).eq_of_pairwise (fun r s hr hs hrs hsr => ?_) (σ.sorted _ v)
        (h.imp le_of_lt)
      by_contra hne
      rcases pairwise_either h ((σ.perm _ v).mem_iff.mp hr) hs hne with hlt | hlt
      · exact absurd hsr (not_le.mpr hlt)
      · exact absurd hrs (not_le.mpr hlt)
    rw [hsort]
    exact hv

/-! ### Parents in the order of their ids -/

/-- `a` comes before `b` in `v`. -/
def Precedes (v : Favorites) (a b : FavoriteLineData) : Prop :=
  ∃ i j : ℕ, v[i]? = some a ∧ v[j]? = some b ∧ i < j

/-- The order in which a stable sort by `nPid` lists the records of `v`. -/
def Ahead (v : Favorites) (a b : FavoriteLineData) : Prop :=
  a.nPid < b.nPid ∨ a.nPid = b.nPid ∧ Precedes v a b

/-- Of two records the one with the smaller parent id has no parent in the vector, or both have one
    and its parent is listed first. -/
def ParentsInOrder (v : Favorites) : Prop := ∀ r ∈ v, ∀ s ∈ v, r.nPid < s.nPid →
  ∀ a ∈ v, a.nId = r.nPid → ∃ b ∈ v, b.nId = s.nPid ∧ Ahead v a b

/-- No two records have the same parent id, and at most one has no parent in the vector. -/
def NoSiblings (v : Favorites) : Prop := v.Pairwise fun r s => r.nPid ≠ s.nPid ∧
  ((∃ a ∈ v, a.nId = r.nPid) ∨ ∃ b ∈ v, b.nId = s.nPid)

theorem pairwise_precedes (v : Favorites) : v.Pairwise (Precedes v) := by
  rw [List.pairwise_iff_getElem]
  intro i j hi hj hij
  exact ⟨i, j, List.getElem?_eq_getElem hi, List.getElem?_eq_getElem hj, hij⟩

theorem Precedes.asymm {v : Favorites} (hnd : (v.map (·.nId)).Nodup) {a b : FavoriteLineData}
    (hab : Precedes v a b) : ¬ Precedes v b a := by
  rintro ⟨j', i', hj', hi', hlt'⟩
  obtain ⟨i, j, hi, hj, hlt⟩ := hab
  have hv := hnd.of_map
  have hii : i = i' := (List.getElem?_inj (List.getElem?_eq_some_iff.mp hi).1 hv).mp (by rw [hi, hi'])
  have hjj : j = j' := (List.getElem?_inj (List.getElem?_eq_some_iff.mp hj).1 hv).mp (by rw [hj, hj'])
  omega

theorem Ahead.asymm {v : Favorites} (hnd : (v.map (·.nId)).Nodup) {a b : FavoriteLineData}
    (hab : Ahead v a b) : ¬ Ahead v b a := by
  rintro (hba | ⟨he, hba⟩)
  · rcases hab with hab | ⟨he, _⟩ <;> omega
  · rcases hab with hab | ⟨_, hab⟩
    · omega
    · exact hab.asymm hnd hba

section Sorted
variable {σ : Sorter FavoriteLineData} {v : Favorites}

theorem sort_ahead (hσ : σ.Stable) (v : Favorites) :
    (σ.sort (·.nPid) v).Pairwise (Ahead v) := by
  refine ((σ.sorted (·.nPid) v).and (hσ.ties (pairwise_precedes v))).imp ?_
  rintro a b ⟨hle, htie⟩
  rcases lt_or_eq_of_le hle with hlt | he
  · exact .inl hlt
  · exact .inr ⟨he, htie he⟩

/-- In the sorted vector, positions compare as the records do. -/
theorem sort_position (hσ : σ.Stable) (hnd : (v.map (·.nId)).Nodup) {k l : ℕ}
    {a b : FavoriteLineData} (ha : (σ.sort (·.nPid) v)[k]? = some a)
    (hb : (σ.sort (·.nPid) v)[l]? = some b) (hab : a ≠ b) : k ≤ l ↔ Ahead v a b := by
  have hpos : ∀ {i j : ℕ} {c d : FavoriteLineData}, (σ.sort (·.nPid) v)[i]? = some c →
      (σ.sort (·.nPid) v)[j]? = some d → i < j → Ahead v c d := by
    intro i j c d hc hd hij
    obtain ⟨hi, rfl⟩ := List.getElem?_eq_some_iff.mp hc
    obtain ⟨hj, rfl⟩ := List.getElem?_eq_some_iff.mp hd
    exact List.pairwise_iff_getElem.mp (sort_ahead hσ v) i j hi hj hij
  have hkl : k ≠ l := by
    rintro rfl
    exact hab (Option.some.inj (ha.symm.trans hb))
  refine ⟨fun hle => hpos ha hb (lt_of_le_of_ne hle hkl), fun h => ?_⟩
  by_contra hlt
  exact h.asymm hnd (hpos hb ha (not_le.mp hlt))

/-- The new parent ids are in order when the parents are. -/
theorem newPid_le_iff (hσ : σ.Stable) (hnd : (v.map (·.nId)).Nodup) {x y : ℤ} (hxy : x ≠ y) :
    newPid (σ.sort (·.nPid) v) x ≤ newPid (σ.sort (·.nPid) v) y ↔
      ∀ a ∈ v, a.nId = x → ∃ b ∈ v, b.nId = y ∧ Ahead v a b := by
  have hmem : ∀ {c}, c ∈ σ.sort (·.nPid) v ↔ c ∈ v := (σ.perm _ v).mem_iff
  have huniq : ∀ {c d}, c ∈ v → d ∈ v → c.nId = d.nId → c = d := fun hc hd he =>
    List.inj_on_of_nodup_map hnd hc hd he
  rcases newPid_spec x (σ.sort (·.nPid) v) with ⟨hx, hno⟩ | ⟨k, a, ha, rfl, hx⟩
  · rw [hx]
    refine ⟨fun _ a ha he => absurd he (hno a (hmem.mpr ha)), fun _ => ?_⟩
    rcases newPid_spec y (σ.sort (·.nPid) v) with ⟨hy, _⟩ | ⟨l, b, _, _, hy⟩
    · exact hy.ge
    · rw [hy]
      omega
  · have hav := hmem.mp (List.mem_of_getElem? ha)
    rcases newPid_spec y (σ.sort (·.nPid) v) with ⟨hy, hno⟩ | ⟨l, b, hb, rfl, hy⟩
    · rw [hx, hy]
      refine ⟨fun h => by omega, fun h => ?_⟩
      obtain ⟨b, hb, he, _⟩ := h a hav rfl
      exact absurd he (hno b (hmem.mpr hb))
    · have hbv := hmem.mp (List.mem_of_getElem? hb)
      have hab : a ≠ b := fun he => hxy (by rw [he])
      have hpos := sort_position hσ hnd ha hb hab
      rw [hx, hy]
      constructor
      · intro h a' ha' he
        rw [huniq ha' hav he]
        exact ⟨b, hbv, rfl, hpos.mp (by omega)⟩
      · intro h
        obtain ⟨b', hb', he, hahead⟩ := h a hav rfl
        rw [huniq hb' hbv he] at hahead
        have := hpos.mpr hahead
        omega

theorem pairwise_newPid_iff (hσ : σ.Stable) (hnd : (v.map (·.nId)).Nodup) :
    (σ.sort (·.nPid) v).Pairwise (fun r s => newPid (σ.sort (·.nPid) v) r.nPid ≤
      newPid (σ.sort (·.nPid) v) s.nPid) ↔ ParentsInOrder v := by
  have hmem : ∀ {c}, c ∈ σ.sort (·.nPid) v ↔ c ∈ v := (σ.perm _ v).mem_iff
  constructor
  · intro h r hr s hs hlt
    refine (newPid_le_iff hσ hnd hlt.ne).mp ?_
    have hne : r ≠ s := by rintro rfl; exact lt_irrefl _ hlt
    rcases pairwise_either (h.and (σ.sorted _ v)) (hmem.mpr hr) (hmem.mpr hs) hne with h | h
    · exact h.1
    · exact absurd h.2 (not_le.mpr hlt)
  · intro h
    refine (σ.sorted (·.nPid) v).imp_of_mem fun {r s} hr hs hle => ?_
    rcases lt_or_eq_of_le hle with hlt | he
    · exact (newPid_le_iff hσ hnd hlt.ne).mpr (h r (hmem.mp hr) s (hmem.mp hs) hlt)
    · rw [he]

end Sorted

/-! ### The end of an export -/

theorem reArrange_pairwise {v w : Favorites} (h : reArrange v = some w) (R : ℤ → ℤ → Prop) :
    (w.Pairwise fun r s => R r.nPid s.nPid) ↔
      v.Pairwise fun r s => R (newPid v r.nPid) (newPid v s.nPid) := by
  have hmap : w.map (·.nPid) = v.map fun r => newPid v r.nPid := by
    refine List.ext_getElem? fun k => ?_
    rw [List.getElem?_map, List.getElem?_map, reArrange_getElem? h, Option.map_map]
    rfl
  rw [← List.pairwise_map (f := fun r : FavoriteLineData => r.nPid), hmap, List.pairwise_map]

theorem exportTail_some {v : Favorites} (hne : v ≠ []) (σ₁ : Sorter FavoriteLineData) :
    ∃ w, reArrange (σ₁.sort (·.nPid) v) = some w ∧
      ∀ σ₂, exportTail σ₁ σ₂ v = some (σ₂.sort (·.nPid) w) := by
  have hne' : σ₁.sort (·.nPid) v ≠ [] := fun h => hne (by
    have := σ₁.perm (·.nPid) v
    rw [h] at this
    exact this.nil_eq.symm)
  refine ⟨_, by rw [reArrange, if_neg hne'], fun σ₂ => ?_⟩
  rw [exportTail, if_neg hne, reArrange, if_neg hne', Option.map_some]

/-- For records with distinct parents any sort gives the same list. -/
theorem NoSiblings.sort_eq {v : Favorites} (h : NoSiblings v) (σ σ' : Sorter FavoriteLineData) :
    σ.sort (·.nPid) v = σ'.sort (·.nPid) v := by
  refine ((σ.perm _ v).trans (σ'.perm _ v).symm).eq_of_pairwise (fun r s hr hs hrs hsr => ?_)
    (σ.sorted _ v) (σ'.sorted _ v)
  by_contra hne
  have hr := (σ.perm _ v).mem_iff.mp hr
  have hs := (σ'.perm _ v).mem_iff.mp hs
  rcases pairwise_either h hr hs hne with h | h
  · exact h.1 (le_antisymm hrs hsr)
  · exact h.1 (le_antisymm hsr hrs)

/-- Siblings are the records that get the same parent id. -/
theorem newPid_ne_iff {v w : Favorites} (hp : w.Perm v) {x y : ℤ} :
    newPid w x ≠ newPid w y ↔
      x ≠ y ∧ ((∃ a ∈ v, a.nId = x) ∨ ∃ b ∈ v, b.nId = y) := by
  rcases eq_or_ne x y with rfl | hxy
  · simp
  · simp only [ne_eq, hxy, not_false_eq_true, true_and]
    rcases newPid_spec x w with ⟨hx, hnox⟩ | ⟨k, a, ha, rfl, hx⟩
    · rcases newPid_spec y w with ⟨hy, hnoy⟩ | ⟨l, b, hb, rfl, hy⟩
      · rw [hx, hy]
        refine ⟨fun h => absurd rfl h, ?_⟩
        rintro (⟨a, ha, he⟩ | ⟨b, hb, he⟩)
        · exact absurd he (hnox a (hp.mem_iff.mpr ha))
        · exact absurd he (hnoy b (hp.mem_iff.mpr hb))
      · rw [hx, hy]
        exact ⟨fun _ => .inr ⟨b, hp.mem_iff.mp (List.mem_of_getElem? hb), rfl⟩, fun _ => by omega⟩
    · refine ⟨fun _ => .inl ⟨a, hp.mem_iff.mp (List.mem_of_getElem? ha), rfl⟩, fun _ he => ?_⟩
      rcases newPid_spec y w with ⟨hy, _⟩ | ⟨l, b, hb, rfl, hy⟩
      · omega
      · have hkl : k = l := by omega
        rw [hkl, hb] at ha
        exact hxy (by rw [Option.some.inj ha])

theorem pairwise_newPid_ne_iff {v w : Favorites} (hp : w.Perm v) :
    (w.Pairwise fun r s => newPid w r.nPid ≠ newPid w s.nPid) ↔ NoSiblings v := by
  rw [hp.pairwise_iff fun h => h.symm]
  exact List.Pairwise.iff fun _ _ => newPid_ne_iff hp

/-- INDEX IS ID: after sort, `ReArrange`, sort, the record at position k has the id k + 1 exactly
    when parents come in the order of their ids; if ties may come in any order, exactly when in
    addition no two records are siblings. -/
theorem exportTail_indexed_iff (v : Favorites) (hnd : (v.map (·.nId)).Nodup) :
    (∀ σ₁ σ₂ : Sorter FavoriteLineData, σ₁.Stable → σ₂.Stable →
      ((∃ w, exportTail σ₁ σ₂ v = some w ∧ Indexed w) ↔ ParentsInOrder v)) ∧
    ((∀ σ₁ σ₂ : Sorter FavoriteLineData, ∃ w, exportTail σ₁ σ₂ v = some w ∧ Indexed w) ↔
      ParentsInOrder v ∧ NoSiblings v) := by
  rcases eq_or_ne v [] with rfl | hne
  · have hnil : ∀ σ₁ σ₂, ∃ w, exportTail σ₁ σ₂ [] = some w ∧ Indexed w := fun σ₁ σ₂ =>
      ⟨[], rfl, by intro k r h; simp at h⟩
    have hpar : ParentsInOrder [] := by intro r hr; simp at hr
    exact ⟨fun σ₁ σ₂ _ _ => iff_of_true (hnil σ₁ σ₂) hpar,
      iff_of_true hnil ⟨hpar, List.Pairwise.nil⟩⟩
  have hstable : ∀ σ₁ σ₂ : Sorter FavoriteLineData, σ₁.Stable → σ₂.Stable →
      ((∃ w, exportTail σ₁ σ₂ v = some w ∧ Indexed w) ↔ ParentsInOrder v) := by
    intro σ₁ σ₂ h₁ h₂
    obtain ⟨w, hw, htail⟩ := exportTail_some hne σ₁
    rw [← pairwise_newPid_iff h₁ hnd, ← reArrange_pairwise hw, ← sort_indexed_iff h₂
      (reArrange_indexed hw), htail σ₂]
    simp
  refine ⟨hstable, fun h => ⟨?_, ?_⟩, fun ⟨hpar, hsib⟩ σ₁ σ₂ => ?_⟩
  · exact (hstable insertion insertion insertion_stable insertion_stable).mp (h _ _)
  · obtain ⟨w, hw, htail⟩ := exportTail_some hne insertion
    have hall : ∀ σ : Sorter FavoriteLineData, Indexed (σ.sort (·.nPid) w) := by
      intro σ
      obtain ⟨w', hw', hidx⟩ := h insertion σ
      rw [htail σ, Option.some.injEq] at hw'
      rw [hw']
      exact hidx
    have hlt := (sort_indexed_all_iff (reArrange_indexed hw)).mp hall
    rw [reArrange_pairwise hw (· < ·)] at hlt
    exact (pairwise_newPid_ne_iff (insertion.perm _ v)).mp (hlt.imp ne_of_lt)
  · rw [exportTail, if_neg hne, hsib.sort_eq σ₁ insertion]
    obtain ⟨w, hw, _⟩ := exportTail_some hne insertion
    refine ⟨_, by rw [hw, Option.map_some], (sort_indexed_all_iff (reArrange_indexed hw)).mpr ?_ σ₂⟩
    rw [reArrange_pairwise hw (· < ·)]
    refine (((pairwise_newPid_iff insertion_stable hnd).mpr hpar).and
      ((pairwise_newPid_ne_iff (insertion.perm _ v)).mpr hsib)).imp ?_
    rintro r s ⟨hle, hne⟩
    exact lt_of_le_of_ne hle hne

/-- A folder and a bookmark in it stay where they are, whatever the sort does. -/
def folderAndBookmark : Favorites :=
  [{ nId := 5, szTitle := ['f'], bFolder := true }, { nId := 9, nPid := 5, szTitle := ['u'] }]

theorem exportTail_indexed_folderAndBookmark : (folderAndBookmark.map (·.nId)).Nodup ∧
    ∀ σ₁ σ₂, ∃ w, exportTail σ₁ σ₂ folderAndBookmark = some w ∧ Indexed w := by
  have hnd : (folderAndBookmark.map (·.nId)).Nodup := by decide
  refine ⟨hnd, (exportTail_indexed_iff folderAndBookmark hnd).2.mpr ⟨?_, ?_⟩⟩
  · have hno : ∀ r ∈ folderAndBookmark, ∀ s ∈ folderAndBookmark, r.nPid < s.nPid →
        ∀ a ∈ folderAndBookmark, a.nId ≠ r.nPid := by decide
    exact fun r hr s hs hlt a ha he => absurd he (hno r hr s hs hlt a ha)
  · rw [NoSiblings]
    decide

/-- Two folders of which the second has the smaller id, with a bookmark each. -/
def crossed : Favorites :=
  [{ nId := 10, szTitle := ['A'], bFolder := true },
   { nId := 5, szTitle := ['B'], bFolder := true },
   { nId := 1, nPid := 10, szTitle := ['c'] },
   { nId := 2, nPid := 5, szTitle := ['d'] }]

/-- The last sort swaps the two bookmarks after they were numbered. -/
theorem exportTail_not_indexed : (crossed.map (·.nId)).Nodup ∧ (∀ r ∈ crossed, r.nId ≠ 0) ∧
    ∃ w, exportTail insertion insertion crossed = some w ∧ w.map (·.nId) = [1, 2, 4, 3] ∧
      ¬ Indexed w := by
  have hrun : (exportTail insertion insertion crossed).map (·.map (·.nId)) =
      some [1, 2, 4, 3] := by decide
  obtain ⟨w, hw, hids⟩ := Option.map_eq_some_iff.mp hrun
  refine ⟨by decide, by decide, w, hw, hids, fun h => ?_⟩
  have h2 : (w.map (·.nId))[2]? = some 4 := by rw [hids]; rfl
  rw [List.getElem?_map, Option.map_eq_some_iff] at h2
  obtain ⟨r, hr, hid⟩ := h2
  have := h 2 r hr
  omega

end UrlTraveler.DataCenter
