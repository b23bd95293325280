import UrlTraveler.PlugIn.Export
import UrlTraveler.DataCenter.ReArrange

/-! The second loop of Maxthon's export: new ids in place.

    Ids and parents are overwritten one record after the other. A parent id that has been replaced
    looks like any other id to the rounds that follow:

        old ids      h   B+1   c        record 2 is in folder 0
        parents      0    0    h
        round 0     B+1  B+1   c        parents  0  0  B+1
        round 1     B+1  B+2   c        parents  0  0  B+2      taken for folder 1

    So the loop renames all ids at once exactly when no record behind a parent has, by chance, the
    new id of that parent for its old one. Maxthon 3 has the same loop. -/

namespace UrlTraveler.Export
open DataCenter

/-- The loop, over the records the first loop has written. -/
def renumberIds (rs : Favorites) : Favorites := (List.range rs.length).foldl renumberStep rs

theorem exportNodes_eq (crc : WStr → ℕ) (idHash : List UInt8 → ℤ) (nodes : List FavNode) :
    exportNodes crc idHash nodes = renumberIds (nodes.map (nodeRecord crc idHash)) := by
  rw [exportNodes, renumberIds, List.length_map]

/-- The id that position `i` gets. -/
def newId (i : ℕ) : ℤ := i + 1 + idValueMaxthon2Begin

/-- A parent id after `k` rounds. -/
def follow (rs : Favorites) (p : ℤ) : ℕ → ℤ
  | 0 => p
  | k + 1 => if (rs[k]?).any (·.nId = follow rs p k) then newId k else follow rs p k

/-! ### Rounds -/

/-- Every record is renumbered by itself. -/
theorem foldl_renumberStep (rs : Favorites) : ∀ k ≤ rs.length, ∀ i : ℕ,
    ((List.range k).foldl renumberStep rs)[i]? = (rs[i]?).map fun r =>
      { r with nId := if i < k then newId i else r.nId, nPid := follow rs r.nPid k } := by
  intro k
  induction k with
  | zero =>
    intro _ i
    simp [follow]
  | succ k ih =>
    intro hk i
    have hlast := List.getElem?_eq_getElem (show k < rs.length by omega)
    -- the record of this round still has its old id
    have hround := ih (by omega) k
    rw [hlast, Option.map_some, if_neg (lt_irrefl k)] at hround
    rw [List.range_succ, List.foldl_append, List.foldl_cons, List.foldl_nil,
      renumberStep_getElem? hround, ih (by omega) i, Option.map_map]
    cases rs[i]? with
    | none => rfl
    | some r =>
      simp only [Option.map_some, Function.comp, Option.some.injEq, follow, hlast, Option.any_some,
        decide_eq_true_eq, newId]
      congr 1
      · by_cases hik : k = i
        · subst hik
          simp
        · rw [if_neg hik]
          congr 1
          simp only [eq_iff_iff]
          omega
      · by_cases hp : follow rs r.nPid k = rs[k].nId
        · rw [if_pos hp, if_pos hp.symm]
        · rw [if_neg hp, if_neg (Ne.symm hp)]

theorem renumberIds_getElem? (rs : Favorites) {i : ℕ} {r : FavoriteLineData}
    (hr : rs[i]? = some r) : (renumberIds rs)[i]? =
      some { r with nId := newId i, nPid := follow rs r.nPid rs.length } := by
  have hi := (List.getElem?_eq_some_iff.mp hr).1
  rw [renumberIds, foldl_renumberStep rs _ le_rfl, hr, Option.map_some, if_pos hi]

/-- An id that no record has is not replaced. -/
theorem follow_of_notMem {rs : Favorites} {p : ℤ} (h : ∀ r ∈ rs, r.nId ≠ p) : ∀ k : ℕ,
    follow rs p k = p
  | 0 => rfl
  | k + 1 => by
    have hne : ¬ (rs[k]?).any (·.nId = p) = true := by
      cases hk : rs[k]? with
      | none => simp
      | some r => simpa using h r (List.mem_of_getElem? hk)
    rw [follow, follow_of_notMem h k, if_neg hne]

section Parents
variable {rs : Favorites} (hnd : (rs.map (·.nId)).Nodup) {j : ℕ} {s : FavoriteLineData}
  (hs : rs[j]? = some s)
include hnd hs

theorem index_of_nId {k : ℕ} {t : FavoriteLineData} (ht : rs[k]? = some t) (h : t.nId = s.nId) :
    k = j := by
  have hk := (List.getElem?_eq_some_iff.mp ht).1
  refine (List.getElem?_inj hk hnd.of_map).mp ?_
  rw [ht, hs, List.inj_on_of_nodup_map hnd (List.mem_of_getElem? ht) (List.mem_of_getElem? hs) h]

theorem follow_before : ∀ k ≤ j, follow rs s.nId k = s.nId
  | 0, _ => rfl
  | k + 1, hk => by
    have hne : ¬ (rs[k]?).any (·.nId = s.nId) = true := by
      cases ht : rs[k]? with
      | none => simp
      | some t =>
        simp only [Option.any_some, decide_eq_true_eq]
        intro he
        have := index_of_nId hnd hs ht he
        omega
    rw [follow, follow_before k (by omega), if_neg hne]

/-- After its own round a parent id is the new id of some record from there on; it is the right one
    as long as no later record has had it for its old id. -/
theorem follow_after : ∀ d : ℕ, ∃ m, j ≤ m ∧ m ≤ j + d ∧ follow rs s.nId (j + 1 + d) = newId m ∧
    (m = j ↔ ∀ (k : ℕ) (t : FavoriteLineData), rs[k]? = some t → j < k → k ≤ j + d →
      t.nId ≠ newId j)
  | 0 => by
    refine ⟨j, le_rfl, le_rfl, ?_, iff_of_true rfl fun k t _ hjk hkj => by omega⟩
    rw [Nat.add_zero, follow, follow_before hnd hs j le_rfl, hs, if_pos (by simp)]
  | d + 1 => by
    obtain ⟨m, hjm, hmd, hm, hiff⟩ := follow_after d
    have hround : j + 1 + (d + 1) = j + 1 + d + 1 := by omega
    rw [hround, follow, hm]
    by_cases hreuse : (rs[j + 1 + d]?).any (·.nId = newId m) = true
    · -- the id is taken for the old id of this record
      rw [if_pos hreuse]
      refine ⟨j + 1 + d, by omega, by omega, rfl, iff_of_false (by omega) fun h => ?_⟩
      obtain ⟨t, ht, hid⟩ := Option.any_eq_true _ _ |>.mp hreuse
      have hmj : m = j := hiff.mpr fun k t hk hjk hkd => h k t hk hjk (by omega)
      exact h _ t ht (by omega) (by omega) (by rw [← hmj]; exact of_decide_eq_true hid)
    · rw [if_neg hreuse]
      refine ⟨m, hjm, by omega, rfl, hiff.trans ⟨fun h k t ht hjk hkd => ?_, fun h k t ht hjk hkd =>
        h k t ht hjk (by omega)⟩⟩
      rcases Nat.lt_or_ge (j + d) k with hlast | hle
      · obtain rfl : k = j + 1 + d := by omega
        have hmj : m = j := hiff.mpr h
        rw [ht, hmj] at hreuse
        simpa using hreuse
      · exact h k t ht hjk hle

theorem follow_eq_iff : follow rs s.nId rs.length = newId j ↔
    ∀ (k : ℕ) (t : FavoriteLineData), rs[k]? = some t → j < k → t.nId ≠ newId j := by
  have hj := (List.getElem?_eq_some_iff.mp hs).1
  obtain ⟨m, _, _, hm, hiff⟩ := follow_after hnd hs (rs.length - (j + 1))
  rw [Nat.add_sub_cancel' (by omega)] at hm
  have hmj : follow rs s.nId rs.length = newId j ↔ m = j := by
    rw [hm, newId, newId]
    omega
  rw [hmj, hiff]
  constructor
  · intro h k t ht hjk
    have hk := (List.getElem?_eq_some_iff.mp ht).1
    exact h k t ht hjk (by omega)
  · exact fun h k t ht hjk _ => h k t ht hjk

end Parents

/-! ### All at once -/

/-- Every record has the id of its position and the new id of its parent; nothing else changed. -/
def Renamed (rs rs' : Favorites) : Prop :=
  ∀ (i : ℕ) (r : FavoriteLineData), rs[i]? = some r → ∃ nPid : ℤ,
    rs'[i]? = some { r with nId := newId i, nPid := nPid } ∧ (r.nPid = 0 → nPid = 0) ∧
    ∀ (j : ℕ) (s : FavoriteLineData), rs[j]? = some s → s.nId = r.nPid → nPid = newId j

/-- No record behind a parent has the new id of that parent for its old one. -/
def NoReuse (rs : Favorites) : Prop :=
  ∀ r ∈ rs, ∀ (j : ℕ) (s : FavoriteLineData), rs[j]? = some s → s.nId = r.nPid →
    ∀ (k : ℕ) (t : FavoriteLineData), rs[k]? = some t → j < k → t.nId ≠ newId j

/-- RENUMBERING: the loop renames all ids at once exactly when no new id of a parent is the old id
    of a record behind it. -/
theorem renumberIds_renamed_iff (rs : Favorites) (hnd : (rs.map (·.nId)).Nodup)
    (h0 : ∀ r ∈ rs, r.nId ≠ 0) : Renamed rs (renumberIds rs) ↔ NoReuse rs := by
  constructor
  · intro h r hr j s hs hid
    obtain ⟨i, hi⟩ := List.mem_iff_getElem?.mp hr
    obtain ⟨nPid, hout, _, hpar⟩ := h i r hi
    rw [renumberIds_getElem? rs hi, Option.some.injEq] at hout
    have hfollow : follow rs r.nPid rs.length = nPid := congrArg FavoriteLineData.nPid hout
    rw [hpar j s hs hid, ← hid] at hfollow
    exact (follow_eq_iff hnd hs).mp hfollow
  · intro h i r hi
    refine ⟨_, renumberIds_getElem? rs hi, fun hroot => ?_, fun j s hs hid => ?_⟩
    · rw [hroot]
      exact follow_of_notMem h0 _
    · rw [← hid]
      exact (follow_eq_iff hnd hs).mpr (h r (List.mem_of_getElem? hi) j s hs hid)

/-- The ids of the data centre, moved to Maxthon's range. -/
def shifted (r : FavoriteLineData) : FavoriteLineData :=
  { r with nId := r.nId + idValueMaxthon2Begin
           nPid := if r.nPid ≠ 0 then r.nPid + idValueMaxthon2Begin else 0 }

/-- Then the loop agrees with `OnService_ReArrangeFavorite`, which collects the new ids in a table of
    its own. -/
theorem renumberIds_reArrange {rs : Favorites} (hne : rs ≠ []) (hnd : (rs.map (·.nId)).Nodup)
    (h0 : ∀ r ∈ rs, r.nId ≠ 0) (hreuse : NoReuse rs)
    (hparent : ∀ r ∈ rs, r.nPid = 0 ∨ ∃ s ∈ rs, s.nId = r.nPid) :
    (reArrangeFavorite rs).map (·.map shifted) = some (renumberIds rs) := by
  have hrun : reArrangeFavorite rs =
      some (rs.mapIdx fun i r => { r with nId := (i : ℤ) + 1, nPid := newPid rs r.nPid }) :=
    (reArrangeFavorite_eq rs).trans (if_neg hne)
  rw [hrun, Option.map_some, Option.some.injEq]
  refine List.ext_getElem? fun i => ?_
  rw [List.getElem?_map, List.getElem?_mapIdx]
  cases hi : rs[i]? with
  | none =>
    have hlen : (renumberIds rs).length = rs.length :=
      List.foldlRecOn (motive := fun l => l.length = rs.length) _ _ rfl
        fun l h i _ => (length_renumberStep l i).trans h
    rw [List.getElem?_eq_none_iff] at hi
    rw [List.getElem?_eq_none (by omega)]
    rfl
  | some r =>
    rw [renumberIds_getElem? rs hi, Option.map_some, Option.map_some, shifted, Option.some.injEq]
    congr 1
    rcases hparent r (List.mem_of_getElem? hi) with hroot | ⟨s, hs, hid⟩
    · rw [hroot, newPid_of_not_mem h0, follow_of_notMem h0]
      rfl
    · obtain ⟨j, hj⟩ := List.mem_iff_getElem?.mp hs
      have hnew := (follow_eq_iff hnd hj).mpr (hreuse r (List.mem_of_getElem? hi) j s hj hid)
      have hpos : ((j : ℤ) + 1) ≠ 0 := by omega
      rw [← hid, newPid_of_mem hnd hj, hnew, if_pos hpos, newId]

/-- Folder, folder, and a bookmark in the first; the second is found under a hash in the range of the
    new ids, and behind the first. -/
def hashClash (nId : ℤ) : Favorites :=
  [{ nId := 100, bFolder := true }, { nId := nId, bFolder := true }, { nId := 5, nPid := 100 }]

theorem renumberIds_renamed_other : Renamed (hashClash 0x4002) (renumberIds (hashClash 0x4002)) := by
  refine (renumberIds_renamed_iff (hashClash 0x4002) (by decide) (by decide)).mpr ?_
  intro r hr j s hs hid k t ht hjk
  have hj := (List.getElem?_eq_some_iff.mp hs).1
  have hk := (List.getElem?_eq_some_iff.mp ht).1
  have hlen : (hashClash 0x4002).length = 3 := rfl
  rw [hlen] at hj hk
  interval_cases j <;> interval_cases k <;> first | omega | (cases ht; decide)

/-- With the hash 0x4001 the bookmark ends up in the second folder. -/
theorem renumberIds_not_renamed : ((hashClash 0x4001).map (·.nId)).Nodup ∧
    (∀ r ∈ hashClash 0x4001, r.nId ≠ 0) ∧
    (renumberIds (hashClash 0x4001)).map (fun r => (r.nId, r.nPid)) =
      [(0x4001, 0), (0x4002, 0), (0x4003, 0x4002)] ∧
    ¬ Renamed (hashClash 0x4001) (renumberIds (hashClash 0x4001)) := by
  refine ⟨by decide, by decide, by decide, fun h => ?_⟩
  obtain ⟨nPid, hout, _, hpar⟩ := h 2 _ rfl
  have hid := hpar 0 _ rfl rfl
  subst hid
  revert hout
  decide

end UrlTraveler.Export
