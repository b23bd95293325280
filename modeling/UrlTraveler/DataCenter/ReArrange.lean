import UrlTraveler.DataCenter.Renumber

/-! The loops of `OnService_ReArrangeFavorite`.

    New ids are collected in an array of their own while the records keep the old ones:

        for i:  for j:  if v[j].nPid = v[i].nId then pId[j].nPid := i + 1
        for i:  v[i].nId := i + 1,  v[i].nPid := pId[i].nPid

    After the outer loop has seen the first i records, the array has for every record the new parent
    id among those (`newPid`). So the loops compute `reArrange`, whatever the old ids are; with
    distinct ids they keep the forest, and done again they change nothing. -/

namespace UrlTraveler.DataCenter

/-- An entry of the array `pId`. -/
structure StId where
  nId : ℤ := 0
  nPid : ℤ := 0

/-- The inner loop: the children of the record at position `i`, which has the id `x`. -/
def fixChildren (v : Favorites) (i : ℕ) (x : ℤ) (pId : List StId) : List StId :=
  (List.range v.length).foldl (fun pId j =>
    if (v[j]?).any (·.nPid = x) then pId.modify j fun e => { e with nPid := (i : ℤ) + 1 }
    else pId) pId

/-- The outer loop, over records and their positions. -/
def fillIds (v : Favorites) (records : List (FavoriteLineData × ℕ)) (pId : List StId) : List StId :=
  records.foldl (fun pId ri =>
    (fixChildren v ri.2 ri.1.nId pId).modify ri.2 fun e => { e with nId := (ri.2 : ℤ) + 1 }) pId

/-- `OnService_ReArrangeFavorite`, as the loops run. -/
def reArrangeFavorite (v : Favorites) : Option Favorites :=
  if v = [] then none
  else
    let pId := fillIds v v.zipIdx (List.replicate v.length {})
    some (v.mapIdx fun i r => { r with nId := (i : ℤ) + 1, nPid := ((pId[i]?).getD {}).nPid })

/-! ### What the loops collect -/

/-- A loop that may change the entry at each position changes every entry by itself. -/
theorem foldl_range_modify {α : Type} (p : ℕ → Bool) (f : α → α) (l : List α) (k : ℕ) : ∀ n : ℕ,
    ((List.range n).foldl (fun l j => if p j then l.modify j f else l) l)[k]? =
      if k < n ∧ p k then (l[k]?).map f else l[k]?
  | 0 => by simp
  | n + 1 => by
    have ih := foldl_range_modify p f l k n
    rw [List.range_succ, List.foldl_append, List.foldl_cons, List.foldl_nil]
    by_cases hk : k = n
    · subst hk
      rw [if_neg (by simp)] at ih
      by_cases hp : p k <;> simp [hp, ih]
    · have hlt : k < n + 1 ↔ k < n := by omega
      simp only [hlt]
      rw [← ih]
      split
      · exact List.getElem?_modify_ne _ _ (Ne.symm hk)
      · rfl

theorem fixChildren_nPid {v : Favorites} {k : ℕ} {r : FavoriteLineData} (hr : v[k]? = some r)
    (i : ℕ) (x : ℤ) (pId : List StId) : ((fixChildren v i x pId)[k]?).map (·.nPid) =
      (pId[k]?).map fun e => if x = r.nPid then (i : ℤ) + 1 else e.nPid := by
  have hlt : k < v.length := (List.getElem?_eq_some_iff.mp hr).1
  rw [fixChildren, foldl_range_modify]
  by_cases hx : r.nPid = x
  · rw [if_pos ⟨hlt, by simp [hr, hx]⟩, Option.map_map]
    simp [hx, Function.comp_def]
  · rw [if_neg (by simp [hr, hx])]
    simp [Ne.symm hx]

theorem fillIds_nPid {v : Favorites} {k : ℕ} {r : FavoriteLineData} (hr : v[k]? = some r)
    (pId : List StId) (hpid : ∀ e ∈ pId[k]?, e.nPid = 0) : ∀ u : Favorites,
    ((fillIds v u.zipIdx pId)[k]?).map (·.nPid) = (pId[k]?).map fun _ => newPid u r.nPid := by
  intro u
  induction u using List.reverseRecOn with
  | nil => cases hk : pId[k]? <;> simp_all [fillIds, newPid]
  | append_singleton u s ih =>
    rw [fillIds] at ih ⊢
    rw [List.zipIdx_append, List.foldl_append]
    simp only [List.zipIdx_singleton, List.foldl_cons, List.foldl_nil, Nat.zero_add]
    have hmodify : ∀ (l : List StId) (j : ℕ) (a : ℤ),
        ((l.modify j fun e => { e with nId := a })[k]?).map (·.nPid) = (l[k]?).map (·.nPid) := by
      intro l j a
      by_cases hj : j = k
      · subst hj
        simp [Function.comp_def]
      · rw [List.getElem?_modify_ne _ _ hj]
    rw [hmodify, fixChildren_nPid hr, newPid_concat]
    cases hfold : (List.foldl (fun pId (ri : FavoriteLineData × ℕ) =>
        (fixChildren v ri.2 ri.1.nId pId).modify ri.2 fun e => { e with nId := (ri.2 : ℤ) + 1 })
        pId u.zipIdx)[k]? with
    | none =>
      rw [hfold] at ih
      cases hk : pId[k]? with
      | none => rfl
      | some e => simp [hk] at ih
    | some e =>
      rw [hfold] at ih
      cases hk : pId[k]? with
      | none => simp [hk] at ih
      | some e' =>
        have he : e.nPid = newPid u r.nPid := by simpa [hk] using ih
        simp [he, eq_comm]

theorem reArrangeFavorite_eq (v : Favorites) : reArrangeFavorite v = reArrange v := by
  rw [reArrangeFavorite, reArrange]
  split
  · rfl
  · refine congrArg some (List.ext_getElem? fun k => ?_)
    rw [List.getElem?_mapIdx, List.getElem?_mapIdx]
    cases hr : v[k]? with
    | none => rfl
    | some r =>
      have hlt : k < v.length := (List.getElem?_eq_some_iff.mp hr).1
      have hentry : (List.replicate v.length ({} : StId))[k]? = some {} := by simp [hlt]
      have hfill := fillIds_nPid hr (List.replicate v.length {}) (by simp [hentry]) v
      rw [hentry] at hfill
      obtain ⟨e, he, hpid⟩ := Option.map_eq_some_iff.mp hfill
      simp [he, hpid]

/-! ### The forest is kept -/

theorem newPid_of_mem {v : Favorites} (hnd : (v.map (·.nId)).Nodup) {j : ℕ} {q : FavoriteLineData}
    (hq : v[j]? = some q) : newPid v q.nId = (j : ℤ) + 1 := by
  rcases newPid_spec q.nId v with ⟨_, hno⟩ | ⟨i, s, hi, hs, hnew⟩
  · exact absurd rfl (hno q (List.mem_of_getElem? hq))
  · have hij : i = j := by
      have hlt : i < (v.map (·.nId)).length := by
        simpa using (List.getElem?_eq_some_iff.mp hi).1
      refine (List.getElem?_inj hlt hnd).mp ?_
      rw [List.getElem?_map, List.getElem?_map, hi, hq, Option.map_some, Option.map_some, hs]
    rw [hnew, hij]

theorem newPid_of_not_mem {v : Favorites} {x : ℤ} (h : ∀ q ∈ v, q.nId ≠ x) : newPid v x = 0 := by
  rcases newPid_spec x v with ⟨hzero, _⟩ | ⟨i, s, hi, hs, _⟩
  · exact hzero
  · exact absurd hs (h s (List.mem_of_getElem? hi))

/-- Renumbering an indexed vector whose parents are positions or 0 changes nothing. -/
theorem reArrange_again {v w : Favorites} (h : reArrange v = some w) : reArrange w = some w := by
  have hindexed := reArrange_indexed h
  obtain ⟨hne, hw⟩ := reArrange_some h
  have hwne : w ≠ [] := by
    rintro rfl
    exact hne (List.mapIdx_eq_nil_iff.mp hw.symm)
  have hlen : w.length = v.length := by rw [hw, List.length_mapIdx]
  rw [reArrange, if_neg hwne]
  refine congrArg some (List.ext_getElem? fun k => ?_)
  rw [List.getElem?_mapIdx]
  cases hr : w[k]? with
  | none => rfl
  | some r =>
    have hid := hindexed k r hr
    have hpid : newPid w r.nPid = r.nPid := by
      rw [reArrange_getElem? h, Option.map_eq_some_iff] at hr
      obtain ⟨r₀, _, rfl⟩ := hr
      show newPid w (newPid v r₀.nPid) = newPid v r₀.nPid
      rcases newPid_spec r₀.nPid v with ⟨hzero, _⟩ | ⟨j, q, hj, _, hnew⟩
      · rw [hzero]
        refine newPid_of_not_mem fun q hq => ?_
        obtain ⟨i, hi⟩ := List.mem_iff_getElem?.mp hq
        rw [hindexed i q hi]
        omega
      · have hjlt : j < w.length := hlen ▸ (List.getElem?_eq_some_iff.mp hj).1
        have hnodup : (w.map (·.nId)).Nodup := List.pairwise_map.mpr (hindexed.pairwise.imp ne_of_lt)
        have hpos := newPid_of_mem hnodup (List.getElem?_eq_getElem hjlt)
        rw [hindexed j w[j] (List.getElem?_eq_getElem hjlt)] at hpos
        rw [hnew, hpos]
    show some { r with nId := (k : ℤ) + 1, nPid := newPid w r.nPid } = some r
    rw [← hid, hpid]

/-- Renumbering gives every record its position for an id and its parent's position for a parent id,
    and keeps the rest; done again, it changes nothing. -/
theorem reArrangeFavorite_keeps_forest (v : Favorites) (hne : v ≠ [])
    (hnd : (v.map (·.nId)).Nodup) (hzero : ∀ r ∈ v, r.nId ≠ 0) :
    ∃ w, reArrangeFavorite v = some w ∧ w.length = v.length ∧
      (∀ (i : ℕ) r, v[i]? = some r → ∃ nPid : ℤ,
        w[i]? = some { r with nId := (i : ℤ) + 1, nPid := nPid } ∧
        (∀ (j : ℕ) q, v[j]? = some q → r.nPid = q.nId → nPid = (j : ℤ) + 1) ∧
        ((r.nPid = 0 ∨ ∀ q ∈ v, r.nPid ≠ q.nId) → nPid = 0)) ∧
      reArrangeFavorite w = some w := by
  have hrun : reArrange v =
      some (v.mapIdx fun i r => { r with nId := (i : ℤ) + 1, nPid := newPid v r.nPid }) :=
    if_neg hne
  refine ⟨_, (reArrangeFavorite_eq v).trans hrun, List.length_mapIdx, ?_, ?_⟩
  · intro i r hr
    refine ⟨newPid v r.nPid, by rw [List.getElem?_mapIdx, hr]; rfl, ?_, ?_⟩
    · intro j q hq hparent
      rw [hparent]
      exact newPid_of_mem hnd hq
    · rintro (hroot | hdangling)
      · rw [hroot]
        exact newPid_of_not_mem hzero
      · exact newPid_of_not_mem fun q hq => (hdangling q hq).symm
  · rw [reArrangeFavorite_eq]
    exact reArrange_again hrun

/-- The folder comes after its bookmark, and its new id is the old id of the bookmark. -/
def shuffled : Favorites :=
  [{ nId := 2, nPid := 5, szTitle := [], szUrl := ['u'] }, { nId := 5, nPid := 0, bFolder := true }]

theorem reArrangeFavorite_shuffled : shuffled ≠ [] ∧ (shuffled.map (·.nId)).Nodup ∧
    (∀ r ∈ shuffled, r.nId ≠ 0) ∧ ∃ w, reArrangeFavorite shuffled = some w ∧
      w.length = shuffled.length ∧
      (∀ (i : ℕ) r, shuffled[i]? = some r → ∃ nPid : ℤ,
        w[i]? = some { r with nId := (i : ℤ) + 1, nPid := nPid } ∧
        (∀ (j : ℕ) q, shuffled[j]? = some q → r.nPid = q.nId → nPid = (j : ℤ) + 1) ∧
        ((r.nPid = 0 ∨ ∀ q ∈ shuffled, r.nPid ≠ q.nId) → nPid = 0)) ∧
      reArrangeFavorite w = some w :=
  ⟨by decide, by decide, by decide,
    reArrangeFavorite_keeps_forest shuffled (by decide) (by decide) (by decide)⟩

end UrlTraveler.DataCenter
