import UrlTraveler.DataCenter.Delete

/-! `OnEvent_DeleteFavoriteFolder`: where the view is sent after a folder was deleted.

    One loop runs back from the deleted folder. It stops at the nearest sibling folder, and on its
    way it notes the parent:

        sibling found                 select the sibling
        none, parent met              select the parent
        none, parent not met          select the root, and then the record at index 0

    In the last case the index still has its initial value when the second event is pushed, so the
    event for the root is followed by one for whatever record comes first: a bookmark, another
    folder, or the deleted folder itself. A parent that is deleted or is no folder is selected too. -/

namespace UrlTraveler.DataCenter
open Relation Cycles

/-- Record `i` is a folder in `p` that is not deleted. -/
def Sibling (v : Favorites) (p : ℤ) (i : ℕ) : Prop :=
  ∃ r, v[i]? = some r ∧ r.nPid = p ∧ r.bFolder = true ∧ r.bDelete = false

/-- Record `i` is the last folder in `p` before index `k`. -/
structure Nearest (v : Favorites) (p : ℤ) (k i : ℕ) : Prop where
  lt : i < k
  sibling : Sibling v p i
  last : ∀ j, i < j → j < k → ¬ Sibling v p j

/-- The parent stands before index `k`. -/
def ParentBefore (v : Favorites) (p : ℤ) (k : ℕ) : Prop := ∃ i < k, ∃ s, v[i]? = some s ∧ s.nId = p

/-- Past a record that is no sibling the loop goes on, with the parent noted if this record is it. -/
theorem findSibling_succ {v : Favorites} {p : ℤ} {k : ℕ} (hsib : ¬ Sibling v p k) (nPid : ℤ) :
    ∃ nPid', findSibling v p (k + 1) nPid = findSibling v p k nPid' ∧
      ((∃ s, v[k]? = some s ∧ s.nId = p) ∧ nPid' = p ∨
        (¬ ∃ s, v[k]? = some s ∧ s.nId = p) ∧ nPid' = nPid) := by
  cases hr : v[k]? with
  | none => exact ⟨nPid, by simp [findSibling, hr], .inr ⟨by simp, rfl⟩⟩
  | some r =>
    have hno : ¬ (r.nPid = p ∧ r.bFolder = true ∧ r.bDelete = false) := fun h => hsib ⟨r, hr, h⟩
    by_cases hid : r.nId = p
    · exact ⟨p, by simp only [findSibling, hr, if_neg hno, hid, if_true], .inl ⟨⟨r, rfl, hid⟩, rfl⟩⟩
    · exact ⟨nPid, by simp only [findSibling, hr, if_neg hno, if_neg hid],
        .inr ⟨by simpa using hid, rfl⟩⟩

/-- What the backward loop returns. -/
theorem findSibling_spec (v : Favorites) (p : ℤ) : ∀ (k : ℕ) (nPid : ℤ),
    (∃ i q, findSibling v p k nPid = (some i, q) ∧ Nearest v p k i) ∨
    (∃ q, findSibling v p k nPid = (none, q) ∧ (∀ i < k, ¬ Sibling v p i) ∧
      (ParentBefore v p k ∧ q = p ∨ ¬ ParentBefore v p k ∧ q = nPid)) := by
  intro k
  induction k with
  | zero =>
    intro nPid
    refine .inr ⟨nPid, rfl, fun i hi => absurd hi (Nat.not_lt_zero i), .inr ⟨?_, rfl⟩⟩
    rintro ⟨i, hi, _⟩
    exact Nat.not_lt_zero i hi
  | succ k ih =>
    intro nPid
    by_cases hsib : Sibling v p k
    · obtain ⟨r, hr, hp, hf, hd⟩ := hsib
      refine .inl ⟨k, nPid, by simp [findSibling, hr, hp, hf, hd], Nat.lt_succ_self k,
        ⟨r, hr, hp, hf, hd⟩, fun j hj hj' => ?_⟩
      omega
    · obtain ⟨nPid', hgo, hnote⟩ := findSibling_succ hsib nPid
      rw [hgo]
      have hbefore : ParentBefore v p (k + 1) ↔
          ParentBefore v p k ∨ ∃ s, v[k]? = some s ∧ s.nId = p := by
        simp only [ParentBefore, Nat.lt_succ_iff_lt_or_eq, or_and_right, exists_or, exists_eq_left]
      rcases ih nPid' with ⟨i, q, hq, hnear⟩ | ⟨q, hq, hnone, hpar⟩
      · refine .inl ⟨i, q, hq, Nat.lt_succ_of_lt hnear.lt, hnear.sibling, fun j hj hj' => ?_⟩
        rcases Nat.lt_succ_iff_lt_or_eq.mp hj' with hj' | rfl
        · exact hnear.last j hj hj'
        · exact hsib
      · refine .inr ⟨q, hq, fun i hi => ?_, ?_⟩
        · rcases Nat.lt_succ_iff_lt_or_eq.mp hi with hi | rfl
          · exact hnone i hi
          · exact hsib
        · rw [hbefore]
          rcases hpar with ⟨hb, rfl⟩ | ⟨hb, rfl⟩
          · exact .inl ⟨.inl hb, rfl⟩
          · rcases hnote with ⟨hk, rfl⟩ | ⟨hk, rfl⟩
            · exact .inl ⟨.inr hk, rfl⟩
            · exact .inr ⟨not_or.mpr ⟨hb, hk⟩, rfl⟩

/-! ### Who survives -/

section Survive
variable {v w : Favorites} {k i : ℕ} {r s : FavoriteLineData}

theorem Indexed.index (hv : Indexed v) (hr : v[k]? = some r) (hs : v[i]? = some s)
    (h : s.nId = r.nId) : i = k := by
  have hr' := hv k r hr
  have hs' := hv i s hs
  omega

/-- The deletion of a folder does not reach the folder's parent. -/
theorem not_reached_parent (hac : NoCycle (FolderUp v)) (hr : v[k]? = some r)
    (hd : r.bDelete = false) (hf : r.bFolder = true) : ¬ ReflTransGen (Down v) r.nId r.nPid :=
  fun h => down_irrefl hac (.tail' h ⟨r, List.mem_of_getElem? hr, hd, hf, rfl, rfl⟩) rfl

theorem Grows.same_id (h : Grows v w) (hs : v[i]? = some s) :
    ∃ t, w[i]? = some t ∧ t.nId = s.nId := by
  rcases h i with hi | hi
  · exact ⟨s, hi.trans hs, rfl⟩
  · exact ⟨markDeleted s, by rw [hi, hs]; rfl, rfl⟩

theorem Deletes.sibling_kept (h : Deletes v r.nId w) (hv : Indexed v) (hac : NoCycle (FolderUp v))
    (hr : v[k]? = some r) (hd : r.bDelete = false) (hf : r.bFolder = true) (hs : v[i]? = some s)
    (hp : s.nPid = r.nPid) (hne : i ≠ k) : w[i]? = some s := by
  refine h.kept hs fun hit => ?_
  rcases (hit_iff hv.numbered.nodup (List.mem_of_getElem? hs)).mp hit.2 with hid | hb
  · exact hne (hv.index hr hs hid)
  · rw [Below, hp] at hb
    exact not_reached_parent hac hr hd hf hb

theorem Deletes.parent_kept (h : Deletes v r.nId w) (hv : Indexed v) (hac : NoCycle (FolderUp v))
    (hr : v[k]? = some r) (hd : r.bDelete = false) (hf : r.bFolder = true) (hs : v[i]? = some s)
    (hp : s.nId = r.nPid) (hsf : s.bFolder = true) : w[i]? = some s := by
  refine h.kept hs fun hit => ?_
  have hreach : ReflTransGen (Down v) r.nId s.nId := by
    rcases (hit_iff hv.numbered.nodup (List.mem_of_getElem? hs)).mp hit.2 with hid | hb
    · rw [hid]
    · exact hb.tail ⟨s, List.mem_of_getElem? hs, hit.1, hsf, rfl, rfl⟩
  rw [hp] at hreach
  exact not_reached_parent hac hr hd hf hreach

end Survive

/-! ### Where the view goes -/

/-- The id `e` is the root, or a folder of `w` that is not deleted and is the nearest sibling folder
    before index `k` in `v`, or else the parent `p`. -/
def LivePlace (v w : Favorites) (k : ℕ) (p e : ℤ) : Prop :=
  e = 0 ∨ ∃ i s, w[i]? = some s ∧ s.nId = e ∧ s.bFolder = true ∧ s.bDelete = false ∧
    (Nearest v p k i ∨ (∀ j < k, ¬ Sibling v p j) ∧ e = p)

/-- Before index `k` stands a live folder in `p`, or `p` itself as a live folder. -/
def HasPlace (v : Favorites) (k : ℕ) (p : ℤ) : Prop :=
  (∃ i < k, Sibling v p i) ∨
    ∃ i < k, ∃ s, v[i]? = some s ∧ s.nId = p ∧ s.bFolder = true ∧ s.bDelete = false

/-- The deletion, with what the loop over the siblings has found. -/
theorem deleteFavoriteFolder_eq {v w : Favorites} {k : ℕ} {r : FavoriteLineData}
    (hr : v[k]? = some r)
    (hw : deleteFavoriteFold (v.length + 1) v ((k : ℤ) + 1) = some w) :
    deleteFavoriteFolder v ((k : ℤ) + 1) =
      match findSibling v r.nPid k 0 with
      | (some i, _) => (w[i]?).map fun s => (w, [s.nId])
      | (none, nPid) =>
        if nPid = 0 then (w[0]?).map fun s => (w, [0, s.nId])
        else if 1 ≤ nPid then (w[(nPid - 1).toNat]?).map fun s => (w, [s.nId])
        else none := by
  have hguard : (1 : ℤ) ≤ (k : ℤ) + 1 := by omega
  have hk : ((k : ℤ) + 1 - 1).toNat = k := by omega
  rw [deleteFavoriteFolder, hk, hr, hw]
  simp only [guard, if_pos hguard]
  rfl

/-- While ids name places, every index the handler uses lies in the vector. -/
theorem deleteFavoriteFolder_returns {v : Favorites} {nDeleteId : ℤ}
    (hn : 1 ≤ nDeleteId ∧ nDeleteId ≤ v.length) (hids : ∀ r ∈ v, 1 ≤ r.nId ∧ r.nId ≤ v.length) :
    ∃ result, deleteFavoriteFolder v nDeleteId = some result := by
  obtain ⟨k, rfl⟩ : ∃ k : ℕ, nDeleteId = (k : ℤ) + 1 := ⟨(nDeleteId - 1).toNat, by omega⟩
  have hk : k < v.length := by omega
  obtain ⟨w, hw, hmarks⟩ := deleteFavoriteFold_marks (v.length + 1) v ((k : ℤ) + 1)
    (Nat.lt_succ_of_le List.countP_le_length)
  have hlen : w.length = v.length := by simpa using congrArg List.length hmarks.link
  have hget : ∀ i < v.length, ∃ s, w[i]? = some s := fun i hi =>
    ⟨w[i], List.getElem?_eq_getElem (hlen ▸ hi)⟩
  rw [deleteFavoriteFolder_eq (List.getElem?_eq_getElem hk) hw]
  rcases findSibling_spec v v[k].nPid k 0 with ⟨i, q, hf, hnear⟩ | ⟨q, hf, _, hq⟩
  · obtain ⟨s, hs⟩ := hget i (hnear.lt.trans hk)
    simp only [hf, hs, Option.map_some]
    exact ⟨_, rfl⟩
  · rw [hf]
    by_cases h0 : q = 0
    · obtain ⟨s, hs⟩ := hget 0 (Nat.zero_lt_of_lt hk)
      simp only [h0, if_true, hs, Option.map_some]
      exact ⟨_, rfl⟩
    · rcases hq with ⟨⟨i, _, s, hs, hid⟩, rfl⟩ | ⟨_, h⟩
      · -- the parent was met, so its id names a place
        have hplace := hids s (List.mem_of_getElem? hs)
        rw [hid] at hplace
        obtain ⟨t, ht⟩ := hget (v[k].nPid - 1).toNat (by omega)
        simp only [h0, if_false, hplace.1, if_true, ht, Option.map_some]
        exact ⟨_, rfl⟩
      · exact absurd h h0

/-- SELECTION: when a live folder is deleted from an indexed vector without cycles, the last select
    event leads to a live place exactly when a live sibling folder or the live parent folder stands
    before the deleted folder. -/
theorem deleteFavoriteFolder_selects (v : Favorites) (hv : Indexed v) (hac : NoCycle (FolderUp v))
    (k : ℕ) (r : FavoriteLineData) (hr : v[k]? = some r) (hf : r.bFolder = true)
    (hd : r.bDelete = false) :
    ∃ w events e, deleteFavoriteFolder v ((k : ℤ) + 1) = some (w, events) ∧
      events.getLast? = some e ∧ (LivePlace v w k r.nPid e ↔ HasPlace v k r.nPid) := by
  have hid := hv k r hr
  obtain ⟨w, hdel, _, hret⟩ := deleteFavoriteFold_returns v r.nId
  have hw := hret (v.length + 1) (Nat.lt_succ_self _)
  rw [hid] at hw
  rw [deleteFavoriteFolder_eq hr hw]
  rcases findSibling_spec v r.nPid k 0 with ⟨i, q, hfind, hnear⟩ | ⟨q, hfind, hnone, hpar⟩
  · -- the sibling is not in the deleted subtree
    obtain ⟨s, hs, hp, hsf, hsd⟩ := hnear.sibling
    have hws := hdel.sibling_kept hv hac hr hd hf hs hp hnear.lt.ne
    refine ⟨w, [s.nId], s.nId, ?_, rfl, fun _ => .inl ⟨i, hnear.lt, hnear.sibling⟩, fun _ =>
      .inr ⟨i, s, hws, rfl, hsf, hsd, .inl hnear⟩⟩
    simp only [hfind, hws, Option.map_some]
  · rcases hpar with ⟨⟨i, hi, s, hs, hsid⟩, rfl⟩ | ⟨hb, rfl⟩
    · have hpos := hv i s hs
      have hidx : (r.nPid - 1).toNat = i := by omega
      have hge : 1 ≤ r.nPid := by omega
      have hne : r.nPid ≠ 0 := by omega
      obtain ⟨t, ht, htid⟩ := hdel.grows.same_id hs
      refine ⟨w, [t.nId], t.nId, ?_, rfl, ?_, ?_⟩
      · simp only [hfind, if_neg hne, if_pos hge, hidx, ht, Option.map_some]
      · rintro (h0 | ⟨j, s', hws, hs'id, hsf, hsd, _⟩)
        · omega
        · have hs' := hdel.grows.back_live hws hsd
          have hji := hv.index hs hs' (hs'id.trans htid)
          exact .inr ⟨j, hji ▸ hi, s', hs', hs'id.trans (htid.trans hsid), hsf, hsd⟩
      · rintro (⟨j, hj, hsib⟩ | ⟨j, hj, s', hs', hs'id, hsf, hsd⟩)
        · exact absurd hsib (hnone j hj)
        · have hws := hdel.parent_kept hv hac hr hd hf hs' hs'id hsf
          have he : t.nId = r.nPid := htid.trans hsid
          exact .inr ⟨j, s', hws, hs'id.trans he.symm, hsf, hsd, .inr ⟨hnone, he⟩⟩
    · -- the second event names the first record, which is neither a sibling nor the parent
      obtain ⟨s, hs⟩ : ∃ s, v[0]? = some s := by
        have hlt := (List.getElem?_eq_some_iff.mp hr).1
        exact ⟨v[0], List.getElem?_eq_getElem (by omega)⟩
      have hpos := hv 0 s hs
      obtain ⟨t, ht, htid⟩ := hdel.grows.same_id hs
      refine ⟨w, [0, t.nId], t.nId, ?_, rfl, ?_, ?_⟩
      · simp only [hfind, if_true, ht, Option.map_some]
      · rintro (h0 | ⟨j, s', hws, hs'id, hsf, hsd, hnear | ⟨_, he⟩⟩)
        · omega
        · exact absurd hnear.sibling (hnone j hnear.lt)
        · have hself : r.nPid = s.nId := he.symm.trans htid
          rcases Nat.eq_zero_or_pos k with rfl | hk
          · obtain rfl := Option.some.inj (hr.symm.trans hs)
            exact absurd (.single ⟨r, List.mem_of_getElem? hr, hf, rfl, hself⟩) (hac r.nId)
          · exact absurd ⟨0, hk, s, hs, hself.symm⟩ hb
      · rintro (⟨j, hj, hsib⟩ | ⟨j, hj, s', hs', hs'id, _⟩)
        · exact absurd hsib (hnone j hj)
        · exact absurd ⟨j, hj, s', hs', hs'id⟩ hb

/-- The inner folder of `nested` is deleted, the outer one is selected. -/
theorem deleteFavoriteFolder_selects_parent : HasPlace nested 1 1 ∧ ∃ w events e,
    deleteFavoriteFolder nested 2 = some (w, events) ∧ events.getLast? = some e ∧
      LivePlace nested w 1 1 e := by
  have hidx : Indexed nested := by
    intro k r h
    match k with
    | 0 => cases h; rfl
    | 1 => cases h; rfl
    | k + 2 => cases h
  have hplace : HasPlace nested 1 1 := .inr ⟨0, by decide, _, rfl, by decide⟩
  obtain ⟨w, events, e, hrun, hlast, hiff⟩ :=
    deleteFavoriteFolder_selects nested hidx nested_noCycle 1 _ rfl (by decide) (by decide)
  exact ⟨hplace, w, events, e, hrun, hlast, hiff.mpr hplace⟩

/-- The only top-level folder is deleted: the root is selected, and then the deleted folder. -/
theorem deleteFavoriteFolder_selects_deleted : oneFolder ≠ [] ∧ Indexed oneFolder ∧
    NoCycle (FolderUp oneFolder) ∧
    (∃ r, oneFolder[0]? = some r ∧ r.nId = 1 ∧ r.bFolder = true ∧ r.bDelete = false) ∧
    ∃ w, deleteFavoriteFolder oneFolder 1 = some (w, [0, 1]) ∧ ¬ LivePlace oneFolder w 0 0 1 := by
  have hac : NoCycle (FolderUp oneFolder) := by
    refine noCycle_of_lt ?_
    have hall : ∀ r ∈ oneFolder, r.nPid < r.nId := by decide
    rintro _ _ ⟨r, hr, _, rfl, rfl⟩
    exact hall r hr
  refine ⟨by decide, oneFolder_indexed, hac, ⟨_, rfl, by decide⟩, _, rfl, ?_⟩
  rintro (h | ⟨i, s, hs, hid, _, hd, _⟩)
  · exact absurd h (by decide)
  · -- both records are marked
    have hall : ∀ s ∈ oneFolder.map markDeleted, s.bDelete = true := by decide
    rw [hall s (List.mem_of_getElem? hs)] at hd
    cases hd

end UrlTraveler.DataCenter
