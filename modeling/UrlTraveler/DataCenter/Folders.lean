import UrlTraveler.DataCenter.Edit
import UrlTraveler.Schemes.Cycles

/-! Editing runs: the tree stays a tree, and `GetSubFolderId` ends.

    `GetSubFolderId` walks down from a folder to its sub-folders without looking where it has been,
    so it ends on every id only while no folder is its own ancestor. The drop handler refuses to
    drop a folder onto itself and nothing else:

        1 ⊃ 2      drop 1 onto 2:      1.nPid = 2, 2.nPid = 1

    A new record gets the id of the last one plus one, which may be in use already, and then every
    record below that id hangs below the new one too:

        3 ⊃ 1, 2 last      add a bookmark to 1:      3.nPid = 1, 1.nPid = 3

    A run is safe when nothing is dropped below itself and no new record gets an id its parent
    already hangs below. Renumbering never makes a cycle: a link between two renumbered records was
    a link before. -/

namespace UrlTraveler.DataCenter
open Sorting Runs Relation Cycles

/-- `GetSubFolderId(pvId, nId)`; `none` is a recursion deeper than the fuel. -/
def getSubFolderId (v : Favorites) : ℕ → List ℤ → ℤ → Option (List ℤ)
  | 0, _, _ => none
  | fuel + 1, pvId, nId => v.foldlM (fun pvId r =>
      if r.bDelete then some pvId
      else if r.nPid = nId ∧ r.bFolder = true then getSubFolderId v fuel (pvId ++ [r.nId]) r.nId
      else some pvId) pvId

/-- `y` is the parent id of a folder with id `x`. -/
def FolderUp (v : Favorites) (x y : ℤ) : Prop :=
  ∃ r ∈ v, r.bFolder = true ∧ r.nId = x ∧ r.nPid = y

/-- `y` is the parent id of a record with id `x`. -/
def Up (v : Favorites) (x y : ℤ) : Prop := ∃ r ∈ v, r.nId = x ∧ r.nPid = y

/-- What is there is not dropped below itself, and the id of a new record is not one its parent has,
    or hangs below. -/
def KeepsTree (v : Favorites) : Env × Op → Prop
  | (_, .addFavorite p _ _) => ∀ last ∈ v.getLast?, ¬ ReflTransGen (Up v) p (last.nId + 1)
  | (_, .addFavoriteFolder p _) => ∀ last ∈ v.getLast?, ¬ ReflTransGen (Up v) p (last.nId + 1)
  | (_, .dragEnd src dst) => (∃ r ∈ v, r.nId = src) → ¬ TransGen (Up v) dst src
  | _ => True

/-! ### The recursion ends -/

/-- With enough fuel, `GetSubFolderId` on `nId` returns. -/
def Ends (v : Favorites) (nId : ℤ) : Prop :=
  ∃ n, ∀ fuel ≥ n, ∀ pvId, ∃ out, getSubFolderId v fuel pvId nId = some out

theorem finite_folders (v : Favorites) : {x | ∃ r ∈ v, r.nId = x}.Finite := by
  refine ((v.map (·.nId)).finite_toSet).subset ?_
  rintro _ ⟨r, hr, rfl⟩
  exact List.mem_map_of_mem hr

theorem getSubFolderId_ends {v : Favorites} (h : NoCycle (FolderUp v)) : ∀ nId, Ends v nId := by
  refine h.descend (finite_folders v) ?_ fun x ih => ?_
  · rintro x y ⟨r, hr, _, rfl, _⟩
    exact ⟨r, hr, rfl⟩
  · -- one bound for all sub-folders of `x`
    have hall : ∃ n, ∀ fuel ≥ n, ∀ r ∈ v, r.nPid = x ∧ r.bFolder = true →
        ∀ pvId, ∃ out, getSubFolderId v fuel pvId r.nId = some out := by
      have hev := (Filter.eventually_all_finite v.finite_toSet (l := Filter.atTop)
        (p := fun r (fuel : ℕ) => r.nPid = x ∧ r.bFolder = true →
          ∀ pvId, ∃ out, getSubFolderId v fuel pvId r.nId = some out)).mpr ?_
      · exact Filter.eventually_atTop.mp hev
      · intro r hr
        by_cases hc : r.nPid = x ∧ r.bFolder = true
        · obtain ⟨n, hn⟩ := ih r.nId ⟨r, hr, hc.2, rfl, hc.1⟩
          exact Filter.eventually_atTop.mpr ⟨n, fun fuel hf _ => hn fuel hf⟩
        · exact Filter.Eventually.of_forall fun _ h => absurd h hc
    obtain ⟨n, hn⟩ := hall
    refine ⟨n + 1, fun fuel hf pvId => ?_⟩
    obtain ⟨m, rfl⟩ : ∃ m, fuel = m + 1 := ⟨fuel - 1, by omega⟩
    have hbody : ∀ pvId, ∀ r ∈ v, True → ∃ out, (if r.bDelete then some pvId
        else if r.nPid = x ∧ r.bFolder = true then getSubFolderId v m (pvId ++ [r.nId]) r.nId
        else some pvId) = some out ∧ True := by
      intro pvId r hr _
      split
      · exact ⟨pvId, rfl, trivial⟩
      · split
        next hc =>
          obtain ⟨out, hout⟩ := hn m (by omega) r hr hc (pvId ++ [r.nId])
          exact ⟨out, hout, trivial⟩
        next => exact ⟨pvId, rfl, trivial⟩
    obtain ⟨out, hout, _⟩ := foldlM_rule v hbody pvId trivial
    exact ⟨out, hout⟩

/-! ### What each operation does to the links -/

theorem folderUp_up {v : Favorites} {x y : ℤ} : FolderUp v x y → Up v x y := by
  rintro ⟨r, hr, -, rfl, rfl⟩
  exact ⟨r, hr, rfl, rfl⟩

theorem up_of_link {v w : Favorites} (h : w.map link = v.map link) {x y : ℤ} (hw : Up w x y) :
    Up v x y := by
  obtain ⟨r, hr, rfl, rfl⟩ := hw
  have hmem : link r ∈ v.map link := h ▸ List.mem_map_of_mem hr
  obtain ⟨s, hs, he⟩ := List.mem_map.mp hmem
  simp only [link, Prod.mk.injEq] at he
  exact ⟨s, hs, he.1, he.2.1⟩

theorem up_sort {σ : Sorter FavoriteLineData} {v : Favorites} {x y : ℤ}
    (h : Up (σ.sort (·.nPid) v) x y) : Up v x y := by
  obtain ⟨r, hr, h⟩ := h
  exact ⟨r, (σ.perm _ v).mem_iff.mp hr, h⟩

theorem up_concat {v : Favorites} {s : FavoriteLineData} {x y : ℤ} (h : Up (v ++ [s]) x y) :
    Up v x y ∨ x = s.nId ∧ y = s.nPid := by
  obtain ⟨r, hr, rfl, rfl⟩ := h
  rcases List.mem_append.mp hr with hr | hr
  · exact .inl ⟨r, hr, rfl, rfl⟩
  · obtain rfl := List.mem_singleton.mp hr
    exact .inr ⟨rfl, rfl⟩

/-- A new record makes a cycle exactly when its parent has its id or hangs below it. -/
theorem added_noCycle_iff {σ : Sorter FavoriteLineData} {v : Favorites} {s : FavoriteLineData}
    (hv : NoCycle (Up v)) :
    NoCycle (Up (σ.sort (·.nPid) (v ++ [s]))) ↔ ¬ ReflTransGen (Up v) s.nPid s.nId := by
  refine ⟨fun h hpath => ?_, hv.insert fun _ _ hxy => up_concat (up_sort hxy)⟩
  have hmem : ∀ r ∈ v ++ [s], r ∈ σ.sort (·.nPid) (v ++ [s]) := fun r hr =>
    (σ.perm _ _).mem_iff.mpr hr
  have hold : ∀ x y, Up v x y → Up (σ.sort (·.nPid) (v ++ [s])) x y := by
    rintro _ _ ⟨r, hr, rfl, rfl⟩
    exact ⟨r, hmem r (List.mem_append_left _ hr), rfl, rfl⟩
  exact h s.nId (.head' ⟨s, hmem s (by simp), rfl, rfl⟩ (ReflTransGen.mono hold _ _ hpath))

/-- Renumbering makes no cycle: continued links are old links, read through the positions. -/
theorem reArrange_noCycle {v w : Favorites} (h : reArrange v = some w)
    (hv : NoCycle (Up v)) : NoCycle (Up w) := by
  have hpos : ∀ {r}, r ∈ w → ∃ (k : ℕ) (s : FavoriteLineData), v[k]? = some s ∧
      r = { s with nId := (k : ℤ) + 1, nPid := newPid v s.nPid } := by
    intro r hr
    obtain ⟨k, hk⟩ := List.mem_iff_getElem?.mp hr
    rw [reArrange_getElem? h, Option.map_eq_some_iff] at hk
    obtain ⟨s, hs, rfl⟩ := hk
    exact ⟨k, s, hs, rfl⟩
  -- the old id of the record at position `x - 1`
  let old : ℤ → ℤ := fun x => ((v[(x - 1).toNat]?).map (·.nId)).getD 0
  have hold : ∀ {k : ℕ} {s : FavoriteLineData}, v[k]? = some s → old ((k : ℤ) + 1) = s.nId := by
    intro k s hs
    simp [old, hs]
  refine hv.lift old ?_
  rintro _ _ _ ⟨r, hr, rfl, rfl⟩ ⟨r', hr', he, _⟩
  obtain ⟨k, s, hs, rfl⟩ := hpos hr
  obtain ⟨l, s', hs', rfl⟩ := hpos hr'
  rcases newPid_spec s.nPid v with ⟨h0, _⟩ | ⟨m, t, ht, hid, hm⟩
  · have : (l : ℤ) + 1 = 0 := he.trans h0
    omega
  · have hlm : (l : ℤ) + 1 = m + 1 := he.trans hm
    rw [hold hs]
    change Up v s.nId (old (newPid v s.nPid))
    rw [hm, hold ht, hid]
    exact ⟨s, List.mem_of_getElem? hs, rfl, rfl⟩

/-- The record a drop leaves behind. -/
def dropped (now dst : ℤ) (r : FavoriteLineData) : FavoriteLineData :=
  { r with nPid := dst, nLastModifyTime := now }

/-- A drop replaces the link of one record. -/
theorem dragEnd_some {now : ℤ} {v : Favorites} {src dst : ℤ} (hne : dst ≠ src) :
    dragEnd now v src dst = v ∨ ∃ (i : ℕ) (r : FavoriteLineData), v[i]? = some r ∧ r.nId = src ∧
      dragEnd now v src dst = v.modify i (dropped now dst) := by
  rw [dragEnd, if_neg hne]
  split
  · exact .inl rfl
  next i hi =>
    obtain ⟨hlt, hid, _⟩ := List.findIdx?_eq_some_iff_getElem.mp hi
    exact .inr ⟨i, v[i], List.getElem?_eq_getElem hlt, by simpa using hid, rfl⟩

section Drag
variable {now : ℤ} {v : Favorites} {src dst : ℤ} {i : ℕ} {r : FavoriteLineData}

theorem up_dragged (hr : v[i]? = some r) (hid : r.nId = src) {x y : ℤ}
    (h : Up (v.modify i (dropped now dst)) x y) :
    Up v x y ∨ x = src ∧ y = dst := by
  obtain ⟨s', hs', rfl, rfl⟩ := h
  obtain ⟨k, hk⟩ := List.mem_iff_getElem?.mp hs'
  rw [List.getElem?_modify, Option.map_eq_map, Option.map_eq_some_iff] at hk
  obtain ⟨s, hs, rfl⟩ := hk
  by_cases hik : i = k
  · subst hik
    obtain rfl : r = s := Option.some.inj (hr.symm.trans hs)
    exact .inr ⟨by simp [dropped, hid], by simp [dropped]⟩
  · simp only [hik, if_false]
    exact .inl ⟨s, List.mem_of_getElem? hs, rfl, rfl⟩

theorem up_kept (hr : v[i]? = some r) (hid : r.nId = src) {x y : ℤ} (h : Up v x y)
    (hne : x ≠ src) : Up (v.modify i (dropped now dst)) x y := by
  obtain ⟨s, hs, rfl, rfl⟩ := h
  obtain ⟨k, hk⟩ := List.mem_iff_getElem?.mp hs
  have hik : i ≠ k := by
    rintro rfl
    exact hne (by rw [← hid, Option.some.inj (hr.symm.trans hk)])
  refine ⟨s, List.mem_of_getElem? (i := k) ?_, rfl, rfl⟩
  rw [List.getElem?_modify, hk]
  simp [hik]

theorem dragged_noCycle (hv : NoCycle (Up v)) (hr : v[i]? = some r) (hid : r.nId = src)
    (hne : dst ≠ src) (h : ¬ TransGen (Up v) dst src) :
    NoCycle (Up (v.modify i (dropped now dst))) := by
  refine hv.insert (fun x y => up_dragged hr hid) fun hpath => ?_
  rcases reflTransGen_iff_eq_or_transGen.mp hpath with he | hpath
  · exact hne he.symm
  · exact h hpath

/-- A drop makes a cycle exactly when the target lies below what is dragged. -/
theorem dragged_noCycle_iff (hv : NoCycle (Up v)) (hr : v[i]? = some r) (hid : r.nId = src)
    (hne : dst ≠ src) :
    NoCycle (Up (v.modify i (dropped now dst))) ↔ ¬ TransGen (Up v) dst src := by
  refine ⟨fun h hpath => ?_, dragged_noCycle hv hr hid hne⟩
  have hnew : Up (v.modify i (dropped now dst)) src dst := by
    refine ⟨dropped now dst r, List.mem_of_getElem? (i := i) ?_, hid, rfl⟩
    rw [List.getElem?_modify, hr]
    simp
  exact h src (.head hnew (transGen_until (fun x y hxy => up_kept hr hid hxy) hpath hne))

end Drag

/-! ### Along a run -/

theorem step_noCycle {v v' : Favorites} {a : Env × Op} (hv : NoCycle (Up v))
    (hok : KeepsTree v a) (h : step v a = some v') : NoCycle (Up v') := by
  obtain ⟨e, op⟩ := a
  rcases step_cases h with ⟨p, t, u, last, rfl, hlast, rfl⟩ | ⟨p, t, last, rfl, hlast, hre⟩ |
    ⟨_, hlink⟩ | ⟨rfl, hre⟩ | ⟨src, dst, rfl, rfl⟩
  · exact (added_noCycle_iff hv).mpr (hok last hlast)
  · exact reArrange_noCycle hre ((added_noCycle_iff hv).mpr (hok last hlast))
  · exact hv.mono fun x y => up_of_link hlink
  · exact reArrange_noCycle hre hv
  · rcases eq_or_ne dst src with rfl | hne
    · rw [dragEnd, if_pos rfl]
      exact hv
    · rcases dragEnd_some hne with he | ⟨i, r, hr, hid, he⟩
      · rw [he]
        exact hv
      · rw [he]
        exact dragged_noCycle hv hr hid hne (hok ⟨r, List.mem_of_getElem? hr, hid⟩)

/-- NO CYCLES: from a vector in which no record is its own ancestor, every run that drops nothing
    below itself and gives no new record an id above its parent keeps it so, and `GetSubFolderId`
    ends on every id in every state. -/
theorem folders_noCycle (v : Favorites) (hv : NoCycle (Up v)) (acts : List (Env × Op))
    (hok : Along step KeepsTree v acts) :
    ∀ w ∈ states step v acts, NoCycle (Up w) ∧ ∀ nId, Ends w nId := by
  intro w hw
  have h := invariant (I := fun v => NoCycle (Up v)) (fun _ _ _ => step_noCycle) acts v hv hok w hw
  exact ⟨h, getSubFolderId_ends (h.mono fun _ _ => folderUp_up)⟩

/-- A folder in a folder. -/
def nested : Favorites :=
  [{ nId := 1, szTitle := ['A'], bFolder := true },
   { nId := 2, nPid := 1, szTitle := ['B'], bFolder := true }]

theorem nested_up : NoCycle (Up nested) := by
  refine noCycle_of_lt ?_
  have hall : ∀ r ∈ nested, r.nPid < r.nId := by decide
  rintro _ _ ⟨r, hr, rfl, rfl⟩
  exact hall r hr

theorem nested_noCycle : NoCycle (FolderUp nested) := nested_up.mono fun _ _ => folderUp_up

theorem folders_noCycle_nested : (nested.map (·.nId)).Nodup ∧ ∀ w ∈ states step nested
    [(anyEnv, .dragEnd 2 0), (anyEnv, .reArrange)], NoCycle (Up w) ∧ ∀ nId, Ends w nId := by
  refine ⟨by decide, folders_noCycle nested nested_up _ fun v _ => ⟨fun _ => ?_, fun w _ =>
    ⟨trivial, trivial⟩⟩⟩
  -- the root has no parent
  have hroot : ∀ r ∈ nested, r.nId ≠ 0 := by decide
  intro hpath
  obtain ⟨_, ⟨r, hr, hid, _⟩, _⟩ := TransGen.head'_iff.mp hpath
  exact hroot r hr hid

/-- The two folders of `nested` after the outer one was dropped onto the inner one. -/
theorem getSubFolderId_never_ends : ∀ (fuel : ℕ) (pvId : List ℤ) (nId : ℤ), nId = 1 ∨ nId = 2 →
    getSubFolderId (dragEnd 0 nested 1 2) fuel pvId nId = none
  | 0, _, _, _ => rfl
  | fuel + 1, pvId, nId, h => by
    have hv : dragEnd 0 nested 1 2 =
        [{ nId := 1, nPid := 2, szTitle := ['A'], bFolder := true },
         { nId := 2, nPid := 1, szTitle := ['B'], bFolder := true }] := by decide
    have ih := getSubFolderId_never_ends fuel
    rw [hv] at ih ⊢
    rcases h with rfl | rfl
    · simp [getSubFolderId, ih]
    · simp [getSubFolderId, ih]

/-- Dropping a folder onto the folder inside it. -/
theorem dragEnd_makes_cycle : (nested.map (·.nId)).Nodup ∧ NoCycle (Up nested) ∧
    ∃ w ∈ states step nested [(anyEnv, .dragEnd 1 2)],
      (∃ r ∈ w, r.bFolder = true ∧ r.bDelete = false ∧ TransGen (Up w) r.nId r.nId) ∧
      ∀ fuel, getSubFolderId w fuel [] 1 = none := by
  refine ⟨by decide, nested_up, dragEnd 0 nested 1 2, by decide, ?_, fun fuel =>
    getSubFolderId_never_ends fuel [] 1 (.inl rfl)⟩
  have h12 : Up (dragEnd 0 nested 1 2) 1 2 := by
    rw [Up]
    decide
  have h21 : Up (dragEnd 0 nested 1 2) 2 1 := by
    rw [Up]
    decide
  have hlive : ∃ r ∈ dragEnd 0 nested 1 2, r.bFolder = true ∧ r.bDelete = false ∧ r.nId = 1 := by
    decide
  obtain ⟨r, hr, hf, hd, hid⟩ := hlive
  refine ⟨r, hr, hf, hd, ?_⟩
  rw [hid]
  exact .head h12 (.single h21)

end UrlTraveler.DataCenter
