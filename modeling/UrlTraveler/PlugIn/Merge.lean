import UrlTraveler.Favorite
import UrlTraveler.Schemes.Sorting

/-! `PlugInModule::Merge`: folding together namesakes below one parent.

    The records of all browsers lie in one array. `Merge(P)` collects the children of `P`, sorts
    them by the hash of their titles, and folds each child into its right neighbour when the two
    hashes agree: the left one is marked `bDelete`, its children are hung below the right one, and
    `Merge` is called on the right one, which now has more children.

        vec (sorted):   a    a    a    b    c    c
                        └──▶ └──▶ │         └──▶ │      fold left into right, then Merge(right)

    Records already marked are collected again by later calls. `sort` may order equal hashes as it
    likes, so the tie order is a parameter: a `Sorter` for every state a call can be made in.
    Recursion is bounded by a fuel; `merge_terminates` says that the number of slots is enough. -/

namespace UrlTraveler.Merge
open Sorting

/-- The array, and the parent ids `Merge` was called on so far, newest first. Every call pushes a
    progress message; the list is what tells which records absorbed another one. -/
structure St where
  ppData : PPData
  calls : List ℤ

/-- `compare_hashid` orders slots by this key. -/
def hashAt (d : PPData) (i : ℕ) : ℤ := ((recAt d i).map fun r => (r.nHashId : ℤ)).getD 0

def idAt (d : PPData) (i : ℕ) : ℤ := ((recAt d i).map (·.nId)).getD 0

/-- The slots collected into `vec`. The tests `szTitle == L""` and `szUrl == L""` of the source
    compare addresses and are never true, so only null pointers and id 0 are skipped. -/
def collect (d : PPData) (nParentId : ℤ) : List ℕ :=
  (List.range d.length).filter fun i =>
    (recAt d i).any fun r => r.nId ≠ 0 && r.nPid = nParentId

/-- `vec[i]->bDelete = true`. -/
def mark (d : PPData) (i : ℕ) : PPData :=
  d.modify i (Option.map fun r => { r with bDelete := true })

/-- The loop over `m`: every child of `a` becomes a child of `b`. -/
def reparent (d : PPData) (a b : ℤ) : PPData :=
  d.map (Option.map fun r => if r.nPid = a then { r with nPid := b } else r)

/-- Fold slot `i` into slot `j`. -/
def absorb (d : PPData) (i j : ℕ) : PPData := reparent (mark d i) (idAt d i) (idAt d j)

/-- The loop over the sorted `vec`, with the recursive call as a parameter. -/
def mergeLoop (call : St → ℤ → Option St) : St → List ℕ → Option St
  | s, i :: j :: rest =>
    if hashAt s.ppData i = hashAt s.ppData j then
      (call { s with ppData := absorb s.ppData i j } (idAt s.ppData j)).bind fun s' =>
        mergeLoop call s' (j :: rest)
    else mergeLoop call s (j :: rest)
  | s, _ => some s

/-- `Merge(ppData, nLen, nParentId)`; `none` is a recursion deeper than the fuel. -/
def merge (σ : St → Sorter ℕ) : ℕ → St → ℤ → Option St
  | 0, _, _ => none
  | fuel + 1, s, nParentId =>
    let s : St := { s with calls := nParentId :: s.calls }
    let vec := collect s.ppData nParentId
    if 1 < vec.length then
      mergeLoop (merge σ fuel) s ((σ s).sort (hashAt s.ppData) vec)
    else some s

/-- The call `Merge(&(*pvFavoriteData)[0], m_nSumFavorite, 0)` of `DoExportThread`. -/
def mergeAll (σ : St → Sorter ℕ) (d : PPData) : Option St := merge σ (d.length + 1) ⟨d, []⟩ 0

/-- The erase loop of `DoExportThread`: drops marked records and empty titles. On a null pointer
    it `continue`s without advancing the iterator and never ends. -/
def eraseDeleted : PPData → Option (List FavoriteLineData)
  | [] => some []
  | none :: _ => none
  | some r :: rest =>
    if r.bDelete = true ∨ r.szTitle = [] then eraseDeleted rest
    else (eraseDeleted rest).map (r :: ·)

/-! ### What one fold does to one slot -/

theorem hashAt_eq {d : PPData} {i : ℕ} {r : FavoriteLineData} (h : recAt d i = some r) :
    hashAt d i = r.nHashId := by simp [hashAt, h]

theorem idAt_eq {d : PPData} {i : ℕ} {r : FavoriteLineData} (h : recAt d i = some r) :
    idAt d i = r.nId := by simp [idAt, h]

theorem mem_collect {d : PPData} {p : ℤ} {i : ℕ} :
    i ∈ collect d p ↔ ∃ r, recAt d i = some r ∧ r.nId ≠ 0 ∧ r.nPid = p := by
  simp only [collect, List.mem_filter, List.mem_range, Option.any_eq_true, Bool.and_eq_true,
    decide_eq_true_eq]
  exact ⟨fun h => h.2, fun ⟨r, hr, h⟩ => ⟨recAt_lt hr, r, hr, h⟩⟩

theorem collect_pairwise (d : PPData) (p : ℤ) : (collect d p).Pairwise (· < ·) :=
  List.pairwise_lt_range.filter _

/-- The record a fold of a slot with id `a` into one with id `b` leaves behind. -/
def foldRec (hit : Bool) (a b : ℤ) (r : FavoriteLineData) : FavoriteLineData :=
  { r with bDelete := r.bDelete || hit, nPid := if r.nPid = a then b else r.nPid }

theorem recAt_absorb (d : PPData) (i j k : ℕ) :
    recAt (absorb d i j) k = (recAt d k).map (foldRec (i = k) (idAt d i) (idAt d j)) := by
  simp only [recAt, absorb, reparent, mark, List.getElem?_map, List.getElem?_modify]
  cases d[k]? with
  | none => rfl
  | some o =>
    cases o with
    | none => by_cases h : i = k <;> simp [h]
    | some r =>
      by_cases h : i = k <;> by_cases hp : r.nPid = idAt d i <;> simp_all [foldRec]

theorem recAt_absorb_of {d : PPData} {k : ℕ} {r : FavoriteLineData} (h : recAt d k = some r)
    (i j : ℕ) : recAt (absorb d i j) k = some (foldRec (i = k) (idAt d i) (idAt d j) r) := by
  rw [recAt_absorb, h, Option.map_some]

theorem length_absorb (d : PPData) (i j : ℕ) : (absorb d i j).length = d.length := by
  simp [absorb, reparent, mark]

end UrlTraveler.Merge
