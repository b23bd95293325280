import Mathlib

/-! The record every module of the program works on: one line of a favorites list.

    `FavoriteLineData` is the struct of `DataCenterDefine.h`, field by field. Wide-character arrays
    are the strings they hold (`WStr`, no terminating NUL), 32-bit ids and counters are integers,
    the hash is a natural number. Two containers hold records:

        PPData   `FAVORITELINEDATA**` / vectors that plug-ins fill: an entry may be a null pointer
        List FavoriteLineData   the vector of the data centre, whose entries are never null -/

namespace UrlTraveler

/-- A wide string, as its characters up to the terminating NUL. -/
abbrev WStr := List Char

instance : LawfulBEq WStr := inferInstance

/-- One bookmark or folder (`FavoriteLineData`); the defaults are those of its constructor, with
    `time(NULL)` read as 0. -/
structure FavoriteLineData where
  nId : ℤ := 0
  szTitle : WStr := []
  nPid : ℤ := 0
  bFolder : Bool := false
  szUrl : WStr := []
  nAddTimes : ℤ := 0
  nLastModifyTime : ℤ := 0
  nClickTimes : ℤ := 0
  nHashId : ℕ := 0
  nOrder : ℤ := 0
  bDelete : Bool := false
  deriving DecidableEq, Repr

/-- An array of record pointers; `none` is a null pointer. -/
abbrev PPData := List (Option FavoriteLineData)

/-- The record in slot `i`: none for a null pointer and past the end. -/
def recAt (d : PPData) (i : ℕ) : Option FavoriteLineData := (d[i]?).join

theorem recAt_lt {d : PPData} {i : ℕ} {r : FavoriteLineData} (h : recAt d i = some r) :
    i < d.length := by
  by_contra hge
  simp [recAt, List.getElem?_eq_none (not_lt.mp hge)] at h

/-- A vector without null pointers, seen as an array of pointers. -/
@[simp] theorem recAt_map_some (v : List FavoriteLineData) (i : ℕ) :
    recAt (v.map some) i = v[i]? := by
  simp only [recAt, List.getElem?_map]
  cases v[i]? <;> rfl

end UrlTraveler
