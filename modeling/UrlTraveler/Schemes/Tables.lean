import Mathlib

/-! Tables with automatic integer keys.

    A row that is inserted without a key gets the greatest key plus one, in an empty table the key 1.
    `findOrInsert` is the lookup of a text that is entered when it is not there yet, with its key
    asked for afterwards as `select max(key)`. It leaves a table in which the key names a row with
    that text, and all rows that were there before. -/

namespace UrlTraveler.Tables

/-- `select max(key) from ..`; NULL is read as 0. -/
def maxKey (keys : List ℤ) : ℤ := keys.max?.getD 0

/-- The key the next row gets. -/
def newKey (keys : List ℤ) : ℤ := maxKey keys + 1

theorem le_maxKey {keys : List ℤ} {k : ℤ} (h : k ∈ keys) : k ≤ maxKey keys := by
  cases hm : keys.max? with
  | none =>
    rw [List.max?_eq_none_iff.mp hm] at h
    cases h
  | some m =>
    have hle := (List.max?_eq_some_iff.mp hm).2 k h
    simpa [maxKey, hm] using hle

theorem maxKey_concat (keys : List ℤ) : maxKey (keys ++ [newKey keys]) = newKey keys := by
  have hmax : (keys ++ [newKey keys]).max? = some (newKey keys) := by
    rw [List.max?_eq_some_iff]
    refine ⟨by simp, fun b hb => ?_⟩
    rcases List.mem_append.mp hb with hb | hb
    · have := le_maxKey hb
      rw [newKey]
      omega
    · exact (List.mem_singleton.mp hb).le
  rw [maxKey, hmax, Option.getD_some]

/-- Keys are positive and distinct. -/
structure GoodKeys (keys : List ℤ) : Prop where
  pos : ∀ k ∈ keys, 0 < k
  nodup : keys.Nodup

theorem GoodKeys.concat {keys : List ℤ} (h : GoodKeys keys) : GoodKeys (keys ++ [newKey keys]) where
  pos k hk := by
    rcases List.mem_append.mp hk with hk | hk
    · exact h.pos k hk
    · rw [List.mem_singleton.mp hk, newKey]
      -- the greatest key is positive, or there is none
      cases hm : keys.max? with
      | none => simp [maxKey, hm]
      | some m =>
        have := h.pos m (List.max?_mem hm)
        simp only [maxKey, hm, Option.getD_some]
        omega
  nodup := by
    rw [List.nodup_append]
    refine ⟨h.nodup, List.nodup_singleton _, ?_⟩
    rintro k hk _ hn rfl
    have := le_maxKey hk
    rw [List.mem_singleton.mp hn, newKey] at this
    omega

/-! ### Looking a row up, or entering it -/

section FindOrInsert
variable {α : Type} (key : α → ℤ) (rows : List α) (p : α → Bool) (mk : ℤ → α)

/-- The rows afterwards, and the key of the row. -/
def findOrInsert : List α × ℤ :=
  match rows.find? p with
  | some row => (rows, key row)
  | none =>
    let rows := rows ++ [mk (newKey (rows.map key))]
    (rows, maxKey (rows.map key))

variable {rows}

theorem findOrInsert_spec (hkey : ∀ k, key (mk k) = k) (hp : ∀ k, p (mk k) = true)
    (h : GoodKeys (rows.map key)) :
    rows <+: (findOrInsert key rows p mk).1 ∧ GoodKeys ((findOrInsert key rows p mk).1.map key) ∧
      ∃ row ∈ (findOrInsert key rows p mk).1, key row = (findOrInsert key rows p mk).2 ∧
        p row = true := by
  rw [findOrInsert]
  cases hf : rows.find? p with
  | some row =>
    exact ⟨List.prefix_rfl, h, row, List.mem_of_find?_eq_some hf, rfl, List.find?_some hf⟩
  | none =>
    have hmap : (rows ++ [mk (newKey (rows.map key))]).map key =
        rows.map key ++ [newKey (rows.map key)] := by
      rw [List.map_append, List.map_singleton, hkey]
    refine ⟨List.prefix_append _ _, hmap ▸ h.concat, mk (newKey (rows.map key)), by simp, ?_, hp _⟩
    change key (mk _) = maxKey ((rows ++ [mk (newKey (rows.map key))]).map key)
    rw [hkey, hmap, maxKey_concat]

end FindOrInsert

end UrlTraveler.Tables
