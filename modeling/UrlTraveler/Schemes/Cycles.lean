import Mathlib

/-! Relations without cycles.

    Three ways to get a relation without cycles from another one:

        mono      leave edges out
        insert    add an edge a → b, when b does not lead to a
        lift      rename, when every edge that is continued is the image of an edge

    `lift` only asks about continued edges, since an edge on a cycle is one. On finitely many points
    a relation without cycles allows induction in both directions (`descend` and `ascend`). -/

namespace UrlTraveler.Cycles
open Relation

variable {κ κ' : Type} {R R' : κ → κ → Prop}

/-- No point reaches itself. -/
def NoCycle (R : κ → κ → Prop) : Prop := ∀ x, ¬ TransGen R x x

theorem NoCycle.mono (h : NoCycle R) (hle : ∀ x y, R' x y → R x y) : NoCycle R' :=
  fun x hx => h x (TransGen.mono hle x x hx)

/-- Edges that go down in some order make no cycle. -/
theorem noCycle_of_lt [Preorder κ] (h : ∀ x y, R x y → y < x) : NoCycle R := by
  have hlt : ∀ {x y}, TransGen R x y → y < x := by
    intro x y hxy
    induction hxy with
    | single hxy => exact h _ _ hxy
    | tail _ hyz ih => exact (h _ _ hyz).trans ih
  exact fun x hx => lt_irrefl x (hlt hx)

/-- With one more edge `a → b`, a path is old or splits at the new edge. -/
theorem transGen_insert {a b : κ} (hle : ∀ x y, R' x y → R x y ∨ x = a ∧ y = b) {x y : κ}
    (h : TransGen R' x y) : TransGen R x y ∨ ReflTransGen R x a ∧ ReflTransGen R b y := by
  induction h with
  | single hxy =>
    rcases hle _ _ hxy with hxy | ⟨rfl, rfl⟩
    · exact .inl (.single hxy)
    · exact .inr ⟨.refl, .refl⟩
  | tail _ hyz ih =>
    rcases hle _ _ hyz with hyz | ⟨rfl, rfl⟩
    · rcases ih with ih | ⟨h₁, h₂⟩
      · exact .inl (ih.tail hyz)
      · exact .inr ⟨h₁, h₂.tail hyz⟩
    · rcases ih with ih | ⟨h₁, _⟩
      · exact .inr ⟨ih.to_reflTransGen, .refl⟩
      · exact .inr ⟨h₁, .refl⟩

theorem NoCycle.insert (h : NoCycle R) {a b : κ} (hle : ∀ x y, R' x y → R x y ∨ x = a ∧ y = b)
    (hab : ¬ ReflTransGen R b a) : NoCycle R' := by
  intro x hx
  rcases transGen_insert hle hx with hx | ⟨hxa, hbx⟩
  · exact h x hx
  · exact hab (hbx.trans hxa)

/-- Up to the first arrival at `a` a path uses no edge that leaves `a`. -/
theorem transGen_until {a : κ} (hle : ∀ x y, R x y → x ≠ a → R' x y) {x : κ}
    (h : TransGen R x a) (hne : x ≠ a) : TransGen R' x a := by
  induction h using TransGen.head_induction_on with
  | single hxa => exact .single (hle _ _ hxa hne)
  | @head x y hxy _ ih =>
    rcases eq_or_ne y a with rfl | hya
    · exact .single (hle _ _ hxy hne)
    · exact .head (hle _ _ hxy hne) (ih hya)

/-- Every edge of a cycle is continued by another one. -/
theorem NoCycle.lift {S : κ' → κ' → Prop} (h : NoCycle R) (f : κ' → κ)
    (hf : ∀ x y z, S x y → S y z → R (f x) (f y)) : NoCycle S := by
  have hpath : ∀ {x y}, TransGen S x y → ∀ {z}, S y z → TransGen R (f x) (f y) := by
    intro x y hxy
    induction hxy with
    | single hxy => exact fun hyz => .single (hf _ _ _ hxy hyz)
    | tail _ hyz ih => exact fun hzw => (ih hyz).tail (hf _ _ _ hyz hzw)
  intro x hx
  obtain ⟨y, hxy, _⟩ := TransGen.head'_iff.mp hx
  exact h (f x) (hpath hx hxy)

/-! ### Induction over finitely many points -/

/-- Induction against the edges: `x` from all points with an edge to it. -/
theorem NoCycle.descend (h : NoCycle R) {S : Set κ} (hS : S.Finite) (hR : ∀ x y, R x y → x ∈ S)
    {motive : κ → Prop} (hm : ∀ x, (∀ y, R y x → motive y) → motive x) (x : κ) : motive x := by
  have : IsStrictOrder κ (TransGen R) :=
    { irrefl := h, trans := fun _ _ _ => TransGen.trans }
  have hwf : S.WellFoundedOn (TransGen R) := hS.wellFoundedOn
  have hin : ∀ y ∈ S, motive y := fun y hy =>
    hwf.induction hy fun z _ ih => hm z fun w hw => ih w (hR w z hw) (.single hw)
  exact hm x fun y hy => hin y (hR y x hy)

/-- Induction along the edges: `x` from all points it has an edge to. -/
theorem NoCycle.ascend (h : NoCycle R) {S : Set κ} (hS : S.Finite) (hR : ∀ x y, R x y → y ∈ S)
    {motive : κ → Prop} (hm : ∀ x, (∀ y, R x y → motive y) → motive x) (x : κ) : motive x := by
  have hswap : NoCycle fun x y => R y x := fun x hx => h x (transGen_swap.mp hx)
  exact hswap.descend hS (fun x y => hR y x) hm x

end UrlTraveler.Cycles
