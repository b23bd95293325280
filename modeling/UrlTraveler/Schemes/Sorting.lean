import Mathlib

/-! Sorting by an integer key, as a library sort promises it.

    A library sort is only known to return a permutation that is non-decreasing in the key; which
    of several elements with the same key comes first is its own choice. A `Sorter` is one such
    choice, with the promise carried as fields. `Stable` sorters keep ties in input order, and
    `insertion` is one that runs. What proofs about such a sort use:

        ties      a stable sorter keeps every relation between tied elements of the input
        either    of two elements of a list one comes first
        fixed     a stable sorter leaves a sorted list as it is -/

namespace UrlTraveler.Sorting

variable {α : Type}

/-- One choice of a sorted permutation, for every key and every list. -/
structure Sorter (α : Type) where
  sort : (α → ℤ) → List α → List α
  perm : ∀ key l, (sort key l).Perm l
  sorted : ∀ key l, (sort key l).Pairwise (fun a b => key a ≤ key b)

/-- Elements with the same key keep their order. -/
def Sorter.Stable (σ : Sorter α) : Prop :=
  ∀ key l k, (σ.sort key l).filter (fun a => key a = k) = l.filter (fun a => key a = k)

/-- Insertion sort: the stable sorter that runs. -/
def insertion : Sorter α where
  sort key l := l.insertionSort (fun a b => key a ≤ key b)
  perm _ l := List.perm_insertionSort _ l
  sorted key l := by
    have : Std.Total (fun a b : α => key a ≤ key b) := ⟨fun a b => le_total (key a) (key b)⟩
    have : IsTrans α (fun a b => key a ≤ key b) := ⟨fun _ _ _ => le_trans⟩
    exact List.pairwise_insertionSort _ l

/-- The tied elements of the input are a sublist of the sorted list, and there are no others. -/
theorem insertion_stable : (insertion (α := α)).Stable := by
  intro key l k
  have : Std.Total (fun a b : α => key a ≤ key b) := ⟨fun a b => le_total (key a) (key b)⟩
  have : IsTrans α (fun a b => key a ≤ key b) := ⟨fun _ _ _ => le_trans⟩
  have htie : (l.filter (fun a => key a = k)).Pairwise (fun a b => key a ≤ key b) := by
    refine List.pairwise_of_forall_mem_list fun a ha b hb => ?_
    simp only [List.mem_filter, decide_eq_true_eq] at ha hb
    rw [ha.2, hb.2]
  have hsub := (List.sublist_insertionSort htie List.filter_sublist).filter (fun a => key a = k)
  simp only [List.filter_filter, Bool.and_self] at hsub
  have hlen := ((insertion (α := α)).perm key l).filter (fun a => key a = k)
  exact (hsub.eq_of_length hlen.length_eq.symm).symm

/-- Ties: whatever holds between elements in input order still holds between tied ones. -/
theorem Sorter.Stable.ties {σ : Sorter α} (hσ : σ.Stable) {R : α → α → Prop} {key : α → ℤ}
    {l : List α} (hl : l.Pairwise R) :
    (σ.sort key l).Pairwise (fun a b => key a = key b → R a b) := by
  rw [List.pairwise_iff_forall_sublist]
  intro a b hab hkey
  have hf := hab.filter (fun c => key c = key b)
  rw [hσ key l (key b)] at hf
  simp only [List.filter_cons, hkey, decide_true, if_true, List.filter_nil] at hf
  exact List.pairwise_iff_forall_sublist.mp hl (hf.trans List.filter_sublist)

/-- Either: of two elements of a list one comes first. -/
theorem pairwise_either {R : α → α → Prop} {l : List α} (hl : l.Pairwise R) {a b : α}
    (ha : a ∈ l) (hb : b ∈ l) (hne : a ≠ b) : R a b ∨ R b a := by
  have : Std.Symm (fun a b => R a b ∨ R b a) := ⟨fun _ _ => Or.symm⟩
  exact (hl.imp (S := fun a b => R a b ∨ R b a) .inl).forall ha hb hne

theorem eq_of_length_le_one {l : List α} (hl : l.length ≤ 1) {a b : α} (ha : a ∈ l)
    (hb : b ∈ l) : a = b := by
  match l, hl with
  | [c], _ => rw [List.mem_singleton.mp ha, List.mem_singleton.mp hb]

/-- Sorted lists that agree on the elements of every key are equal. -/
theorem eq_of_filter_eq {key : α → ℤ} : ∀ {l m : List α}, l.Pairwise (fun a b => key a ≤ key b) →
    m.Pairwise (fun a b => key a ≤ key b) →
    (∀ k, l.filter (fun a => key a = k) = m.filter (fun a => key a = k)) → l = m
  | [], [], _, _, _ => rfl
  | [], b :: _, _, _, h => by simpa using h (key b)
  | a :: _, [], _, _, h => by simpa using h (key a)
  | a :: l, b :: m, hl, hm, h => by
    rw [List.pairwise_cons] at hl hm
    have ha : a ∈ (b :: m).filter (fun c => key c = key a) := by rw [← h]; simp
    have hb : b ∈ (a :: l).filter (fun c => key c = key b) := by rw [h]; simp
    have hba : key b ≤ key a := by
      rcases List.mem_cons.mp (List.mem_filter.mp ha).1 with rfl | hmem
      · exact le_rfl
      · exact hm.1 a hmem
    have hab : key a ≤ key b := by
      rcases List.mem_cons.mp (List.mem_filter.mp hb).1 with rfl | hmem
      · exact le_rfl
      · exact hl.1 b hmem
    have hk : key a = key b := le_antisymm hab hba
    have hhead := h (key b)
    simp only [List.filter_cons, hk, decide_true, if_true, List.cons.injEq] at hhead
    refine List.cons_eq_cons.mpr ⟨hhead.1, eq_of_filter_eq hl.2 hm.2 fun k => ?_⟩
    rcases eq_or_ne (key b) k with rfl | hne
    · exact hhead.2
    · simpa [hk, hne] using h k

/-- Fixed: a list that is sorted already stays as it is. -/
theorem Sorter.Stable.fixed {σ : Sorter α} (hσ : σ.Stable) {key : α → ℤ} {l : List α}
    (hl : l.Pairwise (fun a b => key a ≤ key b)) : σ.sort key l = l :=
  eq_of_filter_eq (σ.sorted key l) hl (hσ key l)

end UrlTraveler.Sorting
