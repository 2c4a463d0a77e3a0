import Mathlib.Algebra.Order.Group.Multiset
import Xv6.Lib.Count

/-!
# Pieces of a multiset

A multiset that is put together from the pieces `f 0`, ..., `f (n - 1)`. The sum is not meant to be
computed: the number of pieces may be large.
-/

namespace Multiset

variable {α : Type*} {x : α} {s t : Multiset α} {f f' : Nat → Multiset α} {n i j : Nat}

@[irreducible] def pieces (n : Nat) (f : Nat → Multiset α) : Multiset α :=
  ∑ i ∈ Finset.range n, f i

theorem pieces_eq (n : Nat) (f : Nat → Multiset α) : pieces n f = ∑ i ∈ Finset.range n, f i := by
  unfold pieces
  rfl

theorem Nodup.notMem_right (h : (s + t).Nodup) (hx : x ∈ s) : x ∉ t :=
  disjoint_left.mp (nodup_add.mp h).2.2 hx

theorem mem_pieces : x ∈ pieces n f ↔ ∃ i, i < n ∧ x ∈ f i := by
  rw [pieces_eq, mem_sum]
  simp only [Finset.mem_range]

theorem Nodup.piece_unique (h : (pieces n f).Nodup) (hi : i < n) (hj : j < n) (hxi : x ∈ f i)
    (hxj : x ∈ f j) : i = j := by
  by_contra hne
  have hsub : ({i, j} : Finset Nat) ⊆ Finset.range n := by
    intro k hk
    rcases Finset.mem_insert.mp hk with rfl | hk
    · exact Finset.mem_range.mpr hi
    · rw [Finset.mem_singleton.mp hk]
      exact Finset.mem_range.mpr hj
  have hle : f i + f j ≤ pieces n f := by
    rw [← Finset.sum_pair hne, pieces_eq]
    exact Finset.sum_le_sum_of_subset hsub
  exact (nodup_of_le hle h).notMem_right hxi hxj

theorem pieces_congr (h : ∀ i, i < n → f' i = f i) : pieces n f' = pieces n f := by
  rw [pieces_eq, pieces_eq]
  exact Finset.sum_congr rfl fun i hi => h i (Finset.mem_range.mp hi)

theorem pieces_le (h : ∀ i, i < n → f i ≤ f' i) : pieces n f ≤ pieces n f' := by
  rw [pieces_eq, pieces_eq]
  exact Finset.sum_le_sum fun i hi => h i (Finset.mem_range.mp hi)

theorem pieces_eq_zero (h : ∀ i, i < n → f i = 0) : pieces n f = 0 := by
  rw [pieces_eq]
  exact Finset.sum_eq_zero fun i hi => h i (Finset.mem_range.mp hi)

theorem pieces_eq_single (hi : i < n) (h : ∀ j, j < n → j ≠ i → f j = 0) : pieces n f = f i := by
  rw [pieces_eq]
  exact Finset.sum_eq_single_of_mem i (Finset.mem_range.mpr hi)
    fun j hj hne => h j (Finset.mem_range.mp hj) hne

theorem pieces_change (hi : i < n) (h : ∀ j, j < n → j ≠ i → f' j = f j) :
    pieces n f' + f i = pieces n f + f' i := by
  rw [pieces_eq, pieces_eq]
  exact sum_range_change hi h

theorem pieces_eq_sum (n : Nat) (f : Nat → Multiset α) :
    pieces n f = ((List.range n).map f).sum := by
  rw [pieces_eq]
  induction n with
  | zero => rfl
  | succ n ih =>
    rw [Finset.sum_range_succ, ih, List.range_succ, List.map_append, List.sum_append]
    simp

theorem card_pieces_le (h : ∀ i, i < n → (f i).card ≤ 1) : (pieces n f).card ≤ n := by
  rw [pieces_eq, card_sum]
  calc ∑ i ∈ Finset.range n, (f i).card
      ≤ ∑ _i ∈ Finset.range n, 1 := Finset.sum_le_sum fun i hi => h i (Finset.mem_range.mp hi)
    _ = n := by rw [← Finset.card_eq_sum_ones, Finset.card_range]

end Multiset
