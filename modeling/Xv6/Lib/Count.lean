import Mathlib.Algebra.BigOperators.Intervals
import Mathlib.Algebra.Order.BigOperators.Group.Finset

open Finset

variable {n i : Nat}

theorem sum_range_change {M : Type*} [AddCommMonoid M] {w w' : Nat → M} (hi : i < n)
    (h : ∀ j, j < n → j ≠ i → w' j = w j) :
    ∑ j ∈ range n, w' j + w i = ∑ j ∈ range n, w j + w' i := by
  have hmem : i ∈ range n := mem_range.mpr hi
  have hrest : ∑ j ∈ (range n).erase i, w' j = ∑ j ∈ (range n).erase i, w j :=
    sum_congr rfl fun j hj => h j (mem_range.mp (mem_of_mem_erase hj)) (ne_of_mem_erase hj)
  rw [← sum_erase_add _ _ hmem, ← sum_erase_add (range n) w hmem, hrest, add_right_comm]

def countBelow (n : Nat) (P : Nat → Bool) : Nat := ∑ i ∈ range n, (P i).toNat

variable {P P' : Nat → Bool}

theorem countBelow_change (hi : i < n) (h : ∀ j, j ≠ i → P' j = P j) :
    countBelow n P' + (P i).toNat = countBelow n P + (P' i).toNat := by
  refine sum_range_change (w := fun j => (P j).toNat) hi fun j _ hj => ?_
  rw [h j hj]

theorem countBelow_update_true (hi : i < n) (h : P i = false) :
    countBelow n (Function.update P i true) = countBelow n P + 1 := by
  have hchange := countBelow_change (P := P) hi fun j hj => Function.update_of_ne hj true P
  rw [h, Function.update_self] at hchange
  exact hchange

theorem countBelow_update_false (hi : i < n) (h : P i = true) :
    countBelow n (Function.update P i false) = countBelow n P - 1 := by
  have hchange := countBelow_change (P := P) hi fun j hj => Function.update_of_ne hj false P
  rw [h, Function.update_self] at hchange
  exact Nat.eq_sub_of_add_eq hchange

theorem countBelow_eq_zero_iff : countBelow n P = 0 ↔ ∀ i, i < n → P i = false := by
  rw [countBelow, Finset.sum_eq_zero_iff]
  simp

theorem countBelow_pos_iff : 0 < countBelow n P ↔ ∃ i, i < n ∧ P i = true := by
  rw [Nat.pos_iff_ne_zero, Ne, countBelow_eq_zero_iff]
  simp
