import Mathlib.Data.Nat.Find
import Mathlib.Tactic.Common

/-!
# First index with a property

The loops `for(i = a; i < n; i++) if(p(i)) ...` of a C program that stop at the first hit.
-/

def findFrom (p : Nat → Bool) : (a n : Nat) → Option Nat
  | _, 0 => none
  | a, n + 1 => if p a then some a else findFrom p (a + 1) n

variable {p : Nat → Bool} {a n i : Nat}

theorem findFrom_eq_some : findFrom p a n = some i ↔
    p i = true ∧ a ≤ i ∧ i < a + n ∧ ∀ j, a ≤ j → j < i → p j = false := by
  induction n generalizing a with
  | zero => exact ⟨fun h => by simp [findFrom] at h, fun h => by omega⟩
  | succ n ih =>
    rw [findFrom]
    split
    · next hp =>
      constructor
      · rintro ⟨rfl⟩
        exact ⟨hp, by omega, by omega, fun j h₁ h₂ => by omega⟩
      · rintro ⟨-, hai, -, hfirst⟩
        by_contra hne
        have hlt : a < i := by
          refine lt_of_le_of_ne hai fun e => hne (by rw [e])
        rw [hfirst a (le_refl a) hlt] at hp
        exact absurd hp (by simp)
    · next hp =>
      rw [ih]
      constructor
      · rintro ⟨hpi, hai, hin, hfirst⟩
        refine ⟨hpi, by omega, by omega, fun j h₁ h₂ => ?_⟩
        by_cases hja : j = a
        · subst hja
          simpa using hp
        · exact hfirst j (by omega) h₂
      · rintro ⟨hpi, hai, hin, hfirst⟩
        have hne : i ≠ a := fun e => hp (e ▸ hpi)
        exact ⟨hpi, by omega, by omega, fun j h₁ h₂ => hfirst j (by omega) h₂⟩

theorem findFrom_eq_none : findFrom p a n = none ↔ ∀ j, a ≤ j → j < a + n → p j = false := by
  induction n generalizing a with
  | zero => exact ⟨fun _ j h₁ h₂ => by omega, fun _ => rfl⟩
  | succ n ih =>
    rw [findFrom]
    split
    · next hp =>
      refine ⟨fun h => by simp at h, fun h => ?_⟩
      rw [h a (le_refl a) (by omega)] at hp
      exact absurd hp (by simp)
    · next hp =>
      rw [ih]
      refine ⟨fun h j h₁ h₂ => ?_, fun h j h₁ h₂ => h j (by omega) (by omega)⟩
      by_cases hja : j = a
      · subst hja
        simpa using hp
      · exact h j (by omega) (by omega)

theorem findFrom_congr {q : Nat → Bool} (h : ∀ j, a ≤ j → j < a + n → p j = q j) :
    findFrom p a n = findFrom q a n := by
  induction n generalizing a with
  | zero => rfl
  | succ n ih =>
    rw [findFrom, findFrom, h a (le_refl a) (by omega),
      ih fun j h₁ h₂ => h j (by omega) (by omega)]
