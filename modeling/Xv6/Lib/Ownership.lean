import Mathlib.Logic.Function.Basic
import Mathlib.Tactic.Common

/-!
# Blocks and their owners

Blocks below `lo` are reserved, those from `lo` to `hi` are handed out. Owners hold a block each,
`0` meaning none. `Owned` says that a bit of the map is set exactly for the reserved blocks and for
the blocks with an owner, and that no block has two owners.
-/

namespace Ownership

open Function (update update_self update_of_ne)

variable {κ : Type*} {lo hi : Nat} {own : κ → Nat} {bit : Nat → Bool}

/-- The bits are those of the reserved blocks and of the blocks with an owner. -/
structure Owned (lo hi : Nat) (own : κ → Nat) (bit : Nat → Bool) : Prop where
  pos : 0 < lo
  range : ∀ x, own x ≠ 0 → lo ≤ own x ∧ own x < hi
  inj : ∀ x y, own x ≠ 0 → own x = own y → x = y
  bits : ∀ b, b < hi → (bit b = true ↔ b < lo ∨ ∃ x, own x = b ∧ own x ≠ 0)

variable (h : Owned lo hi own bit)

include h

/-- A block whose bit is clear can be handed out: it is not reserved and has no owner. -/
theorem Owned.free {b : Nat} (hb : b < hi) (hclear : bit b = false) : lo ≤ b ∧ ∀ x, own x ≠ b := by
  have hlo : lo ≤ b := by
    by_contra hlt
    have := (h.bits b hb).mpr (Or.inl (by omega))
    rw [hclear] at this
    exact absurd this (by simp)
  refine ⟨hlo, fun x hx => ?_⟩
  have := (h.bits b hb).mpr (Or.inr ⟨x, hx, by have := h.pos; omega⟩)
  rw [hclear] at this
  exact absurd this (by simp)

variable {x : κ}

theorem Owned.bit_own (hx : own x ≠ 0) : bit (own x) = true :=
  (h.bits _ (h.range x hx).2).mpr (Or.inr ⟨x, rfl, hx⟩)

theorem Owned.congr {own' : κ → Nat} {bit' : Nat → Bool}
    (hown : ∀ x, own' x = own x) (hbit : ∀ b, b < hi → bit' b = bit b) : Owned lo hi own' bit' := by
  have : own' = own := funext hown
  subst this
  exact ⟨h.pos, h.range, h.inj, fun b hb => by rw [hbit b hb, h.bits b hb]⟩

variable [DecidableEq κ]

theorem Owned.assign {b : Nat} (hx : own x = 0) (hb : b < hi) (hclear : bit b = false) :
    Owned lo hi (update own x b) (update bit b true) := by
  obtain ⟨hlo, hnone⟩ := h.free hb hclear
  have hpos := h.pos
  refine ⟨h.pos, fun y hy => ?_, fun y z hy hyz => ?_, fun c hc => ?_⟩
  · by_cases hyx : y = x
    · subst hyx
      simpa using ⟨hlo, hb⟩
    · rw [update_of_ne hyx] at hy ⊢
      exact h.range y hy
  · by_cases hyx : y = x <;> by_cases hzx : z = x
    · rw [hyx, hzx]
    · rw [hyx, update_self, update_of_ne hzx] at hyz
      exact absurd hyz.symm (hnone z)
    · rw [hzx, update_self, update_of_ne hyx] at hyz
      exact absurd hyz (hnone y)
    · rw [update_of_ne hyx] at hy hyz
      rw [update_of_ne hzx] at hyz
      exact h.inj y z hy hyz
  · by_cases hcb : c = b
    · subst hcb
      refine iff_of_true (by simp) (Or.inr ⟨x, by simp, by simp; omega⟩)
    · rw [update_of_ne hcb, h.bits c hc]
      refine or_congr_right ⟨?_, ?_⟩
      · rintro ⟨y, hy, hy0⟩
        have hyx : y ≠ x := fun e => hy0 (e ▸ hx)
        exact ⟨y, by rwa [update_of_ne hyx], by rwa [update_of_ne hyx]⟩
      · rintro ⟨y, hy, hy0⟩
        have hyx : y ≠ x := fun e => hcb (by rw [← hy, e, update_self])
        rw [update_of_ne hyx] at hy hy0
        exact ⟨y, hy, hy0⟩

theorem Owned.clear (hx : own x ≠ 0) : Owned lo hi (update own x 0) (update bit (own x) false) := by
  have hne : ∀ y, update own x 0 y ≠ 0 → y ≠ x := by
    rintro y hy rfl
    exact hy (update_self _ _ _)
  refine ⟨h.pos, fun y hy => ?_, fun y z hy hyz => ?_, fun c hc => ?_⟩
  · have hyx := hne y hy
    rw [update_of_ne hyx] at hy ⊢
    exact h.range y hy
  · have hyx := hne y hy
    have hzx := hne z (hyz ▸ hy)
    rw [update_of_ne hyx] at hy hyz
    rw [update_of_ne hzx] at hyz
    exact h.inj y z hy hyz
  · by_cases hcb : c = own x
    · subst hcb
      refine iff_of_false (by simp) ?_
      rintro (hlt | ⟨y, hy, hy0⟩)
      · have := (h.range x hx).1
        omega
      · have hyx := hne y hy0
        rw [update_of_ne hyx] at hy hy0
        exact hyx (h.inj y x hy0 hy)
    · rw [update_of_ne hcb, h.bits c hc]
      refine or_congr_right ⟨?_, ?_⟩
      · rintro ⟨y, hy, hy0⟩
        have hyx : y ≠ x := fun e => hcb (by rw [← hy, e])
        exact ⟨y, by rwa [update_of_ne hyx], by rwa [update_of_ne hyx]⟩
      · rintro ⟨y, hy, hy0⟩
        have hyx := hne y hy0
        rw [update_of_ne hyx] at hy hy0
        exact ⟨y, hy, hy0⟩

end Ownership
