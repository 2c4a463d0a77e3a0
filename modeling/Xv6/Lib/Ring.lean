import Mathlib.Data.List.Basic
import Mathlib.Data.Nat.ModEq
import Mathlib.Logic.Function.Basic

/-!
# Ring buffers with free-running counters

A ring of `cap` slots is filled and emptied through two counters that only ever increase and are
stored in 32 bits. It is related to the list of everything pushed so far and to the number of
elements popped.
-/

namespace Ring

variable {α : Type*} {cap r w : Nat} {data : Nat → α} {log : List α}

/-- Everything pushed is `log`; its first `r` elements have been popped, the others are in
their slots. -/
structure Rep (cap : Nat) (data : Nat → α) (log : List α) (r : Nat) : Prop where
  popped : r ≤ log.length
  fits : log.length ≤ r + cap
  stored : ∀ k (hk : k < log.length), r ≤ k → data (k % cap) = log[k]

theorem Rep.empty (cap : Nat) (data : Nat → α) : Rep cap data [] 0 :=
  ⟨Nat.le_refl _, Nat.zero_le _, fun _ hk => absurd hk (Nat.not_lt_zero _)⟩

/-- Two positions of one window of `cap` elements that share a slot are equal. -/
theorem eq_of_mod_eq {j k : Nat} (hj : r ≤ j) (hk : r ≤ k) (hj' : j < r + cap) (hk' : k < r + cap)
    (h : j % cap = k % cap) : j = k := by
  rcases Nat.le_total j k with hle | hle
  · have hdvd : cap ∣ k - j := (Nat.modEq_iff_dvd' hle).mp h
    have := Nat.eq_zero_of_dvd_of_lt hdvd (by omega)
    omega
  · have hdvd : cap ∣ j - k := (Nat.modEq_iff_dvd' hle).mp h.symm
    have := Nat.eq_zero_of_dvd_of_lt hdvd (by omega)
    omega

/-- A push into a ring with room overwrites no element that is still to be popped. -/
theorem Rep.push (h : Rep cap data log r) (hroom : log.length < r + cap) (x : α) :
    Rep cap (Function.update data (log.length % cap) x) (log ++ [x]) r := by
  refine ⟨?_, ?_, fun k hk hrk => ?_⟩
  · exact h.popped.trans (by simp)
  · rw [List.length_append, List.length_singleton]
    exact hroom
  · rw [List.length_append, List.length_singleton] at hk
    by_cases hlast : k = log.length
    · subst hlast
      rw [Function.update_self, List.getElem_concat_length rfl]
    · have hlt : k < log.length := by omega
      have hslot : k % cap ≠ log.length % cap := fun e =>
        hlast (eq_of_mod_eq hrk h.popped (by omega) hroom e)
      rw [Function.update_of_ne hslot, List.getElem_append_left hlt]
      exact h.stored k hlt hrk

theorem Rep.pop (h : Rep cap data log r) (hne : r < log.length) :
    data (r % cap) = log[r] ∧ Rep cap data log (r + 1) :=
  ⟨h.stored r hne (Nat.le_refl _), hne, by have := h.fits; omega,
    fun k hk hrk => h.stored k hk (by omega)⟩

theorem Rep.dropLast (h : Rep cap data log r) (hne : r < log.length) :
    Rep cap data log.dropLast r := by
  refine ⟨?_, ?_, fun k hk hrk => ?_⟩
  · rw [List.length_dropLast]
    omega
  · rw [List.length_dropLast]
    exact (Nat.sub_le _ _).trans h.fits
  · rw [List.getElem_dropLast]
    exact h.stored k _ hrk

def contents (cap : Nat) (data : Nat → α) (r n : Nat) : List α :=
  (List.range n).map fun k => data ((r + k) % cap)

/-- What has been pushed is what has been popped followed by what is in the ring. -/
theorem Rep.take_append_contents (h : Rep cap data log r) :
    log.take r ++ contents cap data r (log.length - r) = log := by
  have hdrop : contents cap data r (log.length - r) = log.drop r := by
    apply List.ext_getElem
    · simp [contents]
    · intro k hk hk'
      rw [List.length_drop] at hk'
      have hlt : r + k < log.length := by omega
      simpa [contents] using h.stored (r + k) hlt (by omega)
  rw [hdrop, List.take_append_drop]

theorem ofNat_succ (k : Nat) : UInt32.ofNat (k + 1) = UInt32.ofNat k + 1 := by
  rw [UInt32.ofNat_add]
  rfl

theorem toNat_sub_ofNat (hrw : r ≤ w) (hsmall : w - r < 2 ^ 32) :
    (UInt32.ofNat w - UInt32.ofNat r).toNat = w - r := by
  rw [← UInt32.ofNat_sub hrw, UInt32.toNat_ofNat']
  exact Nat.mod_eq_of_lt hsmall

theorem ofNat_eq_ofNat_iff (hrw : r ≤ w) (hsmall : w - r < 2 ^ 32) :
    UInt32.ofNat r = UInt32.ofNat w ↔ r = w := by
  refine ⟨fun h => ?_, fun h => by rw [h]⟩
  have := toNat_sub_ofNat hrw hsmall
  rw [h] at this
  simp only [UInt32.sub_self, UInt32.toNat_zero] at this
  omega

theorem ofNat_eq_add_iff (hrw : r ≤ w) (hfits : w ≤ r + cap) (hcap : cap < 2 ^ 32) :
    UInt32.ofNat w = UInt32.ofNat r + UInt32.ofNat cap ↔ w = r + cap := by
  rw [← UInt32.ofNat_add]
  exact ofNat_eq_ofNat_iff hfits (by omega)

theorem toNat_ofNat_mod (hcap : cap < 2 ^ 32) (hdvd : cap ∣ 2 ^ 32) (k : Nat) :
    (UInt32.ofNat k % UInt32.ofNat cap).toNat = k % cap := by
  rw [UInt32.toNat_mod, UInt32.toNat_ofNat', UInt32.toNat_ofNat', Nat.mod_eq_of_lt hcap,
    Nat.mod_mod_of_dvd k hdvd]

end Ring
