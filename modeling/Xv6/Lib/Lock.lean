import Mathlib.Logic.Function.Basic

/-!
# Locks and their holders

A lock is an `Option ι`, the process that holds it. `Held l f H` says that the recorded holder is
the one process whose local state satisfies `H`.
-/

namespace Lock

variable {ι α : Type*} {l : Option ι} {f g : ι → α} {H : α → Prop}

def Held (l : Option ι) (f : ι → α) (H : α → Prop) : Prop := ∀ p, l = some p ↔ H (f p)

theorem Held.congr (h : Held l f H) (hfg : ∀ p, H (g p) ↔ H (f p)) : Held l g H :=
  fun p => (h p).trans (hfg p).symm

theorem Held.unique (h : Held l f H) {p q : ι} (hp : H (f p)) (hq : H (f q)) : p = q := by
  have hl := (h p).mpr hp
  rw [(h q).mpr hq, Option.some.injEq] at hl
  exact hl.symm

theorem Held.not_of_none (h : Held l f H) (hl : l = none) (p : ι) : ¬ H (f p) := by
  intro hp
  rw [(h p).mpr hp] at hl
  exact absurd hl (by simp)

variable [DecidableEq ι]

variable {x : α}

theorem Held.keep (h : Held l f H) (q : ι) (hx : H x ↔ H (f q)) :
    Held l (Function.update f q x) H := by
  refine h.congr fun p => ?_
  by_cases hpq : p = q
  · subst hpq
    rw [Function.update_self, hx]
  · rw [Function.update_of_ne hpq]

theorem Held.acquire (h : Held l f H) (hl : l = none) (q : ι) (hx : H x) :
    Held (some q) (Function.update f q x) H := by
  intro p
  by_cases hpq : p = q
  · subst hpq
    simpa using hx
  · rw [Function.update_of_ne hpq, Option.some.injEq]
    exact ⟨fun e => absurd e.symm hpq, fun hp => absurd hp (h.not_of_none hl p)⟩

theorem Held.release (h : Held l f H) (q : ι) (hq : H (f q)) (hx : ¬ H x) :
    Held none (Function.update f q x) H := by
  intro p
  refine ⟨fun e => absurd e (by simp), fun hp => ?_⟩
  by_cases hpq : p = q
  · subst hpq
    rw [Function.update_self] at hp
    exact absurd hp hx
  · rw [Function.update_of_ne hpq] at hp
    exact absurd (h.unique hp hq) hpq

end Lock
