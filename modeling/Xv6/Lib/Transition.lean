import Mathlib.Data.List.Basic

/-!
# Runs of action systems

A system is given by its step function `step : σ → α → Option σ`, where `none` means that the action
is not enabled.
-/

namespace Transition

variable {σ α : Type*}

/-- Execute a list of actions; `none` as soon as one of them is not enabled. -/
def run (step : σ → α → Option σ) : σ → List α → Option σ
  | s, [] => some s
  | s, a :: as => (step s a).bind fun s' => run step s' as

/-- Every action of the list meets `C` in the state it is taken from. -/
def RunMeets (step : σ → α → Option σ) (C : σ → α → Prop) : σ → List α → Prop
  | _, [] => True
  | s, a :: as => C s a ∧ ∀ s', step s a = some s' → RunMeets step C s' as

variable {step : σ → α → Option σ} {C : σ → α → Prop}

@[simp] theorem run_nil (s : σ) : run step s [] = some s := rfl

theorem run_cons (s : σ) (a : α) (as : List α) :
    run step s (a :: as) = (step s a).bind fun s' => run step s' as := rfl

variable {as : List α} {s s' : σ}

theorem run_cons_eq_some {a : α} :
    run step s (a :: as) = some s' ↔ ∃ t, step s a = some t ∧ run step t as = some s' := by
  rw [run_cons, Option.bind_eq_some_iff]

theorem run_append (s : σ) (as bs : List α) :
    run step s (as ++ bs) = (run step s as).bind fun s' => run step s' bs := by
  induction as generalizing s with
  | nil => rfl
  | cons a as ih =>
    rw [List.cons_append, run_cons, run_cons]
    cases h : step s a with
    | none => rfl
    | some t => simpa using ih t

variable {I : σ → Prop}

/-- What one step preserves under `C`, every run that meets `C` preserves. -/
theorem RunMeets.invariant
    (hstep : ∀ s a s', I s → C s a → step s a = some s' → I s') (hs : I s) (hc : RunMeets step C s as)
    (hr : run step s as = some s') : I s' := by
  induction as generalizing s with
  | nil =>
    rw [run_nil, Option.some.injEq] at hr
    exact hr ▸ hs
  | cons a as ih =>
    obtain ⟨t, ht, hrest⟩ := run_cons_eq_some.mp hr
    exact ih (hstep s a t hs hc.1 ht) (hc.2 t ht) hrest

/-- `RunMeets` for a computable condition, by execution. -/
def meets (step : σ → α → Option σ) (c : σ → α → Bool) : σ → List α → Bool
  | _, [] => true
  | s, a :: as =>
    c s a && match step s a with
      | some s' => meets step c s' as
      | none => true

theorem RunMeets.of_meets {c : σ → α → Bool}
    (h : meets step c s as = true) : RunMeets step (fun s a => c s a = true) s as := by
  induction as generalizing s with
  | nil => trivial
  | cons a as ih =>
    rw [meets, Bool.and_eq_true] at h
    refine ⟨h.1, fun t ht => ih ?_⟩
    simpa [ht] using h.2

theorem RunMeets.mono {D : σ → α → Prop} (hCD : ∀ s a, C s a → D s a)
    (h : RunMeets step C s as) : RunMeets step D s as := by
  induction as generalizing s with
  | nil => trivial
  | cons a as ih => exact ⟨hCD s a h.1, fun t ht => ih (h.2 t ht)⟩

theorem RunMeets.of_decide [∀ s a, Decidable (C s a)]
    (h : meets step (fun s a => decide (C s a)) s as = true) : RunMeets step C s as :=
  (RunMeets.of_meets h).mono fun _ _ => of_decide_eq_true

theorem RunMeets.with_invariant {D : σ → α → Prop}
    (hstep : ∀ s a s', I s → C s a → step s a = some s' → I s') (hs : I s)
    (hD : ∀ s a, I s → C s a → D s a) (h : RunMeets step C s as) : RunMeets step D s as := by
  induction as generalizing s with
  | nil => trivial
  | cons a as ih => exact ⟨hD s a hs h.1, fun t ht => ih (hstep s a t hs h.1 ht) (h.2 t ht)⟩

theorem RunMeets.of_forall (h : ∀ s a, C s a) (s : σ) (as : List α) : RunMeets step C s as := by
  induction as generalizing s with
  | nil => trivial
  | cons a as ih => exact ⟨h s a, fun t _ => ih t⟩

theorem RunMeets.of_mem (h : ∀ a ∈ as, ∀ s, C s a) (s : σ) : RunMeets step C s as := by
  induction as generalizing s with
  | nil => trivial
  | cons a as ih =>
    refine ⟨h a List.mem_cons_self s, fun t _ => ih (fun b hb => ?_) t⟩
    exact h b (List.mem_cons_of_mem a hb)

/-- What every step preserves holds in every state of every run. -/
theorem run_invariant
    (hstep : ∀ s a s', I s → step s a = some s' → I s') (hs : I s) (hr : run step s as = some s') : I s' :=
  RunMeets.invariant (C := fun _ _ => True) (fun s a s' h _ => hstep s a s' h) hs
    (RunMeets.of_forall (fun _ _ => trivial) s as) hr

end Transition
