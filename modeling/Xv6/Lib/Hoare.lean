import Mathlib.Order.Basic

/-!
# Weakest preconditions for stateful computations that can stop

A computation `StateT σ (Except ε) α` returns a value and a state or stops with an `ε`. `wp m Q E s`
says that from `s` it ends with `Q`, or stops with `E`.
-/

namespace Hoare

variable {σ ε α β : Type} {m : StateT σ (Except ε) α} {Q Q' : α → σ → Prop} {E E' : ε → Prop}
  {s s' : σ}

def wp (m : StateT σ (Except ε) α) (Q : α → σ → Prop) (E : ε → Prop) (s : σ) : Prop :=
  match m s with
  | .ok (a, s') => Q a s'
  | .error e => E e

variable {a : α}

theorem wp_of_ok (h : m s = .ok (a, s')) : wp m Q E s ↔ Q a s' := by
  rw [wp, h]

theorem wp_of_error {e : ε} (h : m s = .error e) : wp m Q E s ↔ E e := by
  rw [wp, h]

theorem wp.ok (h : wp m Q E s) (hm : m s = .ok (a, s')) : Q a s' :=
  (wp_of_ok hm).mp h

theorem wp.error (h : wp m Q E s) {e : ε} (hm : m s = .error e) : E e :=
  (wp_of_error hm).mp h

theorem wp.returns (h : wp m Q (fun _ => False) s) : ∃ a s', m s = .ok (a, s') ∧ Q a s' := by
  cases hm : m s with
  | ok q => exact ⟨q.1, q.2, rfl, h.ok hm⟩
  | error e => exact (h.error hm).elim

theorem exists_of_map_fst {x : Except ε (α × σ)} (h : x.map Prod.fst = .ok a) :
    ∃ s, x = .ok (a, s) := by
  cases x with
  | error e => cases h
  | ok q =>
    cases h
    exact ⟨q.2, rfl⟩

@[simp] theorem wp_pure (a : α) : wp (pure a) Q E s ↔ Q a s := Iff.rfl

theorem wp_bind {f : α → StateT σ (Except ε) β} {Q : β → σ → Prop} :
    wp (m >>= f) Q E s ↔ wp m (fun a s' => wp (f a) Q E s') E s := by
  rw [wp, wp]
  change (match (m s >>= fun p => f p.1 p.2) with
    | .ok (a, s') => Q a s'
    | .error e => E e) ↔ _
  cases m s with
  | ok p => exact Iff.rfl
  | error e => exact Iff.rfl

theorem wp.mono (h : wp m Q E s) (hQ : ∀ a s', Q a s' → Q' a s') (hE : ∀ e, E e → E' e) :
    wp m Q' E' s := by
  rw [wp] at h ⊢
  split at h
  · exact hQ _ _ h
  · exact hE _ h

theorem wp.bind {f : α → StateT σ (Except ε) β} {Q : β → σ → Prop} {R : α → σ → Prop}
    (h : wp m R E s) (hf : ∀ a s', R a s' → wp (f a) Q E s') : wp (m >>= f) Q E s :=
  wp_bind.mpr (h.mono hf fun _ he => he)

theorem wp_ite {c : Prop} [Decidable c] {m' : StateT σ (Except ε) α}
    (ht : c → wp m Q E s) (he : ¬ c → wp m' Q E s) : wp (if c then m else m') Q E s := by
  split
  · exact ht ‹_›
  · exact he ‹_›

end Hoare
