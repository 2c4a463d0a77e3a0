import Xv6.Lib.Hoare

/-!
# Programs over operations

A program is written against a set of operations; a handler runs each of them on a state. If the
operations on a concrete state simulate those on an abstract one, so does every program.
-/

/-- A program over the operations `Op`, where `Ret o` is what `o` returns. -/
inductive Program (Op : Type) (Ret : Op → Type) (α : Type) : Type
  | pure (a : α)
  | op (o : Op) (k : Ret o → Program Op Ret α)

namespace Program

open Hoare

variable {Op : Type} {Ret : Op → Type} {α β σ τ ε : Type}

def bind : Program Op Ret α → (α → Program Op Ret β) → Program Op Ret β
  | .pure a, f => f a
  | .op o k, f => .op o fun r => (k r).bind f

instance : Monad (Program Op Ret) where
  pure := .pure
  bind := .bind

def call (o : Op) : Program Op Ret (Ret o) := .op o .pure

abbrev Handler (Op : Type) (Ret : Op → Type) (σ ε : Type) : Type :=
  (o : Op) → StateT σ (Except ε) (Ret o)

def exec (h : Handler Op Ret σ ε) : Program Op Ret α → StateT σ (Except ε) α
  | .pure a => Pure.pure a
  | .op o k => h o >>= fun r => exec h (k r)

variable {h : Handler Op Ret σ ε}

@[simp] theorem exec_call (o : Op) : exec h (call o) = h o := by
  change (h o >>= fun r => Pure.pure r) = h o
  exact bind_pure (h o)

theorem exec_bind (p : Program Op Ret α) (f : α → Program Op Ret β) :
    exec h (p >>= f) = exec h p >>= fun a => exec h (f a) := by
  change exec h (p.bind f) = _
  induction p with
  | pure a => exact (pure_bind a fun a => exec h (f a)).symm
  | op o k ih =>
    rw [Program.bind, exec, exec, bind_assoc]
    exact congrArg (h o >>= ·) (funext fun r => ih r)

theorem wp_exec_bind {p : Program Op Ret α} {f : α → Program Op Ret β} {Q : β → σ → Prop}
    {E : ε → Prop} {s : σ} : wp (exec h (p >>= f)) Q E s ↔
      wp (exec h p) (fun a s' => wp (exec h (f a)) Q E s') E s := by
  rw [exec_bind, wp_bind]

/-- Whatever the operations return, the program returns a value that satisfies `Q`. -/
def Always (Q : α → Prop) : Program Op Ret α → Prop
  | .pure a => Q a
  | .op _ k => ∀ r, Always Q (k r)

theorem Always.bind {Q : β → Prop} (p : Program Op Ret α) {f : α → Program Op Ret β}
    (hf : ∀ a, Always Q (f a)) : Always Q (p >>= f) := by
  change Always Q (p.bind f)
  induction p with
  | pure a => exact hf a
  | op o k ih => exact fun r => ih r

/-- What a program always returns it returns in every run. -/
theorem Always.wp_exec {Q : α → Prop} {p : Program Op Ret α} (hp : Always Q p) (s : σ) :
    wp (exec h p) (fun a _ => Q a) (fun _ => True) s := by
  induction p generalizing s with
  | pure a => exact hp
  | op o k ih =>
    refine wp_bind.mpr ?_
    cases ho : h o s with
    | ok q => exact (wp_of_ok ho).mpr (ih q.1 (hp q.1) q.2)
    | error e => exact (wp_of_error ho).mpr trivial

/-- The concrete result `x` is explained by the abstract result `y`: they return the same value
in related states, or stop for the same reason. Nothing is asked when the concrete side ran
into a limit the abstract one does not have, or the abstract side went wrong. -/
def Matches (R : σ → τ → Prop) (Limit : ε → Prop) (wrong : ε) (x : Except ε (α × σ))
    (y : Except ε (α × τ)) : Prop :=
  y = .error wrong ∨
    match x with
    | .ok (a, s) => ∃ t, y = .ok (a, t) ∧ R s t
    | .error e => Limit e ∨ y = .error e

/-- **Programs preserve a simulation of the operations.** -/
theorem exec_matches {h₁ : Handler Op Ret σ ε} {h₂ : Handler Op Ret τ ε} {R : σ → τ → Prop}
    {Limit : ε → Prop} {wrong : ε}
    (hsim : ∀ o s t, R s t → Matches R Limit wrong (h₁ o s) (h₂ o t)) (p : Program Op Ret α)
    {s : σ} {t : τ} (hst : R s t) : Matches R Limit wrong (exec h₁ p s) (exec h₂ p t) := by
  induction p generalizing s t with
  | pure a => exact Or.inr ⟨t, rfl, hst⟩
  | op o k ih =>
    change Matches R Limit wrong (h₁ o s >>= fun q => exec h₁ (k q.1) q.2)
      (h₂ o t >>= fun q => exec h₂ (k q.1) q.2)
    rcases hsim o s t hst with hw | hm
    · rw [hw]
      exact Or.inl rfl
    · cases hx : h₁ o s with
      | ok q =>
        obtain ⟨r, s'⟩ := q
        rw [hx] at hm
        obtain ⟨t', ht', hst'⟩ := hm
        rw [ht']
        exact ih r hst'
      | error e =>
        rw [hx] at hm
        rcases hm with hl | he
        · exact Or.inr (Or.inl hl)
        · rw [he]
          exact Or.inr (Or.inr rfl)

end Program
