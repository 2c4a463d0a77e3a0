import Mathlib.Logic.Function.Basic
import Xv6.Lib.Program
import Xv6.Lib.Transition

/-!
# Processes that run programs side by side

Several processes share a state, and an operation of one may come between any two operations of
another. What a process owns is described by a private value, which exists for the proof only. A
protocol says what a process must own to do an operation, what it then learns from the result, and
what it may own afterwards. An invariant that every operation keeps, by a process that obeys the
protocol, holds in every interleaving.
-/

namespace Program

variable {Op : Type} {Ret : Op → Type} {α β σ ε γ ι κ : Type}

/-- What a process must own to do an operation, what it learns from the result, and what it may
own afterwards. -/
structure Protocol (Op : Type) (Ret : Op → Type) (γ : Type) where
  pre : Op → γ → Prop
  fact : (o : Op) → γ → Ret o → Prop
  rule : (o : Op) → γ → Ret o → γ → Prop

/-- A process that owns `g` can run the program, and ends with `Q`. -/
def Obeys (P : Protocol Op Ret γ) : Program Op Ret α → (α → γ → Prop) → γ → Prop
  | .pure a, Q, g => Q a g
  | .op o k, Q, g => P.pre o g ∧ ∀ r, P.fact o g r → ∃ g', P.rule o g r g' ∧ Obeys P (k r) Q g'

variable {P : Protocol Op Ret γ} {Q Q' : α → γ → Prop} {g : γ}

theorem Obeys.call {o : Op} {Q : Ret o → γ → Prop} (hpre : P.pre o g)
    (h : ∀ r, P.fact o g r → ∃ g', P.rule o g r g' ∧ Q r g') :
    Obeys P (Program.call o) Q g := ⟨hpre, h⟩

theorem Obeys.mono {m : Program Op Ret α} (h : Obeys P m Q g) (hQ : ∀ a g, Q a g → Q' a g) :
    Obeys P m Q' g := by
  induction m generalizing g with
  | pure a => exact hQ a g h
  | op o k ih =>
    refine ⟨h.1, fun r hr => ?_⟩
    obtain ⟨g', hg', hk⟩ := h.2 r hr
    exact ⟨g', hg', ih r hk⟩

theorem Obeys.bind {m : Program Op Ret β} {f : β → Program Op Ret α}
    (h : Obeys P m (fun b g' => Obeys P (f b) Q g') g) : Obeys P (m >>= f) Q g := by
  change Obeys P (m.bind f) Q g
  induction m generalizing g with
  | pure b => exact h
  | op o k ih =>
    refine ⟨h.1, fun r hr => ?_⟩
    obtain ⟨g', hg', hk⟩ := h.2 r hr
    exact ⟨g', hg', ih r hk⟩

/-- An operation of process `p` under condition `C` keeps the invariant `I`, where `I` speaks of
what every process owns and of the shared state. -/
def Keeps [DecidableEq ι] (P : Protocol Op Ret γ) (h : ι → Handler Op Ret σ ε)
    (I : (ι → γ) → σ → Prop) (C : ι → Op → σ → Prop) : Prop :=
  ∀ {G : ι → γ} {s s' : σ} {p : ι} {o : Op} {r : Ret o}, I G s → P.pre o (G p) → C p o s →
    h p o s = .ok (r, s') →
    P.fact o (G p) r ∧ ∀ g', P.rule o (G p) r g' → I (Function.update G p g') s'

variable [DecidableEq ι] {h : ι → Handler Op Ret σ ε} {I : (ι → γ) → σ → Prop}
  {C : ι → Op → σ → Prop}

end Program

namespace Interleave

open Program Transition
open Function (update update_self update_of_ne)

variable {Op : Type} {Ret : Op → Type} {σ ε γ ι κ : Type}

/-- What the processes `ι` can do: the operations, the programs of their calls `κ`, and when a
process can make a call. -/
structure System (Op : Type) (Ret : Op → Type) (σ ε ι κ : Type) where
  handler : ι → Handler Op Ret σ ε
  prog : κ → Program Op Ret Unit
  ready : σ → ι → Bool

/-- A call that a process is making: the operations done, and what is left of its program. -/
structure Running (Op : Type) (Ret : Op → Type) (κ : Type) where
  call : κ
  done : List Op
  rest : Program Op Ret Unit

/-- The shared state and the calls of the processes. -/
structure State (Op : Type) (Ret : Op → Type) (σ ι κ : Type) where
  shared : σ
  running : ι → Option (Running Op Ret κ)

inductive Action (ι κ : Type)
  | start (p : ι) (c : κ)
  | step (p : ι)

def State.next (x : State Op Ret σ ι κ) (p : ι) : Option Op :=
  match x.running p with
  | some ⟨_, _, .op o _⟩ => some o
  | _ => none

def initial (s : σ) : State Op Ret σ ι κ := ⟨s, fun _ => none⟩

section

variable [DecidableEq ι] (S : System Op Ret σ ε ι κ)

/-- One action. A process whose operation has to wait or has stopped the kernel does not go on. -/
def step (x : State Op Ret σ ι κ) : Action ι κ → Option (State Op Ret σ ι κ)
  | .start p c =>
    match x.running p with
    | none =>
      if S.ready x.shared p then
        some { x with running := update x.running p (some ⟨c, [], S.prog c⟩) }
      else none
    | some _ => none
  | .step p =>
    match x.running p with
    | none => none
    | some ⟨_, _, .pure _⟩ => some { x with running := update x.running p none }
    | some ⟨c, done, .op o k⟩ =>
      match S.handler p o x.shared with
      | .ok (r, s) => some ⟨s, update x.running p (some ⟨c, done ++ [o], k r⟩)⟩
      | .error _ => none

end

/-- The operation of an action meets a condition in the shared state. -/
def Meets (C : ι → Op → σ → Prop) (x : State Op Ret σ ι κ) : Action ι κ → Prop
  | .start _ _ => True
  | .step p => ∀ o ∈ x.next p, C p o x.shared

/-- The operations keep the invariant `I`, and the programs of the calls obey the protocol. A
process owns `idle` between calls and `first c` when it makes call `c`, and `ended` says what it
may own when the call is over. `T` relates what a process owns to what it has done. -/
structure Sound [DecidableEq ι] (S : System Op Ret σ ε ι κ) (P : Protocol Op Ret γ)
    (I : (ι → γ) → σ → Prop) (C : ι → Op → σ → Prop) (idle : γ) (first : κ → γ)
    (ended : γ → Prop) (T : κ → List Op → γ → Prop) : Prop where
  op : Keeps P S.handler I C
  start : ∀ {G s p} (c : κ), I G s → G p = idle → S.ready s p = true →
    I (update G p (first c)) s
  finish : ∀ {G s p}, I G s → ended (G p) → I (update G p idle) s
  obeys : ∀ c, Obeys P (S.prog c) (fun _ => ended) (first c)
  track_first : ∀ c, T c [] (first c)
  track_op : ∀ {c done o g r g'}, T c done g → P.pre o g → P.rule o g r g' → T c (done ++ [o]) g'

/-- What process `p` owns fits its call. -/
def Fits (P : Protocol Op Ret γ) (idle : γ) (ended : γ → Prop) (T : κ → List Op → γ → Prop)
    (x : State Op Ret σ ι κ) (p : ι) (g : γ) : Prop :=
  match x.running p with
  | none => g = idle
  | some R => Obeys P R.rest (fun _ => ended) g ∧ T R.call R.done g

variable {S : System Op Ret σ ε ι κ} {P : Protocol Op Ret γ} {I : (ι → γ) → σ → Prop} {C : ι → Op → σ → Prop} {idle : γ}
  {first : κ → γ} {ended : γ → Prop} {T : κ → List Op → γ → Prop}

/-- The invariant holds, and what the processes own fits their calls. -/
def Covered (P : Protocol Op Ret γ) (I : (ι → γ) → σ → Prop) (idle : γ) (ended : γ → Prop)
    (T : κ → List Op → γ → Prop) (x : State Op Ret σ ι κ) : Prop :=
  ∃ G, I G x.shared ∧ ∀ p, Fits P idle ended T x p (G p)

variable {x : State Op Ret σ ι κ} {p : ι} {g : γ}

theorem Fits.of_running {R : Running Op Ret κ}
    (h : Fits P idle ended T x p g) (hR : x.running p = some R) :
    Obeys P R.rest (fun _ => ended) g ∧ T R.call R.done g := by
  rw [Fits, hR] at h
  exact h

theorem Fits.of_idle (h : Fits P idle ended T x p g) (hR : x.running p = none) : g = idle := by
  rw [Fits, hR] at h
  exact h

variable [DecidableEq ι]

theorem fits_update {G : ι → γ} (hG : ∀ q, Fits P idle ended T x q (G q)) {s : σ} {R : Option (Running Op Ret κ)}
    (hp : Fits P idle ended T (⟨s, update x.running p R⟩ : State Op Ret σ ι κ) p g)
    (q : ι) : Fits P idle ended T (⟨s, update x.running p R⟩ : State Op Ret σ ι κ) q
      (update G p g q) := by
  by_cases hq : q = p
  · rw [hq, update_self]
    exact hp
  · have := hG q
    rw [update_of_ne hq]
    simpa only [Fits, update_of_ne hq] using this

theorem Sound.step (hS : Sound S P I C idle first ended T) {x' : State Op Ret σ ι κ}
    {a : Action ι κ} (hx : Covered P I idle ended T x) (ha : Meets C x a)
    (h : step S x a = some x') : Covered P I idle ended T x' := by
  obtain ⟨G, hI, hG⟩ := hx
  cases a with
  | start p c =>
    rw [Interleave.step] at h
    cases hp : x.running p with
    | some R =>
      rw [hp] at h
      cases h
    | none =>
      rw [hp] at h
      by_cases hr : S.ready x.shared p = true
      · simp only [hr, if_true, Option.some.injEq] at h
        subst h
        refine ⟨update G p (first c), hS.start c hI ((hG p).of_idle hp) hr,
          fits_update hG ?_⟩
        rw [Fits]
        simp only [update_self]
        exact ⟨hS.obeys c, hS.track_first c⟩
      · simp [hr] at h
  | step p =>
    rw [Interleave.step] at h
    cases hp : x.running p with
    | none =>
      rw [hp] at h
      cases h
    | some R =>
      obtain ⟨c, done, m⟩ := R
      obtain ⟨hob, hT⟩ := (hG p).of_running hp
      rw [hp] at h
      cases m with
      | pure u =>
        cases h
        refine ⟨update G p idle, hS.finish hI hob, fits_update hG ?_⟩
        rw [Fits]
        simp only [update_self]
      | op o k =>
        have hC : C p o x.shared := ha o (by simp [State.next, hp])
        dsimp only at h
        cases ho : S.handler p o x.shared with
        | error e =>
          rw [ho] at h
          cases h
        | ok q =>
          obtain ⟨r, s⟩ := q
          rw [ho] at h
          cases h
          obtain ⟨hfact, hrule⟩ := hS.op hI hob.1 hC ho
          obtain ⟨g', hg', hk⟩ := hob.2 r hfact
          refine ⟨update G p g', hrule g' hg', fits_update hG ?_⟩
          rw [Fits]
          simp only [update_self]
          exact ⟨hk, hS.track_op hT hob.1 hg'⟩

/-- **Processes that obey the protocol keep the invariant in every interleaving.** -/
theorem Sound.run (hS : Sound S P I C idle first ended T) {s : σ} (hs : I (fun _ => idle) s)
    {as : List (Action ι κ)} (hmeets : RunMeets (Interleave.step S) (Meets C) (initial s) as)
    (h : run (Interleave.step S) (initial s) as = some x) : Covered P I idle ended T x := by
  have hinit : Covered P I idle ended T (initial s : State Op Ret σ ι κ) :=
    ⟨fun _ => idle, hs, fun p => by rw [Fits, initial]⟩
  exact RunMeets.invariant (fun _ _ _ hx ha hstep => hS.step hx ha hstep) hinit hmeets h

end Interleave
