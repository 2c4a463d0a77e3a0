import Xv6.Lib.Lock
import Xv6.Sched.Slots

/-!
# Which process runs on which cpu

`ptable.lock` is taken by one context and given back by another. The invariant follows it through
`swtch`: a process on a cpu is `RUNNING` unless it is about to switch away, and then its cpu holds
the lock.
-/

namespace Xv6.Sched

open Transition
open Function (update update_self update_of_ne update_apply)

variable {s t : State} {a : Action} {c p q r i np : Nat} {k : Pc}
  {sz pgdir kstack cwd ticks : Nat}

/-- A process that has been switched out can be picked again and go on here. -/
def Pc.resumes : Pc → Bool
  | .release _ | .waitTidy | .sleepTidy => true
  | _ => false

def Pc.state : Pc → ProcState
  | .sched (.release _) => .runnable
  | .sched .exited => .zombie
  | .sched _ => .sleeping
  | _ => .running

/-- A running process can be here: it takes the lock where it does not hold it, and gives it
back or hands it over where it does. -/
def Pc.ok : Pc → Bool
  | .acquire k => k.ok && k.holdsLock && k.state = .running
  | .release k | .yieldMark k => k.ok && !k.holdsLock
  | .sched k => k.ok && (k.resumes || k = .exited)
  | .switched _ => false
  | _ => true

/-- What a process does once it has the lock, has given it back or runs again. -/
def Pc.core : Pc → Pc
  | .acquire k | .release k | .sched k | .switched k | .yieldMark k => k.core
  | k => k

def Pc.child (k : Pc) : Option Nat :=
  match k.core with
  | .allocStack np | .forkCopy np | .forkFill np | .forkPublish np => some np
  | _ => none

def Pc.framed (k : Pc) : Option Nat :=
  match k.core with
  | .forkCopy np | .forkFill np | .forkPublish np => some np
  | _ => none

theorem Pc.child_of_framed (h : k.framed = some np) : k.child = some np := by
  rw [framed] at h
  rw [child]
  split at h <;> simp_all

theorem Pc.holdsLock_of_state (h : k.state ≠ .running) : k.holdsLock := by
  cases k <;> simp_all [state, holdsLock]

theorem Pc.state_of_resumes (h : k.resumes) : k.state = .running := by
  cases k <;> simp_all [state, resumes]

theorem Pc.holdsLock_of_resumes (h : k.resumes) : k.holdsLock := by
  cases k <;> simp_all [holdsLock, resumes]

theorem Pc.state_sched_ne (k : Pc) : (Pc.sched k).state ≠ .running := by
  cases k <;> simp [state]

theorem Pc.state_cases (k : Pc) : k.state = .running ∨ k.state = .runnable ∨
    k.state = .sleeping ∨ k.state = .zombie := by
  unfold state
  split <;> simp

def State.holds (s : State) (c : Nat) : Prop :=
  match (s.cpu c).stack with
  | some p => (s.pc p).holdsLock
  | none => (s.cpu c).pc ≠ .idle

structure Placed (s : State) : Prop where
  proc_iff : ∀ c p, (s.cpu c).proc = some p ↔ (s.cpu c).pc = .back p
  stack : ∀ c p, (s.cpu c).stack = some p → (s.cpu c).proc = some p
  inj : ∀ c d p, (s.cpu c).stack = some p → (s.cpu d).stack = some p → c = d
  lock : ∀ c, s.lock = some c ↔ s.holds c
  ok : ∀ c p, (s.cpu c).stack = some p → (s.pc p).ok
  state : ∀ c p, (s.cpu c).stack = some p → (s.proc p).state = (s.pc p).state
  running : ∀ p, (s.proc p).state = .running → ∃ c, (s.cpu c).stack = some p
  /-- a process that waits for a cpu, or sleeps, can go on -/
  resumes : ∀ p, (∀ c, (s.cpu c).stack ≠ some p) →
    (s.proc p).state = .runnable ∨ (s.proc p).state = .sleeping →
      ∃ k, s.pc p = .switched k ∧ k.ok ∧ k.resumes
  child : ∀ p np, (s.pc p).child = some np → (s.proc np).state = .embryo
  framed : ∀ p np, (s.pc p).framed = some np → s.pc np = .switched (.release .user)
  child_inj : ∀ p q np, (s.pc p).child = some np → (s.pc q).child = some np → p = q

theorem Placed.holds_unique (h : Placed s) {d : Nat} (hc : s.holds c) (hd : s.holds d) : c = d := by
  have hl := (h.lock c).mpr hc
  rw [(h.lock d).mpr hd, Option.some.injEq] at hl
  exact hl.symm

theorem holds_of_stack (hp : (s.cpu c).stack = some p) : s.holds c ↔ (s.pc p).holdsLock := by
  rw [State.holds, hp]

theorem holds_of_none (hp : (s.cpu c).stack = none) : s.holds c ↔ (s.cpu c).pc ≠ .idle := by
  rw [State.holds, hp]

theorem holds_congr {d : Nat} (hcpu : t.cpu d = s.cpu d)
    (hpc : ∀ q, (s.cpu d).stack = some q → t.pc q = s.pc q) : t.holds d ↔ s.holds d := by
  rw [State.holds, State.holds, hcpu]
  cases hd : (s.cpu d).stack with
  | none => rfl
  | some q => simp only [hpc q hd]

theorem Placed.running_of_ne (h : Placed s) {d : Nat} (hc : s.holds c)
    (hq : (s.cpu d).stack = some q) (hcd : d ≠ c) : (s.proc q).state = .running := by
  by_contra hne
  rw [h.state d q hq] at hne
  exact hcd (h.holds_unique ((holds_of_stack hq).mpr (Pc.holdsLock_of_state hne)) hc)

theorem Placed.made (h : Placed s) (hq : (s.cpu c).stack = some q) :
    (s.proc q).state ≠ .unused ∧ (s.proc q).state ≠ .embryo := by
  rw [h.state c q hq]
  rcases (s.pc q).state_cases with e | e | e | e <;> simp [e]

theorem Placed.ne_child (h : Placed s) (hq : (s.cpu c).stack = some q)
    (hp : (s.pc p).child = some np) : q ≠ np := by
  rintro rfl
  exact (h.made hq).2 (h.child p q hp)

theorem Placed.children (h : Placed s) (hcore : ∀ q, (t.pc q).core = (s.pc q).core)
    (hemb : ∀ q, (s.proc q).state = .embryo →
      (t.proc q).state = .embryo ∧ t.pc q = s.pc q) :
    (∀ p np, (t.pc p).child = some np → (t.proc np).state = .embryo) ∧
    (∀ p np, (t.pc p).framed = some np → t.pc np = .switched (.release .user)) ∧
    ∀ p q np, (t.pc p).child = some np → (t.pc q).child = some np → p = q := by
  have hchild : ∀ p, (t.pc p).child = (s.pc p).child := fun p => by
    rw [Pc.child, Pc.child, hcore]
  have hframed : ∀ p, (t.pc p).framed = (s.pc p).framed := fun p => by
    rw [Pc.framed, Pc.framed, hcore]
  simp only [hchild, hframed]
  refine ⟨fun p np hp => (hemb np (h.child p np hp)).1, fun p np hp => ?_, h.child_inj⟩
  rw [(hemb np (h.child p np (Pc.child_of_framed hp))).2, h.framed p np hp]

/-- Process `p` goes on at `k`, and the cpus stay as they are. -/
structure Moves (s t : State) (p : Nat) (k : Pc) : Prop where
  cpu : t.cpu = s.cpu
  pc : t.pc = update s.pc p k
  initproc : t.initproc = s.initproc

theorem Moves.self (h : Moves s t p k) : t.pc p = k := by rw [h.pc, update_self]

theorem Moves.other (h : Moves s t p k) (hq : q ≠ p) : t.pc q = s.pc q := by
  rw [h.pc, update_of_ne hq]

theorem Moves.all {P : Nat → Pc → Prop} (h : Moves s t p k) (hp : P p k)
    (hne : ∀ q, q ≠ p → P q (s.pc q)) (q : Nat) : P q (t.pc q) := by
  rw [h.pc]
  exact (Function.forall_update_iff s.pc P).mpr ⟨hp, hne⟩ q

/-- What a step of process `p` can make of the state of another slot. -/
inductive Shift (s : State) (p q : Nat) : ProcState → Prop
  | same : Shift s p q (s.proc q).state
  | wake (hoff : ∀ c, (s.cpu c).stack ≠ some q) (hs : (s.proc q).state = .sleeping) :
      Shift s p q .runnable
  | reap (hoff : ∀ c, (s.cpu c).stack ≠ some q) (hs : (s.proc q).state = .zombie) :
      Shift s p q .unused
  | alloc (hs : (s.proc q).state = .unused) : Shift s p q .embryo
  | drop (hc : (s.pc p).child = some q) : Shift s p q .unused
  | publish (hc : (s.pc p).framed = some q) : Shift s p q .runnable

/-- What a step of process `p` on cpu `c` that goes on at `k` can do with the lock. -/
inductive LockMove (s t : State) (c p : Nat) (k : Pc) : Prop
  | keep (hl : t.lock = s.lock) (hk : k.holdsLock = (s.pc p).holdsLock)
  | take (hs : s.lock = none) (hl : t.lock = some c) (hk : k.holdsLock = true)
  | give (hp : (s.pc p).holdsLock = true) (hl : t.lock = none) (hk : k.holdsLock = false)

theorem LockMove.lock (hl : LockMove s t c p k) (h : Placed s) (hp : (s.cpu c).stack = some p)
    (hc : t.holds c ↔ k.holdsLock) (hd : ∀ d, d ≠ c → (t.holds d ↔ s.holds d)) (d : Nat) :
    t.lock = some d ↔ t.holds d := by
  by_cases hdc : d = c
  · subst hdc
    rw [hc]
    cases hl with
    | keep hl hk => rw [hl, hk, h.lock, holds_of_stack hp]
    | take _ hl hk => simp [hl, hk]
    | give _ hl hk => simp [hl, hk]
  · rw [hd d hdc]
    cases hl with
    | keep hl _ => rw [hl, h.lock]
    | take hs hl _ =>
      rw [hl, ← h.lock, hs]
      simpa using fun e => hdc e.symm
    | give hp' hl _ =>
      rw [hl]
      refine ⟨nofun, fun hd' => ?_⟩
      exact absurd (h.holds_unique hd' ((holds_of_stack hp).mpr hp')) hdc

/-- **A step of a process.** Process `p` on cpu `c` goes on at `k`. -/
theorem Placed.move (h : Placed s) (hp : (s.cpu c).stack = some p) (hm : Moves s t p k)
    (hl : LockMove s t c p k) (hok : k.ok) (hstate : (t.proc p).state = k.state)
    (hshift : ∀ q, q ≠ p → Shift s p q (t.proc q).state)
    (hchild : ∀ np, k.child = some np → (t.proc np).state = .embryo ∧
      ((s.pc p).child = some np ∨ (s.proc np).state = .unused))
    (hframed : ∀ np, k.framed = some np → s.pc np = .switched (.release .user)) : Placed t := by
  -- a process on another cpu keeps its state
  have hkeep : ∀ d q, (s.cpu d).stack = some q → q ≠ p →
      (t.proc q).state = (s.proc q).state := by
    intro d q hq hqp
    have hs := hshift q hqp
    generalize (t.proc q).state = st at hs
    cases hs with
    | same => rfl
    | wake hoff | reap hoff => exact absurd hq (hoff d)
    | alloc hs => exact absurd hs (h.made hq).1
    | drop hc => exact absurd rfl (h.ne_child hq hc)
    | publish hc => exact absurd rfl (h.ne_child hq (Pc.child_of_framed hc))
  refine
    { proc_iff := hm.cpu ▸ h.proc_iff
      stack := hm.cpu ▸ h.stack
      inj := hm.cpu ▸ h.inj
      lock := hl.lock h hp ?_ ?_
      ok := fun d q hq => ?_
      state := fun d q hq => ?_
      running := fun q hq => ?_
      resumes := fun q hoff hq => ?_
      child := fun q np hq => ?_
      framed := fun q np hq => ?_
      child_inj := fun q q' np hq hq' => ?_ }
  · rw [holds_of_stack (by rw [hm.cpu, hp]), hm.self]
  · intro d hdc
    refine holds_congr (by rw [hm.cpu]) fun q hd => hm.other ?_
    rintro rfl
    exact hdc (h.inj d c q hd hp)
  · rw [hm.cpu] at hq
    exact hm.all (P := fun q k => (s.cpu d).stack = some q → k.ok) (fun _ => hok)
      (fun q _ => h.ok d q) q hq
  · rw [hm.cpu] at hq
    refine hm.all (P := fun q k => (s.cpu d).stack = some q → (t.proc q).state = k.state)
      (fun _ => hstate) (fun q hqp hq => ?_) q hq
    rw [hkeep d q hq hqp, h.state d q hq]
  · rw [hm.cpu]
    by_cases hqp : q = p
    · exact ⟨c, hqp ▸ hp⟩
    · have hs := hshift q hqp
      rw [hq] at hs
      generalize hst : ProcState.running = st at hs
      cases hs with
      | same => exact h.running q hst.symm
      | wake | reap | alloc | drop | publish => cases hst
  · rw [hm.cpu] at hoff
    have hqp : q ≠ p := fun e => hoff c (e ▸ hp)
    rw [hm.other hqp]
    have hs := hshift q hqp
    generalize (t.proc q).state = st at hs hq
    cases hs with
    | same => exact h.resumes q hoff hq
    | wake _ hs => exact h.resumes q hoff (Or.inr hs)
    | reap | alloc | drop => simp at hq
    | publish hc => exact ⟨_, h.framed p q hc, rfl, rfl⟩
  · refine hm.all (P := fun _ k => k.child = some np → (t.proc np).state = .embryo)
      (fun hk => (hchild np hk).1) (fun q hqp hq => ?_) q hq
    have hemb := h.child q np hq
    have hs := hshift np fun e => (h.made hp).2 (e ▸ hemb)
    generalize (t.proc np).state = st at hs
    cases hs with
    | same => exact hemb
    | wake _ hs | reap _ hs => simp [hs] at hemb
    | alloc => rfl
    | drop hc => exact absurd (h.child_inj q p np hq hc) hqp
    | publish hc => exact absurd (h.child_inj q p np hq (Pc.child_of_framed hc)) hqp
  · have hsw := hm.all (P := fun _ k => k.framed = some np → s.pc np = .switched (.release .user))
      (hframed np) (fun q _ => h.framed q np) q hq
    rw [hm.other, hsw]
    rintro rfl
    have := h.ok c np hp
    simp [hsw, Pc.ok] at this
  · -- a child that is new was in nobody's hands
    have hnew : ∀ q, q ≠ p → (s.pc q).child = some np → k.child = some np → False := by
      intro q hqp hq hk
      rcases (hchild np hk).2 with hc | hun
      · exact hqp (h.child_inj q p np hq hc)
      · simp [h.child q np hq] at hun
    by_cases hqp : q = p <;> by_cases hqp' : q' = p
    · rw [hqp, hqp']
    · subst hqp
      rw [hm.self] at hq
      rw [hm.other hqp'] at hq'
      exact (hnew q' hqp' hq' hq).elim
    · subst hqp'
      rw [hm.self] at hq'
      rw [hm.other hqp] at hq
      exact (hnew q hqp hq hq').elim
    · rw [hm.other hqp] at hq
      rw [hm.other hqp'] at hq'
      exact h.child_inj q q' np hq hq'

theorem Placed.off (h : Placed s) (hp : (s.cpu c).stack = some p) (hl : (s.pc p).holdsLock)
    (hqp : q ≠ p) (hq : (s.proc q).state ≠ .running) (d : Nat) : (s.cpu d).stack ≠ some q := by
  intro hd
  have hdc : d ≠ c := by
    rintro rfl
    rw [hp, Option.some.injEq] at hd
    exact hqp hd.symm
  exact hq (h.running_of_ne ((holds_of_stack hp).mpr hl) hd hdc)

variable {x : Proc}

theorem state_update {proc : Nat → Proc} (hx : x.state = (proc i).state) (q : Nat) :
    (update proc i x q).state = (proc q).state := by
  by_cases hqi : q = i
  · rw [hqi, update_self, hx]
  · rw [update_of_ne hqi]

theorem Shift.of_update (hx : q = i → Shift s p i x.state) :
    Shift s p q (update s.proc i x q).state := by
  by_cases hqi : q = i
  · subst hqi
    rw [update_self]
    exact hx rfl
  · rw [update_of_ne hqi]
    exact .same

theorem Placed.goto (h : Placed s) (hp : (s.cpu c).stack = some p)
    (hproc : ∀ q, (t.proc q).state = (s.proc q).state) (hm : Moves s t p k)
    (hl : LockMove s t c p k) (hok : k.ok) (hrun : (s.pc p).state = .running)
    (hk : k.state = .running) (hchild : ∀ np, k.child = some np → (s.pc p).child = some np)
    (hframed : ∀ np, k.framed = some np →
      (s.pc p).framed = some np ∨ s.pc np = .switched (.release .user)) : Placed t := by
  refine h.move hp hm hl hok ?_ (fun q _ => ?_) (fun np hnp => ?_) fun np hnp => ?_
  · rw [hproc, h.state c p hp, hrun, hk]
  · rw [hproc]
    exact .same
  · rw [hproc]
    exact ⟨h.child p np (hchild np hnp), Or.inl (hchild np hnp)⟩
  · exact (hframed np hnp).elim (h.framed p np) id

theorem Placed.frame (h : Placed s) (hnp : (s.proc np).state = .embryo) :
    Placed (s.goto np (.switched (.release .user))) := by
  generalize ht : s.goto np (.switched (.release .user)) = t
  have hm : Moves s t np (.switched (.release .user)) := by
    subst ht
    exact ⟨rfl, rfl, rfl⟩
  have hon : ∀ c q, (s.cpu c).stack = some q → t.pc q = s.pc q := by
    refine fun c q hq => hm.other ?_
    rintro rfl
    exact (h.made hq).2 hnp
  -- the new process itself makes no child
  have hmakes : ∀ m q, (t.pc q).child = some m → (s.pc q).child = some m := fun m =>
    hm.all (P := fun q k => k.child = some m → (s.pc q).child = some m) nofun fun q _ => id
  have hframed : ∀ m q, (t.pc q).framed = some m → s.pc m = .switched (.release .user) := fun m =>
    hm.all (P := fun q k => k.framed = some m → s.pc m = .switched (.release .user)) nofun
      fun q _ => h.framed q m
  have hlock : ∀ c, t.lock = some c ↔ t.holds c := fun c => by
    rw [holds_congr (by rw [hm.cpu]) (hon c), ← h.lock, ← ht]
    rfl
  subst ht
  refine { h with
    lock := hlock
    ok := fun c q hq => ?_
    state := fun c q hq => ?_
    resumes := fun q hq hs => ?_
    child := fun q m hq => h.child q m (hmakes m q hq)
    framed := fun q m hq => ?_
    child_inj := fun q q' m hq hq' => h.child_inj q q' m (hmakes m q hq) (hmakes m q' hq') }
  · rw [hon c q hq]
    exact h.ok c q hq
  · rw [hon c q hq]
    exact h.state c q hq
  · rw [hm.other]
    · exact h.resumes q hq hs
    · rintro rfl
      have hs : (s.proc q).state = .runnable ∨ (s.proc q).state = .sleeping := hs
      simp [hnp] at hs
  · by_cases hmnp : m = np
    · rw [hmnp, hm.self]
    · rw [hm.other hmnp]
      exact hframed m q hq

theorem Pc.no_child {P : Nat → Prop} (h : k.child = none) (np : Nat) (hnp : k.child = some np) :
    P np := by
  rw [h] at hnp
  cases hnp

theorem Pc.no_framed {P : Nat → Prop} (h : k.child = none) (np : Nat) (hnp : k.framed = some np) :
    P np :=
  no_child h np (child_of_framed hnp)

theorem Placed.plain (h : Placed s) (hp : (s.cpu c).stack = some p)
    (hproc : ∀ q, (t.proc q).state = (s.proc q).state) (hm : Moves s t p k)
    (hl : LockMove s t c p k) (hok : k.ok) (hrun : (s.pc p).state = .running)
    (hk : k.state = .running) (hchild : k.child = none) : Placed t :=
  h.goto hp hproc hm hl hok hrun hk (Pc.no_child hchild) (Pc.no_framed hchild)

theorem Placed.mark (h : Placed s) (hp : (s.cpu c).stack = some p)
    (hproc : t.proc = update s.proc p x) (hm : Moves s t p k) (hl : LockMove s t c p k)
    (hok : k.ok) (hx : x.state = k.state)
    (hchild : ∀ np, k.child = some np → (s.pc p).child = some np)
    (hframed : ∀ np, k.framed = some np → (s.pc p).framed = some np) : Placed t := by
  refine h.move hp hm hl hok ?_ (fun q hq => ?_) (fun np hnp => ?_) fun np hnp => ?_
  · rw [hproc, update_self, hx]
  · rw [hproc]
    exact .of_update fun e => absurd e hq
  · have hc := hchild np hnp
    rw [hproc, update_of_ne (h.ne_child hp hc).symm]
    exact ⟨h.child p np hc, Or.inl hc⟩
  · exact h.framed p np (hframed np hnp)

theorem Placed.wake (h : Placed s) (hp : (s.cpu c).stack = some p)
    (hproc : ∀ q, (t.proc q).state = (s.proc q).state ∨
      (s.proc q).state = .sleeping ∧ (t.proc q).state = .runnable)
    (hm : Moves s t p k) (hl : LockMove s t c p k) (hlock : (s.pc p).holdsLock) (hok : k.ok)
    (hrun : (s.pc p).state = .running) (hk : k.state = .running) (hchild : k.child = none) : Placed t := by
  have hst := h.state c p hp
  refine h.move hp hm hl hok ?_ (fun q hq => ?_) (Pc.no_child hchild) (Pc.no_framed hchild)
  · rcases hproc p with e | ⟨e, -⟩
    · rw [e, hst, hrun, hk]
    · rw [hst, hrun] at e
      cases e
  · rcases hproc q with e | ⟨e, e'⟩
    · rw [e]
      exact .same
    · rw [e']
      exact .wake (h.off hp hlock hq (by simp [e])) e

theorem Placed.drop (h : Placed s) (hp : (s.cpu c).stack = some p)
    (hc : (s.pc p).child = some np) (hproc : t.proc = update s.proc np x)
    (hx : x.state = .unused) (hm : Moves s t p .user)
    (hlock : t.lock = s.lock) (hl : (s.pc p).holdsLock = false)
    (hrun : (s.pc p).state = .running) : Placed t := by
  refine h.move hp hm (.keep hlock hl.symm) rfl ?_ (fun q _ => ?_) nofun nofun
  · rw [hproc, update_of_ne (h.ne_child hp hc), h.state c p hp, hrun]
    rfl
  · rw [hproc]
    refine .of_update fun _ => ?_
    rw [hx]
    exact .drop hc

theorem wakeup1_state (chan : Option Chan) (proc : Nat → Proc) (q : Nat) :
    (wakeup1 chan proc q).state = (proc q).state ∨
      (proc q).state = .sleeping ∧ (wakeup1 chan proc q).state = .runnable := by
  rw [wakeup1_eq]
  rcases wokenState_cases chan (proc q) with e | ⟨e, -, e'⟩
  · exact Or.inl e
  · exact Or.inr ⟨e, e'⟩

theorem passChildren_state (cur init : Nat) (proc : Nat → Proc) (q : Nat) :
    (passChildren cur init proc q).state = (proc q).state ∨
      (proc q).state = .sleeping ∧ (passChildren cur init proc q).state = .runnable := by
  rw [passChildren_eq]
  rcases passed_state_cases proc cur init nproc q with e | ⟨e, -, e'⟩
  · exact Or.inl e
  · exact Or.inr ⟨e, e'⟩

theorem kill_state (pid : Int32) (proc : Nat → Proc) (q : Nat) :
    ((kill pid proc).2 q).state = (proc q).state ∨
      (proc q).state = .sleeping ∧ ((kill pid proc).2 q).state = .runnable := by
  rcases kill_cases pid proc with ⟨i, -, -, -, hk⟩ | ⟨-, hk⟩
  · rw [hk]
    by_cases hqi : q = i
    · subst hqi
      simp only [update_self, Proc.kill]
      split
      · next hs => exact Or.inr ⟨hs, rfl⟩
      · exact Or.inl rfl
    · exact Or.inl (by simp only [update_of_ne hqi])
  · exact Or.inl (by rw [hk])

variable (h : Placed s)

include h

theorem Placed.switchOut (hp : (s.cpu c).stack = some p) (hpc : s.pc p = .sched k)
    (hproc : ∀ q, (t.proc q).state = (s.proc q).state)
    (hcpu : t.cpu = update s.cpu c { s.cpu c with stack := none })
    (hpc' : t.pc = update s.pc p (.switched k)) (hlock : t.lock = s.lock) : Placed t := by
  have hself : t.pc p = .switched k := by rw [hpc', update_self]
  have hother : ∀ q, q ≠ p → t.pc q = s.pc q :=
    fun q hq => by rw [hpc', update_of_ne hq]
  have hc : t.cpu c = { s.cpu c with stack := none } := by rw [hcpu, update_self]
  have hd : ∀ d, d ≠ c → t.cpu d = s.cpu d := fun d hd => by rw [hcpu, update_of_ne hd]
  -- the processes on the cpus are those on the other cpus before
  have hstack : ∀ d q, (t.cpu d).stack = some q ↔ (s.cpu d).stack = some q ∧ q ≠ p := by
    intro d q
    by_cases hdc : d = c
    · subst hdc
      rw [hc]
      simp [hp, eq_comm]
    · rw [hd d hdc]
      refine ⟨fun hq => ⟨hq, ?_⟩, And.left⟩
      rintro rfl
      exact hdc (h.inj d c q hq hp)
  have hcore : ∀ q, (t.pc q).core = (s.pc q).core := by
    intro q
    by_cases hqp : q = p
    · rw [hqp, hself, hpc]
      rfl
    · rw [hother q hqp]
  obtain ⟨hchild, hframed, hinj⟩ := h.children hcore fun q hq => by
    rw [hproc, hother q (by rintro rfl; exact (h.made hp).2 hq)]
    exact ⟨hq, rfl⟩
  have hst := h.state c p hp
  rw [hpc] at hst
  have hok := h.ok c p hp
  simp only [hpc, Pc.ok, Bool.and_eq_true, Bool.or_eq_true, decide_eq_true_eq] at hok
  refine
    { proc_iff := fun d q => ?_
      stack := fun d q hq => ?_
      inj := fun d e q hd he => h.inj d e q ((hstack d q).mp hd).1 ((hstack e q).mp he).1
      lock := fun d => ?_
      ok := fun d q hq => ?_
      state := fun d q hq => ?_
      running := fun q hq => ?_
      resumes := fun q hoff hq => ?_
      child := hchild
      framed := hframed
      child_inj := hinj }
  · by_cases hdc : d = c
    · subst hdc
      rw [hc, h.proc_iff]
    · rw [hd d hdc, h.proc_iff]
  · obtain ⟨hq, hqp⟩ := (hstack d q).mp hq
    have hdc : d ≠ c := by
      rintro rfl
      rw [hp, Option.some.injEq] at hq
      exact hqp hq.symm
    rw [hd d hdc, h.stack d q hq]
  · rw [hlock, h.lock]
    by_cases hdc : d = c
    · subst hdc
      rw [holds_of_stack hp, hpc, holds_of_none (by rw [hc]), hc]
      simp [Pc.holdsLock, (h.proc_iff d p).mp (h.stack d p hp)]
    · refine (holds_congr (hd d hdc) fun q hdq => hother q ?_).symm
      rintro rfl
      exact hdc (h.inj d c q hdq hp)
  · obtain ⟨hq, hqp⟩ := (hstack d q).mp hq
    rw [hother q hqp]
    exact h.ok d q hq
  · obtain ⟨hq, hqp⟩ := (hstack d q).mp hq
    rw [hother q hqp, hproc]
    exact h.state d q hq
  · rw [hproc] at hq
    obtain ⟨d, hdq⟩ := h.running q hq
    refine ⟨d, (hstack d q).mpr ⟨hdq, ?_⟩⟩
    rintro rfl
    exact Pc.state_sched_ne k (hst.symm.trans hq)
  · rw [hproc] at hq
    by_cases hqp : q = p
    · subst hqp
      rcases hok.2 with hk | rfl
      · exact ⟨k, hself, hok.1, hk⟩
      · simp [hst, Pc.state] at hq
    · rw [hother q hqp]
      exact h.resumes q (fun d hdq => hoff d ((hstack d q).mpr ⟨hdq, hqp⟩)) hq

theorem procStep_placed (hp : (s.cpu c).stack = some p)
    (ht : procStep s c p r = some t) : Placed t := by
  have hok := h.ok c p hp
  have hst := h.state c p hp
  cases hpc : s.pc p <;> simp only [procStep, hpc, reduceCtorEq] at ht <;> rw [hpc] at hok hst
  case acquire k =>
    split at ht <;> cases ht
    next hl =>
    simp only [Pc.ok, Bool.and_eq_true, decide_eq_true_eq] at hok
    exact h.goto hp (fun _ => rfl) ⟨rfl, rfl, rfl⟩ (.take hl rfl hok.1.2) hok.1.1 (by rw [hpc]; rfl) hok.2
      (fun np hnp => by rwa [hpc]) fun np hnp => Or.inl (by rwa [hpc])
  case release k =>
    cases ht
    simp only [Pc.ok, Bool.and_eq_true, Bool.not_eq_true'] at hok
    have hk : k.state = .running := by
      by_contra hne
      simp [Pc.holdsLock_of_state hne] at hok
    exact h.goto hp (fun _ => rfl) ⟨rfl, rfl, rfl⟩ (.give (by rw [hpc]; rfl) rfl hok.2) hok.1
      (by rw [hpc]; rfl) hk (fun np hnp => by rwa [hpc]) fun np hnp => Or.inl (by rwa [hpc])
  case sched k =>
    cases ht
    exact h.switchOut hp hpc (state_update rfl) rfl rfl rfl
  -- every other step neither takes the lock nor gives it back, and most find a running process
  all_goals
    cases ht
    have hkeep : ∀ {t : State} {k' : Pc}, t.lock = s.lock →
        k'.holdsLock = (s.pc p).holdsLock → LockMove s t c p k' := fun hl hk => .keep hl hk
    have hrun : (s.pc p).state = .running := by rw [hpc]; rfl
    rw [hpc] at hkeep
  case allocScan i =>
    rw [allocScan]
    split_ifs with hi hs
    · have hne : p ≠ i := fun e => (h.made hp).1 (e ▸ hs)
      refine h.move hp ⟨rfl, rfl, rfl⟩ (hkeep rfl rfl) rfl ?_ (fun q _ => .of_update fun _ => .alloc hs)
        (fun np hnp => ?_) fun np hnp => ?_
      · change (update s.proc i _ p).state = _
        rw [update_of_ne hne, hst]
        rfl
      · cases hnp
        change (update s.proc i _ i).state = _ ∧ _
        rw [update_self]
        exact ⟨rfl, Or.inr hs⟩
      · cases hnp
    · exact h.plain hp (state_update rfl) ⟨rfl, rfl, rfl⟩ (hkeep rfl rfl) rfl hrun rfl rfl
    · exact h.plain hp (fun _ => rfl) ⟨rfl, rfl, rfl⟩ (hkeep rfl rfl) rfl hrun rfl rfl
  case allocStack np =>
    have hc : (s.pc p).child = some np := by rw [hpc]; rfl
    rw [allocStack]
    split_ifs with hr
    · exact h.drop hp hc rfl rfl ⟨rfl, rfl, rfl⟩ rfl (by rw [hpc]; rfl) hrun
    · have hne := h.ne_child hp hc
      have hframe := h.frame (h.child p np hc)
      have hpc' : (s.goto np (.switched (.release .user))).pc p = .allocStack np :=
        (update_of_ne hne _ _).trans hpc
      refine hframe.goto hp (state_update rfl) ⟨rfl, rfl, rfl⟩ (.keep rfl ?_) rfl ?_ rfl
        (fun m hm => ?_) fun m hm => ?_
      · rw [hpc']
        rfl
      · rw [hpc']
        rfl
      · rw [hpc']
        exact hm
      · cases hm
        exact Or.inr (update_self _ _ _)
  case forkCopy np =>
    have hc : (s.pc p).child = some np := by rw [hpc]; rfl
    rw [forkCopy]
    split_ifs with hr
    · exact h.drop hp hc rfl rfl ⟨rfl, rfl, rfl⟩ rfl (by rw [hpc]; rfl) hrun
    · exact h.goto hp (state_update rfl) ⟨rfl, rfl, rfl⟩ (hkeep rfl rfl) rfl hrun rfl
        (fun m hm => by rwa [hpc]) fun m hm => Or.inl (by rwa [hpc])
  case forkFill np =>
    exact h.goto hp (state_update rfl) ⟨rfl, rfl, rfl⟩ (hkeep rfl rfl) rfl hrun rfl
      (fun m hm => by rwa [hpc]) fun m hm => Or.inl (by rwa [hpc])
  case forkPublish np =>
    have hc : (s.pc p).framed = some np := by rw [hpc]; rfl
    refine h.move hp ⟨rfl, rfl, rfl⟩ (hkeep rfl rfl) rfl ?_
      (fun q _ => .of_update fun _ => .publish hc) (Pc.no_child rfl) (Pc.no_framed rfl)
    change (update s.proc np _ p).state = _
    rw [update_of_ne (h.ne_child hp (Pc.child_of_framed hc)), hst]
    rfl
  case exitWake | wakeup1 chan =>
    exact h.wake hp (wakeup1_state _ _) ⟨rfl, rfl, rfl⟩ (hkeep rfl rfl) (by rw [hpc]; rfl) rfl hrun rfl rfl
  case exitPass =>
    exact h.wake hp (passChildren_state _ _ _) ⟨rfl, rfl, rfl⟩ (hkeep rfl rfl) (by rw [hpc]; rfl) rfl hrun
      rfl rfl
  case exitMark | waitMark | sleepMark chan =>
    exact h.mark hp rfl ⟨rfl, rfl, rfl⟩ (hkeep rfl rfl) rfl rfl (Pc.no_child rfl) (Pc.no_framed rfl)
  case waitScan i havekids =>
    rw [waitScan]
    split_ifs with hi hpar hz
    · exact h.plain hp (fun _ => rfl) ⟨rfl, rfl, rfl⟩ (hkeep rfl rfl) rfl hrun rfl rfl
    · have hne : i ≠ p := by
        rintro rfl
        rw [hst] at hz
        cases hz
      refine h.move hp ⟨rfl, rfl, rfl⟩ (hkeep rfl rfl) rfl ?_ (fun q hq => .of_update fun _ =>
        .reap (h.off hp (by rw [hpc]; rfl) hne (by simp [hz])) hz) (Pc.no_child rfl) (Pc.no_framed rfl)
      change (update s.proc i _ p).state = _
      rw [update_of_ne hne.symm, hst]
      rfl
    all_goals exact h.plain hp (fun _ => rfl) ⟨rfl, rfl, rfl⟩ (hkeep rfl rfl) rfl hrun rfl rfl
  case waitTidy | sleepTidy =>
    exact h.mark hp rfl ⟨rfl, rfl, rfl⟩ (hkeep rfl rfl) rfl hst (Pc.no_child rfl) (Pc.no_framed rfl)
  case yieldMark k =>
    have hok : (Pc.sched (.release k)).ok := by
      simpa [Pc.ok, Pc.resumes] using hok
    exact h.mark hp rfl ⟨rfl, rfl, rfl⟩ (hkeep rfl rfl) hok rfl (fun np hnp => by rwa [hpc])
      fun np hnp => by rwa [hpc]
  case killScan pid =>
    exact h.wake hp (kill_state _ _) ⟨rfl, rfl, rfl⟩ (hkeep rfl rfl) (by rw [hpc]; rfl) rfl hrun rfl rfl
  case niceScan pid priority i =>
    split_ifs <;>
      exact h.plain hp (fun _ => rfl) ⟨rfl, rfl, rfl⟩ (hkeep rfl rfl) rfl hrun rfl rfl
  case niceWrite pid priority i =>
    exact h.plain hp (state_update rfl) ⟨rfl, rfl, rfl⟩ (hkeep rfl rfl) rfl hrun rfl rfl

theorem Placed.loop {x : Cpu} (hc : (s.cpu c).stack = none)
    (hcpu : t.cpu = update s.cpu c x) (hx : x.stack = none)
    (hproc : t.proc = s.proc) (hpc : t.pc = s.pc) (hback : ∀ q, x.proc = some q ↔ x.pc = .back q)
    (hlock : ∀ d, t.lock = some d ↔ if d = c then x.pc ≠ .idle else s.holds d) : Placed t := by
  have hstack : ∀ d, (t.cpu d).stack = (s.cpu d).stack := by
    intro d
    rw [hcpu]
    by_cases hdc : d = c
    · rw [hdc, update_self, hx, hc]
    · rw [update_of_ne hdc]
  refine
    { proc_iff := fun d q => ?_
      stack := fun d q hq => ?_
      inj := fun d e q hd he => ?_
      lock := fun d => (hlock d).trans ?_
      ok := fun d q hq => ?_
      state := fun d q hq => ?_
      running := fun q hq => ?_
      resumes := fun q hoff hq => ?_
      child := by rw [hpc, hproc]; exact h.child
      framed := by rw [hpc]; exact h.framed
      child_inj := by rw [hpc]; exact h.child_inj }
  · rw [hcpu]
    by_cases hdc : d = c
    · rw [hdc, update_self, hback]
    · rw [update_of_ne hdc, h.proc_iff]
  · rw [hstack] at hq
    have hdc : d ≠ c := by
      rintro rfl
      simp [hc] at hq
    rw [hcpu, update_of_ne hdc, h.stack d q hq]
  · rw [hstack] at hd he
    exact h.inj d e q hd he
  · by_cases hdc : d = c
    · subst hdc
      rw [if_pos rfl, holds_of_none (by rw [hcpu, update_self, hx]), hcpu,
        update_self]
    · rw [if_neg hdc, holds_congr (by rw [hcpu, update_of_ne hdc]) fun q _ => by rw [hpc]]
  · rw [hstack] at hq
    rw [hpc]
    exact h.ok d q hq
  · rw [hstack] at hq
    rw [hpc, hproc]
    exact h.state d q hq
  · simp only [hstack]
    rw [hproc] at hq
    exact h.running q hq
  · simp only [hstack] at hoff
    rw [hproc] at hq
    rw [hpc]
    exact h.resumes q hoff hq

theorem Placed.off_of_scan (hc : (s.cpu c).stack = none)
    (hpc : (s.cpu c).pc = .scan q) (hi : (s.proc i).state = .runnable) (d : Nat) :
    (s.cpu d).stack ≠ some i := by
  intro hd
  have hholds : s.holds c := by
    rw [holds_of_none hc, hpc]
    exact SchedPc.noConfusion
  have hdc : d ≠ c := by
    rintro rfl
    rw [hc] at hd
    cases hd
  have := h.running_of_ne hholds hd hdc
  rw [hi] at this
  cases this

theorem Placed.dispatch (hc : (s.cpu c).stack = none)
    (hpc : (s.cpu c).pc = .scan q) (hi : (s.proc i).state = .runnable) :
    Placed (dispatch s c i) := by
  have hholds : s.holds c := by
    rw [holds_of_none hc, hpc]
    exact SchedPc.noConfusion
  have hoff : ∀ d, (s.cpu d).stack ≠ some i := h.off_of_scan hc hpc hi
  obtain ⟨k, hsw, hok, hk⟩ := h.resumes i hoff (Or.inl hi)
  generalize ht : Sched.dispatch s c i = t
  have hproc : t.proc = update s.proc i { s.proc i with state := .running } := by
    rw [← ht, dispatch_proc]
  have hcpu : t.cpu = update s.cpu c ⟨some i, some i, .back i, (s.proc i).priority⟩ := by
    rw [← ht, dispatch_cpu]
  have hpc' : t.pc = update s.pc i k := by
    rw [← ht, Sched.dispatch, hsw]
    rfl
  have hlock : t.lock = s.lock := by
    rw [← ht, Sched.dispatch, hsw]
    rfl
  clear ht
  have hself : t.pc i = k := by rw [hpc', update_self]
  have hother : ∀ q, q ≠ i → t.pc q = s.pc q :=
    fun q hq => by rw [hpc', update_of_ne hq]
  have hpself : (t.proc i).state = .running := by rw [hproc, update_self]
  have hpother : ∀ q, q ≠ i → t.proc q = s.proc q :=
    fun q hq => by rw [hproc, update_of_ne hq]
  have hcs : t.cpu c = ⟨some i, some i, .back i, (s.proc i).priority⟩ := by
    rw [hcpu, update_self]
  have hd : ∀ d, d ≠ c → t.cpu d = s.cpu d := fun d hd => by rw [hcpu, update_of_ne hd]
  have hstack : ∀ d q, (t.cpu d).stack = some q ↔
      d = c ∧ q = i ∨ (s.cpu d).stack = some q := by
    intro d q
    by_cases hdc : d = c
    · subst hdc
      rw [hcs]
      simp [hc, eq_comm]
    · simp [hd d hdc, hdc]
  have hne : ∀ d q, (s.cpu d).stack = some q → q ≠ i := by
    rintro d q hdq rfl
    exact hoff d hdq
  have hcore : ∀ q, (t.pc q).core = (s.pc q).core := by
    intro q
    by_cases hqi : q = i
    · rw [hqi, hself, hsw]
      rfl
    · rw [hother q hqi]
  obtain ⟨hchild, hframed, hinj⟩ := h.children hcore fun q hq => by
    have hqi : q ≠ i := by
      rintro rfl
      simp [hq] at hi
    rw [hpother q hqi, hother q hqi]
    exact ⟨hq, rfl⟩
  refine
    { proc_iff := fun d q => ?_
      stack := fun d q hq => ?_
      inj := fun d e q hdq he => ?_
      lock := fun d => ?_
      ok := fun d q hq => ?_
      state := fun d q hq => ?_
      running := fun q hq => ?_
      resumes := fun q hoff' hq => ?_
      child := hchild
      framed := hframed
      child_inj := hinj }
  · by_cases hdc : d = c
    · subst hdc
      rw [hcs]
      simp
    · rw [hd d hdc, h.proc_iff]
  · rcases (hstack d q).mp hq with ⟨rfl, rfl⟩ | hq
    · rw [hcs]
    · have hdc : d ≠ c := by
        rintro rfl
        rw [hc] at hq
        cases hq
      rw [hd d hdc, h.stack d q hq]
  · rcases (hstack d q).mp hdq with ⟨rfl, rfl⟩ | hdq <;>
      rcases (hstack e q).mp he with ⟨rfl, hqi⟩ | he
    · rfl
    · exact absurd he (hoff e)
    · exact absurd hqi (hne d q hdq)
    · exact h.inj d e q hdq he
  · rw [hlock, h.lock]
    by_cases hdc : d = c
    · subst hdc
      rw [holds_of_stack (by rw [hcs] : (t.cpu d).stack = some i), hself]
      exact iff_of_true hholds (Pc.holdsLock_of_resumes hk)
    · exact (holds_congr (hd d hdc) fun q hdq => hother q (hne d q hdq)).symm
  · rcases (hstack d q).mp hq with ⟨-, rfl⟩ | hq
    · rw [hself]
      exact hok
    · rw [hother q (hne d q hq)]
      exact h.ok d q hq
  · rcases (hstack d q).mp hq with ⟨-, rfl⟩ | hq
    · rw [hself, hpself, Pc.state_of_resumes hk]
    · rw [hother q (hne d q hq), hpother q (hne d q hq)]
      exact h.state d q hq
  · by_cases hqi : q = i
    · exact ⟨c, (hstack c q).mpr (Or.inl ⟨rfl, hqi⟩)⟩
    · rw [hpother q hqi] at hq
      obtain ⟨d, hdq⟩ := h.running q hq
      exact ⟨d, (hstack d q).mpr (Or.inr hdq)⟩
  · have hqi : q ≠ i := fun e => hoff' c ((hstack c q).mpr (Or.inl ⟨rfl, e⟩))
    rw [hpother q hqi] at hq
    rw [hother q hqi]
    exact h.resumes q (fun d hdq => hoff' d ((hstack d q).mpr (Or.inr hdq))) hq

theorem schedStep_placed (ht : schedStep s c = some t) : Placed t := by
  obtain ⟨hc, hstep⟩ := schedStep_inv ht
  -- a cpu within its loop holds the lock, before and after
  have hkeep : ∀ {x : Cpu}, (s.cpu c).pc ≠ .idle → x.pc ≠ .idle → ∀ d,
      s.lock = some d ↔ if d = c then x.pc ≠ .idle else s.holds d := by
    intro x hpc hx d
    rw [h.lock]
    split
    · next hdc =>
      rw [hdc, holds_of_none hc]
      exact iff_of_true hpc hx
    · rfl
  cases hstep with
  | take hpc hl =>
    refine h.loop hc rfl hc rfl rfl (fun q => ?_) fun d => ?_
    · rw [h.proc_iff, hpc]
      simp
    · split
      · next hdc => simp [hdc]
      · next hdc =>
        rw [← h.lock, hl]
        simpa using fun e => hdc e.symm
  | skip hpc =>
    refine h.loop hc rfl hc rfl rfl (fun q => ?_) (hkeep ?_ SchedPc.noConfusion)
    · rw [h.proc_iff, hpc]
      simp
    · rw [hpc]
      exact SchedPc.noConfusion
  | switch hpc hi hs => exact h.dispatch hc hpc hs
  | leave hpc =>
    refine h.loop hc rfl hc rfl rfl (fun q => ?_) fun d => ?_
    · rw [h.proc_iff, hpc]
      simp
    · split
      · simp
      · next hdc =>
        refine ⟨nofun, fun hd => ?_⟩
        have hcl : s.holds c := by
          rw [holds_of_none hc, hpc]
          exact SchedPc.noConfusion
        exact absurd (h.holds_unique hd hcl) hdc
  | back hpc =>
    refine h.loop hc rfl hc rfl rfl (fun q => by simp) (hkeep ?_ SchedPc.noConfusion)
    rw [hpc]
    exact SchedPc.noConfusion

theorem Placed.intr (chan : Option Chan) (hl : s.lock = none) :
    Placed { s with proc := wakeup1 chan s.proc } := by
  have hrunning : ∀ d q, (s.cpu d).stack = some q → (s.proc q).state = .running := by
    intro d q hq
    by_contra hne
    rw [h.state d q hq] at hne
    have := (h.lock d).mpr ((holds_of_stack hq).mpr (Pc.holdsLock_of_state hne))
    rw [hl] at this
    cases this
  have hstate := wakeup1_state chan s.proc
  have hkeep : ∀ q, (s.proc q).state ≠ .sleeping →
      (wakeup1 chan s.proc q).state = (s.proc q).state :=
    fun q hq => (hstate q).resolve_right fun e => hq e.1
  refine { h with
    lock := h.lock
    state := fun d q hq => ?_
    running := fun q hq => ?_
    resumes := fun q hoff hq => ?_
    child := fun q np hq => ?_ }
  · exact (hkeep q (by simp [hrunning d q hq])).trans (h.state d q hq)
  · rcases hstate q with e | ⟨-, e⟩
    · exact h.running q (e.symm.trans hq)
    · cases e.symm.trans hq
  · refine h.resumes q hoff ?_
    rcases hstate q with e | ⟨e, -⟩
    · rwa [← e]
    · exact Or.inr e
  · have hemb := h.child q np hq
    exact (hkeep np (by simp [hemb])).trans hemb

theorem enter_placed (hp : (s.cpu c).stack = some p) (hpc : s.pc p = .user)
    {f : Call} (ht : enter s p f = some t) : Placed t := by
  have hrun : (s.pc p).state = .running := by rw [hpc]; rfl
  have hkeep : ∀ {t : State} {k' : Pc}, t.lock = s.lock → k'.holdsLock = false →
      LockMove s t c p k' := fun hl hk => .keep hl (by rw [hpc, hk]; rfl)
  cases f with
  | exit =>
    rw [enter] at ht
    split_ifs at ht
    cases ht
    exact h.plain hp (state_update rfl) ⟨rfl, rfl, rfl⟩ (hkeep rfl rfl) rfl hrun rfl rfl
  | sleep chan =>
    cases chan <;> cases ht
    exact h.plain hp (fun _ => rfl) ⟨rfl, rfl, rfl⟩ (hkeep rfl rfl) rfl hrun rfl rfl
  | fork | wait | wakeup chan | kill pid | nice pid priority =>
    cases ht
    exact h.plain hp (fun _ => rfl) ⟨rfl, rfl, rfl⟩ (hkeep rfl rfl) rfl hrun rfl rfl

/-- **Every step keeps the processes in their places.** -/
theorem Placed.step (ht : step s a = some t) : Placed t := by
  cases a with
  | sched c => exact schedStep_placed h ht
  | proc c r =>
    obtain ⟨p, hp, ht⟩ := Option.bind_eq_some_iff.mp ht
    exact procStep_placed h hp ht
  | call c f =>
    obtain ⟨p, hp, ht⟩ := Option.bind_eq_some_iff.mp ht
    split_ifs at ht with hpc
    exact enter_placed h hp hpc ht
  | tick c =>
    obtain ⟨p, hp, ht⟩ := Option.bind_eq_some_iff.mp ht
    split_ifs at ht with hl
    cases ht
    have hrun : (s.pc p).state = .running := by
      by_contra hne
      exact hl (Pc.holdsLock_of_state hne)
    rw [Bool.not_eq_true] at hl
    have hok : (Pc.acquire (.yieldMark (s.pc p))).ok := by
      simp only [Pc.ok, h.ok c p hp, hl]
      rfl
    exact h.goto hp (fun _ => rfl) ⟨rfl, rfl, rfl⟩ (.keep rfl hl.symm) hok hrun rfl (fun np => id)
      fun np => Or.inl
  | intr c chan =>
    rw [Sched.step] at ht
    split_ifs at ht with hl
    cases ht
    exact h.intr _ hl.2.2

omit h

theorem boot_proc (p : Nat) : (boot sz pgdir kstack cwd ticks).proc p =
    if p = 0 then Proc.initcode sz pgdir kstack cwd ticks else Proc.blank := by
  simp only [boot, update_apply]

theorem boot_child (p : Nat) : ((boot sz pgdir kstack cwd ticks).pc p).child = none := by
  simp only [boot]
  split <;> rfl

theorem boot_placed : Placed (boot sz pgdir kstack cwd ticks) := by
  have hstate : ∀ p, ((boot sz pgdir kstack cwd ticks).proc p).state =
      if p = 0 then .runnable else .unused := by
    intro p
    rw [boot_proc]
    split <;> rfl
  refine
    { proc_iff := fun c p => ⟨nofun, nofun⟩
      stack := nofun
      inj := nofun
      lock := fun c => ⟨nofun, fun hc => absurd rfl hc⟩
      ok := nofun
      state := nofun
      running := fun p hp => ?_
      resumes := fun p _ hp => ?_
      child := fun p np hp => ?_
      framed := fun p np hp => ?_
      child_inj := fun p q np hp => ?_ }
  · rw [hstate] at hp
    split at hp <;> cases hp
  · rw [hstate] at hp
    split at hp
    · next h0 => exact ⟨.release .user, by simp [boot, h0], rfl, rfl⟩
    · simp at hp
  · rw [boot_child] at hp
    cases hp
  · have hp := Pc.child_of_framed hp
    rw [boot_child] at hp
    cases hp
  · rw [boot_child] at hp
    cases hp

theorem placed {as : List Action} (hr : run step (boot sz pgdir kstack cwd ticks) as = some s) :
    Placed s :=
  run_invariant (fun _ _ _ h ht => h.step ht) boot_placed hr

/-- While the lock is free, `c->proc` is the process on the cpu's stack, and it is running. -/
theorem Placed.proc_running (h : Placed s) (hl : s.lock = none) (hp : (s.cpu c).proc = some p) :
    (s.cpu c).stack = some p ∧ (s.proc p).state = .running := by
  have hfree : ¬ s.holds c := fun hc => by simp [(h.lock c).mpr hc] at hl
  cases hs : (s.cpu c).stack with
  | none =>
    rw [holds_of_none hs, (h.proc_iff c p).mp hp] at hfree
    exact absurd SchedPc.noConfusion hfree
  | some q =>
    have hq := h.stack c q hs
    rw [hp, Option.some.injEq] at hq
    subst hq
    refine ⟨rfl, ?_⟩
    rw [h.state c p hs]
    by_contra hne
    exact hfree ((holds_of_stack hs).mpr (Pc.holdsLock_of_state hne))

theorem waitScan_proc {havekids : Bool} (hq : (waitScan s p i havekids).proc q ≠ s.proc q) :
    q = i ∧ (s.proc i).state = .zombie := by
  rw [waitScan] at hq
  split_ifs at hq with hi hpar hz
  · exact absurd rfl hq
  · refine ⟨?_, hz⟩
    by_contra hqi
    exact hq (update_of_ne hqi _ _)
  all_goals exact absurd rfl hq

/-- **One cpu per running process.** In every state of every run, on any number of cpus: while
`ptable.lock` is free, `c->proc` is a one-to-one correspondence between the cpus where it is not
null and the processes in state `RUNNING`, so no process in another state is any cpu's; and `wait`
frees only the slot of a zombie on whose stack no cpu is executing. -/
theorem one_cpu_per_process {as : List Action}
    (hr : run step (boot sz pgdir kstack cwd ticks) as = some s) :
    (s.lock = none →
      (∀ c p, (s.cpu c).proc = some p → (s.proc p).state = .running) ∧
      (∀ p, (s.proc p).state = .running → ∃ c, (s.cpu c).proc = some p) ∧
      ∀ c d p, (s.cpu c).proc = some p → (s.cpu d).proc = some p → c = d) ∧
    ∀ c r i havekids t q, s.point (.proc c r) = some (.waitScan i havekids) →
      step s (.proc c r) = some t → t.proc q ≠ s.proc q →
        (s.proc q).state = .zombie ∧ ∀ d, (s.cpu d).stack ≠ some q := by
  have h := placed hr
  refine ⟨fun hl => ⟨fun c p hp => (h.proc_running hl hp).2, fun p hp => ?_, fun c d p hc hd => ?_⟩,
    fun c r i havekids t q hpt ht hq => ?_⟩
  · obtain ⟨c, hc⟩ := h.running p hp
    exact ⟨c, h.stack c p hc⟩
  · exact h.inj c d p (h.proc_running hl hc).1 (h.proc_running hl hd).1
  · obtain ⟨p, hp, ht⟩ := Option.bind_eq_some_iff.mp ht
    rw [point_proc hp, Option.some.injEq] at hpt
    rw [procStep, hpt] at ht
    cases ht
    obtain ⟨rfl, hz⟩ := waitScan_proc hq
    -- a zombie on a cpu would be about to switch away, with the lock in its hands
    have hqp : q ≠ p := by
      rintro rfl
      rw [h.state c q hp, hpt] at hz
      cases hz
    exact ⟨hz, h.off hp (by rw [hpt]; rfl) hqp (by simp [hz])⟩

/-- `initproc` runs on one cpu and has forked; another cpu picks the child. -/
def twoCpuRun : List Action :=
  [.sched 0, .sched 0, .proc 0 0, .call 0 .fork] ++ List.replicate 10 (.proc 0 5) ++
    [.sched 1, .sched 1, .sched 1, .proc 1 0]

theorem one_cpu_per_process_two :
    ∃ s, run step (boot 4096 1 2 3 0) twoCpuRun = some s ∧ s.lock = none ∧
      (s.cpu 0).proc = some 0 ∧ (s.cpu 1).proc = some 1 ∧
      ∀ c d p, (s.cpu c).proc = some p → (s.cpu d).proc = some p → c = d := by
  have hres : ((run step (boot 4096 1 2 3 0) twoCpuRun).map fun s =>
      decide (s.lock = none ∧ (s.cpu 0).proc = some 0 ∧ (s.cpu 1).proc = some 1)) =
      some true := by
    decide +kernel
  obtain ⟨s, hs, hall⟩ := Option.map_eq_some_iff.mp hres
  obtain ⟨hl, h₀, h₁⟩ := of_decide_eq_true hall
  exact ⟨s, hs, hl, h₀, h₁, ((one_cpu_per_process hs).1 hl).2.2⟩

/-- **`ptable.lock` is handed over by `swtch`.** Its holder is the cpu whose code has it, and a
process that is off the cpus goes on as if it held the lock. -/
theorem lock_handed_over {as : List Action}
    (hr : run step (boot sz pgdir kstack cwd ticks) as = some s) :
    (∀ c, s.lock = some c ↔ s.holds c) ∧ ∀ p, (∀ c, (s.cpu c).stack ≠ some p) →
      (s.proc p).state = .runnable ∨ (s.proc p).state = .sleeping →
        ∃ k, s.pc p = .switched k ∧ k.holdsLock := by
  have h := placed hr
  refine ⟨h.lock, fun p hoff hst => ?_⟩
  obtain ⟨k, hk, -, hres⟩ := h.resumes p hoff hst
  refine ⟨k, hk, ?_⟩
  cases k <;> first | rfl | cases hres

theorem exists_twoCpuRun : ∃ s, run step (boot 4096 1 2 3 0) twoCpuRun = some s :=
  Option.isSome_iff_exists.mp rfl

theorem lock_handed_over_two : ∃ s, run step (boot 4096 1 2 3 0) twoCpuRun = some s ∧
    ∀ c, s.lock = some c ↔ s.holds c :=
  exists_twoCpuRun.imp fun _ hs => ⟨hs, (lock_handed_over hs).1⟩

/-- While `fork` fills a slot in, the slot is `EMBRYO` and no other `fork` has it. -/
theorem fork_slots {as : List Action} (hr : run step (boot sz pgdir kstack cwd ticks) as = some s)
    {p np : Nat} (hp : (s.pc p).child = some np) :
    (s.proc np).state = .embryo ∧ ∀ q, (s.pc q).child = some np → q = p := by
  have h := placed hr
  exact ⟨h.child p np hp, fun q hq => h.child_inj q p np hq hp⟩

theorem fork_slots_first : ∃ s, run step (boot 4096 1 2 3 0) (twoCpuRun.take 9) = some s ∧
    (s.proc 1).state = .embryo := by
  have h : ((run step (boot 4096 1 2 3 0) (twoCpuRun.take 9)).map fun s => (s.pc 0).child) =
      some (some 1) := rfl
  obtain ⟨s, hs, hc⟩ := Option.map_eq_some_iff.mp h
  exact ⟨s, hs, (fork_slots hs hc).1⟩

end Xv6.Sched
