import Xv6.Sched.Table

/-!
# What a step does to a slot of the table

The loop of `allocproc` clears the priority of every slot that it passes, `kill` looks at slots that
are not in use, and a `fork` that fails leaves `pid` and `killed` behind.
-/

namespace Xv6.Sched

open Transition
open Function (update update_self update_of_ne)
open List (prefix_rfl prefix_append)
open Option (bind_eq_some_iff)

variable {s t : State} {a : Action} {c p q r : Nat} {sz pgdir kstack cwd ticks : Nat}

def State.point (s : State) : Action → Option Pc
  | .proc c _ => (s.cpu c).stack.map s.pc
  | _ => none

theorem point_proc (hp : (s.cpu c).stack = some p) : s.point (.proc c r) = some (s.pc p) := by
  rw [State.point, hp]
  rfl

/-- What a step can make of slot `q`. -/
inductive SlotStep (s : State) (a : Action) (q : Nat) : Proc → Prop
  /-- nothing that matters here -/
  | calm {x : Proc} (pid : x.pid = (s.proc q).pid) (killed : x.killed = (s.proc q).killed)
      (priority : x.priority = (s.proc q).priority)
      (unused : x.state = .unused → (s.proc q).state = .unused) : SlotStep s a q x
  | alloc (hp : s.point a = some (.allocScan q)) (hs : (s.proc q).state = .unused) :
      SlotStep s a q { s.proc q with priority := 0, state := .embryo, pid := s.nextpid }
  /-- `allocproc` passes a slot that is in use -/
  | pass (hp : s.point a = some (.allocScan q)) (hq : q < nproc)
      (hs : (s.proc q).state ≠ .unused) : SlotStep s a q { s.proc q with priority := 0 }
  /-- `fork` fails -/
  | drop {c : Nat} {k : Pc} {x : Proc} (ha : a = .proc c 0) (hp : s.point a = some k)
      (hk : k = .allocStack q ∨ k = .forkCopy q) (killed : x.killed = (s.proc q).killed)
      (priority : x.priority = (s.proc q).priority) : SlotStep s a q x
  | kill {pid : Int32} (hp : s.point a = some (.killScan pid)) (hq : q < nproc)
      (hpid : (s.proc q).pid = pid) (hfirst : ∀ j, j < q → (s.proc j).pid ≠ pid) :
      SlotStep s a q (s.proc q).kill
  | reap : SlotStep s a q (s.proc q).reap
  | nice {pid : Int32} {priority : Int} (hp : s.point a = some (.niceWrite pid priority q)) :
      SlotStep s a q { s.proc q with priority := priority }

theorem SlotStep.of_eq {x : Proc} (h : x = s.proc q) : SlotStep s a q x := by
  subst h
  exact .calm rfl rfl rfl id

theorem SlotStep.of_update {i : Nat} {x : Proc} (h : SlotStep s a i x) :
    SlotStep s a q (update s.proc i x q) := by
  by_cases hq : q = i
  · subst hq
    rwa [update_self]
  · exact .of_eq (update_of_ne hq _ _)

theorem wakeup1_calm (chan : Option Chan) : SlotStep s a q (wakeup1 chan s.proc q) := by
  rw [wakeup1_eq]
  refine .calm rfl rfl rfl fun h => ?_
  rcases wokenState_cases chan (s.proc q) with hw | ⟨-, -, hw⟩
  · rwa [hw] at h
  · rw [hw] at h
    cases h

theorem passChildren_calm : SlotStep s a q (passChildren p s.initproc s.proc q) := by
  rw [passChildren_eq]
  refine .calm rfl rfl rfl fun h => ?_
  rcases passed_state_cases s.proc p s.initproc nproc q with hw | ⟨-, -, hw⟩
  · rwa [hw] at h
  · rw [hw] at h
    cases h

theorem procStep_slot (hp : (s.cpu c).stack = some p) (ht : procStep s c p r = some t) (q : Nat) :
    SlotStep s (.proc c r) q (t.proc q) := by
  have hpt := point_proc (r := r) hp
  cases hpc : s.pc p <;> simp only [procStep, hpc, reduceCtorEq] at ht <;> rw [hpc] at hpt
  case acquire k =>
    split at ht <;> cases ht
    exact .of_eq rfl
  all_goals cases ht
  case sched k | forkFill np | waitTidy | sleepTidy =>
    exact .of_update (.calm rfl rfl rfl id)
  case allocScan i =>
    rw [allocScan]
    split_ifs with hi hs
    · exact .of_update (.alloc hpt hs)
    · exact .of_update (.pass hpt hi hs)
    · exact .of_eq rfl
  case allocStack np =>
    rw [allocStack]
    split_ifs with hr
    · subst hr
      exact .of_update (.drop rfl hpt (Or.inl rfl) rfl rfl)
    · exact .of_update (.calm rfl rfl rfl id)
  case forkCopy np =>
    rw [forkCopy]
    split_ifs with hr
    · subst hr
      exact .of_update (.drop rfl hpt (Or.inr rfl) rfl rfl)
    · exact .of_update (.calm rfl rfl rfl id)
  case forkPublish np | exitMark | waitMark | yieldMark k | sleepMark chan =>
    exact .of_update (.calm rfl rfl rfl ProcState.noConfusion)
  case exitWake =>
    exact wakeup1_calm _
  case exitPass =>
    exact passChildren_calm
  case waitScan i havekids =>
    rw [waitScan]
    split_ifs
    · exact .of_eq rfl
    · exact .of_update .reap
    all_goals exact .of_eq rfl
  case wakeup1 chan =>
    exact wakeup1_calm _
  case killScan pid =>
    change SlotStep s _ q ((kill pid s.proc).2 q)
    rcases kill_cases pid s.proc with ⟨i, hi, hpid, hfirst, hk⟩ | ⟨-, hk⟩
    · rw [hk]
      exact .of_update (.kill hpt hi hpid hfirst)
    · rw [hk]
      exact .of_eq rfl
  case niceWrite pid priority i =>
    exact .of_update (.nice hpt)
  all_goals
    exact .of_eq rfl

inductive SchedStep (s : State) (c : Nat) : State → Prop
  | take (hpc : (s.cpu c).pc = .idle) (hl : s.lock = none) :
      SchedStep s c { s.setCpu c { s.cpu c with pc := .scan 0 } with lock := some c }
  | skip {i : Nat} (hpc : (s.cpu c).pc = .scan i) :
      SchedStep s c (s.setCpu c { s.cpu c with pc := .scan (i + 1) })
  | switch {i : Nat} (hpc : (s.cpu c).pc = .scan i) (hi : i < nproc)
      (hs : (s.proc i).state = .runnable) : SchedStep s c (dispatch s c i)
  | leave {i : Nat} (hpc : (s.cpu c).pc = .scan i) :
      SchedStep s c { s.setCpu c { s.cpu c with pc := .idle } with lock := none }
  | back {i : Nat} (hpc : (s.cpu c).pc = .back i) :
      SchedStep s c (s.setCpu c { s.cpu c with proc := none, pc := .scan (i + 1) })

theorem schedStep_inv (ht : schedStep s c = some t) : (s.cpu c).stack = none ∧ SchedStep s c t := by
  rw [schedStep] at ht
  split at ht
  · next hstack =>
    refine ⟨hstack, ?_⟩
    cases hpc : (s.cpu c).pc with
    | idle =>
      simp only [hpc] at ht
      split at ht <;> cases ht
      exact .take hpc ‹_›
    | scan i =>
      simp only [hpc] at ht
      split at ht
      · next hi =>
        split at ht <;> cases ht
        · exact .skip hpc
        · next hs => exact .switch hpc hi (not_not.mp fun h => hs (Or.inl h))
      · cases ht
        exact .leave hpc
    | back i =>
      simp only [hpc] at ht
      cases ht
      exact .back hpc
  · cases ht

/-- **What a step can do to a slot.** -/
theorem step_slot (ht : step s a = some t) (q : Nat) : SlotStep s a q (t.proc q) := by
  cases a with
  | sched c =>
    cases (schedStep_inv ht).2 with
    | take | skip | leave | back => exact .of_eq rfl
    | switch =>
      rw [dispatch_proc]
      exact .of_update (.calm rfl rfl rfl ProcState.noConfusion)
  | proc c r =>
    obtain ⟨p, hp, ht⟩ := bind_eq_some_iff.mp ht
    exact procStep_slot hp ht q
  | call c f =>
    obtain ⟨p, -, ht⟩ := bind_eq_some_iff.mp ht
    split_ifs at ht
    cases f with
    | exit =>
      rw [enter] at ht
      split_ifs at ht
      cases ht
      exact .of_update (.calm rfl rfl rfl id)
    | sleep chan =>
      cases chan <;> cases ht
      exact .of_eq rfl
    | fork | wait | wakeup chan | kill pid | nice pid priority =>
      cases ht
      exact .of_eq rfl
  | tick c =>
    obtain ⟨p, -, ht⟩ := bind_eq_some_iff.mp ht
    split_ifs at ht
    cases ht
    exact .of_eq rfl
  | intr c chan =>
    rw [step] at ht
    split_ifs at ht
    cases ht
    exact wakeup1_calm _

def Pc.inFork : Pc → Bool
  | .allocScan _ | .allocStack _ | .forkCopy _ | .forkFill _ | .forkPublish _ => true
  | _ => false

/-- The slot that `fork` allocates in this step, or has allocated. -/
def State.forkSlot (s : State) : Pc → Option Nat
  | .allocScan i => if i < nproc ∧ (s.proc i).state = .unused then some i else none
  | .allocStack np | .forkCopy np | .forkFill np | .forkPublish np => some np
  | _ => none

/-- A step changes the priority of a live process by `nice` with its pid only, and a step of
`fork` changes no slot but the one that it allocates. -/
structure PriorityStable (s : State) (a : Action) (t : State) : Prop where
  nice : ∀ q, (s.proc q).state ≠ .unused → (t.proc q).priority ≠ (s.proc q).priority →
    ∃ priority, s.point a = some (.niceWrite (s.proc q).pid priority q)
  fork : ∀ k, s.point a = some k → k.inFork → ∀ q, s.forkSlot k ≠ some q → t.proc q = s.proc q

/-- The loop of `allocproc` passes a slot in use only if its priority is zero, and when
`proc_nice` writes, the process that it has found is still in its slot. -/
def NoStrayWrite (s : State) (a : Action) : Prop :=
  (∀ i, s.point a = some (.allocScan i) → i < nproc → (s.proc i).state ≠ .unused →
    (s.proc i).priority = 0) ∧
  ∀ pid priority i, s.point a = some (.niceWrite pid priority i) →
    (s.proc i).state ≠ .unused → (s.proc i).pid = pid ∨ (s.proc i).priority = priority

theorem procStep_frame (ht : procStep s c p r = some t) (hk : (s.pc p).inFork)
    (hq : s.forkSlot (s.pc p) ≠ some q)
    (hzero : ∀ i, s.pc p = .allocScan i → i < nproc → (s.proc i).state ≠ .unused →
      (s.proc i).priority = 0) : t.proc q = s.proc q := by
  cases hpc : s.pc p <;> simp only [procStep, hpc, Pc.inFork, reduceCtorEq] at ht hk hq
  case allocScan i =>
    cases ht
    rw [allocScan]
    split_ifs with hi hs
    · have hne : q ≠ i := by
        rintro rfl
        exact hq (if_pos ⟨hi, hs⟩)
      exact update_of_ne hne _ _
    · by_cases hqi : q = i
      · subst hqi
        have h0 : (s.proc q).priority = 0 := hzero q hpc hi hs
        change update s.proc q _ q = s.proc q
        rw [update_self, ← h0]
      · exact update_of_ne hqi _ _
    · rfl
  all_goals
    have hne := fun h => hq (congrArg some (Eq.symm h))
    cases ht
  case allocStack np =>
    rw [allocStack]
    split_ifs <;> exact update_of_ne hne _ _
  case forkCopy np =>
    rw [forkCopy]
    split_ifs <;> exact update_of_ne hne _ _
  case forkFill np => exact update_of_ne hne _ _
  case forkPublish np => exact update_of_ne hne _ _

theorem priorityStable_iff (ht : step s a = some t) : PriorityStable s a t ↔ NoStrayWrite s a := by
  constructor
  · intro h
    cases a with
    | proc c r =>
      obtain ⟨p, hp, ht⟩ := bind_eq_some_iff.mp ht
      rw [NoStrayWrite, point_proc hp]
      constructor
      · intro i hpc hi hs
        rw [Option.some.injEq] at hpc
        rw [procStep, hpc] at ht
        simp only [allocScan, if_pos hi, if_neg hs] at ht
        cases ht
        by_contra hne
        obtain ⟨x, hx⟩ := h.nice i hs (by simpa [State.goto, State.setProc] using Ne.symm hne)
        rw [point_proc hp, hpc] at hx
        cases hx
      · intro pid x i hpc hs
        rw [Option.some.injEq] at hpc
        rw [procStep, hpc] at ht
        cases ht
        by_contra hno
        rw [not_or] at hno
        obtain ⟨y, hy⟩ := h.nice i hs
          (by simpa [State.goto, State.setProc] using Ne.symm hno.2)
        rw [point_proc hp, hpc] at hy
        cases hy
        exact hno.1 rfl
    | sched c | call c f | tick c | intr c chan => exact ⟨nofun, nofun⟩
  · rintro ⟨hzero, hnice⟩
    constructor
    · intro q hs hne
      have hslot := step_slot ht q
      generalize t.proc q = x at hslot hne
      cases hslot with
      | calm _ _ priority _ => exact absurd priority hne
      | alloc hp hs' => exact absurd hs' hs
      | pass hp hq _ => exact absurd (hzero q hp hq hs).symm (by simpa using hne)
      | drop _ _ _ _ priority => exact absurd priority hne
      | kill => exact absurd rfl hne
      | reap => exact absurd rfl hne
      | nice hp =>
        rcases hnice _ _ q hp hs with h | h
        · exact ⟨_, h ▸ hp⟩
        · exact absurd h.symm hne
    · intro k hk hfork q hq
      cases a with
      | proc c r =>
        obtain ⟨p, hp, ht⟩ := bind_eq_some_iff.mp ht
        rw [point_proc hp, Option.some.injEq] at hk
        subst hk
        refine procStep_frame ht hfork hq fun i hi => hzero i ?_
        rw [point_proc hp, hi]
      | sched c | call c f | tick c | intr c chan => cases hk

/-- The steps that could write astray are always enabled. -/
theorem noStrayWrite_of_none (ht : step s a = none) : NoStrayWrite s a := by
  cases a with
  | proc c r =>
    cases hp : (s.cpu c).stack with
    | none =>
      have hpt : s.point (.proc c r) = none := by
        rw [State.point, hp]
        rfl
      constructor
      · intro i hi
        simp [hpt] at hi
      · intro pid x i hi
        simp [hpt] at hi
    | some p =>
      rw [step, hp, Option.bind_some, procStep] at ht
      constructor
      · intro i hi
        rw [point_proc hp, Option.some.injEq] at hi
        simp [hi] at ht
      · intro pid x i hi
        rw [point_proc hp, Option.some.injEq] at hi
        simp [hi] at ht
  | sched c | call c f | tick c | intr c chan => exact ⟨nofun, nofun⟩

/-- **When only `nice` changes priorities.** In a run from any state, every step leaves the
priorities of live processes to `nice` with their pid, and every step of `fork` leaves the slots
alone that it does not allocate, exactly if `allocproc` never passes a slot in use whose priority
is not zero and `proc_nice` never writes to a slot that has changed hands since it looked. -/
theorem priorities_stable_iff (s : State) (as : List Action) :
    RunMeets step (fun s a => ∀ t, step s a = some t → PriorityStable s a t) s as ↔
      RunMeets step NoStrayWrite s as := by
  constructor
  · refine RunMeets.mono fun s a h => ?_
    cases ht : step s a with
    | none => exact noStrayWrite_of_none ht
    | some t => exact (priorityStable_iff ht).mp (h t ht)
  · exact RunMeets.mono fun s a h t ht => (priorityStable_iff ht).mpr h

/-- `initproc` calls `nice(1, 10)` and then `fork`. -/
def strayRun : List Action :=
  [.sched 0, .sched 0, .proc 0 0, .call 0 (.nice 1 10)] ++ List.replicate 66 (.proc 0 0) ++
    [.call 0 .fork, .proc 0 0]

/-- The first step of the loop of `allocproc` takes the priority of `initproc` away. -/
theorem fork_clears_priority :
    ∃ s t, run step (boot 4096 1 2 3 0) strayRun = some s ∧ step s (.proc 0 0) = some t ∧
      s.point (.proc 0 0) = some (.allocScan 0) ∧ (s.proc 0).state = .running ∧
      (s.proc 0).priority = 10 ∧ (t.proc 0).priority = 0 := by
  have hres : ((run step (boot 4096 1 2 3 0) strayRun).bind fun s =>
      (step s (.proc 0 0)).map fun t =>
        decide (s.point (.proc 0 0) = some (.allocScan 0) ∧ (s.proc 0).state = .running ∧
          (s.proc 0).priority = 10 ∧ (t.proc 0).priority = 0)) = some true := by
    decide +kernel
  obtain ⟨s, hs, ht⟩ := bind_eq_some_iff.mp hres
  obtain ⟨t, ht, hall⟩ := Option.map_eq_some_iff.mp ht
  exact ⟨s, t, hs, ht, of_decide_eq_true hall⟩

/-- `kill(pid)` finds a live process exactly if there is one, and touches nothing else. -/
structure KillExact (s : State) (pid : Int32) : Prop where
  ret : (kill pid s.proc).1 = 0 ↔ ∃ q, q < nproc ∧ (s.proc q).state ≠ .unused ∧
    (s.proc q).pid = pid
  hit : (kill pid s.proc).1 = 0 → ∃ q, q < nproc ∧ (s.proc q).state ≠ .unused ∧
    (s.proc q).pid = pid ∧ (kill pid s.proc).2 = update s.proc q (s.proc q).kill
  miss : (kill pid s.proc).1 ≠ 0 → kill pid s.proc = (-1, s.proc)

/-- The first slot with this pid, if there is one, is in use. -/
def FirstLive (s : State) (pid : Int32) : Prop :=
  ∀ q, q < nproc → (s.proc q).pid = pid → (∀ j, j < q → (s.proc j).pid ≠ pid) →
    (s.proc q).state ≠ .unused

variable {pid : Int32}

theorem FirstLive.killExact (h : FirstLive s pid) : KillExact s pid := by
  rcases kill_cases pid s.proc with ⟨q, hq, hpid, hfirst, hk⟩ | ⟨hno, hk⟩
  · have hlive := h q hq hpid hfirst
    exact ⟨⟨fun _ => ⟨q, hq, hlive, hpid⟩, fun _ => by rw [hk]⟩,
      fun _ => ⟨q, hq, hlive, hpid, by rw [hk]⟩, fun hne => absurd (by rw [hk]) hne⟩
  · refine ⟨⟨fun h0 => ?_, ?_⟩, fun h0 => ?_, fun _ => hk⟩
    · rw [hk] at h0
      cases h0
    · rintro ⟨j, hj, -, hjpid⟩
      exact absurd hjpid (hno j hj)
    · rw [hk] at h0
      cases h0

instance (s : State) (pid : Int32) : Decidable (FirstLive s pid) :=
  inferInstanceAs (Decidable (∀ q, q < nproc → (s.proc q).pid = pid →
    (∀ j, j < q → (s.proc j).pid ≠ pid) → (s.proc q).state ≠ .unused))

/-- `kill` is called with the pid of a slot that is in use or of none, and a `fork` that fails
has not been killed before. -/
def CleanKill (s : State) (a : Action) : Prop :=
  match a, s.point a with
  | _, some (.killScan pid) => FirstLive s pid
  | .proc _ 0, some (.allocStack np) => (s.proc np).killed = false
  | .proc _ 0, some (.forkCopy np) => (s.proc np).killed = false
  | _, _ => True

instance (s : State) (a : Action) : Decidable (CleanKill s a) := by
  unfold CleanKill
  split <;> infer_instance

theorem CleanKill.firstLive (hc : CleanKill s a)
    (hp : s.point a = some (.killScan pid)) : FirstLive s pid := by
  simpa [CleanKill, hp] using hc

theorem CleanKill.not_killed {np : Nat} (hc : CleanKill s (.proc c 0))
    (hp : s.point (.proc c 0) = some (.allocStack np) ∨
      s.point (.proc c 0) = some (.forkCopy np)) : (s.proc np).killed = false := by
  rcases hp with hp | hp <;> simpa [CleanKill, hp] using hc

/-- A slot is marked as killed only while it is in use, and only by `kill` with its pid. -/
def KilledByPid (s : State) : Prop :=
  ∀ q, (s.proc q).killed → (s.proc q).state ≠ .unused ∧ .kill (s.proc q).pid 0 ∈ s.events

theorem procStep_events (ht : procStep s c p r = some t) : s.events <+: t.events := by
  cases hpc : s.pc p <;> simp only [procStep, hpc, reduceCtorEq] at ht
  case acquire k =>
    split at ht <;> cases ht
    exact prefix_rfl
  case allocScan i =>
    cases ht
    rw [allocScan]
    split_ifs
    · exact prefix_append _ _
    all_goals exact prefix_rfl
  case allocStack np =>
    cases ht
    rw [allocStack]
    split_ifs <;> exact prefix_rfl
  case forkCopy np =>
    cases ht
    rw [forkCopy]
    split_ifs <;> exact prefix_rfl
  case waitScan i havekids =>
    cases ht
    rw [waitScan]
    split_ifs
    · exact prefix_rfl
    · exact prefix_append _ _
    all_goals exact prefix_rfl
  case forkPublish | exitMark | killScan =>
    cases ht
    exact prefix_append _ _
  all_goals
    cases ht
    exact prefix_rfl

theorem step_events (ht : step s a = some t) : s.events <+: t.events := by
  cases a with
  | sched c =>
    cases (schedStep_inv ht).2 with
    | take | skip | leave | back => exact prefix_rfl
    | switch =>
      rw [dispatch_events]
      exact prefix_append _ _
  | proc c r =>
    obtain ⟨p, -, ht⟩ := bind_eq_some_iff.mp ht
    exact procStep_events ht
  | call c f =>
    obtain ⟨p, -, ht⟩ := bind_eq_some_iff.mp ht
    split_ifs at ht
    cases f with
    | exit =>
      rw [enter] at ht
      split_ifs at ht
      cases ht
      exact prefix_rfl
    | sleep chan =>
      cases chan <;> cases ht
      exact prefix_rfl
    | fork | wait | wakeup chan | kill pid | nice pid priority =>
      cases ht
      exact prefix_rfl
  | tick c =>
    obtain ⟨p, -, ht⟩ := bind_eq_some_iff.mp ht
    split_ifs at ht
    cases ht
    exact prefix_rfl
  | intr c chan =>
    rw [step] at ht
    split_ifs at ht
    cases ht
    exact prefix_rfl

theorem procStep_kill (hp : (s.cpu c).stack = some p)
    (hpt : s.point (.proc c r) = some (.killScan pid)) (ht : procStep s c p r = some t)
    (hq : q < nproc) (hpid : (s.proc q).pid = pid) : .kill pid 0 ∈ t.events := by
  rw [point_proc hp, Option.some.injEq] at hpt
  rw [procStep, hpt] at ht
  cases ht
  rcases kill_cases pid s.proc with ⟨i, -, -, -, hk⟩ | ⟨hno, -⟩
  · change _ ∈ s.events ++ [_]
    rw [hk]
    simp
  · exact absurd hpid (hno q hq)

theorem CleanKill.step (hc : CleanKill s a) (h : KilledByPid s) (ht : step s a = some t) :
    KilledByPid t := by
  intro q hkilled
  have hslot := step_slot ht q
  generalize hx : t.proc q = x at hslot hkilled
  -- what was noted in `s` is noted in `t`
  have hold : x.killed = (s.proc q).killed → (s.proc q).state ≠ .unused ∧
      .kill (s.proc q).pid 0 ∈ t.events := by
    intro hk
    obtain ⟨hlive, hev⟩ := h q (hk ▸ hkilled)
    exact ⟨hlive, (step_events ht).subset hev⟩
  cases hslot with
  | calm pid killed _ unused =>
    obtain ⟨hlive, hev⟩ := hold killed
    exact ⟨fun hun => hlive (unused hun), pid ▸ hev⟩
  | alloc _ hs => exact absurd hs (hold rfl).1
  | pass => exact hold rfl
  | drop ha hp hk killed _ =>
    subst ha
    have hclean := hc.not_killed (hk.imp (fun e => e ▸ hp) fun e => e ▸ hp)
    rw [killed, hclean] at hkilled
    cases hkilled
  | kill hp hq hpid hfirst =>
    have hlive := hc.firstLive hp q hq hpid hfirst
    refine ⟨?_, ?_⟩
    · rw [Proc.kill]
      dsimp only
      split
      · exact ProcState.noConfusion
      · exact hlive
    · cases a with
      | proc c r =>
        obtain ⟨p, hstack, ht⟩ := bind_eq_some_iff.mp ht
        exact hpid ▸ procStep_kill hstack hp ht hq hpid
      | sched c | call c f | tick c | intr c chan => cases hp
  | reap => cases hkilled
  | nice => exact hold rfl

/-- **Which kills hit live processes.** In a run from boot in which every `kill` names a pid whose
first slot is in use and no `fork` fails after its child was killed, every `kill` returns 0 exactly
if a live process has the pid and marks that process only; and every process that `fork` makes
ready for the first time was marked by `kill` with its own pid, if at all. -/
theorem kill_hits_live (as : List Action)
    (hc : RunMeets step CleanKill (boot sz pgdir kstack cwd ticks) as) :
    RunMeets step (fun s a =>
      (∀ pid, s.point a = some (.killScan pid) → KillExact s pid) ∧
      ∀ np, s.point a = some (.forkPublish np) → (s.proc np).killed →
        .kill (s.proc np).pid 0 ∈ s.events) (boot sz pgdir kstack cwd ticks) as := by
  refine RunMeets.with_invariant (fun s a t h hc ht => CleanKill.step hc h ht) ?_ ?_ hc
  · intro q hq
    by_cases h0 : q = 0
    · subst h0
      cases hq
    · simp [boot, update_of_ne h0, Proc.blank] at hq
  · intro s a h hc
    exact ⟨fun pid hp => (hc.firstLive hp).killExact, fun np _ hk => (h np hk).2⟩

/-- `initproc` forks, kills its child and waits for it. -/
def cleanRun : List Action :=
  [.sched 0, .sched 0, .proc 0 0, .call 0 .fork] ++ List.replicate 10 (.proc 0 5) ++
    [.call 0 (.kill 2), .proc 0 0, .proc 0 0, .proc 0 0, .call 0 .wait]

theorem kill_hits_live_clean :
    (run step (boot 4096 1 2 3 0) cleanRun).isSome ∧
    RunMeets step CleanKill (boot 4096 1 2 3 0) cleanRun ∧
    RunMeets step (fun s a =>
      (∀ pid, s.point a = some (.killScan pid) → KillExact s pid) ∧
      ∀ np, s.point a = some (.forkPublish np) → (s.proc np).killed →
        .kill (s.proc np).pid 0 ∈ s.events) (boot 4096 1 2 3 0) cleanRun :=
  have hclean := RunMeets.of_decide (by decide +kernel)
  ⟨by decide +kernel, hclean, kill_hits_live cleanRun hclean⟩

/-- `initproc` calls `kill(0)`, and then it forks, up to the point where the child is made
ready. -/
def killRun : List Action :=
  [.sched 0, .sched 0, .proc 0 0, .call 0 (.kill 0), .proc 0 0]

/-- `kill(0)` finds the first slot that was never used, and the next child starts out killed. -/
theorem kill_marks_unused_slot :
    ∃ s t, run step (boot 4096 1 2 3 0) killRun = some s ∧
      s.point (.proc 0 0) = some (.killScan 0) ∧ (kill 0 s.proc).1 = 0 ∧
      (∀ q, q < nproc → (s.proc q).state ≠ .unused → (s.proc q).pid ≠ 0) ∧
      run step s ([.proc 0 0, .proc 0 0, .call 0 .fork] ++ List.replicate 8 (.proc 0 5)) =
        some t ∧
      t.point (.proc 0 0) = some (.forkPublish 1) ∧ (t.proc 1).pid = 2 ∧ (t.proc 1).killed ∧
      t.events = [.dispatch 0 0 0, .kill 0 0, .alloc 2] := by
  have hres : ((run step (boot 4096 1 2 3 0) killRun).bind fun s =>
      (run step s ([.proc 0 0, .proc 0 0, .call 0 .fork] ++ List.replicate 8 (.proc 0 5))).map
        fun t => decide (s.point (.proc 0 0) = some (.killScan 0) ∧ (kill 0 s.proc).1 = 0 ∧
          (∀ q, q < nproc → (s.proc q).state ≠ .unused → (s.proc q).pid ≠ 0) ∧
          t.point (.proc 0 0) = some (.forkPublish 1) ∧ (t.proc 1).pid = 2 ∧ (t.proc 1).killed ∧
          t.events = [.dispatch 0 0 0, .kill 0 0, .alloc 2])) = some true := by
    decide +kernel
  obtain ⟨s, hs, ht⟩ := bind_eq_some_iff.mp hres
  obtain ⟨t, ht, hall⟩ := Option.map_eq_some_iff.mp ht
  obtain ⟨h₁, h₂, h₃, h₄⟩ := of_decide_eq_true hall
  exact ⟨s, t, hs, h₁, h₂, h₃, ht, h₄⟩

end Xv6.Sched
