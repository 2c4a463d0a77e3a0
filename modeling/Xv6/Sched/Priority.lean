import Mathlib.Algebra.Order.Group.Int
import Xv6.Sched.Table

/-!
# What the scheduler dispatches

`scheduler()` keeps the priority of the last process it has dispatched in `lowestPriority` and
passes over every process with a larger one, in this pass and in all later ones. Within a pass it
takes whatever it meets first.
-/

namespace Xv6.Sched

open Transition
open Function (update update_self update_of_ne)

variable {s t : State} {c p i : Nat} {sz pgdir kstack cwd ticks : Nat}

/-- `lowestPriority` of every cpu is the smallest priority it has dispatched, and starts high. -/
structure Threshold (s : State) : Prop where
  le_start : ∀ c, (s.cpu c).lowestPriority ≤ 0x77777777
  le_dispatch : ∀ c p x, .dispatch c p x ∈ s.events → (s.cpu c).lowestPriority ≤ x
  attained : ∀ c, (s.cpu c).lowestPriority = 0x77777777 ∨
    ∃ p, .dispatch c p (s.cpu c).lowestPriority ∈ s.events

/-- No other dispatch has been noted, and no threshold has changed. -/
structure Undispatched (s t : State) : Prop where
  lowest : ∀ c, (t.cpu c).lowestPriority = (s.cpu c).lowestPriority
  events : ∀ c p x, .dispatch c p x ∈ t.events ↔ .dispatch c p x ∈ s.events

theorem Undispatched.of_eq (hc : t.cpu = s.cpu) (he : t.events = s.events) : Undispatched s t :=
  ⟨fun c => by rw [hc], fun c p x => by rw [he]⟩

theorem Undispatched.of_log {e : Event} (hc : t.cpu = s.cpu) (he : t.events = s.events ++ [e])
    (hne : ∀ c p x, e ≠ .dispatch c p x) : Undispatched s t := by
  refine ⟨fun c => by rw [hc], fun c p x => ?_⟩
  rw [he, List.mem_append, List.mem_singleton, or_iff_left (hne c p x).symm]

theorem Undispatched.of_setCpu {x : Cpu} (hc : t.cpu = update s.cpu c x)
    (hx : x.lowestPriority = (s.cpu c).lowestPriority) (he : t.events = s.events) :
    Undispatched s t := by
  refine ⟨fun d => ?_, fun c p x => by rw [he]⟩
  rw [hc]
  by_cases hd : d = c
  · rw [hd, update_self, hx]
  · rw [update_of_ne hd]

theorem Threshold.of_undispatched (h : Threshold s) (hst : Undispatched s t) : Threshold t where
  le_start c := by
    rw [hst.lowest]
    exact h.le_start c
  le_dispatch c p x hx := by
    rw [hst.lowest]
    exact h.le_dispatch c p x ((hst.events c p x).mp hx)
  attained c := by
    rw [hst.lowest]
    refine (h.attained c).imp_right ?_
    rintro ⟨p, hp⟩
    exact ⟨p, (hst.events c p _).mpr hp⟩

theorem procStep_undispatched {r : Nat} (ht : procStep s c p r = some t) : Undispatched s t := by
  cases hpc : s.pc p <;> simp only [procStep, hpc, reduceCtorEq] at ht
  case acquire k =>
    split at ht <;> cases ht
    exact .of_eq rfl rfl
  case sched k =>
    cases ht
    exact .of_setCpu rfl rfl rfl
  case allocScan i =>
    cases ht
    rw [allocScan]
    split_ifs
    · exact .of_log rfl rfl fun _ _ _ => Event.noConfusion
    all_goals exact .of_eq rfl rfl
  case allocStack np =>
    cases ht
    rw [allocStack]
    split_ifs <;> exact .of_eq rfl rfl
  case forkCopy np =>
    cases ht
    rw [forkCopy]
    split_ifs <;> exact .of_eq rfl rfl
  case forkPublish np | exitMark | killScan pid =>
    cases ht
    exact .of_log rfl rfl fun _ _ _ => Event.noConfusion
  case waitScan i havekids =>
    cases ht
    rw [waitScan]
    split_ifs
    · exact .of_eq rfl rfl
    · exact .of_log rfl rfl fun _ _ _ => Event.noConfusion
    all_goals exact .of_eq rfl rfl
  all_goals
    cases ht
    exact .of_eq rfl rfl

/-- The scheduler of cpu `c` switches to slot `i` when it comes to it. -/
def Eligible (s : State) (c i : Nat) : Prop :=
  (s.proc i).state = .runnable ∧ (s.proc i).priority ≤ (s.cpu c).lowestPriority

/-- A step of the scheduler dispatches a process or changes no threshold. -/
theorem schedStep_cases (ht : schedStep s c = some t) :
    (∃ i, (s.cpu c).pc = .scan i ∧ i < nproc ∧ Eligible s c i ∧ t = dispatch s c i) ∨
      Undispatched s t ∧ (t.cpu c).stack = none := by
  rw [schedStep] at ht
  split at ht
  · next hstack =>
    split at ht
    · split at ht <;> cases ht
      exact Or.inr ⟨.of_setCpu rfl rfl rfl, by simpa [State.setCpu] using hstack⟩
    · next i hpc =>
      split at ht
      · next hi =>
        split at ht <;> cases ht
        · exact Or.inr ⟨.of_setCpu rfl rfl rfl, by simpa [State.setCpu] using hstack⟩
        · next hel =>
          rw [not_or, not_not, gt_iff_lt, not_lt] at hel
          exact Or.inl ⟨i, hpc, hi, hel, rfl⟩
      · cases ht
        exact Or.inr ⟨.of_setCpu rfl rfl rfl, by simpa [State.setCpu] using hstack⟩
    · cases ht
      exact Or.inr ⟨.of_setCpu rfl rfl rfl, by simpa [State.setCpu] using hstack⟩
  · cases ht

theorem Threshold.dispatch (h : Threshold s) (hel : Eligible s c i) :
    Threshold (dispatch s c i) := by
  have hcpu : ∀ d, ((Sched.dispatch s c i).cpu d).lowestPriority =
      if d = c then (s.proc i).priority else (s.cpu d).lowestPriority := by
    intro d
    rw [dispatch_cpu]
    split
    · next hd => rw [hd, update_self]
    · next hd => rw [update_of_ne hd]
  refine ⟨fun d => ?_, fun d q x hx => ?_, fun d => ?_⟩
  · rw [hcpu]
    split
    · exact hel.2.trans (h.le_start c)
    · exact h.le_start d
  · rw [dispatch_events, List.mem_append, List.mem_singleton] at hx
    rw [hcpu]
    split
    · next hd =>
      subst hd
      rcases hx with hx | hx
      · exact hel.2.trans (h.le_dispatch d q x hx)
      · cases hx
        exact le_refl _
    · next hd =>
      refine h.le_dispatch d q x (hx.resolve_right fun e => ?_)
      cases e
      exact hd rfl
  · rw [hcpu, dispatch_events]
    split
    · next hd => exact Or.inr ⟨i, by simp [hd]⟩
    · refine (h.attained d).imp_right ?_
      rintro ⟨q, hq⟩
      exact ⟨q, List.mem_append_left _ hq⟩

theorem enter_undispatched {f : Call} (ht : enter s p f = some t) : Undispatched s t := by
  cases f with
  | exit =>
    rw [enter] at ht
    split at ht <;> cases ht
    exact .of_eq rfl rfl
  | sleep chan =>
    cases chan <;> cases ht
    exact .of_eq rfl rfl
  | fork | wait | wakeup chan | kill pid | nice pid priority =>
    cases ht
    exact .of_eq rfl rfl

/-- **Every step keeps `lowestPriority` at the smallest priority dispatched.** -/
theorem Threshold.step {a : Action} (h : Threshold s) (ht : step s a = some t) : Threshold t := by
  cases a with
  | sched c =>
    rcases schedStep_cases ht with ⟨i, -, -, hel, rfl⟩ | ⟨hst, -⟩
    · exact h.dispatch hel
    · exact h.of_undispatched hst
  | proc c r =>
    obtain ⟨p, -, ht⟩ := Option.bind_eq_some_iff.mp ht
    exact h.of_undispatched (procStep_undispatched ht)
  | call c f =>
    obtain ⟨p, -, ht⟩ := Option.bind_eq_some_iff.mp ht
    split at ht
    · exact h.of_undispatched (enter_undispatched ht)
    · cases ht
  | tick c =>
    obtain ⟨p, -, ht⟩ := Option.bind_eq_some_iff.mp ht
    split at ht <;> cases ht
    exact h.of_undispatched (.of_eq rfl rfl)
  | intr c chan =>
    rw [Sched.step] at ht
    split at ht <;> cases ht
    exact h.of_undispatched (.of_eq rfl rfl)

/-- In every run, `lowestPriority` is the smallest priority dispatched so far. -/
theorem threshold {as : List Action} (hr : run step (boot sz pgdir kstack cwd ticks) as = some s) :
    Threshold s := by
  refine run_invariant (fun s a t h ht => h.step ht) ?_ hr
  exact ⟨fun _ => le_refl _, fun _ _ _ h => absurd h (by simp [boot]), fun _ => Or.inl rfl⟩

def State.atSlot (s : State) (c i : Nat) : State := s.setCpu c { s.cpu c with pc := .scan i }

theorem atSlot_atSlot (s : State) (c i j : Nat) : (s.atSlot c i).atSlot c j = s.atSlot c j := by
  simp [State.atSlot, State.setCpu]

theorem atSlot_stack (s : State) (c i : Nat) : ((s.atSlot c i).cpu c).stack = (s.cpu c).stack := by
  simp [State.atSlot, State.setCpu]

variable (hstack : (s.cpu c).stack = none)

include hstack

theorem schedStep_skip (hi : i < nproc)
    (hel : ¬ Eligible s c i) : schedStep (s.atSlot c i) c = some (s.atSlot c (i + 1)) := by
  have hskip : (s.proc i).state ≠ .runnable ∨
      (s.proc i).priority > (s.cpu c).lowestPriority := by
    rw [Eligible, not_and_or, not_le] at hel
    exact hel
  rw [schedStep, ← atSlot_atSlot s c i (i + 1)]
  simp only [State.atSlot, State.setCpu, update_self, hstack, if_true, hi, if_pos hskip]

theorem schedStep_dispatch (hi : i < nproc) (hel : Eligible s c i) :
    schedStep (s.atSlot c i) c = some (dispatch (s.atSlot c i) c i) := by
  have hskip : ¬ ((s.proc i).state ≠ .runnable ∨
      (s.proc i).priority > (s.cpu c).lowestPriority) := by
    rw [not_or, not_not, gt_iff_lt, not_lt]
    exact hel
  rw [schedStep]
  simp only [State.atSlot, State.setCpu, update_self, hstack, if_true, hi, if_neg hskip]

theorem run_skip (n : Nat) (hn : i + n ≤ nproc)
    (hskip : ∀ j, i ≤ j → j < i + n → ¬ Eligible s c j) :
    run step (s.atSlot c i) (List.replicate n (.sched c)) = some (s.atSlot c (i + n)) := by
  induction n generalizing i with
  | zero => rfl
  | succ n ih =>
    have hstep : step (s.atSlot c i) (.sched c) = some (s.atSlot c (i + 1)) :=
      schedStep_skip hstack (by omega) (hskip i (le_refl i) (by omega))
    rw [List.replicate_succ, run_cons, hstep, Option.bind_some,
      ih (by omega) fun j h₁ h₂ => hskip j (by omega) (by omega)]
    congr 2
    omega

theorem step_idle (hpc : (s.cpu c).pc = .idle) (hl : s.lock = none) :
    step s (.sched c) = some ({ s with lock := some c }.atSlot c 0) := by
  rw [step, schedStep, if_pos hstack, hpc]
  simp only [hl, if_true]
  rfl

omit hstack

/-- Some priority passes the threshold of cpu `c` exactly if it does not exceed the start value
and what `c` has dispatched. -/
theorem Threshold.le_lowest_iff (h : Threshold s) {x : Int} :
    x ≤ (s.cpu c).lowestPriority ↔
      x ≤ 0x77777777 ∧ ∀ p y, .dispatch c p y ∈ s.events → x ≤ y := by
  constructor
  · intro hx
    exact ⟨hx.trans (h.le_start c), fun p y hy => hx.trans (h.le_dispatch c p y hy)⟩
  · rintro ⟨hstart, hall⟩
    rcases h.attained c with heq | ⟨p, hp⟩
    · rwa [heq]
    · exact hall p _ hp

/-- **When a pass dispatches a process.** The scheduler of a cpu that is about to scan the table
switches to a process before the scan ends exactly if some process is ready whose priority
exceeds neither the start value of `lowestPriority` nor any priority this cpu has dispatched. -/
theorem pass_dispatches_iff {as : List Action}
    (hr : run step (boot sz pgdir kstack cwd ticks) as = some s)
    (hstack : (s.cpu c).stack = none) (hpc : (s.cpu c).pc = .idle) (hl : s.lock = none) :
    (∃ n t p, n ≤ nproc + 1 ∧ run step s (List.replicate n (.sched c)) = some t ∧
      (t.cpu c).stack = some p) ↔
    ∃ q, q < nproc ∧ (s.proc q).state = .runnable ∧ (s.proc q).priority ≤ 0x77777777 ∧
      ∀ p x, .dispatch c p x ∈ s.events → (s.proc q).priority ≤ x := by
  have hth := threshold hr
  have hstack' : ({ s with lock := some c }.cpu c).stack = none := hstack
  constructor
  · rintro ⟨n, t, p, hn, hrun, ht⟩
    by_contra hno
    -- nothing is eligible, so the first `n` steps only move along the table
    have hskip : ∀ j, 0 ≤ j → j < nproc → ¬ Eligible { s with lock := some c } c j :=
      fun j _ hj hel => hno ⟨j, hj, hel.1, hth.le_lowest_iff.mp hel.2⟩
    cases n with
    | zero =>
      rw [List.replicate_zero, run_nil, Option.some.injEq] at hrun
      rw [← hrun, hstack] at ht
      cases ht
    | succ n =>
      rw [List.replicate_succ, run_cons, step_idle hstack hpc hl, Option.bind_some,
        run_skip hstack' n (by omega) fun j h₁ h₂ => hskip j h₁ (by omega),
        Option.some.injEq] at hrun
      rw [← hrun, atSlot_stack, hstack'] at ht
      cases ht
  · rintro ⟨q, hq, hrun, hprio⟩
    have helq : Eligible s c q := ⟨hrun, hth.le_lowest_iff.mpr hprio⟩
    classical
    -- the first slot that is eligible
    have hex : ∃ j, Eligible s c j := ⟨q, helq⟩
    have hfirst := Nat.find_spec hex
    have hle : Nat.find hex ≤ q := Nat.find_min' hex helq
    refine ⟨Nat.find hex + 2, dispatch ({ s with lock := some c }.atSlot c (Nat.find hex)) c
      (Nat.find hex), Nat.find hex, by omega, ?_, ?_⟩
    · have hskip : ∀ j, 0 ≤ j → j < 0 + Nat.find hex →
          ¬ Eligible { s with lock := some c } c j :=
        fun j _ hj => Nat.find_min hex (by omega)
      have hdis : step ({ s with lock := some c }.atSlot c (0 + Nat.find hex)) (.sched c) =
          some (dispatch ({ s with lock := some c }.atSlot c (Nat.find hex)) c
            (Nat.find hex)) := by
        rw [Nat.zero_add]
        exact schedStep_dispatch hstack' (by omega) hfirst
      rw [List.replicate_succ, run_cons, step_idle hstack hpc hl, Option.bind_some,
        List.replicate_succ', run_append, run_skip hstack' _ (by omega) hskip, Option.bind_some,
        run_cons, hdis, Option.bind_some, run_nil]
    · rw [dispatch_cpu, update_self]

/-- The first pass after `userinit` runs `initproc`. -/
theorem pass_dispatches_iff_boot : ∃ n t p, n ≤ nproc + 1 ∧
    run step (boot 4096 1 2 3 0) (List.replicate n (.sched 0)) = some t ∧
      (t.cpu 0).stack = some p :=
  (pass_dispatches_iff (run_nil (boot 4096 1 2 3 0)) rfl rfl rfl).mpr
    ⟨0, by decide, rfl, by decide, fun p x h => absurd h (by simp [boot])⟩

/-- `initproc` is dispatched with priority 0, calls `nice(1, 10)` and yields; the scheduler ends
its pass. -/
def niceRun : List Action :=
  [.sched 0, .sched 0, .proc 0 0, .call 0 (.nice 1 10)] ++ List.replicate 66 (.proc 0 0) ++
    [.tick 0, .proc 0 0, .proc 0 0, .proc 0 0] ++ List.replicate 65 (.sched 0)

/-- A whole pass dispatches nothing although `initproc` is ready. -/
theorem pass_dispatches_nothing :
    ∃ s t, run step (boot 4096 1 2 3 0) niceRun = some s ∧ s.lock = none ∧
      (s.cpu 0).pc = .idle ∧ (s.proc 0).state = .runnable ∧
      run step s (List.replicate (nproc + 2) (.sched 0)) = some t ∧
      (t.cpu 0).pc = .idle ∧ t.events.length = s.events.length := by
  have hres : ((run step (boot 4096 1 2 3 0) niceRun).bind fun s =>
      (run step s (List.replicate (nproc + 2) (.sched 0))).map fun t =>
        decide (s.lock = none ∧ (s.cpu 0).pc = .idle ∧ (s.proc 0).state = .runnable ∧
          (t.cpu 0).pc = .idle ∧ t.events.length = s.events.length)) = some true := by
    decide +kernel
  obtain ⟨s, hs, ht⟩ := Option.bind_eq_some_iff.mp hres
  obtain ⟨t, ht, hall⟩ := Option.map_eq_some_iff.mp ht
  obtain ⟨h₁, h₂, h₃, h₄, h₅⟩ := of_decide_eq_true hall
  exact ⟨s, t, hs, h₁, h₂, h₃, ht, h₄, h₅⟩

end Xv6.Sched
