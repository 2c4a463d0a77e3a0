import Xv6.Sched.Waiting
import Xv6.Sleep.Ide

/-!
# Where processes sleep

Besides `wait` and pipes, a process sleeps in `acquiresleep`, in `begin_op`, in `iderw` and in
`consoleread`, each under a spin lock of its own. Each is a monitor.
-/

namespace Xv6.Sleep

open Monitor Transition
open Function (update update_self update_of_ne)

structure SleepLock where
  locked : Bool
  pid : Int32

/-- Points outside `lk->lk`; `returned` is the end of `holdingsleep`. -/
inductive LockOut
  | idle
  | returned (r : Bool)
  deriving DecidableEq

inductive LockIn
  | acquiresleep (pid : Int32)
  | releasesleep
  /-- `releasesleep`, after `wakeup` -/
  | release
  | holdingsleep (pid : Int32)
  deriving DecidableEq

/-- `acquiresleep`, `releasesleep` and `holdingsleep`. -/
def sleepLock : Client Nat SleepLock LockOut LockIn Unit LockIn where
  outside _ _ _ r :=
    match r with
    | .release => none
    | i => some (.enter i)
  inside _ i d _ :=
    match i with
    | .acquiresleep pid =>
      if d.locked then some (.sleep (.acquiresleep pid)) else some (.leave ⟨true, pid⟩ .idle)
    | .releasesleep => some (.wake () ⟨false, 0⟩ .release)
    | .release => some (.leave d .idle)
    | .holdingsleep pid => some (.leave d (.returned (d.locked && d.pid == pid)))
  chan _ := ()

def initsleeplock : SleepLock := ⟨false, 0⟩

inductive LockStep (d : SleepLock) : LockIn → InStep SleepLock LockOut LockIn Unit → Prop
  | wait (pid : Int32) (h : d.locked = true) :
      LockStep d (.acquiresleep pid) (.sleep (.acquiresleep pid))
  | lock (pid : Int32) : LockStep d (.acquiresleep pid) (.leave ⟨true, pid⟩ .idle)
  | unlock : LockStep d .releasesleep (.wake () ⟨false, 0⟩ .release)
  | leave (i : LockIn) (o : LockOut) : LockStep d i (.leave d o)

theorem sleepLock_inside {p : Nat} {i r : LockIn} {d : SleepLock}
    {x : InStep SleepLock LockOut LockIn Unit} (h : sleepLock.inside p i d r = some x) :
    LockStep d i x := by
  cases i <;> simp only [sleepLock] at h
  case acquiresleep pid =>
    split at h <;> cases h
    · next hl => exact .wait pid hl
    · exact .lock pid
  case releasesleep =>
    cases h
    exact .unlock
  all_goals
    cases h
    exact .leave _ _

/-- **Sleep locks keep their promises.** -/
theorem sleepLock_sound : sleepLock.Sound (fun _ d => d.locked = true) (fun _ _ => False)
    fun _ _ => True where
  out_move := by
    intro d d' f p o o' r _ _ hstep
    cases r <;> cases hstep
  out_enter _ _ _ := trivial
  in_move := by
    intro d d' f p i i' r _ _ hstep
    cases sleepLock_inside hstep
  in_leave := by
    intro d d' f p i o r _ _ hstep
    cases sleepLock_inside hstep with
    | lock pid => exact ⟨trivial, fun _ _ _ _ _ => rfl⟩
    | leave => exact ⟨trivial, fun _ _ _ _ hj => hj.resolve_right id⟩
  in_wake := by
    intro d d' f p i c i' r _ _ hstep
    exact ⟨trivial, fun q j _ _ hne => absurd rfl hne⟩
  in_sleep := by
    intro d f p i i' r _ _ hstep
    cases sleepLock_inside hstep with
    | wait pid hl => exact ⟨trivial, hl, fun _ _ _ _ => False.elim⟩

/-- `struct log`: the block numbers of `lh`, and the counters. -/
structure Log where
  size : Nat
  lh : List Nat
  outstanding : Int
  committing : Bool

inductive LogOut
  | idle
  /-- `commit` -/
  | commit
  /-- `commit`: `log.lh.n = 0` -/
  | clear
  /-- `end_op`, after `commit` -/
  | committed
  deriving DecidableEq

inductive LogIn
  | beginOp
  | endOp
  | logWrite (blockno : Nat)
  /-- `end_op`, after `commit`: `log.committing = 0` -/
  | finish
  /-- `end_op`, after `wakeup` -/
  | release
  deriving DecidableEq

inductive LogCall
  | beginOp
  | endOp
  | logWrite (blockno : Nat)

def Log.record (d : Log) (blockno : Nat) : Log :=
  if blockno ∈ d.lh then d else { d with lh := d.lh ++ [blockno] }

def Log.full (d : Log) : Prop :=
  d.lh.length + (d.outstanding + 1) * (maxOpBlocks : Int) > (logSize : Int)

instance (d : Log) : Decidable d.full := by unfold Log.full; infer_instance

/-- `begin_op`, `end_op` with `commit`, and `log_write`. The checks of `log_write` come before the
lock is taken; `commit` changes the header without it. -/
def log : Client Nat Log LogOut LogIn Unit LogCall where
  outside _ o d r :=
    match o, r with
    | .idle, .beginOp => some (.enter .beginOp)
    | .idle, .endOp => some (.enter .endOp)
    | .idle, .logWrite blockno =>
      if d.lh.length ≥ logSize ∨ d.lh.length ≥ d.size - 1 ∨ d.outstanding < 1 then none
      else some (.enter (.logWrite blockno))
    | .commit, _ => some (.move d (if d.lh = [] then .committed else .clear))
    | .clear, _ => some (.move { d with lh := [] } .committed)
    | .committed, _ => some (.enter .finish)
  inside _ i d _ :=
    match i with
    | .beginOp =>
      if d.committing then some (.sleep .beginOp)
      else if d.full then some (.sleep .beginOp)
      else some (.leave { d with outstanding := d.outstanding + 1 } .idle)
    | .endOp =>
      let d := { d with outstanding := d.outstanding - 1 }
      if d.committing then none
      else if d.outstanding = 0 then some (.leave { d with committing := true } .commit)
      else some (.wake () d .release)
    | .logWrite blockno => some (.leave (d.record blockno) .idle)
    | .finish => some (.wake () { d with committing := false } .release)
    | .release => some (.leave d .idle)
  chan _ := ()

def initlog (size : Nat) : Log := ⟨size, [], 0, false⟩

def commits : LogOut ⊕ LogIn → Bool
  | .inl .commit | .inl .clear | .inl .committed | .inr .finish => true
  | _ => false

/-- At most one process commits, and `committing` says so. -/
structure LogInv (d : Log) (f : Nat → LogOut ⊕ LogIn) : Prop where
  committing : ∀ p, commits (f p) → d.committing = true
  unique : ∀ p q, commits (f p) → commits (f q) → p = q

theorem initlog_inv {size : Nat} : LogInv (initlog size) fun _ => .inl .idle :=
  ⟨fun _ => nofun, fun _ _ => nofun⟩

/-- When a process may sleep. -/
def Log.busy (d : Log) : Prop := d.committing = true ∨ d.full

section

variable {d d' : Log} {f : Nat → LogOut ⊕ LogIn} {p : Nat} {x : LogOut ⊕ LogIn}

theorem LogInv.keep (h : LogInv d f) (hx : commits x → commits (f p))
    (hc : (∃ q, commits (update f p x q)) → d'.committing = d.committing) :
    LogInv d' (update f p x) := by
  have hback : ∀ q, commits (update f p x q) → commits (f q) := by
    intro q hq
    by_cases hqp : q = p
    · subst hqp
      rw [update_self] at hq
      exact hx hq
    · rwa [update_of_ne hqp] at hq
  exact ⟨fun q hq => by rw [hc ⟨q, hq⟩, h.committing q (hback q hq)],
    fun q q' hq hq' => h.unique q q' (hback q hq) (hback q' hq')⟩

theorem LogInv.start (h : LogInv d f) (hd : d.committing = false) (hd' : d'.committing = true)
    (x : LogOut ⊕ LogIn) : LogInv d' (update f p x) := by
  have hnone : ∀ q, ¬ commits (f q) := fun q hq => by simpa [hd] using h.committing q hq
  have honly : ∀ q, commits (update f p x q) → q = p := by
    intro q hq
    by_contra hqp
    rw [update_of_ne hqp] at hq
    exact hnone q hq
  exact ⟨fun q _ => hd', fun q q' hq hq' => (honly q hq).trans (honly q' hq').symm⟩

theorem Log.record_full (blockno : Nat) (h : d.full) : (d.record blockno).full := by
  rw [record]
  split_ifs
  · exact h
  · simp only [full, List.length_append, List.length_singleton] at h ⊢
    omega

inductive LogStep (d : Log) : LogIn → InStep Log LogOut LogIn Unit → Prop
  | wait (h : d.busy) : LogStep d .beginOp (.sleep .beginOp)
  | begin (h : ¬ d.busy) :
      LogStep d .beginOp (.leave { d with outstanding := d.outstanding + 1 } .idle)
  | last (h : d.committing = false) : LogStep d .endOp
      (.leave { d with outstanding := d.outstanding - 1, committing := true } .commit)
  | ends : LogStep d .endOp (.wake () { d with outstanding := d.outstanding - 1 } .release)
  | write (blockno : Nat) : LogStep d (.logWrite blockno) (.leave (d.record blockno) .idle)
  | finish : LogStep d .finish (.wake () { d with committing := false } .release)
  | release : LogStep d .release (.leave d .idle)

theorem log_inside {i : LogIn} {r : LogCall} {x : InStep Log LogOut LogIn Unit}
    (h : log.inside p i d r = some x) : LogStep d i x := by
  cases i <;> simp only [log] at h
  case beginOp =>
    split_ifs at h with hc hfull <;> cases h
    · exact .wait (Or.inl hc)
    · exact .wait (Or.inr hfull)
    · exact .begin (by simp [Log.busy, hc, hfull])
  case endOp =>
    split_ifs at h with hc <;> cases h
    · exact .last (by simpa using hc)
    · exact .ends
  case logWrite blockno =>
    cases h
    exact .write blockno
  case finish =>
    cases h
    exact .finish
  case release =>
    cases h
    exact .release

inductive LogOutStep (d : Log) : LogOut → OutStep Log LogOut LogIn → Prop
  | call {i : LogIn} (h : commits (.inr i) = false) : LogOutStep d .idle (.enter i)
  | commit {o : LogOut} : LogOutStep d .commit (.move d o)
  | clear : LogOutStep d .clear (.move { d with lh := [] } .committed)
  | committed : LogOutStep d .committed (.enter .finish)

theorem log_outside {o : LogOut} {r : LogCall} {x : OutStep Log LogOut LogIn}
    (h : log.outside p o d r = some x) : LogOutStep d o x := by
  cases o
  case idle =>
    cases r <;> simp only [log] at h
    case logWrite =>
      split_ifs at h
      cases h
      exact .call rfl
    all_goals
      cases h
      exact .call rfl
  case commit =>
    cases h
    exact .commit
  case clear =>
    cases h
    exact .clear
  case committed =>
    cases h
    exact .committed

end

/-- **The log keeps its promises.** -/
theorem log_sound : log.Sound (fun _ d => d.busy) (fun _ _ => False) LogInv where
  out_move := by
    intro d d' f p o o' r h hp hstep
    have hcom : o ≠ .idle → commits (f p) := by
      rw [hp]
      cases o <;> simp [commits]
    cases log_outside hstep with
    | commit => exact ⟨h.keep (fun _ => hcom nofun) fun _ => rfl, fun _ _ _ _ => id⟩
    | clear =>
      refine ⟨h.keep (fun _ => hcom nofun) fun _ => rfl, fun _ _ _ _ _ => Or.inl ?_⟩
      exact h.committing p (hcom nofun)
  out_enter := by
    intro d f p o i r h hp hstep
    refine h.keep (fun hi => ?_) fun _ => rfl
    rw [hp]
    cases log_outside hstep with
    | call hno => simp [hno] at hi
    | committed => rfl
  in_move := by
    intro d d' f p i i' r _ _ hstep
    cases log_inside hstep
  in_leave := by
    intro d d' f p i o r h hp hstep
    cases log_inside hstep with
    | begin hbusy =>
      exact ⟨h.keep nofun fun _ => rfl, fun _ _ _ _ hj => absurd (hj.resolve_right id) hbusy⟩
    | last hc => exact ⟨h.start hc rfl _, fun _ _ _ _ _ => Or.inl rfl⟩
    | write blockno =>
      have hcom : (d.record blockno).committing = d.committing := by
        rw [Log.record]
        split_ifs <;> rfl
      refine ⟨h.keep nofun fun _ => hcom, fun _ _ _ _ hj => ?_⟩
      rcases hj.resolve_right id with hc | hfull
      · exact Or.inl (hcom.trans hc)
      · exact Or.inr (Log.record_full blockno hfull)
    | release => exact ⟨h.keep nofun fun _ => rfl, fun _ _ _ _ hj => hj.resolve_right id⟩
  in_wake := by
    intro d d' f p i c i' r h hp hstep
    refine ⟨?_, fun q j _ _ hne => absurd rfl hne⟩
    cases log_inside hstep with
    | ends => exact h.keep nofun fun _ => rfl
    | finish =>
      -- nobody else commits
      refine h.keep nofun ?_
      rintro ⟨q, hq⟩
      by_cases hqp : q = p
      · rw [hqp, update_self] at hq
        cases hq
      · rw [update_of_ne hqp] at hq
        exact absurd (h.unique q p hq (by rw [hp]; rfl)) hqp
  in_sleep := by
    intro d f p i i' r h hp hstep
    cases log_inside hstep with
    | wait hbusy => exact ⟨h.keep nofun fun _ => rfl, hbusy, fun _ _ _ _ => False.elim⟩

def inputBuf : UInt32 := 128

def ctrl (x : Char) : Int := x.toNat - '@'.toNat

structure Input where
  buf : UInt32 → Int8
  r : UInt32
  w : UInt32
  e : UInt32

/-- Points outside `cons.lock`; `procdump` runs at the end of `consoleintr` if asked for. -/
inductive ConsOut
  | idle
  | procdump
  deriving DecidableEq

inductive ConsIn
  /-- `consoleread`: the loop, with `n` characters to go of `target` -/
  | read (n target : Nat)
  /-- `consoleintr`: the loop -/
  | intr (doprocdump : Bool)
  /-- `consoleintr`: the loop that kills a line -/
  | killLine (doprocdump : Bool)
  /-- `consolewrite` -/
  | write
  deriving DecidableEq

/-- What a step asks for: a call, whether the process has been killed, or the next character. -/
inductive ConsAsk
  | consoleread (n : Nat)
  | consoleintr
  | consolewrite
  | killed (b : Bool)
  | getc (c : Int)

def consoleread (d : Input) (n target : Nat) : InStep Input ConsOut ConsIn Unit :=
  let c := (d.buf (d.r % inputBuf)).toInt
  let d' := { d with r := d.r + 1 }
  if c = ctrl 'D' then .leave (if n < target then { d' with r := d'.r - 1 } else d') .idle
  else if c = '\n'.toNat then .leave d' .idle
  else .move d' (.read (n - 1) target)

def consoleintr (d : Input) (doprocdump : Bool) (c : Int) : InStep Input ConsOut ConsIn Unit :=
  if c < 0 then .leave d (if doprocdump then .procdump else .idle)
  else if c = ctrl 'P' then .move d (.intr true)
  else if c = ctrl 'U' then .move d (.killLine doprocdump)
  else if c = ctrl 'H' ∨ c = 0x7f then
    .move (if d.e ≠ d.w then { d with e := d.e - 1 } else d) (.intr doprocdump)
  else if c ≠ 0 ∧ d.e - d.r < inputBuf then
    let c : Int := if c = '\r'.toNat then '\n'.toNat else c
    let d := { d with buf := update d.buf (d.e % inputBuf) (Int8.ofInt c), e := d.e + 1 }
    if c = '\n'.toNat ∨ c = ctrl 'D' ∨ d.e = d.r + inputBuf then
      .wake () { d with w := d.e } (.intr doprocdump)
    else .move d (.intr doprocdump)
  else .move d (.intr doprocdump)

/-- `consoleread`, `consoleintr` and `consolewrite`. -/
def console : Client Nat Input ConsOut ConsIn Unit ConsAsk where
  outside _ o d r :=
    match o, r with
    | .idle, .consoleread n => some (.enter (.read n n))
    | .idle, .consoleintr => some (.enter (.intr false))
    | .idle, .consolewrite => some (.enter .write)
    | .procdump, _ => some (.move d .idle)
    | _, _ => none
  inside _ i d r :=
    match i, r with
    | .read n target, .killed b =>
      if n = 0 then some (.leave d .idle)
      else if d.r = d.w then if b then some (.leave d .idle) else some (.sleep (.read n target))
      else some (consoleread d n target)
    | .intr doprocdump, .getc c => some (consoleintr d doprocdump c)
    | .killLine doprocdump, _ =>
      if d.e ≠ d.w ∧ (d.buf ((d.e - 1) % inputBuf)).toInt ≠ '\n'.toNat then
        some (.move { d with e := d.e - 1 } (.killLine doprocdump))
      else some (.move d (.intr doprocdump))
    | .write, _ => some (.leave d .idle)
    | _, _ => none
  chan _ := ()

def consoleinit : Input := ⟨fun _ => 0, 0, 0, 0⟩

/-- What a step under `cons.lock` does: the write index changes only when the readers are woken,
and the read index only when there is something to read. -/
inductive ConsStep (d : Input) : ConsIn → InStep Input ConsOut ConsIn Unit → Prop
  | wait {n target : Nat} (h : d.r = d.w) : ConsStep d (.read n target) (.sleep (.read n target))
  | move {i i' : ConsIn} {d' : Input} (h : d.r = d.w → d'.r = d'.w) : ConsStep d i (.move d' i')
  | leave {i : ConsIn} {d' : Input} {o : ConsOut} (h : d.r = d.w → d'.r = d'.w) :
      ConsStep d i (.leave d' o)
  | wake {i i' : ConsIn} {d' : Input} : ConsStep d i (.wake () d' i')

variable {i : ConsIn}

theorem consoleread_inv {d : Input} {n target : Nat} (h : d.r ≠ d.w) :
    ConsStep d i (consoleread d n target) := by
  simp only [consoleread]
  split_ifs
  · exact .leave fun e => absurd e h
  · exact .leave fun e => absurd e h
  · exact .leave fun e => absurd e h
  · exact .move fun e => absurd e h

theorem consoleintr_inv {d : Input} {doprocdump : Bool} {c : Int} :
    ConsStep d i (consoleintr d doprocdump c) := by
  simp only [consoleintr]
  split_ifs <;> first | exact .leave id | exact .move id | exact .wake

theorem console_inside {p : Nat} {d : Input} {r : ConsAsk}
    {x : InStep Input ConsOut ConsIn Unit} (h : console.inside p i d r = some x) :
    ConsStep d i x := by
  cases i <;> cases r <;> simp only [console, reduceCtorEq] at h
  case read.killed n target b =>
    split_ifs at h with hn hrw <;> cases h
    · exact .leave id
    · exact .leave id
    · exact .wait hrw
    · exact consoleread_inv hrw
  case intr.getc doprocdump c =>
    cases h
    exact consoleintr_inv
  all_goals first
    | cases h; exact .leave id
    | split_ifs at h <;> cases h <;> exact .move id

/-- **The console keeps its promises.** -/
theorem console_sound : console.Sound (fun _ d => d.r = d.w) (fun _ _ => False)
    fun _ _ => True where
  out_move := by
    intro d d' f p o o' r _ _ hstep
    cases o <;> cases r <;> cases hstep <;> exact ⟨trivial, fun _ _ _ _ => id⟩
  out_enter _ _ _ := trivial
  in_move := by
    intro d d' f p i i' r _ _ hstep
    cases console_inside hstep with
    | move hk => exact ⟨trivial, fun _ _ _ _ hj => Or.inl (hk (hj.resolve_right id))⟩
  in_leave := by
    intro d d' f p i o r _ _ hstep
    cases console_inside hstep with
    | leave hk => exact ⟨trivial, fun _ _ _ _ hj => hk (hj.resolve_right id)⟩
  in_wake := by
    intro d d' f p i c i' r _ _ hstep
    exact ⟨trivial, fun q j _ _ hne => absurd rfl hne⟩
  in_sleep := by
    intro d f p i i' r _ _ hstep
    cases console_inside hstep with
    | wait hrw => exact ⟨trivial, hrw, fun _ _ _ _ => False.elim⟩

/-- **No lost wakeup.** While the lock of the place is free, a process that sleeps in `wait` has no
zombie child, one that sleeps in `acquiresleep` finds the lock taken, one that sleeps in
`begin_op` finds a commit going on or no room, one that sleeps in `iderw` has its buffer in the
queue and not done, and one that sleeps in `consoleread` finds no input. -/
theorem sleepers_blocked :
    (∀ sz pgdir kstack cwd ticks as s,
      run Sched.step (Sched.boot sz pgdir kstack cwd ticks) as = some s → s.lock = none →
        ∀ p, s.Dozes p → ∀ q, (s.proc q).parent = some p → (s.proc q).state ≠ .zombie) ∧
    (∀ as s, run sleepLock.step (Client.start initsleeplock fun _ => .idle) as = some s →
      s.lock = none → ∀ p pid, s.pc p = .asleep (.acquiresleep pid) → s.data.locked = true) ∧
    (∀ size as s, run log.step (Client.start (initlog size) fun _ => .idle) as = some s →
      s.lock = none → ∀ p, s.pc p = .asleep .beginOp → s.data.committing = true ∨
        s.data.lh.length + (s.data.outstanding + 1) * (maxOpBlocks : Int) > (logSize : Int)) ∧
    (∀ as s, run ide.step (Client.start ideinit fun _ => .idle) as = some s →
      s.lock = none → ∀ p b, s.pc p = .asleep (.rwWait b) → b ∈ s.data.idequeue ∧
        ¬ ((s.data.buf b).valid = true ∧ (s.data.buf b).dirty = false)) ∧
    ∀ as s, run console.step (Client.start consoleinit fun _ => .idle) as = some s →
      s.lock = none → ∀ p n target, s.pc p = .asleep (.read n target) → s.data.r = s.data.w := by
  refine ⟨fun sz pgdir kstack cwd ticks as s hr _ p hp => (Sched.watch hr).zombie p hp,
    fun as s hr hl p pid hp => sleepLock_sound.blocked_of_asleep trivial hr hl hp,
    fun size as s hr hl p hp => log_sound.blocked_of_asleep initlog_inv hr hl hp,
    fun as s hr hl p b hp => ?_,
    fun as s hr hl p n target hp => console_sound.blocked_of_asleep trivial hr hl hp⟩
  obtain ⟨hmem, hdone⟩ : b ∈ s.data.idequeue ∧ (s.data.buf b).done = false :=
    ide_sound.blocked_of_asleep ideinit_inv hr hl hp
  refine ⟨hmem, fun ⟨hv, hd⟩ => ?_⟩
  simp [Buf.done, hv, hd] at hdone

/-- `initproc` forks and waits, and the child gets the cpu. -/
def waitRun : List Sched.Action :=
  [.sched 0, .sched 0, .proc 0 0, .call 0 .fork] ++ List.replicate 10 (.proc 0 5) ++
    .call 0 .wait :: List.replicate 68 (.proc 0 0) ++ [.sched 0, .sched 0, .proc 0 0]

def acquiresleepRun : List (Monitor.Action Nat LockIn) :=
  List.replicate 3 (.run 0 (.acquiresleep 1)) ++ List.replicate 6 (.run 1 (.acquiresleep 2))

def beginOpRun : List (Monitor.Action Nat LogCall) :=
  List.replicate 3 (.run 0 .beginOp) ++ List.replicate 3 (.run 1 .beginOp) ++
    List.replicate 3 (.run 2 .beginOp) ++ List.replicate 6 (.run 3 .beginOp)

def iderwRun : List (Monitor.Action Nat DiskCall) :=
  .run 0 (.lock 4) :: List.replicate 7 (.run 0 .iderw)

def consolereadRun : List (Monitor.Action Nat ConsAsk) :=
  List.replicate 2 (.run 0 (.consoleread 10)) ++ List.replicate 4 (.run 0 (.killed false))

theorem sleepers_blocked_runs :
    (∃ s, run Sched.step (Sched.boot 4096 1 2 3 0) waitRun = some s ∧ s.lock = none ∧
      s.Dozes 0 ∧ (s.proc 1).parent = some 0 ∧ (s.proc 1).state ≠ .zombie) ∧
    (∃ s, run sleepLock.step (Client.start initsleeplock fun _ => .idle) acquiresleepRun =
      some s ∧ s.lock = none ∧ s.pc 1 = .asleep (.acquiresleep 2) ∧ s.data.locked = true) ∧
    (∃ s, run log.step (Client.start (initlog 31) fun _ => .idle) beginOpRun = some s ∧
      s.lock = none ∧ s.pc 3 = .asleep .beginOp ∧ (s.data.committing = true ∨
        s.data.lh.length + (s.data.outstanding + 1) * (maxOpBlocks : Int) > (logSize : Int))) ∧
    (∃ s, run ide.step (Client.start ideinit fun _ => .idle) iderwRun = some s ∧
      s.lock = none ∧ s.pc 0 = .asleep (.rwWait 4) ∧ 4 ∈ s.data.idequeue) ∧
    ∃ s, run console.step (Client.start consoleinit fun _ => .idle) consolereadRun = some s ∧
      s.lock = none ∧ s.pc 0 = .asleep (.read 10 10) ∧ s.data.r = s.data.w := by
  obtain ⟨hwait, hlock, hlog, hide, hcons⟩ := sleepers_blocked
  have h₁ : ((run Sched.step (Sched.boot 4096 1 2 3 0) waitRun).map fun s =>
      decide (s.lock = none ∧ ((s.proc 0).state = .sleeping ∧ (s.pc 0).core = .waitTidy) ∧
        (s.proc 1).parent = some 0)) = some true := by
    decide +kernel
  have h₂ : ((run sleepLock.step (Client.start initsleeplock fun _ => .idle)
      acquiresleepRun).map fun s =>
        decide (s.lock = none ∧ s.pc 1 = .asleep (.acquiresleep 2))) = some true := by
    decide +kernel
  have h₃ : ((run log.step (Client.start (initlog 31) fun _ => .idle) beginOpRun).map fun s =>
      decide (s.lock = none ∧ s.pc 3 = .asleep .beginOp)) = some true := by
    decide +kernel
  have h₄ : ((run ide.step (Client.start ideinit fun _ => .idle) iderwRun).map fun s =>
      decide (s.lock = none ∧ s.pc 0 = .asleep (.rwWait 4))) = some true := by
    decide +kernel
  have h₅ : ((run console.step (Client.start consoleinit fun _ => .idle) consolereadRun).map
      fun s => decide (s.lock = none ∧ s.pc 0 = .asleep (.read 10 10))) = some true := by
    decide +kernel
  obtain ⟨s₁, hs₁, h₁⟩ := Option.map_eq_some_iff.mp h₁
  obtain ⟨s₂, hs₂, h₂⟩ := Option.map_eq_some_iff.mp h₂
  obtain ⟨s₃, hs₃, h₃⟩ := Option.map_eq_some_iff.mp h₃
  obtain ⟨s₄, hs₄, h₄⟩ := Option.map_eq_some_iff.mp h₄
  obtain ⟨s₅, hs₅, h₅⟩ := Option.map_eq_some_iff.mp h₅
  obtain ⟨hl₁, hd, hp⟩ := of_decide_eq_true h₁
  obtain ⟨hl₂, hp₂⟩ := of_decide_eq_true h₂
  obtain ⟨hl₃, hp₃⟩ := of_decide_eq_true h₃
  obtain ⟨hl₄, hp₄⟩ := of_decide_eq_true h₄
  obtain ⟨hl₅, hp₅⟩ := of_decide_eq_true h₅
  exact ⟨⟨s₁, hs₁, hl₁, hd, hp, hwait _ _ _ _ _ _ _ hs₁ hl₁ 0 hd 1 hp⟩,
    ⟨s₂, hs₂, hl₂, hp₂, hlock _ _ hs₂ hl₂ 1 2 hp₂⟩,
    ⟨s₃, hs₃, hl₃, hp₃, hlog _ _ _ hs₃ hl₃ 3 hp₃⟩,
    ⟨s₄, hs₄, hl₄, hp₄, (hide _ _ hs₄ hl₄ 0 4 hp₄).1⟩,
    ⟨s₅, hs₅, hl₅, hp₅, hcons _ _ hs₅ hl₅ 0 10 10 hp₅⟩⟩

end Xv6.Sleep
