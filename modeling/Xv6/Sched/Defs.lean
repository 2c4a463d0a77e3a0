import Mathlib.Logic.Function.Basic
import Xv6.Lib.Search
import Xv6.Lib.Transition
import Xv6.Param

/-!
# Processes and the scheduler

`proc.c` as a state machine: any number of CPUs run `scheduler()`, and the processes they run call
`fork`, `exit`, `wait`, `yield`, `sleep`, `wakeup`, `kill` and `nice`. Taking and giving back
`ptable.lock` are steps of their own, and so is `swtch`; a loop over the table is one step for each
slot, except in `wakeup1`, `kill` and the loop of `exit`, whose writes only the holder of the lock
can see. `proc_nice` and the failure paths of `fork` write without the lock.

A process that does not hold the lock can be made to `yield` anywhere, and an interrupt can call
`wakeup` on a CPU whose scheduler is idle.
-/

namespace Xv6.Sched

inductive ProcState
  | unused
  | embryo
  | sleeping
  | runnable
  | running
  | zombie
  deriving DecidableEq

/-- What a process sleeps on: an entry of `ptable`, or some other address. -/
inductive Chan
  | proc (p : Nat)
  | addr (a : Nat)
  deriving DecidableEq

/-- `struct proc`. The trap frame and the saved context lie in the page of `kstack`; what the
context resumes is the program point of the process. -/
structure Proc where
  sz : Nat
  pgdir : Nat
  kstack : Nat
  state : ProcState
  pid : Int32
  parent : Option Nat
  chan : Option Chan
  killed : Bool
  ofile : Nat → Option Nat
  cwd : Option Nat
  name : List UInt8
  ticksAtStart : Nat
  ticksScheduled : Nat
  priority : Int

inductive Pc
  /-- user code, or kernel code outside `proc.c` -/
  | user
  /-- `acquire(&ptable.lock)`, then `k` -/
  | acquire (k : Pc)
  /-- `release(&ptable.lock)`, then `k` -/
  | release (k : Pc)
  /-- `sched()`; `k` once the process is picked again -/
  | sched (k : Pc)
  /-- switched out by `swtch`, to go on at `k` -/
  | switched (k : Pc)
  /-- after `sched()` in `exit` -/
  | exited
  /-- `allocproc`: the loop, at slot `i` -/
  | allocScan (i : Nat)
  /-- `allocproc`: `p->kstack = kalloc()` -/
  | allocStack (np : Nat)
  /-- `fork`: `np->pgdir = copyuvm(...)` -/
  | forkCopy (np : Nat)
  /-- `fork`: the assignments to the other fields of `np` -/
  | forkFill (np : Nat)
  /-- `fork`: `np->state = RUNNABLE` -/
  | forkPublish (np : Nat)
  /-- `exit`: `wakeup1(curproc->parent)` -/
  | exitWake
  /-- `exit`: pass the children to `initproc` -/
  | exitPass
  /-- `exit`: `curproc->state = ZOMBIE` -/
  | exitMark
  /-- `wait`: the loop, at slot `i` -/
  | waitScan (i : Nat) (havekids : Bool)
  /-- `wait`: go to sleep -/
  | waitMark
  /-- `wait`: after `sched()` in `sleep` -/
  | waitTidy
  /-- `yield`: `myproc()->state = RUNNABLE`; the process was at `k` -/
  | yieldMark (k : Pc)
  /-- `sleep(chan, lk)`: go to sleep -/
  | sleepMark (chan : Chan)
  /-- `sleep`: after `sched()` -/
  | sleepTidy
  /-- `wakeup`: `wakeup1(chan)` -/
  | wakeup1 (chan : Chan)
  /-- `kill`: the loop -/
  | killScan (pid : Int32)
  /-- `proc_nice`: the loop, at slot `i` -/
  | niceScan (pid : Int32) (priority : Int) (i : Nat)
  /-- `proc_nice`: `p->priority = priority`, for slot `i` -/
  | niceWrite (pid : Int32) (priority : Int) (i : Nat)
  deriving DecidableEq

/-- The next thing `scheduler()` does. -/
inductive SchedPc
  /-- `sti(); acquire(&ptable.lock)` -/
  | idle
  /-- the loop, at slot `i` -/
  | scan (i : Nat)
  /-- `c->proc = 0`, after `swtch` to slot `i` has returned -/
  | back (i : Nat)
  deriving DecidableEq

/-- `struct cpu` and the local variables of its `scheduler()`. -/
structure Cpu where
  /-- the process running on this cpu or null -/
  proc : Option Nat
  /-- the process whose stack the cpu is on; `none` for the scheduler's stack -/
  stack : Option Nat
  pc : SchedPc
  lowestPriority : Int

/-- What has happened, for the specification. -/
inductive Event
  /-- `scheduler` of a cpu has switched to a process. -/
  | dispatch (c p : Nat) (priority : Int)
  /-- `allocproc` has given a pid to a new process. -/
  | alloc (pid : Int32)
  /-- `fork` by `creator` has made `child` runnable. -/
  | fork (creator child : Int32)
  | exit (pid : Int32)
  /-- `wait` by `waiter` returns `child`. -/
  | wait (waiter child : Int32)
  | kill (pid : Int32) (ret : Int)
  deriving DecidableEq

/-- The process table and the CPUs. No step reads `events`. -/
structure State where
  /-- the cpu that holds `ptable.lock` -/
  lock : Option Nat
  nextpid : Int32
  initproc : Nat
  proc : Nat → Proc
  pc : Nat → Pc
  cpu : Nat → Cpu
  events : List Event

def wakeup1 (chan : Option Chan) (proc : Nat → Proc) : Nat → Proc := fun q =>
  if (proc q).state = .sleeping ∧ (proc q).chan = chan then { proc q with state := .runnable }
  else proc q

def passChild (cur init : Nat) (proc : Nat → Proc) (q : Nat) : Nat → Proc :=
  if (proc q).parent = some cur then
    let proc := Function.update proc q { proc q with parent := some init }
    if (proc q).state = .zombie then wakeup1 (some (.proc init)) proc else proc
  else proc

/-- The loop of `exit` that passes children to `initproc`. -/
@[irreducible] def passChildren (cur init : Nat) (proc : Nat → Proc) : Nat → Proc :=
  (List.range nproc).foldl (passChild cur init) proc

def kill (pid : Int32) (proc : Nat → Proc) : Int × (Nat → Proc) :=
  match findFrom (fun q => (proc q).pid = pid) 0 nproc with
  | some q =>
    (0, Function.update proc q { proc q with
      killed := true
      state := if (proc q).state = .sleeping then .runnable else (proc q).state })
  | none => (-1, proc)

def Proc.reap (x : Proc) : Proc :=
  { x with
    kstack := 0, pid := 0, parent := none, name := x.name.set 0 0, killed := false,
    state := .unused }

namespace State

def setProc (s : State) (q : Nat) (x : Proc) : State :=
  { s with proc := Function.update s.proc q x }

def goto (s : State) (p : Nat) (k : Pc) : State := { s with pc := Function.update s.pc p k }

def setCpu (s : State) (c : Nat) (x : Cpu) : State :=
  { s with cpu := Function.update s.cpu c x }

def log (s : State) (e : Event) : State := { s with events := s.events ++ [e] }

end State

def dispatch (s : State) (c i : Nat) : State :=
  let t := ((s.setCpu c ⟨some i, some i, .back i, (s.proc i).priority⟩).setProc i
    { s.proc i with state := .running }).log (.dispatch c i (s.proc i).priority)
  match s.pc i with
  | .switched k => t.goto i k
  | _ => t

def schedStep (s : State) (c : Nat) : Option State :=
  if (s.cpu c).stack = none then
    match (s.cpu c).pc with
    | .idle =>
      if s.lock = none then
        some { s.setCpu c { s.cpu c with pc := .scan 0 } with lock := some c }
      else none
    | .scan i =>
      if i < nproc then
        if (s.proc i).state ≠ .runnable ∨ (s.proc i).priority > (s.cpu c).lowestPriority then
          some (s.setCpu c { s.cpu c with pc := .scan (i + 1) })
        else some (dispatch s c i)
      else some { s.setCpu c { s.cpu c with pc := .idle } with lock := none }
    | .back i => some (s.setCpu c { s.cpu c with proc := none, pc := .scan (i + 1) })
  else none

def allocScan (s : State) (p i : Nat) : State :=
  if i < nproc then
    if (s.proc i).state = .unused then
      { ((s.setProc i { s.proc i with priority := 0, state := .embryo, pid := s.nextpid }).goto p
          (.release (.allocStack i))).log (.alloc s.nextpid) with nextpid := s.nextpid + 1 }
    else (s.setProc i { s.proc i with priority := 0 }).goto p (.allocScan (i + 1))
  else s.goto p (.release .user)

/-- The end of `allocproc`; `r` is what `kalloc` returns. -/
def allocStack (s : State) (p np r : Nat) : State :=
  if r = 0 then
    (s.setProc np { s.proc np with kstack := 0, state := .unused }).goto p .user
  else
    ((s.setProc np { s.proc np with kstack := r }).goto np (.switched (.release .user))).goto p
      (.forkCopy np)

/-- The call of `copyuvm` in `fork`; `r` is what it returns. -/
def forkCopy (s : State) (p np r : Nat) : State :=
  if r = 0 then
    (s.setProc np { s.proc np with pgdir := 0, kstack := 0, state := .unused }).goto p .user
  else (s.setProc np { s.proc np with pgdir := r }).goto p (.forkFill np)

def forkFill (s : State) (p np : Nat) : State :=
  let cur := s.proc p
  (s.setProc np { s.proc np with
    sz := cur.sz, parent := some p, ofile := cur.ofile, cwd := cur.cwd, name := cur.name }).goto p
      (.acquire (.forkPublish np))

/-- The end of `fork`; `r` is the value of `ticks`. -/
def forkPublish (s : State) (p np r : Nat) : State :=
  ((s.setProc np { s.proc np with
    state := .runnable, ticksAtStart := r, ticksScheduled := 0 }).goto p (.release .user)).log
      (.fork (s.proc p).pid (s.proc np).pid)

def waitScan (s : State) (p i : Nat) (havekids : Bool) : State :=
  if i < nproc then
    if (s.proc i).parent ≠ some p then s.goto p (.waitScan (i + 1) havekids)
    else if (s.proc i).state = .zombie then
      ((s.setProc i (s.proc i).reap).goto p (.release .user)).log
        (.wait (s.proc p).pid (s.proc i).pid)
    else s.goto p (.waitScan (i + 1) true)
  else if !havekids || (s.proc p).killed then s.goto p (.release .user)
  else s.goto p .waitMark

/-- One step of process `p` on cpu `c`; `r` is what `kalloc`, `copyuvm` or the clock say, where
the step asks one of them. -/
def procStep (s : State) (c p r : Nat) : Option State :=
  match s.pc p with
  | .user | .switched _ | .exited => none
  | .acquire k =>
    if s.lock = none then some { s.goto p k with lock := some c } else none
  | .release k => some { s.goto p k with lock := none }
  | .sched k =>
    some (((s.setProc p
      { s.proc p with ticksScheduled := (s.proc p).ticksScheduled + 1 }).setCpu c
        { s.cpu c with stack := none }).goto p (.switched k))
  | .allocScan i => some (allocScan s p i)
  | .allocStack np => some (allocStack s p np r)
  | .forkCopy np => some (forkCopy s p np r)
  | .forkFill np => some (forkFill s p np)
  | .forkPublish np => some (forkPublish s p np r)
  | .exitWake =>
    some ({ s with proc := wakeup1 ((s.proc p).parent.map .proc) s.proc }.goto p .exitPass)
  | .exitPass =>
    some ({ s with proc := passChildren p s.initproc s.proc }.goto p .exitMark)
  | .exitMark =>
    some (((s.setProc p { s.proc p with state := .zombie }).goto p (.sched .exited)).log
      (.exit (s.proc p).pid))
  | .waitScan i havekids => some (waitScan s p i havekids)
  | .waitMark =>
    some ((s.setProc p { s.proc p with chan := some (.proc p), state := .sleeping }).goto p
      (.sched .waitTidy))
  | .waitTidy => some ((s.setProc p { s.proc p with chan := none }).goto p (.waitScan 0 false))
  | .yieldMark k =>
    some ((s.setProc p { s.proc p with state := .runnable }).goto p (.sched (.release k)))
  | .sleepMark chan =>
    some ((s.setProc p { s.proc p with chan := some chan, state := .sleeping }).goto p
      (.sched .sleepTidy))
  | .sleepTidy => some ((s.setProc p { s.proc p with chan := none }).goto p (.release .user))
  | .wakeup1 chan =>
    some ({ s with proc := Sched.wakeup1 (some chan) s.proc }.goto p (.release .user))
  | .killScan pid =>
    some (({ s with proc := (Sched.kill pid s.proc).2 }.goto p (.release .user)).log
      (.kill pid (Sched.kill pid s.proc).1))
  | .niceScan pid priority i =>
    some (s.goto p (if i < nproc then
      if (s.proc i).pid = pid then .niceWrite pid priority i else .niceScan pid priority (i + 1)
      else .user))
  | .niceWrite pid priority i =>
    some ((s.setProc i { s.proc i with priority := priority }).goto p
      (.niceScan pid priority (i + 1)))

inductive Call
  | fork
  | exit
  | wait
  | sleep (chan : Chan)
  | wakeup (chan : Chan)
  | kill (pid : Int32)
  | nice (pid : Int32) (priority : Int)

/-- Process `p` enters a function. `sleep` is called on addresses outside `ptable`, with a lock
other than `ptable.lock`; `wait` has its own. `exit` of `initproc` panics. -/
def enter (s : State) (p : Nat) : Call → Option State
  | .fork => some (s.goto p (.acquire (.allocScan 0)))
  | .exit =>
    if p = s.initproc then none
    else some ((s.setProc p { s.proc p with ofile := fun _ => none, cwd := none }).goto p
      (.acquire .exitWake))
  | .wait => some (s.goto p (.acquire (.waitScan 0 false)))
  | .sleep (.addr a) => some (s.goto p (.acquire (.sleepMark (.addr a))))
  | .sleep (.proc _) => none
  | .wakeup chan => some (s.goto p (.acquire (.wakeup1 chan)))
  | .kill pid => some (s.goto p (.acquire (.killScan pid)))
  | .nice pid priority => some (s.goto p (.niceScan pid priority 0))

def Pc.holdsLock : Pc → Bool
  | .release _ | .sched _ | .allocScan _ | .forkPublish _ | .exitWake | .exitPass | .exitMark
  | .waitScan _ _ | .waitMark | .waitTidy | .yieldMark _ | .sleepMark _ | .sleepTidy
  | .wakeup1 _ | .killScan _ => true
  | _ => false

inductive Action
  /-- the scheduler of cpu `c` takes its next step -/
  | sched (c : Nat)
  /-- the process on cpu `c` takes its next step -/
  | proc (c r : Nat)
  /-- the process on cpu `c`, outside `proc.c`, calls a function of it -/
  | call (c : Nat) (f : Call)
  /-- a clock interrupt makes the process on cpu `c` call `yield` -/
  | tick (c : Nat)
  /-- an interrupt on cpu `c`, whose scheduler is idle, calls `wakeup` -/
  | intr (c : Nat) (chan : Chan)

def step (s : State) : Action → Option State
  | .sched c => schedStep s c
  | .proc c r => (s.cpu c).stack.bind fun p => procStep s c p r
  | .call c f => (s.cpu c).stack.bind fun p => if s.pc p = .user then enter s p f else none
  | .tick c => (s.cpu c).stack.bind fun p =>
    if (s.pc p).holdsLock then none else some (s.goto p (.acquire (.yieldMark (s.pc p))))
  | .intr c chan =>
    if (s.cpu c).stack = none ∧ (s.cpu c).pc = .idle ∧ s.lock = none then
      some { s with proc := wakeup1 (some chan) s.proc }
    else none

def Proc.blank : Proc where
  sz := 0
  pgdir := 0
  kstack := 0
  state := .unused
  pid := 0
  parent := none
  chan := none
  killed := false
  ofile := fun _ => none
  cwd := none
  name := []
  ticksAtStart := 0
  ticksScheduled := 0
  priority := 0

/-- The first process, as `userinit` leaves it. The arguments are its size, page directory,
kernel stack and current directory, and the value of `ticks`. -/
def Proc.initcode (sz pgdir kstack cwd ticks : Nat) : Proc :=
  { Proc.blank with
    sz := sz
    pgdir := pgdir
    kstack := kstack
    state := .runnable
    pid := 1
    cwd := some cwd
    name := [105, 110, 105, 116, 99, 111, 100, 101]
    ticksAtStart := ticks }

/-- The machine after `userinit`: `initproc` is in the first slot and ready to run `forkret`,
and every cpu enters `scheduler()`. -/
def boot (sz pgdir kstack cwd ticks : Nat) : State where
  lock := none
  nextpid := 2
  initproc := 0
  proc := Function.update (fun _ => Proc.blank) 0 (Proc.initcode sz pgdir kstack cwd ticks)
  pc := fun p => .switched (if p = 0 then .release .user else .exited)
  cpu := fun _ => ⟨none, none, .idle, 0x77777777⟩
  events := []

end Xv6.Sched
