import Xv6.Lib.Transition
import Xv6.Lib.Ring
import Xv6.Param

/-!
# Pipes

`pipe.c` over `sleep`, `wakeup` and `kill` of `proc.c`: any number of processes call `pipewrite`,
`piperead` and `pipeclose` on one pipe. Every acquire and release of `p->lock` and every section
under `ptable.lock` is a step of its own. `wakeup` and `kill` are one step each; `sleep` is split
where it lets go of `p->lock` while it holds `ptable.lock`.
-/

namespace Xv6

open Function (update)

structure Pipe where
  data : Nat → UInt8
  /-- number of bytes read -/
  nread : UInt32
  /-- number of bytes written -/
  nwrite : UInt32
  /-- read fd is still open -/
  readopen : Bool
  /-- write fd is still open -/
  writeopen : Bool

namespace Pipe

def full (p : Pipe) : Bool := p.nwrite = p.nread + UInt32.ofNat pipeSize

def empty (p : Pipe) : Bool := p.nread = p.nwrite

def append (p : Pipe) (c : UInt8) : Pipe :=
  { p with
    data := update p.data (p.nwrite % UInt32.ofNat pipeSize).toNat c
    nwrite := p.nwrite + 1 }

/-- The byte that `p->data[p->nread++ % PIPESIZE]` reads. -/
def front (p : Pipe) : UInt8 := p.data (p.nread % UInt32.ofNat pipeSize).toNat

def advance (p : Pipe) : Pipe := { p with nread := p.nread + 1 }

def bytes (p : Pipe) : List UInt8 :=
  (List.range (p.nwrite - p.nread).toNat).map fun k =>
    p.data ((p.nread + UInt32.ofNat k) % UInt32.ofNat pipeSize).toNat

/-- The addresses processes sleep on: `&p->nread` and `&p->nwrite`. -/
inductive Chan
  | nread
  | nwrite
  deriving DecidableEq

/-- The values of `p->state` in a pipe call. -/
inductive ProcState
  | running
  | sleeping
  | runnable
  deriving DecidableEq

/-- The call that a sleep returns to, with its local variables. -/
inductive Sleeper
  | writer (addr : List UInt8) (i : Nat)
  | reader (n : Nat)
  deriving DecidableEq

def Sleeper.chan : Sleeper → Chan
  | .writer _ _ => .nwrite
  | .reader _ => .nread

/-- The next thing a process inside `sleep` does. -/
inductive SleepPc
  /-- `acquire(&ptable.lock)` -/
  | acquireTable
  /-- `release(lk)` -/
  | releaseLock
  /-- `p->chan = chan; p->state = SLEEPING; sched()`, which gives `ptable.lock` away -/
  | mark
  /-- in the scheduler, until the process is picked again with `ptable.lock` held -/
  | switched
  /-- `p->chan = 0; release(&ptable.lock)` -/
  | tidy
  /-- `acquire(lk)` -/
  | reacquire
  deriving DecidableEq

inductive Pc
  /-- outside the pipe calls -/
  | user
  /-- `pipewrite`: `acquire(&p->lock)` -/
  | writeAcquire (addr : List UInt8)
  /-- `pipewrite`: the tests of both loops and one byte -/
  | writeLoop (addr : List UInt8) (i : Nat)
  /-- `pipewrite`: `wakeup(&p->nread)` of a full pipe -/
  | writeFull (addr : List UInt8) (i : Nat)
  /-- `pipewrite`: the last `wakeup(&p->nread)` -/
  | writeWake (addr : List UInt8)
  /-- `pipewrite`: `release(&p->lock)` and return -/
  | writeRelease (addr : List UInt8) (ret : Int)
  /-- `piperead`: `acquire(&p->lock)` -/
  | readAcquire (n : Nat)
  /-- `piperead`: the tests of the waiting loop -/
  | readLoop (n : Nat)
  /-- `piperead`: the copy loop, `out` being what it has copied -/
  | readCopy (n : Nat) (out : List UInt8)
  /-- `piperead`: `wakeup(&p->nwrite)` -/
  | readWake (n : Nat) (out : List UInt8)
  /-- `piperead`: `release(&p->lock)` and return -/
  | readRelease (n : Nat) (out : List UInt8) (ret : Int)
  /-- `pipeclose`: `acquire(&p->lock)` -/
  | closeAcquire (writable : Bool)
  /-- `pipeclose`: clear `writeopen` or `readopen` -/
  | closeSet (writable : Bool)
  /-- `pipeclose`: wake the other end -/
  | closeWake (writable : Bool)
  /-- `pipeclose`: `release(&p->lock)`, and `kfree` after the second end -/
  | closeRelease
  /-- inside `sleep(chan, &p->lock)` -/
  | sleep (k : Sleeper) (at_ : SleepPc)
  deriving DecidableEq

def Sleeper.resume : Sleeper → Pc
  | .writer addr i => .writeLoop addr i
  | .reader n => .readLoop n

/-- The fields of `struct proc` that the calls use. -/
structure Proc where
  pc : Pc
  state : ProcState
  chan : Option Chan
  killed : Bool

/-- A call that has returned, with what it did. -/
inductive Ret
  /-- `pipewrite(p, addr, n)` returned `ret` after appending `wrote`. -/
  | write (addr wrote : List UInt8) (ret : Int)
  /-- `piperead(p, _, n)` returned `ret` and the bytes `out`, with the pipe as it was then. -/
  | read (n : Nat) (out : List UInt8) (ret : Int) (empty writeopen : Bool)

/-- A pipe and the processes that use it. The last three fields record what happened and are
read by no step. -/
structure Sys where
  pipe : Pipe
  /-- the holder of `p->lock` -/
  lock : Option Nat
  /-- the holder of `ptable.lock` -/
  ptable : Option Nat
  proc : Nat → Proc
  /-- both ends are closed and the page of the pipe has been freed -/
  freed : Bool
  appended : List UInt8
  wrote : Nat → List UInt8
  rets : List Ret

def Proc.fresh : Proc := ⟨.user, .running, none, false⟩

def pipealloc : Sys where
  pipe := ⟨fun _ => 0, 0, 0, true, true⟩
  lock := none
  ptable := none
  proc := fun _ => .fresh
  freed := false
  appended := []
  wrote := fun _ => []
  rets := []

def Sys.goto (s : Sys) (q : Nat) (pc : Pc) : Sys :=
  { s with proc := update s.proc q { s.proc q with pc := pc } }

/-- `acquire(&p->lock)`. File references keep every process away from a freed pipe. -/
def Sys.acquire (s : Sys) (q : Nat) (pc : Pc) : Option Sys :=
  if s.lock = none ∧ s.freed = false then some { s.goto q pc with lock := some q } else none

def Sys.release (s : Sys) (q : Nat) (pc : Pc) : Sys := { s.goto q pc with lock := none }

def wakeup1 (chan : Chan) (p : Proc) : Proc :=
  if p.state = .sleeping ∧ p.chan = some chan then { p with state := .runnable } else p

def Sys.wakeup (s : Sys) (q : Nat) (chan : Chan) (pc : Pc) : Option Sys :=
  if s.ptable = none then
    some (Sys.goto { s with proc := fun p => wakeup1 chan (s.proc p) } q pc)
  else none

def sleep (s : Sys) (q : Nat) (k : Sleeper) : SleepPc → Option Sys
  | .acquireTable =>
    if s.ptable = none then some { s.goto q (.sleep k .releaseLock) with ptable := some q }
    else none
  | .releaseLock => some (s.release q (.sleep k .mark))
  | .mark =>
    some { s with
      proc := update s.proc q
        { s.proc q with pc := .sleep k .switched, state := .sleeping, chan := some k.chan }
      ptable := none }
  | .switched =>
    if (s.proc q).state = .runnable ∧ s.ptable = none then
      some { s with
        proc := update s.proc q
          { s.proc q with pc := .sleep k .tidy, state := .running }
        ptable := some q }
    else none
  | .tidy =>
    some { s with
      proc := update s.proc q
        { s.proc q with pc := .sleep k .reacquire, chan := none }
      ptable := none }
  | .reacquire => s.acquire q k.resume

def Sys.append (s : Sys) (q : Nat) (c : UInt8) : Sys :=
  { s with
    pipe := s.pipe.append c
    appended := s.appended ++ [c]
    wrote := update s.wrote q (s.wrote q ++ [c]) }

/-- The step of `pipewrite` at the head of its loops, with `p->lock` held. -/
def writeLoop (s : Sys) (q : Nat) (addr : List UInt8) (i : Nat) : Sys :=
  if h : i < addr.length then
    if s.pipe.full then
      if s.pipe.readopen = false ∨ (s.proc q).killed then s.goto q (.writeRelease addr (-1))
      else s.goto q (.writeFull addr i)
    else (s.append q addr[i]).goto q (.writeLoop addr (i + 1))
  else s.goto q (.writeWake addr)

/-- The step of `piperead` at the head of its waiting loop, with `p->lock` held. -/
def readLoop (s : Sys) (q n : Nat) : Sys :=
  if s.pipe.empty ∧ s.pipe.writeopen then
    if (s.proc q).killed then s.goto q (.readRelease n [] (-1))
    else s.goto q (.sleep (.reader n) .acquireTable)
  else s.goto q (.readCopy n [])

def readCopy (s : Sys) (q n : Nat) (out : List UInt8) : Sys :=
  if out.length < n ∧ s.pipe.empty = false then
    Sys.goto { s with pipe := s.pipe.advance } q (.readCopy n (out ++ [s.pipe.front]))
  else s.goto q (.readWake n out)

def closeRelease (s : Sys) (q : Nat) : Sys :=
  { s.release q .user with
    freed := s.freed || (!s.pipe.readopen && !s.pipe.writeopen) }

/-- Process `q` does the next thing of its call. -/
def stepProc (s : Sys) (q : Nat) : Option Sys :=
  match (s.proc q).pc with
  | .user => none
  | .writeAcquire addr => s.acquire q (.writeLoop addr 0)
  | .writeLoop addr i => some (writeLoop s q addr i)
  | .writeFull addr i => s.wakeup q .nread (.sleep (.writer addr i) .acquireTable)
  | .writeWake addr => s.wakeup q .nread (.writeRelease addr addr.length)
  | .writeRelease addr ret =>
    some { s.release q .user with rets := s.rets ++ [.write addr (s.wrote q) ret] }
  | .readAcquire n => s.acquire q (.readLoop n)
  | .readLoop n => some (readLoop s q n)
  | .readCopy n out => some (readCopy s q n out)
  | .readWake n out => s.wakeup q .nwrite (.readRelease n out out.length)
  | .readRelease n out ret =>
    some { s.release q .user with
      rets := s.rets ++ [.read n out ret s.pipe.empty s.pipe.writeopen] }
  | .closeAcquire writable => s.acquire q (.closeSet writable)
  | .closeSet true =>
    some (Sys.goto { s with pipe.writeopen := false } q (.closeWake true))
  | .closeSet false =>
    some (Sys.goto { s with pipe.readopen := false } q (.closeWake false))
  | .closeWake true => s.wakeup q .nread .closeRelease
  | .closeWake false => s.wakeup q .nwrite .closeRelease
  | .closeRelease => some (closeRelease s q)
  | .sleep k at_ => sleep s q k at_

inductive Action
  /-- `q` calls `pipewrite(p, addr, n)`. -/
  | pipewrite (q : Nat) (addr : List UInt8)
  /-- `q` calls `piperead(p, _, n)`. -/
  | piperead (q n : Nat)
  /-- `q` calls `pipeclose(p, writable)`. -/
  | pipeclose (q : Nat) (writable : Bool)
  /-- `q` takes the next step of its call. -/
  | proc (q : Nat)
  /-- Some process calls `kill` on `q`. -/
  | kill (q : Nat)

def Sys.enter (s : Sys) (q : Nat) (pc : Pc) : Option Sys :=
  if (s.proc q).pc = .user then
    some { s.goto q pc with wrote := update s.wrote q [] }
  else none

def kill (s : Sys) (q : Nat) : Option Sys :=
  if s.ptable = none then
    some { s with
      proc := update s.proc q
        { s.proc q with
          killed := true
          state := if (s.proc q).state = .sleeping then .runnable else (s.proc q).state } }
  else none

def step (s : Sys) : Action → Option Sys
  | .pipewrite q addr => s.enter q (.writeAcquire addr)
  | .piperead q n => s.enter q (.readAcquire n)
  | .pipeclose q writable => s.enter q (.closeAcquire writable)
  | .proc q => stepProc s q
  | .kill q => kill s q

end Pipe

end Xv6
