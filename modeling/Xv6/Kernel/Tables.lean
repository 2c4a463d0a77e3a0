import Xv6.Lib.Count
import Xv6.Fs.Store

/-!
# The tables of the kernel

The inode cache, the file table, the pipes and the process table. Each operation is one critical
section of `icache.lock`, `ftable.lock`, `ptable.lock`, the lock of a pipe or the spin lock inside a
sleep lock, or it touches a field that only the running process uses.
-/

namespace Xv6.Kernel

open Fs
open Function (update)

/-- A slot of `icache`: the fields of `struct inode` that are not on the disk. -/
structure Slot where
  dev : Nat
  inum : Nat
  /-- Reference count -/
  ref : Int
  /-- inode has been read from disk? -/
  valid : Bool
  /-- the process that holds `lock` -/
  lock : Option Nat
  /-- the pid in `flock`, if it is held -/
  flock : Option Nat

inductive FdType
  | none
  | pipe
  | inode
  deriving DecidableEq

/-- `struct file`; inodes are named by their slots, pipes by their pages. -/
structure File where
  type : FdType
  /-- reference count -/
  ref : Int
  readable : Bool
  writable : Bool
  pipe : Nat
  ip : Option Nat
  off : UInt32

def File.slot (ff : File) : Nat := ff.ip.getD 0

def File.names (ff : File) (k : Nat) : Bool := ff.type = .inode && ff.ip = some k

def File.closed (ff : File) : File := { ff with ref := 0, type := .none }

/-- The part of `struct pipe` that says which ends are open. -/
structure Pipe where
  /-- read fd is still open -/
  readopen : Bool
  /-- write fd is still open -/
  writeopen : Bool
  deriving DecidableEq

/-- Is the end open? The write end is `true`. -/
def Pipe.isOpen (pp : Pipe) (w : Bool) : Bool := if w then pp.writeopen else pp.readopen

/-- The state of a process. A process that sleeps, can run or runs is `live`. -/
inductive ProcState
  | unused
  | embryo
  | live
  | zombie
  deriving DecidableEq

/-- The part of `struct proc` that concerns files, inodes and children. The field `dropped` is a
record that no function reads: the process has handed its current directory to `iput`. -/
structure Proc where
  state : ProcState
  pid : Nat
  /-- Parent process -/
  parent : Option Nat
  killed : Bool
  /-- Open files -/
  ofile : Nat → Option Nat
  /-- Current directory -/
  cwd : Option Nat
  dropped : Bool

/-- `icache`, `ftable`, the pages that are pipes, and `ptable`. -/
structure Tables where
  icache : Nat → Slot
  ftable : Nat → File
  pipe : Nat → Option Pipe
  proc : Nat → Proc
  nextpid : Nat

namespace Tables

def setSlot (c : Tables) (ip : Nat) (s : Slot) : Tables :=
  { c with icache := update c.icache ip s }

def setFile (c : Tables) (f : Nat) (ff : File) : Tables :=
  { c with ftable := update c.ftable f ff }

def setPipe (c : Tables) (π : Nat) (pp : Option Pipe) : Tables :=
  { c with pipe := update c.pipe π pp }

def setProc (c : Tables) (p : Nat) (pr : Proc) : Tables :=
  { c with proc := update c.proc p pr }

def findInode (c : Tables) (dev inum : Nat) : Option Nat :=
  findFrom (fun k => 0 < (c.icache k).ref && (c.icache k).dev = dev && (c.icache k).inum = inum)
    0 ninode

def fileCount (c : Tables) (k : Nat) : Nat := countBelow nfile fun f => (c.ftable f).names k

def findEmpty (c : Tables) : Option Nat := findFrom (fun k => (c.icache k).ref = 0) 0 ninode

end Tables

inductive TableOp
  /-- `iget(dev, inum)` -/
  | iget (dev inum : Nat)
  /-- `idup(ip)` -/
  | idup (ip : Nat)
  /-- the value of `ip->ref` -/
  | ref (ip : Nat)
  /-- `ip->ref--`, the end of `iput` -/
  | unref (ip : Nat)
  /-- the values of `ip->dev` and `ip->inum` -/
  | ident (ip : Nat)
  /-- the value of `ip->valid` -/
  | valid (ip : Nat)
  /-- `acquiresleep(&ip->lock)` -/
  | acquiresleep (ip : Nat)
  /-- `releasesleep(&ip->lock)` -/
  | releasesleep (ip : Nat)
  /-- `holdingsleep(&ip->lock)` -/
  | holdingsleep (ip : Nat)
  /-- `acquiresleep(&ip->flock)` -/
  | acquireFlock (ip : Nat)
  /-- `releasesleep(&ip->flock)` -/
  | releaseFlock (ip : Nat)
  /-- `holdingsleep(&ip->flock)` -/
  | holdingFlock (ip : Nat)
  /-- `filealloc()` -/
  | filealloc
  /-- `filedup(f)` -/
  | filedup (f : Nat)
  /-- the part of `fileclose(f)` under `ftable.lock`; the file if this was its last reference -/
  | fileput (f : Nat)
  /-- the fields of `f` -/
  | file (f : Nat)
  /-- the assignments at the end of `sys_open` -/
  | openFile (f ip : Nat) (readable writable : Bool)
  /-- the assignments to a file in `pipealloc` -/
  | openPipe (f π : Nat) (writable : Bool)
  /-- `f->off = off` -/
  | setOff (f : Nat) (off : UInt32)
  /-- `kalloc()` for a pipe, and the assignments to the pipe; `page` is the page it finds -/
  | pipePage (page : Option Nat)
  /-- `pipeclose(p, writable)` -/
  | pipeclose (π : Nat) (writable : Bool)
  /-- the value of `myproc()->ofile[fd]` -/
  | ofile (fd : Nat)
  /-- `myproc()->ofile[fd] = 0` -/
  | clearOfile (fd : Nat)
  /-- `fdalloc(f)` -/
  | fdalloc (f : Nat)
  /-- the value of `myproc()->cwd` -/
  | cwd
  /-- the value of `myproc()->cwd`, which is handed to `iput` -/
  | dropCwd
  /-- `myproc()->cwd = ip` -/
  | setCwd (ip : Option Nat)
  /-- `myproc()` -/
  | myproc
  /-- the part of `allocproc` under `ptable.lock` -/
  | takeProc
  /-- `np->state = UNUSED` -/
  | freeproc (np : Nat)
  /-- `np->parent = myproc()` -/
  | setParent (np : Nat)
  /-- `np->ofile[fd] = f` -/
  | childOfile (np fd f : Nat)
  /-- `np->cwd = ip` -/
  | childCwd (np ip : Nat)
  /-- `np->state = RUNNABLE`; the result is `np->pid` -/
  | runnable (np : Nat)
  /-- the end of `exit`, under `ptable.lock` -/
  | zombie
  /-- `wait()` -/
  | wait
  /-- `kill(pid)` -/
  | kill (pid : Nat)

@[reducible] def TableOp.Ret : TableOp → Type
  | iget _ _ => Nat
  | ref _ => Int
  | ident _ => Nat × Nat
  | valid _ | holdingsleep _ | holdingFlock _ | kill _ => Bool
  | filealloc | pipePage _ | ofile _ | fdalloc _ | takeProc | wait => Option Nat
  | fileput _ => Option File
  | file _ => File
  | cwd | dropCwd | myproc | runnable _ => Nat
  | _ => Unit

/-- `iget`: find the inode in the cache, or recycle an empty slot. -/
def iget (dev inum : Nat) (c : Tables) : Except Stop (Nat × Tables) :=
  match c.findInode dev inum with
  | some k => .ok (k, c.setSlot k { c.icache k with ref := (c.icache k).ref + 1 })
  | none =>
    match c.findEmpty with
    | none => .error (.panic "iget: no inodes")
    | some k =>
      .ok (k, c.setSlot k { c.icache k with dev := dev, inum := inum, ref := 1, valid := false })

def filealloc (c : Tables) : Option Nat × Tables :=
  match findFrom (fun f => (c.ftable f).ref = 0) 0 nfile with
  | some f => (some f, c.setFile f { c.ftable f with ref := 1 })
  | none => (none, c)

def fileput (f : Nat) (c : Tables) : Except Stop (Option File × Tables) :=
  let ff := c.ftable f
  if ff.ref < 1 then .error (.panic "fileclose")
  else if ff.ref - 1 > 0 then .ok (none, c.setFile f { ff with ref := ff.ref - 1 })
  else .ok (some { ff with ref := ff.ref - 1 }, c.setFile f { ff with ref := 0, type := .none })

/-- A page for a pipe. A page in use is not on the free list. -/
def pipePage (page : Option Nat) (c : Tables) : Option Nat × Tables :=
  match page with
  | none => (none, c)
  | some π =>
    if (c.pipe π).isNone then (some π, c.setPipe π (some ⟨true, true⟩)) else (none, c)

/-- `pipeclose`: the page is freed with the second end. -/
def pipeclose (π : Nat) (writable : Bool) (c : Tables) : Except Stop (Unit × Tables) :=
  match c.pipe π with
  | none => .error .wrong
  | some pp =>
    let pp := if writable then { pp with writeopen := false } else { pp with readopen := false }
    .ok ((), c.setPipe π (if !pp.readopen && !pp.writeopen then none else some pp))

def fdalloc (p f : Nat) (c : Tables) : Option Nat × Tables :=
  match findFrom (fun fd => (c.proc p).ofile fd = none) 0 nofile with
  | some fd =>
    (some fd, c.setProc p { c.proc p with ofile := update (c.proc p).ofile fd (some f) })
  | none => (none, c)

/-- The part of `allocproc` under `ptable.lock`: the first unused process. -/
def takeProc (c : Tables) : Option Nat × Tables :=
  match findFrom (fun q => (c.proc q).state = .unused) 0 nproc with
  | some q =>
    (some q, { c.setProc q { c.proc q with state := .embryo, pid := c.nextpid } with
      nextpid := c.nextpid + 1 })
  | none => (none, c)

/-- `initproc`, which has the first slot of `ptable`. -/
def initproc : Nat := 0

/-- Pass a child of `p` to init. -/
def Proc.abandon (p : Nat) (pr : Proc) : Proc :=
  if pr.parent = some p then { pr with parent := some initproc } else pr

/-- The end of `exit`: pass abandoned children to init. -/
def zombie (p : Nat) (c : Tables) : Tables :=
  let adopted : Tables := { c with proc := fun q => (c.proc q).abandon p }
  adopted.setProc p { adopted.proc p with state := .zombie }

def wait (p : Nat) (c : Tables) : Except Stop (Option Nat × Tables) :=
  match findFrom (fun q => (c.proc q).parent = some p && (c.proc q).state = .zombie) 0 nproc with
  | some q =>
    .ok (some (c.proc q).pid, c.setProc q
      { c.proc q with pid := 0, parent := none, killed := false, state := .unused })
  | none =>
    if (findFrom (fun q => (c.proc q).parent = some p) 0 nproc).isNone || (c.proc p).killed then
      .ok (none, c)
    else .error (.asleep .child)

def kill (pid : Nat) (c : Tables) : Bool × Tables :=
  match findFrom (fun q => (c.proc q).pid = pid) 0 nproc with
  | some q => (true, c.setProc q { c.proc q with killed := true })
  | none => (false, c)

/-- What process `p` does to the tables. A process without a current directory faults where it
uses it. -/
def TableOp.run (p : Nat) : (o : TableOp) → Tables → Except Stop (o.Ret × Tables)
  | iget dev inum, c => Kernel.iget dev inum c
  | idup ip, c => .ok ((), c.setSlot ip { c.icache ip with ref := (c.icache ip).ref + 1 })
  | ref ip, c => .ok ((c.icache ip).ref, c)
  | unref ip, c => .ok ((), c.setSlot ip { c.icache ip with ref := (c.icache ip).ref - 1 })
  | ident ip, c => .ok (((c.icache ip).dev, (c.icache ip).inum), c)
  | valid ip, c => .ok ((c.icache ip).valid, c)
  | acquiresleep ip, c =>
    if (c.icache ip).lock = none then .ok ((), c.setSlot ip { c.icache ip with lock := some p })
    else .error (.asleep (.inode ip))
  | releasesleep ip, c => .ok ((), c.setSlot ip { c.icache ip with lock := none })
  | holdingsleep ip, c => .ok ((c.icache ip).lock = some p, c)
  | acquireFlock ip, c =>
    if (c.icache ip).flock = none then
      .ok ((), c.setSlot ip { c.icache ip with flock := some (c.proc p).pid })
    else .error (.asleep (.flock ip))
  | releaseFlock ip, c => .ok ((), c.setSlot ip { c.icache ip with flock := none })
  | holdingFlock ip, c => .ok ((c.icache ip).flock = some (c.proc p).pid, c)
  | filealloc, c => .ok (Kernel.filealloc c)
  | filedup f, c =>
    if (c.ftable f).ref < 1 then .error (.panic "filedup")
    else .ok ((), c.setFile f { c.ftable f with ref := (c.ftable f).ref + 1 })
  | fileput f, c => Kernel.fileput f c
  | file f, c => .ok (c.ftable f, c)
  | openFile f ip readable writable, c =>
    .ok ((), c.setFile f { c.ftable f with
      type := .inode, ip := some ip, off := 0, readable := readable, writable := writable })
  | openPipe f π writable, c =>
    .ok ((), c.setFile f { c.ftable f with
      type := .pipe, readable := !writable, writable := writable, pipe := π })
  | setOff f off, c => .ok ((), c.setFile f { c.ftable f with off := off })
  | pipePage page, c => .ok (Kernel.pipePage page c)
  | pipeclose π writable, c => Kernel.pipeclose π writable c
  | ofile fd, c => .ok (if fd < nofile then (c.proc p).ofile fd else none, c)
  | clearOfile fd, c =>
    .ok ((), c.setProc p { c.proc p with ofile := update (c.proc p).ofile fd none })
  | fdalloc f, c => .ok (Kernel.fdalloc p f c)
  | cwd, c =>
    match (c.proc p).cwd with
    | some ip => .ok (ip, c)
    | none => .error (.panic "trap")
  | dropCwd, c =>
    match (c.proc p).cwd with
    | some ip => .ok (ip, c.setProc p { c.proc p with dropped := true })
    | none => .error (.panic "trap")
  | setCwd ip, c => .ok ((), c.setProc p { c.proc p with cwd := ip, dropped := false })
  | myproc, c => .ok (p, c)
  | takeProc, c => .ok (Kernel.takeProc c)
  | freeproc np, c => .ok ((), c.setProc np { c.proc np with state := .unused })
  | setParent np, c => .ok ((), c.setProc np { c.proc np with parent := some p })
  | childOfile np fd f, c =>
    .ok ((), c.setProc np
      { c.proc np with ofile := update (c.proc np).ofile fd (some f) })
  | childCwd np ip, c => .ok ((), c.setProc np { c.proc np with cwd := some ip })
  | runnable np, c => .ok ((c.proc np).pid, c.setProc np { c.proc np with state := .live })
  | zombie, c => .ok ((), Kernel.zombie p c)
  | wait, c => Kernel.wait p c
  | kill pid, c => .ok (Kernel.kill pid c)

end Xv6.Kernel
