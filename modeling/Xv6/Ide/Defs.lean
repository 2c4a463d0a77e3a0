import Mathlib.Data.Nat.Bitwise
import Xv6.Lib.Monitor
import Xv6.Param

/-!
# The two disk drivers

`ide.c`: callers of `iderw` put their buffers in the linked list `idequeue` and sleep, the disk
works on the first one, and `ideintr` finishes it and starts the next one. `memide.c`: `iderw`
copies to or from memory.

The disk takes one command at a time, raises one interrupt when it has done the transfer, and
reports no error. A buffer's sleep lock is one step here: `owner` says who has it. No step reads the
driver's three histories.
-/

namespace Xv6.Ide

open Monitor
open Function (update)

/-- `struct buf`, as far as the drivers use it. -/
structure Buf where
  valid : Bool
  dirty : Bool
  dev : Nat
  blockno : Nat
  data : Fin bsize → UInt8

/-- `(b->flags & (B_VALID|B_DIRTY)) == B_VALID` -/
def Buf.done (b : Buf) : Bool := b.valid && !b.dirty

def Buf.bytes (b : Buf) (i : Nat) : UInt8 := if h : i < bsize then b.data ⟨i, h⟩ else 0

abbrev Image := Nat → UInt8

def Image.write (m : Image) (a n : Nat) (bytes : Nat → UInt8) : Image :=
  fun x => if a ≤ x ∧ x < a + n then bytes (x - a) else m x

/-- `iderw` of `memide.c`, or `none` if it panics; `holding` is what `holdingsleep` says. -/
def Memide.iderw (disksize : Nat) (holding : Bool) (memdisk : Image) (b : Buf) :
    Option (Image × Buf) :=
  if !holding then none
  else if b.done then none
  else if b.dev ≠ 1 then none
  else if disksize ≤ b.blockno then none
  else
    let p := b.blockno * bsize
    if b.dirty then some (memdisk.write p bsize b.bytes, { b with dirty := false, valid := true })
    else some (memdisk, { b with data := fun i => memdisk (p + i), valid := true })

def Memide.run {β : Type} (disksize : Nat) :
    Image → List (β × Buf) → Option (Image × List (β × Buf))
  | m, [] => some (m, [])
  | m, (b, x) :: rest => do
    let (m, y) ← Memide.iderw disksize true m x
    let (m, ys) ← Memide.run disksize m rest
    return (m, (b, y) :: ys)

@[simp] def sectorSize : Nat := 512

@[simp] def ideCmdRead : Nat := 0x20

@[simp] def ideCmdWrite : Nat := 0x30

@[simp] def ideCmdRdmul : Nat := 0xc4

@[simp] def ideCmdWrmul : Nat := 0xc5

structure Regs where
  count : Nat
  lba0 : Nat
  lba1 : Nat
  lba2 : Nat
  device : Nat
  command : Nat
  deriving DecidableEq

def Regs.sector (r : Regs) : Nat :=
  r.lba0 + r.lba1 * 2 ^ 8 + r.lba2 * 2 ^ 16 + r.device % 2 ^ 4 * 2 ^ 24

def Regs.dev (r : Regs) : Nat := r.device / 2 ^ 4 % 2

def Regs.writes (r : Regs) : Bool := r.command == ideCmdWrite || r.command == ideCmdWrmul

/-- The disks and their controller: the command in progress, the data port, the disks, and the
number of interrupts that no cpu has taken. -/
structure Controller where
  busy : Option Regs
  port : Nat → UInt8
  image : Nat → Image
  irq : Nat
  /-- the commands so far -/
  commands : List Regs

def Controller.transfer (c : Controller) (r : Regs) : Controller :=
  let a := r.sector * sectorSize
  let image := c.image r.dev
  { c with
    busy := none
    port := if r.writes then c.port else fun i => image (a + i)
    image := if r.writes then
      update c.image r.dev (image.write a (r.count * sectorSize) c.port) else c.image
    irq := c.irq + 1 }

def regs (b : Buf) : Regs :=
  let sectorPerBlock := bsize / sectorSize
  let sector := b.blockno * sectorPerBlock
  let readCmd := if sectorPerBlock = 1 then ideCmdRead else ideCmdRdmul
  let writeCmd := if sectorPerBlock = 1 then ideCmdWrite else ideCmdWrmul
  { count := sectorPerBlock
    lba0 := sector &&& 0xff
    lba1 := (sector >>> 8) &&& 0xff
    lba2 := (sector >>> 16) &&& 0xff
    device := 0xe0 ||| ((b.dev &&& 1) <<< 4) ||| ((sector >>> 24) &&& 0x0f)
    command := if b.dirty then writeCmd else readCmd }

/-- `idestart`: `none` if it panics or waits in `idewait`. -/
def idestart (c : Controller) (b : Buf) : Option Controller :=
  if fsSize ≤ b.blockno ∨ 7 < bsize / sectorSize then none
  else if c.busy.isSome then none
  else some { c with
    busy := some (regs b)
    port := if b.dirty then b.bytes else c.port
    commands := c.commands ++ [regs b] }

/-- `idequeue`, the buffers with their `qnext` and the holders of their sleep locks, and the
disk. -/
structure Driver (ι β : Type) where
  idequeue : Option β
  qnext : β → Option β
  havedisk1 : Bool
  buf : β → Buf
  owner : β → Option ι
  ctl : Controller
  /-- the buffers in the order in which they were put in the queue, as they were then -/
  requests : List (β × Buf)
  /-- the buffers in the order in which `ideintr` finished them, as they were then -/
  replies : List (β × Buf)

variable {ι β : Type}

/-- `*pp`, where `pp` points to `idequeue` or to the `qnext` of a buffer. -/
def Driver.cell (d : Driver ι β) : Option β → Option β
  | none => d.idequeue
  | some c => d.qnext c

/-- Points outside `idelock`, of a process, of a cpu that may be interrupted and of the disk. -/
inductive Out (β : Type)
  | idle
  /-- `iderw` has returned; this was request number `k` -/
  | returned (b : β) (k : Nat)
  | cpu
  /-- the cpu has taken an interrupt -/
  | trap
  | disk
  deriving DecidableEq

/-- Points under `idelock`. -/
inductive In (β : Type)
  /-- `iderw`: `b->qnext = 0` -/
  | append (b : β)
  /-- `iderw`: the loop that finds the end of the queue -/
  | scan (b : β) (pp : Option β)
  /-- `iderw`: wait for the request to finish -/
  | wait (b : β) (k : Nat)
  /-- `ideintr` -/
  | intr
  /-- `ideintr`: start the disk on the next buffer -/
  | next
  deriving DecidableEq

/-- What a process does outside `idelock`. -/
inductive Call (β : Type)
  | lock (b : β)
  | unlock (b : β)
  /-- change a buffer that one has locked, or that nobody has -/
  | change (b : β) (x : Buf)
  | iderw (b : β)
  /-- the next step of the cpu or of the disk, or under `idelock` -/
  | go

/-- The disk, a cpu or a process at the beginning. -/
inductive Role
  | process
  | cpu
  | disk

def Role.out : Role → Out β
  | .process => .idle
  | .cpu => .cpu
  | .disk => .disk

/-- A request for disk 1, within the file system, that has something to do. -/
def Buf.Fits (x : Buf) : Prop := x.done = false ∧ x.dev = 1 ∧ x.blockno < fsSize

instance (x : Buf) : Decidable x.Fits := inferInstanceAs (Decidable (_ ∧ _))

/-- What `ideintr` makes of a buffer. -/
def Buf.finish (x : Buf) (port : Nat → UInt8) : Buf :=
  { x with data := if x.dirty then x.data else fun i => port i, valid := true, dirty := false }

variable [DecidableEq ι] [DecidableEq β]

/-- `*pp = v` -/
def Driver.setCell (d : Driver ι β) (pp v : Option β) : Driver ι β :=
  match pp with
  | none => { d with idequeue := v }
  | some c => { d with qnext := update d.qnext c v }

/-- What a process does between two requests, and the call of `iderw`. It panics for a buffer that
is not locked or has nothing to do, and if there is no disk 1. -/
def call (d : Driver ι β) (p : ι) : Call β → Option (OutStep (Driver ι β) (Out β) (In β))
  | .lock b =>
    if d.owner b = none then
      some (.move { d with owner := update d.owner b (some p) } .idle)
    else none
  | .unlock b =>
    if d.owner b = some p then
      some (.move { d with owner := update d.owner b none } .idle)
    else none
  | .change b x =>
    if d.owner b = some p ∨ d.owner b = none then
      some (.move { d with buf := update d.buf b x } .idle)
    else none
  | .iderw b =>
    if d.owner b = some p ∧ (d.buf b).Fits ∧ d.havedisk1 then some (.enter (.append b)) else none
  | .go => none

/-- `*pp = b`, at the end of the queue, and start the disk if necessary. -/
def enqueue (d : Driver ι β) (b : β) (pp : Option β) : Option (Driver ι β) :=
  let d := { d.setCell pp (some b) with requests := d.requests ++ [(b, d.buf b)] }
  if d.idequeue = some b then (idestart d.ctl (d.buf b)).map fun c => { d with ctl := c }
  else some d

/-- `ideintr` takes `b` off the queue, reads the data if needed and sets the flags. -/
def finish (d : Driver ι β) (b : β) : Driver ι β :=
  let y := (d.buf b).finish d.ctl.port
  { d with
    idequeue := d.qnext b
    buf := update d.buf b y
    replies := d.replies ++ [(b, y)] }

def inside (d : Driver ι β) : In β → Option (InStep (Driver ι β) (Out β) (In β) (Option β))
  | .append b => some (.move { d with qnext := update d.qnext b none } (.scan b none))
  | .scan b pp =>
    match d.cell pp with
    | some c => some (.move d (.scan b (some c)))
    | none => (enqueue d b pp).map fun d' => .move d' (.wait b d.requests.length)
  | .wait b k =>
    if (d.buf b).done then some (.leave d (.returned b k)) else some (.sleep (.wait b k))
  | .intr =>
    match d.idequeue with
    | none => some (.leave d .cpu)
    | some b =>
      -- `idewait(1)` before the data is read
      if (d.buf b).dirty = false ∧ d.ctl.busy.isSome then none
      else some (.wake (some b) (finish d b) .next)
  | .next =>
    match d.idequeue with
    | none => some (.leave d .cpu)
    | some b => (idestart d.ctl (d.buf b)).map fun c => .leave { d with ctl := c } .cpu

/-- The driver, its callers and the disk. A process sleeps on its buffer. -/
def ide : Client ι (Driver ι β) (Out β) (In β) (Option β) (Call β) where
  outside p o d r :=
    match o, r with
    | .idle, r | .returned _ _, r => call d p r
    | .cpu, .go =>
      if 0 < d.ctl.irq then some (.move { d with ctl.irq := d.ctl.irq - 1 } .trap) else none
    | .trap, .go => some (.enter .intr)
    | .disk, .go => d.ctl.busy.map fun r => .move { d with ctl := d.ctl.transfer r } .disk
    | _, _ => none
  inside _ i d _ := inside d i
  chan
    | .wait b _ => some b
    | _ => none

end Xv6.Ide
