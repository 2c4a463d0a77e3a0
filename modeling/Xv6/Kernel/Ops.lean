import Xv6.Lib.Program
import Xv6.Fs.Content
import Xv6.Kernel.Tables

/-!
# Operations on inodes, and two machines that run them

The upper half of `fs.c` and the system calls are programs over operations on the tables and on an
inode through its slot. Two machines give them a meaning.

- `Machine` is the kernel: bytes on a disk, and copies of inodes in the slots.
- `Nodes` keeps for every inode a record with its contents as a list of bytes. It goes `wrong` when
  a process uses a slot without a reference, without the inode's lock, or before the inode has been
  read, and when it unlocks an inode whose changes are not written back. Neither its log nor its
  disk is ever full.
-/

namespace Xv6.Kernel

open Fs
open Function (update update_idem update_of_ne update_self)

structure Attrs where
  type : Int16
  major : Int16
  nlink : Int16
  size : UInt32

structure Links where
  major : Int16
  minor : Int16
  nlink : Int16

def Links.assign (f : Links → Links) (d : Dinode) : Dinode :=
  let l := f ⟨d.major, d.minor, d.nlink⟩
  { d with major := l.major, minor := l.minor, nlink := l.nlink }

/-- What a system call does, one step at a time. -/
inductive Op
  | table (o : TableOp)
  | panic (msg : String)
  /-- `begin_op()` -/
  | beginOp
  /-- `end_op()` -/
  | endOp
  /-- the part of `ilock` that reads the inode from disk -/
  | load (ip : Nat)
  /-- the values of `ip->type`, `ip->major`, `ip->nlink` and `ip->size` -/
  | attrs (ip : Nat)
  /-- the part of `iput` that truncates and frees the inode -/
  | free (ip : Nat)
  /-- `ialloc(dev, type)` without its `iget` -/
  | ialloc (type : Int16)
  /-- assignments to fields of `ip` -/
  | assign (ip : Nat) (f : Links → Links)
  /-- `iupdate(ip)` -/
  | iupdate (ip : Nat)
  /-- `readi(ip, dst, off, n)` -/
  | readi (ip : Nat) (off n : UInt32)
  /-- `writei(ip, src, off, n)` -/
  | writei (ip : Nat) (src : Nat → UInt8) (off n : UInt32)

@[reducible] def Op.Ret : Op → Type
  | table o => o.Ret
  | panic _ => Empty
  | attrs _ => Attrs
  | ialloc _ => Nat
  | readi _ _ _ => Option (List UInt8)
  | writei _ _ _ _ => Option UInt32
  | _ => Unit

abbrev Prog (α : Type) := Program Op Op.Ret α

/-- The tables, the disk and log, and the copies of inodes in the slots of `icache`. -/
structure Machine where
  tables : Tables
  store : Store
  copy : Nat → Dinode

variable {α : Type} (sb : Superblock) (p : Nat)

namespace Machine

def inum (s : Machine) (ip : Nat) : Nat := (s.tables.icache ip).inum

def slot (s : Machine) (k : Nat) : Slot := s.tables.icache k

def withSlot (s : Machine) (k : Nat) (sl : Slot) : Machine :=
  { s with tables := s.tables.setSlot k sl }

@[simp] theorem slot_withSlot_self (s : Machine) (k : Nat) (sl : Slot) :
    (s.withSlot k sl).slot k = sl :=
  update_self _ _ _

theorem slot_withSlot_of_ne (s : Machine) {k l : Nat} (sl : Slot) (h : l ≠ k) :
    (s.withSlot k sl).slot l = s.slot l :=
  update_of_ne h _ _

@[simp] theorem withSlot_withSlot (s : Machine) (k : Nat) (sl sl' : Slot) :
    (s.withSlot k sl).withSlot k sl' = s.withSlot k sl' := by
  simp only [withSlot, Tables.setSlot, update_idem]

def setValid (s : Machine) (ip : Nat) (v : Bool) : Machine :=
  { s with tables := s.tables.setSlot ip { s.tables.icache ip with valid := v } }

def withCopy (ip : Nat) (m : Nat → Dinode → StoreM (α × Dinode)) :
    StateT Machine (Except Stop) α := fun s =>
  match m (s.inum ip) (s.copy ip) s.store with
  | .ok ((a, d), st) => .ok (a, { s with store := st, copy := update s.copy ip d })
  | .error e => .error e

/-- `begin_op`, with no other process to commit: it goes on or sleeps for ever. -/
def beginOp : StateT Machine (Except Stop) Unit := fun s =>
  if s.store.lh.length + (s.store.outstanding + 1) * maxOpBlocks > logSize then
    .error (.asleep .log)
  else .ok ((), { s with store := { s.store with outstanding := s.store.outstanding + 1 } })

def endOp : StateT Machine (Except Stop) Unit := fun s =>
  .ok ((), { s with store := { s.store with
    outstanding := s.store.outstanding - 1
    lh := if s.store.outstanding - 1 = 0 then [] else s.store.lh } })

def load (ip : Nat) : StateT Machine (Except Stop) Unit := fun s =>
  let d := dinode sb s.store.disk (s.inum ip)
  if d.type = 0 then .error (.panic "ilock: no type")
  else .ok ((), { s.setValid ip true with copy := update s.copy ip d })

def free (ip : Nat) : StateT Machine (Except Stop) Unit := fun s =>
  match ifree sb (s.inum ip) (s.copy ip) s.store with
  | .ok (d, st) =>
    .ok ((), { s.setValid ip false with store := st, copy := update s.copy ip d })
  | .error e => .error e

/-- The kernel: what process `p` does. -/
def handler : Program.Handler Op Op.Ret Machine Stop
  | .table o => fun s =>
    match o.run p s.tables with
    | .ok (r, c) => .ok (r, { s with tables := c })
    | .error e => .error e
  | .panic msg => fun _ => .error (.panic msg)
  | .beginOp => beginOp
  | .endOp => endOp
  | .load ip => load sb ip
  | .attrs ip => fun s =>
    .ok (⟨(s.copy ip).type, (s.copy ip).major, (s.copy ip).nlink, (s.copy ip).size⟩, s)
  | .free ip => free sb ip
  | .ialloc type => fun s =>
    match iallocDisk sb type s.store with
    | .ok (i, st) => .ok (i, { s with store := st })
    | .error e => .error e
  | .assign ip f => fun s =>
    .ok ((), { s with copy := update s.copy ip (Links.assign f (s.copy ip)) })
  | .iupdate ip => withCopy ip fun inum d => do
    Fs.iupdate sb inum d
    return ((), d)
  | .readi ip off n => withCopy ip fun inum d => Fs.readi sb inum d off n
  | .writei ip src off n => withCopy ip fun inum d => Fs.writei sb inum d src off n

theorem handler_free (ip : Nat) : handler sb p (.free ip) = free sb ip := rfl

theorem handler_iupdate (ip : Nat) : handler sb p (.iupdate ip) =
    withCopy ip fun inum d => do
      Fs.iupdate sb inum d
      return ((), d) := rfl

theorem handler_readi (ip : Nat) (off n : UInt32) : handler sb p (.readi ip off n) =
    withCopy ip fun inum d => Fs.readi sb inum d off n := rfl

theorem handler_writei (ip : Nat) (src : Nat → UInt8) (off n : UInt32) :
    handler sb p (.writei ip src off n) =
      withCopy ip fun inum d => Fs.writei sb inum d src off n := rfl

end Machine

@[ext] structure Node where
  type : Int16
  major : Int16
  minor : Int16
  nlink : Int16
  data : List UInt8
  deriving DecidableEq

def Node.free : Node := ⟨0, 0, 0, 0, []⟩

def Node.setLinks (n : Node) (f : Links → Links) : Node :=
  let l := f ⟨n.major, n.minor, n.nlink⟩
  { n with major := l.major, minor := l.minor, nlink := l.nlink }

/-- The tables, the inodes, and for every slot the fields that have been assigned and not yet
written back. -/
structure Nodes where
  tables : Tables
  node : Nat → Node
  dirty : Nat → Option Links

namespace Nodes

def inum (t : Nodes) (ip : Nat) : Nat := (t.tables.icache ip).inum

def get (t : Nodes) (ip : Nat) : Node := t.node (t.inum ip)

def setAt (t : Nodes) (ip : Nat) (n : Node) : Nodes :=
  { t with node := update t.node (t.inum ip) n }

def setValid (t : Nodes) (ip : Nat) (v : Bool) : Nodes :=
  { t with tables := t.tables.setSlot ip { t.tables.icache ip with valid := v } }

def locked (t : Nodes) (ip : Nat) : Bool :=
  0 < (t.tables.icache ip).ref && (t.tables.icache ip).valid && (t.tables.icache ip).lock = some p

/-- Process `p` may look at and change the inode of a slot. -/
def usable (t : Nodes) (ip : Nat) : Bool := t.locked p ip && (t.dirty ip).isNone

/-- There is one device, a reference can be copied or dropped only if there is one, and fields
are written back before an inode is unlocked or its last reference dropped. -/
def allowed : TableOp → Nodes → Bool
  | .iget dev _, _ => dev = rootDev
  | .idup ip, t => 0 < (t.tables.icache ip).ref
  | .unref ip, t => 0 < (t.tables.icache ip).ref &&
    (1 < (t.tables.icache ip).ref || (t.dirty ip).isNone)
  | .releasesleep ip, t => (t.dirty ip).isNone
  | _, _ => true

def load (ip : Nat) : StateT Nodes (Except Stop) Unit := fun t =>
  if 0 < (t.tables.icache ip).ref ∧ (t.tables.icache ip).valid = false ∧
      (t.tables.icache ip).lock = some p ∧ t.inum ip < sb.ninodes then
    if (t.get ip).type = 0 then .error (.panic "ilock: no type") else .ok ((), t.setValid ip true)
  else .error .wrong

def ialloc (type : Int16) : StateT Nodes (Except Stop) Nat := fun t =>
  if type = 0 then .error .wrong
  else match findFrom (fun i => (t.node i).type = 0) 1 (sb.ninodes - 1) with
    | none => .error (.panic "ialloc: no inodes")
    | some i =>
      .ok (i, { t with node := update t.node i { Node.free with type := type } })

def readNode (n : Node) (off k : UInt32) : Except Stop (Option (List UInt8)) :=
  if n.type = tDev then if noDriver n.major then .ok none else .error (.asleep .console)
  else .ok (readResult n.data off k)

def writeNode (n : Node) (src : Nat → UInt8) (off k : UInt32) : Option UInt32 × Node :=
  if n.type = tDev then (if noDriver n.major then none else some k, n)
  else if off.toNat ≤ n.data.length ∧ off.toNat + k.toNat ≤ maxFile * bsize then
    (some k, { n with data := overwrite n.data off.toNat src k.toNat })
  else (none, n)

def guarded (ip : Nat) (m : Nodes → Except Stop (α × Nodes)) : StateT Nodes (Except Stop) α :=
  fun t => if t.usable p ip then m t else .error .wrong

/-- Change the inode of a slot that has nothing left to be written back. -/
def put (t : Nodes) (ip : Nat) (n : Node) : Nodes :=
  { t.setAt ip n with dirty := update t.dirty ip none }

def writeBack (t : Nodes) (ip : Nat) : Nodes :=
  match t.dirty ip with
  | some l => t.put ip ((t.get ip).setLinks fun _ => l)
  | none => t

/-- The inodes without the disk: what process `p` does. -/
def handler : Program.Handler Op Op.Ret Nodes Stop
  | .table o => fun t =>
    if allowed o t then
      match o.run p t.tables with
      | .ok (r, c) => .ok (r, { t with tables := c })
      | .error e => .error e
    else .error .wrong
  | .panic msg => fun _ => .error (.panic msg)
  | .beginOp => fun t => .ok ((), t)
  | .endOp => fun t => .ok ((), t)
  | .load ip => load sb p ip
  | .attrs ip => guarded p ip fun t =>
    .ok (⟨(t.get ip).type, (t.get ip).major, (t.get ip).nlink,
      UInt32.ofNat (t.get ip).data.length⟩, t)
  | .free ip => guarded p ip fun t => .ok ((), (t.setAt ip Node.free).setValid ip false)
  | .ialloc type => ialloc sb type
  | .assign ip f => guarded p ip fun t => .ok ((), { t with
    dirty := update t.dirty ip
      (some (f ⟨(t.get ip).major, (t.get ip).minor, (t.get ip).nlink⟩)) })
  | .iupdate ip => fun t => if t.locked p ip then .ok ((), t.writeBack ip) else .error .wrong
  | .readi ip off n => guarded p ip fun t =>
    match readNode (t.get ip) off n with
    | .ok r => .ok (r, t)
    | .error e => .error e
  | .writei ip src off n => guarded p ip fun t =>
    .ok ((writeNode (t.get ip) src off n).1, t.setAt ip (writeNode (t.get ip) src off n).2)

theorem handler_attrs (ip : Nat) : handler sb p (.attrs ip) = guarded p ip fun t =>
    .ok (⟨(t.get ip).type, (t.get ip).major, (t.get ip).nlink,
      UInt32.ofNat (t.get ip).data.length⟩, t) := rfl

theorem handler_free (ip : Nat) : handler sb p (.free ip) = guarded p ip fun t =>
    .ok ((), (t.setAt ip Node.free).setValid ip false) := rfl

theorem handler_assign (ip : Nat) (f : Links → Links) : handler sb p (.assign ip f) =
    guarded p ip fun t => .ok ((), { t with
      dirty := update t.dirty ip
        (some (f ⟨(t.get ip).major, (t.get ip).minor, (t.get ip).nlink⟩)) }) := rfl

theorem handler_readi (ip : Nat) (off n : UInt32) : handler sb p (.readi ip off n) =
    guarded p ip fun t => match readNode (t.get ip) off n with
      | .ok r => .ok (r, t)
      | .error e => .error e := rfl

theorem handler_writei (ip : Nat) (src : Nat → UInt8) (off n : UInt32) :
    handler sb p (.writei ip src off n) = guarded p ip fun t =>
      .ok ((writeNode (t.get ip) src off n).1, t.setAt ip (writeNode (t.get ip) src off n).2) := rfl

end Nodes

end Xv6.Kernel
