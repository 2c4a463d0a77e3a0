import Xv6.Lib.Search
import Xv6.Lib.Hoare
import Xv6.Fs.Layout

/-!
# Blocks, inodes and file contents

The lower half of `fs.c`: the block allocator, the inode table, `bmap` and the functions that read,
write and truncate a file. They work on the disk as the buffer cache shows it, and on the in-memory
copy of one locked inode, which is passed in and handed back. A function stops where the kernel
calls `panic`, and where the process would sleep for ever.
-/

namespace Xv6.Fs

open Bytes

inductive Wait
  /-- the lock of the inode in an `icache` slot -/
  | inode (k : Nat)
  /-- `begin_op`, for space in the log -/
  | log
  /-- `consoleread`, for input -/
  | console
  /-- the file lock of the inode in an `icache` slot -/
  | flock (k : Nat)
  /-- `wait`, for a child to exit -/
  | child
  deriving DecidableEq

inductive Stop
  | panic (msg : String)
  /-- It sleeps and no process is left to wake it. -/
  | asleep (w : Wait)
  /-- It has used something it has no right to. -/
  | wrong
  deriving DecidableEq

/-- A record of a call of `balloc`: the block it returned, the disk before, and the inode the
block is for with its in-memory copy. -/
structure Alloc where
  block : Nat
  disk : Disk
  inum : Nat
  d : Dinode

/-- The disk as the buffer cache shows it, and `log`. The field `allocs` is a record that no
function reads. -/
structure Store where
  disk : Disk
  outstanding : Nat
  lh : List Nat
  allocs : List Alloc

abbrev StoreM := StateT Store (Except Stop)

variable {α : Type} (sb : Superblock)

def panic (msg : String) : StoreM α := fun _ => .error (.panic msg)

def getDisk : StoreM Disk := fun s => .ok (s.disk, s)

def bread (b : Nat) : StoreM Bytes := fun s => .ok (s.disk b, s)

def logWrite (b : Nat) (data : Bytes) : StoreM Unit := fun s =>
  if s.lh.length ≥ logSize ∨ s.lh.length ≥ sb.nlog - 1 then
    .error (.panic "too big a transaction")
  else if s.outstanding < 1 then .error (.panic "log_write outside of trans")
  else .ok ((), { s with
    disk := Function.update s.disk b data
    lh := if b ∈ s.lh then s.lh else s.lh ++ [b] })

def zeroBlock : Bytes := fun _ => 0

def bzero (b : Nat) : StoreM Unit := logWrite sb b zeroBlock

/-- Allocate a zeroed disk block. The two loops of the source visit the bits in order. -/
def balloc : StoreM Nat := do
  let disk ← getDisk
  match findFrom (fun b => !bit sb disk b) 0 sb.size with
  | none => panic "balloc: out of blocks"
  | some b =>
    logWrite sb (bblock sb b) (setBit sb disk b true (bblock sb b))
    bzero sb b
    return b

def bfree (b : Nat) : StoreM Unit := do
  let disk ← getDisk
  if bit sb disk b = false then panic "freeing free block"
  else logWrite sb (bblock sb b) (setBit sb disk b false (bblock sb b))

def ballocFor (inum : Nat) (d : Dinode) : StoreM Nat := do
  let disk ← getDisk
  let b ← balloc sb
  (fun s => .ok ((), { s with allocs := ⟨b, disk, inum, d⟩ :: s.allocs }) : StoreM Unit)
  return b

def iupdate (inum : Nat) (d : Dinode) : StoreM Unit := do
  let disk ← getDisk
  logWrite sb (iblock sb inum) (setDinode sb disk inum d (iblock sb inum))

/-- The part of `ialloc` that finds a free inode and marks it allocated on the disk. -/
def iallocDisk (type : Int16) : StoreM Nat := do
  let disk ← getDisk
  match findFrom (fun i => (dinode sb disk i).type = 0) 1 (sb.ninodes - 1) with
  | none => panic "ialloc: no inodes"
  | some i =>
    logWrite sb (iblock sb i) (setDinode sb disk i { Dinode.zero with type := type } (iblock sb i))
    return i

/-- Return the disk block address of the nth block in inode ip. If there is no such block,
bmap allocates one. -/
def bmap (inum : Nat) (d : Dinode) (bn : Nat) : StoreM (Nat × Dinode) := do
  if bn < ndirect then
    if d.addr bn = 0 then
      let addr ← ballocFor sb inum d
      return (addr, d.setAddr bn addr)
    else return (d.addr bn, d)
  else if bn - ndirect < nindirect then
    -- Load indirect block, allocating if necessary.
    let d ← (if d.addr ndirect = 0 then do
        let addr ← ballocFor sb inum d
        return d.setAddr ndirect addr
      else return d : StoreM Dinode)
    let a ← bread (d.addr ndirect)
    if entry a (bn - ndirect) = 0 then
      let addr ← ballocFor sb inum d
      logWrite sb (d.addr ndirect) (setEntry a (bn - ndirect) addr)
      return (addr, d)
    else return (entry a (bn - ndirect), d)
  else panic "bmap: out of range"

def truncDirect : (n i : Nat) → Dinode → StoreM Dinode
  | 0, _, d => return d
  | n + 1, i, d => do
    if d.addr i ≠ 0 then
      bfree sb (d.addr i)
      truncDirect n (i + 1) (d.setAddr i 0)
    else truncDirect n (i + 1) d

def truncEntries (a : Bytes) : (n j : Nat) → StoreM Unit
  | 0, _ => return ()
  | n + 1, j => do
    if entry a j ≠ 0 then
      bfree sb (entry a j)
      truncEntries a n (j + 1)
    else truncEntries a n (j + 1)

def itrunc (inum : Nat) (d : Dinode) : StoreM Dinode := do
  let d ← truncDirect sb ndirect 0 d
  let d ← (if d.addr ndirect ≠ 0 then do
      let a ← bread (d.addr ndirect)
      truncEntries sb a nindirect 0
      bfree sb (d.addr ndirect)
      return d.setAddr ndirect 0
    else return d : StoreM Dinode)
  let d := { d with size := 0 }
  iupdate sb inum d
  return d

def ifree (inum : Nat) (d : Dinode) : StoreM Dinode := do
  let d ← itrunc sb inum d
  let d := { d with type := 0 }
  iupdate sb inum d
  return d

/-- The test of `readi` and `writei` for a device without a driver. -/
def noDriver (major : Int16) : Bool := major < 0 || major ≥ ndev || major ≠ console

/-- The loop of `readi`; every round but the last reads to the end of a block. -/
def readLoop (inum n : Nat) : (fuel tot off : Nat) → Dinode → List UInt8 →
    StoreM (List UInt8 × Dinode)
  | 0, _, _, d, dst => return (dst, d)
  | fuel + 1, tot, off, d, dst => do
    if tot < n then
      let (b, d) ← bmap sb inum d (off / bsize)
      let data ← bread b
      let m := min (n - tot) (bsize - off % bsize)
      readLoop inum n fuel (tot + m) (off + m) d (dst ++ readBytes data (off % bsize) m)
    else return (dst, d)

/-- Read data from inode. The result is the bytes, or `none` for `-1`. -/
def readi (inum : Nat) (d : Dinode) (off n : UInt32) : StoreM (Option (List UInt8) × Dinode) := do
  if d.type = tDev then
    if noDriver d.major then return (none, d)
    else fun _ => .error (.asleep .console)
  else if off > d.size ∨ off + n < off then return (none, d)
  else
    let n := if off + n > d.size then d.size - off else n
    let (dst, d) ← readLoop sb inum n.toNat n.toNat 0 off.toNat d []
    return (some dst, d)

/-- A block after `memmove(bp->data + o, src + tot, m)`. -/
def moveIn (data : Bytes) (o m : Nat) (src : Nat → UInt8) (tot : Nat) : Bytes :=
  fun i => if o ≤ i ∧ i < o + m then src (tot + (i - o)) else data i

def writeLoop (inum : Nat) (src : Nat → UInt8) (n : Nat) : (fuel tot off : Nat) → Dinode →
    StoreM Dinode
  | 0, _, _, d => return d
  | fuel + 1, tot, off, d => do
    if tot < n then
      let (b, d) ← bmap sb inum d (off / bsize)
      let data ← bread b
      let m := min (n - tot) (bsize - off % bsize)
      logWrite sb b (moveIn data (off % bsize) m src tot)
      writeLoop inum src n fuel (tot + m) (off + m) d
    else return d

/-- Write data to inode. The result is the number of bytes, or `none` for `-1`. -/
def writei (inum : Nat) (d : Dinode) (src : Nat → UInt8) (off n : UInt32) :
    StoreM (Option UInt32 × Dinode) := do
  if d.type = tDev then
    if noDriver d.major then return (none, d)
    -- consolewrite prints the bytes
    else return (some n, d)
  else if off > d.size ∨ off + n < off then return (none, d)
  else if (off + n).toNat > maxFile * bsize then return (none, d)
  else
    let d ← writeLoop sb inum src n.toNat n.toNat 0 off.toNat d
    if n > 0 ∧ off + n > d.size then
      let d := { d with size := off + n }
      iupdate sb inum d
      return (some n, d)
    else return (some n, d)

end Xv6.Fs
