import Xv6.Kernel.Dirs

/-!
# Building an image

`mkfs.c`: the image file, the two counters from which inodes and blocks are handed out, and the
program that fills the image with the files of its command line. It ends with status 0, calls
`exit(1)`, or an assertion fails.
-/

namespace Xv6.Mkfs

open Fs Kernel Bytes

/-- How `mkfs` ends when it does not end with status 0. -/
inductive Failure
  /-- a message and `exit(1)` -/
  | exit (msg : String)
  /-- an assertion that fails -/
  | abort (cond : String)
  deriving DecidableEq

/-- The image file, the counters `freeinode` and `freeblock`, and a record of the inodes written
that no function reads. -/
structure Image where
  disk : Disk
  /-- the length of the file -/
  sectors : Nat
  freeinode : Nat
  freeblock : Nat
  written : List Nat

abbrev ImageM := StateT Image (Except Failure)

variable {α : Type}

def fail (e : Failure) : ImageM α := fun _ => .error e

def assert (cond : Bool) (text : String) : ImageM Unit :=
  if cond then return () else fail (.abort text)

/-- Write a sector. Sector `FSSIZE` passes the test, as in the source. -/
def wsect (sec : Nat) (buf : Bytes) : ImageM Unit := fun s =>
  if sec > fsSize then
    .error (.exit s!"failed: trying to write sector {sec} > FSSIZE = {fsSize}")
  else .ok ((), { s with
    disk := Function.update s.disk sec buf
    sectors := max s.sectors (sec + 1) })

/-- Read a sector. At the end of the file `read` returns nothing. -/
def rsect (sec : Nat) : ImageM Bytes := fun s =>
  if sec > fsSize then
    .error (.exit s!"failed: trying to read sector {sec} > FSSIZE = {fsSize}")
  else if s.sectors ≤ sec then .error (.exit "read")
  else .ok (s.disk sec, s)

def takeBlock : ImageM Nat := fun s => .ok (s.freeblock, { s with freeblock := s.freeblock + 1 })

def takeInode : ImageM Nat := fun s => .ok (s.freeinode, { s with freeinode := s.freeinode + 1 })

def winode (inum : Nat) (d : Dinode) : ImageM Unit := do
  let buf ← rsect (iblock sb inum)
  wsect (iblock sb inum) (putDinode buf (dinodeSize * (inum % ipb)) d)
  fun s => .ok ((), { s with written := inum :: s.written })

def rinode (inum : Nat) : ImageM Dinode := do
  let buf ← rsect (iblock sb inum)
  return getDinode buf (dinodeSize * (inum % ipb))

def ialloc (type : Int16) : ImageM Nat := do
  let inum ← takeInode
  winode inum { Dinode.zero with type := type, nlink := 1 }
  return inum

/-- The part of `iappend` that finds block `fbn` of the file, or takes one. -/
def blockFor (din : Dinode) (fbn : Nat) : ImageM (Nat × Dinode) := do
  if fbn < ndirect then
    if din.addr fbn = 0 then
      let b ← takeBlock
      return ((din.setAddr fbn b).addr fbn, din.setAddr fbn b)
    else return (din.addr fbn, din)
  else
    let din ← (if din.addr ndirect = 0 then do
        let b ← takeBlock
        return din.setAddr ndirect b
      else return din : ImageM Dinode)
    let indirect ← rsect (din.addr ndirect)
    if entry indirect (fbn - ndirect) = 0 then
      let b ← takeBlock
      wsect (din.addr ndirect) (setEntry indirect (fbn - ndirect) b)
      return (entry (setEntry indirect (fbn - ndirect) b) (fbn - ndirect), din)
    else return (entry indirect (fbn - ndirect), din)

def appendLoop (p : Nat → UInt8) (n : Nat) : (fuel tot off : Nat) → Dinode → ImageM (Nat × Dinode)
  | 0, _, off, din => return (off, din)
  | fuel + 1, tot, off, din => do
    if tot < n then
      let fbn := off / bsize
      assert (fbn < maxFile) "fbn < MAXFILE"
      let (x, din) ← blockFor din fbn
      let n1 := min (n - tot) ((fbn + 1) * bsize - off)
      let buf ← rsect x
      wsect x (moveIn buf (off - fbn * bsize) n1 p tot)
      appendLoop p n fuel (tot + n1) (off + n1) din
    else return (off, din)

def iappend (inum : Nat) (p : Nat → UInt8) (n : Nat) : ImageM Unit := do
  let din ← rinode inum
  let (off, din) ← appendLoop p n n 0 din.size.toNat din
  winode inum { din with size := UInt32.ofNat off }

structure Input where
  /-- the argument -/
  name : Name
  /-- what the calls of `read` return -/
  chunks : List (List UInt8)
  noNul : 0 ∉ name
  chunk : ∀ c ∈ chunks, 0 < c.length ∧ c.length ≤ bsize

def Input.bytes (f : Input) : List UInt8 := f.chunks.flatten

def underscore : UInt8 := 95

/-- The name in the image: without a leading `'_'`. -/
def Input.base (f : Input) : Name := if f.name.head? = some underscore then f.name.tail else f.name

def appendChunks (inum : Nat) : List (List UInt8) → ImageM Unit
  | [] => return ()
  | c :: cs => do
    iappend inum (fun i => c.getD i 0) c.length
    appendChunks inum cs

def addFile (f : Input) : ImageM Unit := do
  assert (slash ∉ f.name) "index(argv[i], '/') == 0"
  let inum ← ialloc tFile
  iappend rootIno (direntBytes f.base inum) direntSize
  appendChunks inum f.chunks

def addFiles : List Input → ImageM Unit
  | [] => return ()
  | f :: fs => do
    addFile f
    addFiles fs

/-- `for(i = 0; i < FSSIZE; i++) wsect(i, zeroes);`, with `n` rounds to go from `i` on. -/
def wipe : (n i : Nat) → ImageM Unit
  | 0, _ => return ()
  | n + 1, i => do
    wsect i zeroBlock
    wipe n (i + 1)

theorem wipe_zero (i : Nat) : wipe 0 i = return () := rfl

theorem wipe_succ (n i : Nat) : wipe (n + 1) i = (do
    wsect i zeroBlock
    wipe n (i + 1)) := rfl

-- unification must not run the loop
attribute [irreducible] wipe

def superBytes : Bytes :=
  writeBytes zeroBlock 0 (le32 sb.size ++ le32 sb.nblocks ++ le32 sb.ninodes ++ le32 sb.nlog ++
    le32 sb.logstart ++ le32 sb.inodestart ++ le32 sb.bmapstart)

def prepare : ImageM Unit := do
  fun s => .ok ((), { s with freeblock := nmeta })
  wipe fsSize 0
  wsect 1 superBytes

def fill (files : List Input) : ImageM Unit := do
  let rootino ← ialloc tDir
  assert (rootino = rootIno) "rootino == ROOTINO"
  iappend rootino (direntBytes dot rootino) direntSize
  iappend rootino (direntBytes dotdot rootino) direntSize
  addFiles files
  -- fix size of root inode dir
  let din ← rinode rootino
  winode rootino { din with size := UInt32.ofNat ((din.size.toNat / bsize + 1) * bsize) }
  let used ← (fun s => .ok (s.freeblock, s) : ImageM Nat)
  assert (used < bsize * 8) "used < BSIZE*8"
  wsect sb.bmapstart (balloc used)

def main (files : List Input) : ImageM Unit := do
  prepare
  fill files

def start : Image where
  disk := fun _ => zeroBlock
  sectors := 0
  freeinode := 1
  freeblock := 0
  written := []

/-- The image that `mkfs` leaves when it exits with status 0. -/
def mkfs (files : List Input) : Except Failure Image := (main files start).map Prod.snd

end Xv6.Mkfs
