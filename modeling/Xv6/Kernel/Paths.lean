import Xv6.Kernel.Dirs

/-!
# Inodes, directories and paths

The upper half of `fs.c` as programs over the operations. Inodes are named by their slots. A null
pointer is `none`, and `-1` for failure is `none` or `false`.
-/

namespace Xv6.Kernel

open Fs

variable {α : Type}

def call (o : Op) : Prog o.Ret := Program.call o

def table (o : TableOp) : Prog o.Ret := call (.table o)

def panic (msg : String) : Prog α := Program.op (Op.panic msg) Empty.elim

def beginOp : Prog Unit := call .beginOp

def endOp : Prog Unit := call .endOp

def attrs (ip : Nat) : Prog Attrs := call (.attrs ip)

def update (ip : Nat) (f : Links → Links) : Prog Unit := do
  call (.assign ip f)
  call (.iupdate ip)

def readData (ip : Nat) (off n : UInt32) : Prog (Option (List UInt8)) := call (.readi ip off n)

def writeData (ip : Nat) (src : Nat → UInt8) (off n : UInt32) : Prog (Option UInt32) :=
  call (.writei ip src off n)

def Links.up (l : Links) : Links := { l with nlink := l.nlink + 1 }

def Links.down (l : Links) : Links := { l with nlink := l.nlink - 1 }

/-- Lock the given inode. Reads the inode from disk if necessary. -/
def ilock (ip : Nat) : Prog Unit := do
  let r ← table (.ref ip)
  if r < 1 then panic "ilock"
  else
    table (.acquiresleep ip)
    let v ← table (.valid ip)
    if v then return () else call (.load ip)

def iunlock (ip : Nat) : Prog Unit := do
  let h ← table (.holdingsleep ip)
  let r ← table (.ref ip)
  if !h || r < 1 then panic "iunlock" else table (.releasesleep ip)

/-- The part of `iput` that frees an inode without links and without other references. -/
def iputFree (ip : Nat) : Prog Unit := do
  let v ← table (.valid ip)
  if v then
    let a ← attrs ip
    if a.nlink = 0 then
      let r ← table (.ref ip)
      if r = 1 then call (.free ip) else return ()
    else return ()
  else return ()

def iput (ip : Nat) : Prog Unit := do
  table (.acquiresleep ip)
  iputFree ip
  table (.releasesleep ip)
  table (.unref ip)

def iunlockput (ip : Nat) : Prog Unit := do
  iunlock ip
  iput ip

def ialloc (dev : Nat) (type : Int16) : Prog Nat := do
  let inum ← call (.ialloc type)
  table (.iget dev inum)

/-- Read data from inode. `con` is what `consoleread` returns; it gives up the inode while it
waits for input. -/
def readi (ip : Nat) (off n : UInt32) (con : Option (List UInt8)) :
    Prog (Option (List UInt8)) := do
  let a ← attrs ip
  if a.type = tDev then
    if noDriver a.major then return none
    else
      iunlock ip
      ilock ip
      return con.map (List.take n.toNat)
  else readData ip off n

def writei (ip : Nat) (src : Nat → UInt8) (off n : UInt32) : Prog (Option UInt32) := do
  let a ← attrs ip
  if a.type = tDev then
    if noDriver a.major then return none
    else
      -- consolewrite prints the bytes
      iunlock ip
      ilock ip
      return some n
  else writeData ip src off n

def readDirent (dp j : Nat) (msg : String) : Prog Dirent := do
  let bs ← readData dp (UInt32.ofNat (direntSize * j)) (UInt32.ofNat direntSize)
  match bs with
  | some bs => if bs.length = direntSize then return Dirent.ofBytes bs else panic msg
  | none => panic msg

/-- The loops over the entries of a directory from `j` on, up to the first that satisfies `q`;
`n` is a bound on the number of rounds. -/
def scan (dp : Nat) (msg : String) (q : Dirent → Bool) :
    (n j : Nat) → Prog (Option (Nat × Dirent))
  | 0, _ => return none
  | n + 1, j => do
    let a ← attrs dp
    if direntSize * j < a.size.toNat then
      let de ← readDirent dp j msg
      if q de then return some (j, de) else scan dp msg q n (j + 1)
    else return none

/-- Look for a directory entry in a directory. The result is the inode and the number of the
entry, its offset divided by its size. -/
def dirlookup (dp : Nat) (name : Name) : Prog (Option (Nat × Nat)) := do
  let a ← attrs dp
  if a.type ≠ tDir then panic "dirlookup not DIR"
  else
    let found ← scan dp "dirlookup read" (fun de => de.inum ≠ 0 && namecmp name de.name)
      (a.size.toNat + 1) 0
    match found with
    | some (j, de) =>
      let id ← table (.ident dp)
      let ip ← table (.iget id.1 de.inum)
      return some (ip, j)
    | none => return none

/-- Write a new directory entry (name, inum) into the directory dp. -/
def dirlink (dp : Nat) (name : Name) (inum : Nat) : Prog Bool := do
  -- Check that name is not present.
  let found ← dirlookup dp name
  match found with
  | some (ip, _) =>
    iput ip
    return false
  | none =>
    -- Look for an empty dirent.
    let a ← attrs dp
    let empty ← scan dp "dirlink read" (fun de => de.inum = 0) (a.size.toNat + 1) 0
    let j := (empty.map Prod.fst).getD ((a.size.toNat + (direntSize - 1)) / direntSize)
    let r ← writeData dp (direntBytes name inum) (UInt32.ofNat (direntSize * j))
      (UInt32.ofNat direntSize)
    if r ≠ some (UInt32.ofNat direntSize) then panic "dirlink" else return true

def isdirempty (dp : Nat) : Prog Bool := do
  let a ← attrs dp
  let found ← scan dp "isdirempty: readi" (fun de => de.inum ≠ 0) (a.size.toNat + 1) 2
  return found.isNone

def namexLoop (nameiparent : Bool) : List Name → (ip : Nat) → Prog (Option (Nat × Name))
  | [], ip => do
    if nameiparent then
      iput ip
      return none
    else return some (ip, [])
  | name :: rest, ip => do
    ilock ip
    let a ← attrs ip
    if a.type ≠ tDir then
      iunlockput ip
      return none
    else if nameiparent && rest.isEmpty then
      -- Stop one level early.
      iunlock ip
      return some (ip, name)
    else
      let next ← dirlookup ip name
      match next with
      | none =>
        iunlockput ip
        return none
      | some (next, _) =>
        iunlockput ip
        namexLoop nameiparent rest next

/-- Look up and return the inode for a path name, or that of its parent and the final path
element. -/
def namex (path : List UInt8) (nameiparent : Bool) : Prog (Option (Nat × Name)) := do
  if path.head? = some slash then
    let ip ← table (.iget rootDev rootIno)
    namexLoop nameiparent (elems path) ip
  else
    let ip ← table .cwd
    table (.idup ip)
    namexLoop nameiparent (elems path) ip

def namei (path : List UInt8) : Prog (Option Nat) := do
  let r ← namex path false
  return r.map Prod.fst

def nameiparent (path : List UInt8) : Prog (Option (Nat × Name)) := namex path true

end Xv6.Kernel
