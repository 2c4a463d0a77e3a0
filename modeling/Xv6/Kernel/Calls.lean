import Xv6.Kernel.Paths

/-!
# Files and system calls

`file.c` and `sysfile.c` as programs over the operations. What does not come from the tables or the
disk is an argument: the memory that `kalloc` finds, the input of the console, and the bytes of
pipes.
-/

namespace Xv6.Kernel

open Fs Bytes

/-- Close file f. (Decrement ref count, close when reaches 0.) -/
def fileclose (f : Nat) : Prog Unit := do
  let last ← table (.fileput f)
  match last with
  | some ff =>
    match ff.type with
    | .pipe => table (.pipeclose ff.pipe ff.writable)
    | .inode =>
      beginOp
      iput ff.slot
      endOp
    | .none => return ()
  | none => return ()

def filestat (f : Nat) : Prog (Option Attrs) := do
  let ff ← table (.file f)
  if ff.type = .inode then
    ilock ff.slot
    let a ← attrs ff.slot
    iunlock ff.slot
    return some a
  else return none

/-- Read from file f. `con` is what the console returns, `pip` what `piperead` does. -/
def fileread (f : Nat) (n : UInt32) (con pip : Option (List UInt8)) :
    Prog (Option (List UInt8)) := do
  let ff ← table (.file f)
  if !ff.readable then return none
  else
    match ff.type with
    | .pipe => return pip
    | .inode =>
      ilock ff.slot
      let ff ← table (.file f)
      let r ← readi ff.slot ff.off n con
      match r with
      | some bs =>
        let ff ← table (.file f)
        table (.setOff f (ff.off + UInt32.ofNat bs.length))
        iunlock ff.slot
        return some bs
      | none =>
        iunlock ff.slot
        return none
    | .none => panic "fileread"

/-- The bytes of one round of `filewrite`. -/
def writeMax : Nat := (maxOpBlocks - 1 - 1 - 2) / 2 * 512

/-- The loop of `filewrite` for a file with an inode, with `i` of `n` bytes written; `k` is a
bound on the number of rounds. -/
def filewriteLoop (f : Nat) (addr : Nat → UInt8) (n : Nat) : (k i : Nat) → Prog (Option Nat)
  | 0, i => return if i = n then some n else none
  | k + 1, i => do
    if i < n then
      let n1 := min (n - i) writeMax
      beginOp
      let ff ← table (.file f)
      ilock ff.slot
      let ff ← table (.file f)
      let r ← writei ff.slot (fun o => addr (i + o)) ff.off (UInt32.ofNat n1)
      match r with
      | some r =>
        let ff ← table (.file f)
        table (.setOff f (ff.off + r))
        iunlock ff.slot
        endOp
        if r ≠ UInt32.ofNat n1 then panic "short filewrite"
        else filewriteLoop f addr n k (i + n1)
      | none =>
        iunlock ff.slot
        endOp
        return none
    else return if i = n then some n else none

def filewrite (f : Nat) (addr : Nat → UInt8) (n : Nat) (pip : Option Nat) :
    Prog (Option Nat) := do
  let ff ← table (.file f)
  if !ff.writable then return none
  else
    match ff.type with
    | .pipe => return pip
    | .inode => filewriteLoop f addr n n 0
    | .none => panic "filewrite"

def filelock (f : Nat) : Prog Bool := do
  let ff ← table (.file f)
  match ff.ip with
  | none => return false
  | some ip =>
    let r ← table (.ref ip)
    if r < 1 then return false
    else
      -- fsemaphore_lock
      let r ← table (.ref ip)
      if r < 1 then panic "flock"
      else
        table (.acquireFlock ip)
        return true

def fileunlock (f : Nat) : Prog Bool := do
  let ff ← table (.file f)
  match ff.ip with
  | none => return false
  | some ip =>
    let h ← table (.holdingFlock ip)
    let r ← table (.ref ip)
    if h && !(r < 1) then
      -- fsemaphore_unlock
      let h ← table (.holdingFlock ip)
      let r ← table (.ref ip)
      if !h || r < 1 then panic "funlock"
      else
        table (.releaseFlock ip)
        return true
    else return false

def sysDup (fd : Nat) : Prog (Option Nat) := do
  let f ← table (.ofile fd)
  match f with
  | none => return none
  | some f =>
    let fd' ← table (.fdalloc f)
    match fd' with
    | none => return none
    | some fd' =>
      table (.filedup f)
      return some fd'

def sysRead (fd : Nat) (n : UInt32) (con pip : Option (List UInt8)) :
    Prog (Option (List UInt8)) := do
  let f ← table (.ofile fd)
  match f with
  | some f => fileread f n con pip
  | none => return none

def sysWrite (fd : Nat) (addr : Nat → UInt8) (n : Nat) (pip : Option Nat) :
    Prog (Option Nat) := do
  let f ← table (.ofile fd)
  match f with
  | some f => filewrite f addr n pip
  | none => return none

def sysFlock (fd : Nat) : Prog Bool := do
  let f ← table (.ofile fd)
  match f with
  | some f => filelock f
  | none => return false

def sysFunlock (fd : Nat) : Prog Bool := do
  let f ← table (.ofile fd)
  match f with
  | some f => fileunlock f
  | none => return false

def sysClose (fd : Nat) : Prog Bool := do
  let f ← table (.ofile fd)
  match f with
  | some f =>
    table (.clearOfile fd)
    fileclose f
    return true
  | none => return false

def sysFstat (fd : Nat) : Prog (Option Attrs) := do
  let f ← table (.ofile fd)
  match f with
  | some f => filestat f
  | none => return none

def linkBad (ip : Nat) : Prog Bool := do
  ilock ip
  update ip Links.down
  iunlockput ip
  endOp
  return false

def sysLink (old new : List UInt8) : Prog Bool := do
  beginOp
  let ip ← namei old
  match ip with
  | none =>
    endOp
    return false
  | some ip =>
    ilock ip
    let a ← attrs ip
    if a.type = tDir then
      iunlockput ip
      endOp
      return false
    else
      update ip Links.up
      iunlock ip
      let parent ← nameiparent new
      match parent with
      | none => linkBad ip
      | some (dp, name) =>
        ilock dp
        let ddev ← table (.ident dp)
        let idev ← table (.ident ip)
        if ddev.1 ≠ idev.1 then
          iunlockput dp
          linkBad ip
        else
          let linked ← dirlink dp name idev.2
          if !linked then
            iunlockput dp
            linkBad ip
          else
            iunlockput dp
            iput ip
            endOp
            return true

def unlinkBad (dp : Nat) : Prog Bool := do
  iunlockput dp
  endOp
  return false

/-- The part of `sys_unlink` that removes entry `j` of `dp`, which names `ip`. -/
def unlinkEntry (dp j ip : Nat) : Prog Bool := do
  let r ← writeData dp (fun _ => 0) (UInt32.ofNat (direntSize * j)) (UInt32.ofNat direntSize)
  if r ≠ some (UInt32.ofNat direntSize) then panic "unlink: writei"
  else
    let a ← attrs ip
    if a.type = tDir then
      update dp Links.down
      iunlockput dp
      update ip Links.down
      iunlockput ip
      endOp
      return true
    else
      iunlockput dp
      update ip Links.down
      iunlockput ip
      endOp
      return true

def sysUnlink (path : List UInt8) : Prog Bool := do
  beginOp
  let parent ← nameiparent path
  match parent with
  | none =>
    endOp
    return false
  | some (dp, name) =>
    ilock dp
    -- Cannot unlink "." or "..".
    if namecmp name dot || namecmp name dotdot then unlinkBad dp
    else
      let found ← dirlookup dp name
      match found with
      | none => unlinkBad dp
      | some (ip, j) =>
        ilock ip
        let a ← attrs ip
        if a.nlink < 1 then panic "unlink: nlink < 1"
        else if a.type = tDir then
          let empty ← isdirempty ip
          if empty then unlinkEntry dp j ip
          else
            iunlockput ip
            unlinkBad dp
        else unlinkEntry dp j ip

/-- The part of `create` that makes a new inode and links it into `dp`. -/
def createNew (dp : Nat) (name : Name) (type major minor : Int16) : Prog (Option Nat) := do
  let did ← table (.ident dp)
  let ip ← ialloc did.1 type
  ilock ip
  update ip fun _ => ⟨major, minor, 1⟩
  let id ← table (.ident ip)
  if type = tDir then
    -- Create . and .. entries.
    update dp Links.up
    let b1 ← dirlink ip dot id.2
    if !b1 then panic "create dots"
    else
      let b2 ← dirlink ip dotdot did.2
      if !b2 then panic "create dots"
      else
        let b3 ← dirlink dp name id.2
        if !b3 then panic "create: dirlink"
        else
          iunlockput dp
          return some ip
  else
    let b3 ← dirlink dp name id.2
    if !b3 then panic "create: dirlink"
    else
      iunlockput dp
      return some ip

/-- `create`; the inode it returns is locked. -/
def create (path : List UInt8) (type major minor : Int16) : Prog (Option Nat) := do
  let parent ← nameiparent path
  match parent with
  | none => return none
  | some (dp, name) =>
    ilock dp
    let found ← dirlookup dp name
    match found with
    | some (ip, _) =>
      iunlockput dp
      ilock ip
      let a ← attrs ip
      if type = tFile ∧ a.type = tFile then return some ip
      else
        iunlockput ip
        return none
    | none => createNew dp name type major minor

def oWronly : UInt32 := 1

def oRdwr : UInt32 := 2

def oCreate : UInt32 := 0x200

/-- The part of `sys_open` that finds or creates the inode and returns it locked. -/
def openInode (path : List UInt8) (omode : UInt32) : Prog (Option Nat) := do
  if omode &&& oCreate ≠ 0 then create path tFile 0 0
  else
    let ip ← namei path
    match ip with
    | none => return none
    | some ip =>
      ilock ip
      let a ← attrs ip
      if a.type = tDir ∧ omode ≠ 0 then
        iunlockput ip
        return none
      else return some ip

def sysOpen (path : List UInt8) (omode : UInt32) : Prog (Option Nat) := do
  beginOp
  let ip ← openInode path omode
  match ip with
  | none =>
    endOp
    return none
  | some ip =>
    let f ← table .filealloc
    match f with
    | none =>
      iunlockput ip
      endOp
      return none
    | some f =>
      let fd ← table (.fdalloc f)
      match fd with
      | none =>
        fileclose f
        iunlockput ip
        endOp
        return none
      | some fd =>
        iunlock ip
        endOp
        table (.openFile f ip (omode &&& oWronly = 0) (omode &&& oWronly ≠ 0 || omode &&& oRdwr ≠ 0))
        return some fd

/-- The part that `sys_mkdir` and `sys_mknod` share; `path` is `none` if `argstr` fails. -/
def sysCreate (path : Option (List UInt8)) (type major minor : Int16) : Prog Bool := do
  beginOp
  match path with
  | none =>
    endOp
    return false
  | some path =>
    let ip ← create path type major minor
    match ip with
    | none =>
      endOp
      return false
    | some ip =>
      iunlockput ip
      endOp
      return true

def sysMkdir (path : Option (List UInt8)) : Prog Bool := sysCreate path tDir 0 0

/-- `sys_mknod`; `create` takes `short`s. -/
def sysMknod (path : Option (List UInt8)) (major minor : Int16) : Prog Bool :=
  sysCreate path tDev major minor

/-- `sys_chdir`; `path` is `none` if `argstr` fails. -/
def sysChdir (path : Option (List UInt8)) : Prog Bool := do
  beginOp
  match path with
  | none =>
    endOp
    return false
  | some path =>
    let ip ← namei path
    match ip with
    | none =>
      endOp
      return false
    | some ip =>
      ilock ip
      let a ← attrs ip
      if a.type ≠ tDir then
        iunlockput ip
        endOp
        return false
      else
        iunlock ip
        let old ← table .dropCwd
        iput old
        endOp
        table (.setCwd (some ip))
        return true

/-- `pipealloc`; `page` is what `kalloc` returns. -/
def pipealloc (page : Option Nat) : Prog (Option (Nat × Nat)) := do
  let f0 ← table .filealloc
  match f0 with
  | none => return none
  | some f0 =>
    let f1 ← table .filealloc
    match f1 with
    | none =>
      fileclose f0
      return none
    | some f1 =>
      let π ← table (.pipePage page)
      match π with
      | none =>
        fileclose f0
        fileclose f1
        return none
      | some π =>
        table (.openPipe f0 π false)
        table (.openPipe f1 π true)
        return some (f0, f1)

def sysPipe (page : Option Nat) : Prog (Option (Nat × Nat)) := do
  let r ← pipealloc page
  match r with
  | none => return none
  | some (rf, wf) =>
    let fd0 ← table (.fdalloc rf)
    match fd0 with
    | none =>
      fileclose rf
      fileclose wf
      return none
    | some fd0 =>
      let fd1 ← table (.fdalloc wf)
      match fd1 with
      | none =>
        table (.clearOfile fd0)
        fileclose rf
        fileclose wf
        return none
      | some fd1 => return some (fd0, fd1)

/-- `for(fd = 0; fd < NOFILE; fd++) if(myproc()->ofile[fd])` -/
def eachFile (body : (fd f : Nat) → Prog Unit) : List Nat → Prog Unit
  | [] => return ()
  | fd :: fds => do
    let f ← table (.ofile fd)
    match f with
    | some f =>
      body fd f
      eachFile body fds
    | none => eachFile body fds

/-- `mem` says if there is memory for the stack and the pages of the child. -/
def fork (mem : Bool) : Prog (Option Nat) := do
  let np ← table .takeProc
  match np with
  | none => return none
  | some np =>
    if !mem then
      table (.freeproc np)
      return none
    else
      table (.setParent np)
      eachFile (fun fd f => do
        table (.filedup f)
        table (.childOfile np fd f)) (List.range nofile)
      let ip ← table .cwd
      table (.idup ip)
      table (.childCwd np ip)
      let pid ← table (.runnable np)
      return some pid

def exit : Prog Unit := do
  let p ← table .myproc
  if p = initproc then panic "init exiting"
  else
    eachFile (fun fd f => do
      fileclose f
      table (.clearOfile fd)) (List.range nofile)
    beginOp
    let ip ← table .dropCwd
    iput ip
    endOp
    table (.setCwd none)
    table .zombie

end Xv6.Kernel
