import Xv6.Ps
import Xv6.Vm.Defs

/-!
# The exec system call

`exec.c` and `loaduvm`, on physical memory, the process, and what `exec` holds of the file system: a
transaction, a reference to the inode of the file, and its lock. The bytes of the file are
arbitrary, and every `readi` and `kalloc` may fail. What is to be done when the body of `exec` ends
is `leave`.
-/

namespace Xv6.Exec

open Bytes Vm

/-- What is in the file at the path. -/
structure File where
  size : Nat
  data : Bytes

/-- The part of `struct proc` that `exec` reads or writes; `eip` and `esp` are in the trap frame. -/
structure Proc where
  pgdir : Nat
  sz : Nat
  eip : Nat
  esp : Nat
  name : Bytes

/-- The kernel as `exec` sees it. Call number `reads` of `readi` is the next one, and fails if
`readFail` says so. -/
structure State where
  phys : Phys
  proc : Proc
  /-- what the path names -/
  file : Option File
  /-- `ip->ref` -/
  ref : Int
  /-- this process holds `ip->lock` -/
  held : Bool
  /-- `log.outstanding` -/
  outstanding : Int
  reads : Nat
  readFail : Nat → Bool

abbrev ExecM := StateT State (Except Fault)

variable {α : Type}

def onPhys (m : PhysM α) : ExecM α := fun s =>
  match m s.phys with
  | .ok (a, phys) => .ok (a, { s with phys := phys })
  | .error e => .error e

def beginOp : ExecM Unit := fun s => .ok ((), { s with outstanding := s.outstanding + 1 })

def endOp : ExecM Unit := fun s => .ok ((), { s with outstanding := s.outstanding - 1 })

def namei : ExecM (Option File) := fun s =>
  match s.file with
  | none => .ok (none, s)
  | some f => .ok (some f, { s with ref := s.ref + 1 })

/-- Lock the inode; the lock is free, or the process has slept until it was. -/
def ilock : ExecM Unit := fun s =>
  if s.ref < 1 then .error (.panic "ilock") else .ok ((), { s with held := true })

def iunlock : ExecM Unit := fun s =>
  if s.held = false ∨ s.ref < 1 then .error (.panic "iunlock")
  else .ok ((), { s with held := false })

def iput : ExecM Unit := fun s => .ok ((), { s with ref := s.ref - 1 })

def iunlockput : ExecM Unit := do
  iunlock
  iput

/-- Read data from a file: the bytes, as many as `readi` returns, or nothing for -1. -/
def readi (ip : File) (off n : Nat) : ExecM (Option (List UInt8)) := fun s =>
  let s' := { s with reads := s.reads + 1 }
  if s.readFail s.reads then .ok (none, s')
  else if off > ip.size ∨ (off + n) % 2 ^ 32 < off then .ok (none, s')
  else
    let n := if (off + n) % 2 ^ 32 > ip.size then ip.size - off else n
    .ok (some (readBytes ip.data off n), s')

/-- `readi` into a structure of `n` bytes; nothing if it does not return `n`. -/
def readStruct (ip : File) (off n : Nat) : ExecM (Option Bytes) := do
  match ← readi ip off n with
  | none => return none
  | some bs => return if bs.length = n then some fun i => bs.getD i 0 else none

def elfMagic : Nat := 0x464C457F

def elfProgLoad : Nat := 1

/-- `struct elfhdr`: the fields that `exec` reads. -/
structure ElfHdr where
  magic : Nat
  entry : Nat
  phoff : Nat
  phnum : Nat

def elfHdrSize : Nat := 52

def ElfHdr.decode (bs : Bytes) : ElfHdr where
  magic := get32 bs 0
  entry := get32 bs 24
  phoff := get32 bs 28
  phnum := get16 bs 44

/-- `struct proghdr`: the fields that `exec` reads. -/
structure ProgHdr where
  type : Nat
  off : Nat
  vaddr : Nat
  filesz : Nat
  memsz : Nat

def progHdrSize : Nat := 32

def ProgHdr.decode (bs : Bytes) : ProgHdr where
  type := get32 bs 0
  off := get32 bs 4
  vaddr := get32 bs 8
  filesz := get32 bs 16
  memsz := get32 bs 20

/-- The loop of `loaduvm`, with at most `n` rounds. The result is `false` for -1. -/
def loadLoop (pgdir addr : Nat) (ip : File) (offset sz : Nat) : (n i : Nat) → ExecM Bool
  | 0, i => if i < sz then onPhys (stop .loops) else return true
  | n + 1, i =>
    if i < sz then do
      match ← onPhys (walkpgdir pgdir ((addr + i) % 2 ^ 32) false) with
      | none => onPhys (Vm.panic "loaduvm: address should exist")
      | some (pgtab, j) =>
        let pte ← onPhys (getWord pgtab j)
        let k := if sz - i < pgSize then sz - i else pgSize
        let v ← onPhys (p2v (pteAddr pte))
        match ← readi ip ((offset + i) % 2 ^ 32) k with
        | none => return false
        | some bs =>
          let old ← onPhys (getPage v)
          onPhys (setPage v (writeBytes old 0 bs))
          if bs.length ≠ k then return false
          else loadLoop pgdir addr ip offset sz n ((i + pgSize) % 2 ^ 32)
    else return true

def loaduvm (pgdir addr : Nat) (ip : File) (offset sz : Nat) : ExecM Bool :=
  if addr % pgSize ≠ 0 then onPhys (Vm.panic "loaduvm: addr must be page aligned")
  else loadLoop pgdir addr ip offset sz (pages 0 sz) 0

variable (L : Layout)

/-- The loop of `exec` over the program headers, with `n` headers left: the size, or nothing for
`goto bad`. -/
def loadSegments (ip : File) (pgdir : Nat) : (n off sz : Nat) → ExecM (Option Nat)
  | 0, _, sz => return some sz
  | n + 1, off, sz => do
    match ← readStruct ip off progHdrSize with
    | none => return none
    | some bs =>
      let ph := ProgHdr.decode bs
      if ph.type ≠ elfProgLoad then loadSegments ip pgdir n ((off + progHdrSize) % 2 ^ 32) sz
      else if ph.memsz < ph.filesz then return none
      else if (ph.vaddr + ph.memsz) % 2 ^ 32 < ph.vaddr then return none
      else
        let sz ← onPhys (allocuvm L pgdir sz ((ph.vaddr + ph.memsz) % 2 ^ 32))
        if sz = 0 then return none
        else if ph.vaddr % pgSize ≠ 0 then return none
        else if ← loaduvm pgdir ph.vaddr ip ph.off ph.filesz then
          loadSegments ip pgdir n ((off + progHdrSize) % 2 ^ 32) sz
        else return none

def maxArg : Nat := 32

def subSp (sp n : Nat) : Nat := (sp + 2 ^ 32 - n % 2 ^ 32) % 2 ^ 32

/-- `(sp - n) & ~3` -/
def alignSp (sp n : Nat) : Nat := subSp sp n / 4 * 4

/-- The loop of `exec` over the arguments: the stack pointer and `ustack[3]` up to
`ustack[2+argc]`, or nothing for `goto bad`. An argument is the bytes before its NUL. -/
def pushArgs (pgdir : Nat) : (argv : List (List UInt8)) → (sp : Nat) → (ustack : List Nat) →
    ExecM (Option (Nat × List Nat))
  | [], sp, ustack => return some (sp, ustack)
  | arg :: argv, sp, ustack =>
    if ustack.length ≥ maxArg then return none
    else do
      let sp := alignSp sp (arg.length + 1)
      if ← onPhys (copyout pgdir sp (arg ++ [0])) then pushArgs pgdir argv sp (ustack ++ [sp])
      else return none

/-- The words of `ustack` when the arguments have been pushed. -/
def ustackWords (sp : Nat) (ustack : List Nat) : List Nat :=
  [0xffffffff, ustack.length, subSp sp ((ustack.length + 1) * 4)] ++ ustack ++ [0]

def wordBytes (ws : List Nat) : List UInt8 := ws.flatMap le32

/-- The loop that finds the last element of the path. -/
def lastLoop : (s last : List UInt8) → List UInt8
  | [], last => last
  | c :: s, last => lastLoop s (if c = 47 then s else last)

/-- How the body of `exec` ends. -/
inductive Exit
  | done
  | notFound
  /-- `goto bad`, with `pgdir` and whether `ip` is not 0 -/
  | bad (pgdir : Option Nat) (ip : Bool)

def commit (path : List UInt8) (pgdir sz entry sp : Nat) : ExecM Unit := do
  let s ← get
  let oldpgdir := s.proc.pgdir
  let last := lastLoop path path
  let name := writeBytes s.proc.name 0 (Ps.safestrcpy (fun i => last.getD i 0) 16)
  set { s with proc := { pgdir := pgdir, sz := sz, eip := entry, esp := sp, name := name } }
  onPhys (freevm L oldpgdir)

/-- `exec` after the segments are loaded. -/
def buildStack (path : List UInt8) (argv : List (List UInt8)) (pgdir sz entry : Nat) :
    ExecM Exit := do
  let base := pgRoundUp sz
  let sz ← onPhys (allocuvm L pgdir base ((base + 2 * pgSize) % 2 ^ 32))
  if sz = 0 then return .bad (some pgdir) false
  else
    onPhys (clearpteu pgdir (subSp sz (2 * pgSize)))
    match ← pushArgs pgdir argv sz [] with
    | none => return .bad (some pgdir) false
    | some (sp, ustack) =>
      let bs := wordBytes (ustackWords sp ustack)
      let sp := subSp sp ((3 + ustack.length + 1) * 4)
      if ← onPhys (copyout pgdir sp bs) then
        commit L path pgdir sz entry sp
        return .done
      else return .bad (some pgdir) false

def loadProgram (path : List UInt8) (argv : List (List UInt8)) (ip : File) : ExecM Exit := do
  match ← readStruct ip 0 elfHdrSize with
  | none => return .bad none true
  | some bs =>
    let elf := ElfHdr.decode bs
    if elf.magic ≠ elfMagic then return .bad none true
    else
      match ← onPhys (setupkvm L) with
      | none => return .bad none true
      | some pgdir =>
        match ← loadSegments L ip pgdir elf.phnum elf.phoff 0 with
        | none => return .bad (some pgdir) true
        | some sz =>
          iunlockput
          endOp
          buildStack L path argv pgdir sz elf.entry

def body (path : List UInt8) (argv : List (List UInt8)) : ExecM Exit := do
  beginOp
  match ← namei with
  | none =>
    endOp
    return .notFound
  | some ip =>
    ilock
    loadProgram L path argv ip

def freePgdir : Option Nat → ExecM Unit
  | some d => onPhys (freevm L d)
  | none => return ()

/-- `if(ip)` the inode and the transaction are given back. -/
def putInode : Bool → ExecM Unit
  | true => do
    iunlockput
    endOp
  | false => return ()

/-- The label `bad`, and the `return` statements. -/
def leave : Exit → ExecM Int
  | .done => return 0
  | .notFound => return -1
  | .bad pgdir ip => do
    freePgdir L pgdir
    putInode ip
    return -1

def exec (path : List UInt8) (argv : List (List UInt8)) : ExecM Int := do
  let e ← body L path argv
  leave L e

end Xv6.Exec
