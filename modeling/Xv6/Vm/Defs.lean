import Xv6.Lib.Bytes
import Mathlib.Logic.Function.Basic

/-!
# Physical pages and page tables

`kalloc.c`, `vm.c` and `growproc`. Physical memory is an array of pages of bytes, and page
directories and page tables are 32-bit words in it. A kernel pointer to a page is the number of the
page, and a pointer to an entry is a page and an index. Addresses and sizes are numbers below 2^32.
Every call of `kalloc` may fail.

A function returns, or it stops: it panics, or it reads through a null pointer. The loops have a
bound on the number of their rounds; one that would go round the address space stops as well.
-/

namespace Xv6.Vm

open Bytes

@[simp] def pgSize : Nat := 4096

@[simp] def kernBase : Nat := 0x80000000

@[simp] def extMem : Nat := 0x100000

/-- `DEVSPACE`: other devices are at high addresses. -/
@[simp] def devSpace : Nat := 0xFE000000

@[simp] def npdEntries : Nat := 1024

def pdx (va : Nat) : Nat := va / 2 ^ 22 % 1024

def ptx (va : Nat) : Nat := va / 2 ^ 12 % 1024

def pgRoundUp (a : Nat) : Nat := (a + pgSize - 1) % 2 ^ 32 / pgSize * pgSize

def pgRoundDown (a : Nat) : Nat := a / pgSize * pgSize

/-- The rounds of a loop from `a` up to `b` in steps of a page. -/
def pages (a b : Nat) : Nat := (b - a + pgSize - 1) / pgSize

def pteP (w : Nat) : Bool := w.testBit 0

def pteU (w : Nat) : Bool := w.testBit 2

def pteAddr (w : Nat) : Nat := w / 4096

def pteFlags (w : Nat) : Nat := w % 4096

def mkPte (pa perm : Nat) : Nat := pa ||| perm ||| 1

def clearU (w : Nat) : Nat := if pteU w then w - 4 else w

def permW : Nat := 2

def permWU : Nat := 6

structure Kmap where
  virt : Nat
  physStart : Nat
  physEnd : Nat
  perm : Nat

namespace Kmap

def size (k : Kmap) : Nat := (k.physEnd + 2 ^ 32 - k.physStart) % 2 ^ 32

/-- A range of whole pages in the kernel's part of the address space, not for the user. -/
structure Ok (k : Kmap) : Prop where
  virt : k.virt % pgSize = 0
  phys : k.physStart % pgSize = 0
  size : k.size % pgSize = 0
  pos : 0 < k.size
  base_le : kernBase ≤ k.virt
  le_top : k.virt + k.size ≤ 2 ^ 32
  phys_le : k.physStart + k.size ≤ 2 ^ 32
  perm : k.perm < 4

instance (k : Kmap) : Decidable k.Ok :=
  decidable_of_iff (k.virt % pgSize = 0 ∧ k.physStart % pgSize = 0 ∧ k.size % pgSize = 0 ∧
      0 < k.size ∧ kernBase ≤ k.virt ∧ k.virt + k.size ≤ 2 ^ 32 ∧ k.physStart + k.size ≤ 2 ^ 32 ∧
      k.perm < 4)
    ⟨fun ⟨h₁, h₂, h₃, h₄, h₅, h₆, h₇, h₈⟩ => ⟨h₁, h₂, h₃, h₄, h₅, h₆, h₇, h₈⟩,
      fun h => ⟨h.virt, h.phys, h.size, h.pos, h.base_le, h.le_top, h.phys_le, h.perm⟩⟩

def Apart (k k' : Kmap) : Prop := k.virt + k.size ≤ k'.virt ∨ k'.virt + k'.size ≤ k.virt

instance (k k' : Kmap) : Decidable (k.Apart k') := inferInstanceAs (Decidable (_ ∨ _))

end Kmap

/-- The memory of a machine, in pages: `end` is in the page below `endPage`, and `PHYSTOP` is the
start of page `physTop`. The kernel's part of every address space is `kmap`. -/
structure Layout where
  endPage : Nat
  physTop : Nat
  kmap : List Kmap
  end_pos : 0 < endPage
  top_le : kernBase + physTop * pgSize ≤ devSpace
  ok : ∀ k ∈ kmap, k.Ok
  apart : kmap.Pairwise Kmap.Apart

/-- The table `kmap` of the source, for the address of the symbol `data`. -/
def kmapOf (data phystop : Nat) : List Kmap :=
  [⟨kernBase, 0, extMem, permW⟩,
    ⟨kernBase + extMem, extMem, data - kernBase, 0⟩,
    ⟨data, data - kernBase, phystop, permW⟩,
    ⟨devSpace, devSpace, 0, permW⟩]

/-- The layout of the kernel that `kernel.sym` belongs to: `data` is 0x80108000 and `end` is
0x80116428. -/
def Layout.source : Layout where
  endPage := 0x117
  physTop := 0xE000
  kmap := kmapOf 0x80108000 0xE000000
  end_pos := by decide
  top_le := by decide
  ok := by decide
  apart := by decide

/-- Why a function does not return. -/
inductive Fault
  | panic (msg : String)
  /-- reads the entry that `walkpgdir` has not found -/
  | nullEntry
  /-- goes round the address space -/
  | loops
  deriving DecidableEq

/-- Physical memory and `kmem`. Call number `calls` of `kalloc` is the next one, and fails if
`fail` says so. -/
structure Phys where
  mem : Nat → Bytes
  freelist : List Nat
  calls : Nat
  fail : Nat → Bool

abbrev PhysM := StateT Phys (Except Fault)

variable {α : Type}

def stop (e : Fault) : PhysM α := fun _ => .error e

def panic (msg : String) : PhysM α := stop (.panic msg)

def word (mem : Nat → Bytes) (pg i : Nat) : Nat := get32 (mem pg) (4 * i)

def getWord (pg i : Nat) : PhysM Nat := fun s => .ok (word s.mem pg i, s)

def getPage (pg : Nat) : PhysM Bytes := fun s => .ok (s.mem pg, s)

def setPage (pg : Nat) (bs : Bytes) : PhysM Unit := fun s =>
  .ok ((), { s with mem := Function.update s.mem pg bs })

def setWord (pg i w : Nat) : PhysM Unit := fun s =>
  .ok ((), { s with mem := Function.update s.mem pg (put32 (s.mem pg) (4 * i) w) })

def zeros : Bytes := fun _ => 0

variable (L : Layout)

/-- Free the page of physical memory. Fill with junk to catch dangling refs. -/
def kfree (pg : Nat) : PhysM Unit := fun s =>
  if pg < L.endPage ∨ L.physTop ≤ pg then .error (.panic "kfree")
  else .ok ((), { s with
    mem := Function.update s.mem pg fun _ => 1
    freelist := pg :: s.freelist })

def kalloc : PhysM (Option Nat) := fun s =>
  if s.fail s.calls then .ok (none, { s with calls := s.calls + 1 })
  else match s.freelist with
    | [] => .ok (none, { s with calls := s.calls + 1 })
    | pg :: rest => .ok (some pg, { s with calls := s.calls + 1, freelist := rest })

def p2v (pg : Nat) : PhysM Nat :=
  if pg * pgSize > kernBase then panic "P2V on address > KERNBASE" else return pg

/-- Return the address of the PTE in page table pgdir that corresponds to virtual address va. If
alloc, create any required page table pages. -/
def walkpgdir (pgdir va : Nat) (alloc : Bool) : PhysM (Option (Nat × Nat)) := do
  let pde ← getWord pgdir (pdx va)
  if pteP pde then
    let pgtab ← p2v (pteAddr pde)
    return some (pgtab, ptx va)
  else if !alloc then return none
  else
    match ← kalloc with
    | none => return none
    | some pgtab =>
      setPage pgtab zeros
      setWord pgdir (pdx va) (mkPte (pgtab * pgSize) permWU)
      return some (pgtab, ptx va)

def mapPage (pgdir a pa perm : Nat) : PhysM Bool := do
  match ← walkpgdir pgdir a true with
  | none => return false
  | some (pgtab, i) =>
    let pte ← getWord pgtab i
    if pteP pte then panic "remap"
    else
      setWord pgtab i (mkPte pa perm)
      return true

def mapLoop (pgdir perm : Nat) : (n a pa : Nat) → PhysM Bool
  | 0, a, pa => mapPage pgdir a pa perm
  | n + 1, a, pa => do
    if ← mapPage pgdir a pa perm then
      mapLoop pgdir perm n ((a + pgSize) % 2 ^ 32) ((pa + pgSize) % 2 ^ 32)
    else return false

/-- Create PTEs for virtual addresses starting at va that refer to physical addresses starting at
pa. The result is `false` for -1. -/
def mappages (pgdir va size pa perm : Nat) : PhysM Bool :=
  let a := pgRoundDown va
  let last := pgRoundDown ((va + size + (2 ^ 32 - 1)) % 2 ^ 32)
  mapLoop pgdir perm ((last + 2 ^ 32 - a) % 2 ^ 32 / pgSize) a pa

def deallocLoop (pgdir oldsz : Nat) : (n a : Nat) → PhysM Unit
  | 0, a => if a < oldsz then stop .loops else return ()
  | n + 1, a =>
    if a < oldsz then do
      match ← walkpgdir pgdir a false with
      | none => deallocLoop pgdir oldsz n ((pdx a + 1) * 2 ^ 22 % 2 ^ 32)
      | some (pgtab, i) =>
        let pte ← getWord pgtab i
        if pteP pte then
          if pteAddr pte = 0 then panic "kfree"
          else
            let v ← p2v (pteAddr pte)
            kfree L v
            setWord pgtab i 0
            deallocLoop pgdir oldsz n ((a + pgSize) % 2 ^ 32)
        else deallocLoop pgdir oldsz n ((a + pgSize) % 2 ^ 32)
    else return ()

/-- Deallocate user pages to bring the process size from oldsz to newsz. Returns the new process
size. -/
def deallocuvm (pgdir oldsz newsz : Nat) : PhysM Nat :=
  if newsz ≥ oldsz then return oldsz
  else do
    deallocLoop L pgdir oldsz (pages (pgRoundUp newsz) oldsz) (pgRoundUp newsz)
    return newsz

def freeTables (pgdir : Nat) : List Nat → PhysM Unit
  | [] => return ()
  | i :: is => do
    let pde ← getWord pgdir i
    if pteP pde then
      let v ← p2v (pteAddr pde)
      kfree L v
      freeTables pgdir is
    else freeTables pgdir is

/-- Free a page table and all the physical memory pages in the user part. -/
def freevm (pgdir : Nat) : PhysM Unit := do
  let _ ← deallocuvm L pgdir kernBase 0
  freeTables L pgdir (List.range npdEntries)
  kfree L pgdir

def mapKernel (pgdir : Nat) : List Kmap → PhysM Bool
  | [] => return true
  | k :: ks => do
    if ← mappages pgdir k.virt k.size k.physStart k.perm then mapKernel pgdir ks
    else return false

def setupkvm : PhysM (Option Nat) := do
  match ← kalloc with
  | none => return none
  | some pgdir =>
    setPage pgdir zeros
    if kernBase + L.physTop * pgSize > devSpace then panic "PHYSTOP too high"
    else if ← mapKernel pgdir L.kmap then return some pgdir
    else
      freevm L pgdir
      return none

def allocLoop (pgdir oldsz newsz : Nat) : (n a : Nat) → PhysM Nat
  | 0, a => if a < newsz then stop .loops else return newsz
  | n + 1, a =>
    if a < newsz then do
      match ← kalloc with
      | none =>
        let _ ← deallocuvm L pgdir newsz oldsz
        return 0
      | some pg =>
        setPage pg zeros
        if ← mappages pgdir a pgSize (pg * pgSize) permWU then
          allocLoop pgdir oldsz newsz n ((a + pgSize) % 2 ^ 32)
        else
          let _ ← deallocuvm L pgdir newsz oldsz
          kfree L pg
          return 0
    else return newsz

/-- Allocate page tables and physical memory to grow process from oldsz to newsz, which need not be
page aligned. Returns new size or 0 on error. -/
def allocuvm (pgdir oldsz newsz : Nat) : PhysM Nat :=
  if newsz ≥ kernBase then return 0
  else if newsz < oldsz then return oldsz
  else allocLoop L pgdir oldsz newsz (pages (pgRoundUp oldsz) newsz) (pgRoundUp oldsz)

/-- Grow current process's memory by n bytes: the new `curproc->sz` if it returns 0, and nothing if
it returns -1. -/
def growproc (pgdir sz : Nat) (n : Int32) : PhysM (Option Nat) :=
  let newsz := (sz + n.toUInt32.toNat) % 2 ^ 32
  if n > 0 then do
    let sz ← allocuvm L pgdir sz newsz
    return if sz = 0 then none else some sz
  else if n < 0 then do
    let sz ← deallocuvm L pgdir sz newsz
    return if sz = 0 then none else some sz
  else return some sz

def clearpteu (pgdir uva : Nat) : PhysM Unit := do
  match ← walkpgdir pgdir uva false with
  | none => panic "clearpteu"
  | some (pgtab, i) =>
    let pte ← getWord pgtab i
    setWord pgtab i (clearU pte)

/-- Map user virtual address to kernel address. The source does not check that there is a page
table. -/
def uva2ka (pgdir uva : Nat) : PhysM (Option Nat) := do
  match ← walkpgdir pgdir uva false with
  | none => stop .nullEntry
  | some (pgtab, i) =>
    let pte ← getWord pgtab i
    if pteP pte = false then return none
    else if pteU pte = false then return none
    else
      let v ← p2v (pteAddr pte)
      return some v

/-- The loop of `copyout`; `n` is at least the number of bytes left, and `buf` what they are. -/
def copyoutLoop (pgdir : Nat) : (n va : Nat) → (buf : List UInt8) → PhysM Bool
  | 0, _, _ => return true
  | n + 1, va, buf =>
    if buf.length > 0 then do
      let va0 := pgRoundDown va
      match ← uva2ka pgdir va0 with
      | none => return false
      | some pa0 =>
        let m := min (pgSize - (va - va0)) buf.length
        let bs ← getPage pa0
        setPage pa0 (writeBytes bs (va - va0) (buf.take m))
        copyoutLoop pgdir n ((va0 + pgSize) % 2 ^ 32) (buf.drop m)
    else return true

/-- Copy the bytes of `buf` to user address va in page table pgdir. -/
def copyout (pgdir va : Nat) (buf : List UInt8) : PhysM Bool :=
  copyoutLoop pgdir buf.length va buf

end Xv6.Vm
