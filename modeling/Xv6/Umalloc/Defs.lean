import Mathlib.Algebra.Ring.Nat
import Xv6.Lib.Transition

/-!
# The user heap

`umalloc.c`, over byte addresses. A header is the pair of what `ptr` and `size` hold at its address.
The user memory lies below `KERNBASE`, so that sums of addresses and sizes do not wrap; the number
of bytes that is asked for is any 32-bit number.

`sbrk` grants memory right behind the memory that the process has or further up, when something else
has called `sbrk` in between; it may fail. The loops count down, and have no result when they do not
end within their count. The program may write into the blocks that it has.
-/

namespace Xv6.Umalloc

open Function (update)

def headerSize : Nat := 8

def kernBase : Nat := 2 ^ 31

structure Heap where
  ptr : Nat → Nat
  size : Nat → Nat
  /-- 0 is the null pointer -/
  freep : Nat
  /-- the size of the process -/
  sz : Nat
  /-- the bytes that `sbrk` has granted -/
  granted : Nat

def nunits (nbytes : Nat) : Nat := (nbytes + headerSize - 1) % 2 ^ 32 / headerSize + 1

section

variable (h : Heap)

def findPlace (bp : Nat) : (fuel p : Nat) → Option Nat
  | 0, _ => none
  | fuel + 1, p =>
    if bp > p ∧ bp < h.ptr p then some p
    else if p ≥ h.ptr p ∧ (bp > p ∨ bp < h.ptr p) then some p
    else findPlace bp fuel (h.ptr p)

def joinUpper (bp p : Nat) : Heap :=
  if bp + h.size bp * headerSize = h.ptr p then
    { h with
      size := update h.size bp (h.size bp + h.size (h.ptr p))
      ptr := update h.ptr bp (h.ptr (h.ptr p)) }
  else { h with ptr := update h.ptr bp (h.ptr p) }

def joinLower (bp p : Nat) : Heap :=
  if p + h.size p * headerSize = bp then
    { h with
      size := update h.size p (h.size p + h.size bp)
      ptr := update h.ptr p (h.ptr bp) }
  else { h with ptr := update h.ptr p bp }

def free (fuel bp : Nat) : Option Heap :=
  (findPlace h bp fuel h.freep).map fun p =>
    { joinLower (joinUpper h bp p) bp p with freep := p }

/-- `sbrk`, which grants memory behind a gap or fails -/
def sbrk (n : Nat) (gap : Option Nat) : Option (Nat × Heap) :=
  gap.bind fun g =>
    if h.sz + g + n < kernBase then
      some (h.sz + g, { h with sz := h.sz + g + n, granted := h.granted + n })
    else none

def morecore (fuel nu : Nat) (gap : Option Nat) : Option (Heap × Option Nat) :=
  let nu := if nu < 4096 then 4096 else nu
  match sbrk h (nu * headerSize % 2 ^ 32) gap with
  | none => some (h, none)
  | some (hp, h') =>
    (free { h' with size := update h'.size hp nu } fuel hp).map fun h => (h, some h.freep)

/-- `malloc` takes `n` units from the block `p`, which is behind `prevp`; the result is the header
of the block. -/
def take (n prevp p : Nat) : Heap × Nat :=
  if h.size p = n then ({ h with ptr := update h.ptr prevp (h.ptr p), freep := prevp }, p)
  else
    let q := p + (h.size p - n) * headerSize
    ({ h with
      size := update (update h.size p (h.size p - n)) q n
      freep := prevp }, q)

end

/-- The loop of `malloc`. Each call of `sbrk` takes the next gap; without one it fails. -/
def mallocLoop (n : Nat) : (fuel : Nat) → Heap → (prevp p : Nat) → List (Option Nat) →
    Option (Heap × Option Nat)
  | 0, _, _, _, _ => none
  | fuel + 1, h, prevp, p, gaps =>
    if h.size p ≥ n then
      let x := take h n prevp p
      some (x.1, some x.2)
    else if p = h.freep then
      (morecore h fuel n (gaps.headD none)).bind fun y =>
        match y.2 with
        | none => some (y.1, none)
        | some p => mallocLoop n fuel y.1 p (y.1.ptr p) gaps.tail
    else mallocLoop n fuel h p (h.ptr p) gaps

def malloc (base fuel nbytes : Nat) (gaps : List (Option Nat)) (h : Heap) :
    Option (Heap × Option Nat) :=
  let h :=
    if h.freep = 0 then
      { h with
        ptr := update h.ptr base base, size := update h.size base 0
        freep := base }
    else h
  mallocLoop (nunits nbytes) fuel h h.freep (h.ptr h.freep) gaps

structure Live where
  addr : Nat
  nbytes : Nat
  deriving DecidableEq

structure State where
  heap : Heap
  live : List Live

inductive Action
  | malloc (nbytes : Nat) (gaps : List (Option Nat))
  | free (addr : Nat)
  /-- a write into a block that could be read as a header at `addr` -/
  | write (addr ptr size : Nat)

/-- The program asks for at most `2^30` bytes, frees blocks that it has, and writes into their
bytes. -/
def Allowed (s : State) : Action → Prop
  | .malloc nbytes _ => nbytes ≤ 2 ^ 30
  | .free addr => ∃ b ∈ s.live, b.addr = addr
  | .write addr _ _ => ∃ b ∈ s.live, b.addr + headerSize ≤ addr ∧
      addr + headerSize ≤ b.addr + s.heap.size b.addr * headerSize

instance (s : State) (a : Action) : Decidable (Allowed s a) := by
  cases a <;> unfold Allowed <;> infer_instance

def step (base fuel : Nat) (s : State) (a : Action) : Option State :=
  if Allowed s a then
    match a with
    | .malloc nbytes gaps => (malloc base fuel nbytes gaps s.heap).map fun x =>
        ⟨x.1, match x.2 with
          | none => s.live
          | some p => ⟨p, nbytes⟩ :: s.live⟩
    | .free addr => (free s.heap fuel addr).map fun h =>
        ⟨h, s.live.eraseP fun b => b.addr = addr⟩
    | .write addr ptr size => some { s with
        heap := { s.heap with
          ptr := update s.heap.ptr addr ptr
          size := update s.heap.size addr size } }
  else none

end Xv6.Umalloc
