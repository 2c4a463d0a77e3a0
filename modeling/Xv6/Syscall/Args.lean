import Xv6.Lib.Bytes

/-!
# Arguments of a system call

`fetchint`, `argint` and `argptr` of `syscall.c`, and the stores of a system call: the memory
afterwards is what the list of the stores leaves.
-/

namespace Xv6.Syscall

open Bytes

abbrev Memory := UInt32 → UInt8

def Memory.seen (mem : Memory) (base : UInt32) : Bytes := fun k => mem (base + UInt32.ofNat k)

/-- The calling process: its size, its saved stack pointer and its memory. -/
structure User where
  sz : UInt32
  esp : UInt32
  mem : Memory

namespace User

variable (u : User)

def fetchint (addr : UInt32) : Option Int32 :=
  if addr ≥ u.sz ∨ addr + 4 > u.sz then none
  else some (Int32.ofNat (get32 (u.mem.seen addr) 0))

def argint (n : UInt32) : Option Int32 := u.fetchint (u.esp + 4 + 4 * n)

/-- Fetch the nth word-sized system call argument as a pointer to a block of memory of size bytes.
Check that the pointer lies within the process address space. -/
def argptr (n : UInt32) (size : Int32) : Option UInt32 :=
  match u.argint n with
  | none => none
  | some i =>
    if size < 0 ∨ i.toUInt32 ≥ u.sz ∨ i.toUInt32 + size.toUInt32 > u.sz then none
    else some i.toUInt32

end User

abbrev Store := UInt32 × List UInt8

def Memory.store (mem : Memory) (w : Store) : Memory :=
  fun a => if (a - w.1).toNat < w.2.length then w.2.getD (a - w.1).toNat 0 else mem a

def Memory.storeAll (mem : Memory) (ws : List Store) : Memory := ws.foldl Memory.store mem

variable {mem : Memory} {array : UInt32} {k k' : Nat} {bs : List UInt8}

theorem toNat_offset_sub (array : UInt32) (hk : k < 2 ^ 32) (hk' : k' < 2 ^ 32) :
    (array + UInt32.ofNat k' - (array + UInt32.ofNat k)).toNat =
      if k ≤ k' then k' - k else 2 ^ 32 + k' - k := by
  have harray := array.toNat_lt
  rw [UInt32.toNat_sub, UInt32.toNat_add, UInt32.toNat_add, UInt32.toNat_ofNat',
    UInt32.toNat_ofNat', Nat.mod_eq_of_lt hk, Nat.mod_eq_of_lt hk']
  split <;> omega

theorem seen_store (hk : k + bs.length ≤ 2 ^ 31) (hk' : k' < 2 ^ 31) :
    (mem.store (array + UInt32.ofNat k, bs)).seen array k' =
      writeBytes (mem.seen array) k bs k' := by
  have hdist : (array + UInt32.ofNat k' - (array + UInt32.ofNat k)).toNat = _ :=
    toNat_offset_sub array (by omega) (by omega)
  simp only [Memory.seen, Memory.store, hdist]
  by_cases hle : k ≤ k'
  · rw [if_pos hle]
    by_cases hlt : k' < k + bs.length
    · rw [if_pos (by omega), writeBytes_of_mem hle hlt]
    · rw [if_neg (by omega), writeBytes_of_not_mem (by omega)]
      rfl
  · rw [if_neg hle, if_neg (by omega), writeBytes_of_not_mem (by omega)]
    rfl

end Xv6.Syscall
