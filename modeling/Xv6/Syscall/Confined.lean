import Xv6.Syscall.Args
import Xv6.Vm.Defs

/-!
# System call arguments stay in the process

`fetchstr` and `argstr` of `syscall.c`, and the addresses that are loaded from. The checks are sums
of 32-bit numbers that the caller chooses: they do not wrap because the process ends below
`KERNBASE`, and an `int` size is less than 2^31 when it is not negative.
-/

namespace Xv6.Syscall

open Bytes
open Vm (kernBase)

namespace User

variable (u : User)

/-- Fetch the nul-terminated string at addr from the current process: the pointer to it, and its
length, not including nul. -/
def fetchstr (addr : UInt32) : Option (UInt32 × Nat) :=
  if addr ≥ u.sz then none
  else
    -- for(s = *pp; s < ep; s++) if(*s == 0) return s - *pp;
    ((List.range (u.sz - addr).toNat).find? fun k => u.mem (addr + UInt32.ofNat k) = 0).map
      (addr, ·)

def argstr (n : UInt32) : Option (UInt32 × Nat) :=
  match u.argint n with
  | none => none
  | some addr => u.fetchstr addr.toUInt32

def addresses (p : UInt32) (n : Nat) : List UInt32 := (List.range n).map (p + UInt32.ofNat ·)

def fetchintLoads (addr : UInt32) : List UInt32 :=
  if addr ≥ u.sz ∨ addr + 4 > u.sz then [] else addresses addr 4

/-- The loads of `argint`; `argptr` makes no others. -/
def argintLoads (n : UInt32) : List UInt32 := u.fetchintLoads (u.esp + 4 + 4 * n)

/-- The loads of `fetchstr`: up to the NUL, or to the end of the process. -/
def fetchstrLoads (addr : UInt32) : List UInt32 :=
  if addr ≥ u.sz then []
  else match u.fetchstr addr with
    | some (_, len) => addresses addr (len + 1)
    | none => addresses addr (u.sz - addr).toNat

def argstrLoads (n : UInt32) : List UInt32 :=
  u.argintLoads n ++ match u.argint n with
    | none => []
    | some addr => u.fetchstrLoads addr.toUInt32

/-- The `n` bytes from `p` on lie in the process, and the range does not wrap around. -/
def Has (p : UInt32) (n : Nat) : Prop := p.toNat + n ≤ u.sz.toNat

/-- The string at `p` lies in the process with its NUL, which is the first one, `len` bytes on. -/
structure HasString (p : UInt32) (len : Nat) : Prop where
  inside : u.Has p (len + 1)
  nul : u.mem (p + UInt32.ofNat len) = 0
  first : ∀ k < len, u.mem (p + UInt32.ofNat k) ≠ 0

variable {u} {p addr : UInt32} {n : Nat}

theorem Has.addresses_lt (h : u.Has p n) : ∀ a ∈ addresses p n, a < u.sz := by
  intro a ha
  obtain ⟨k, hk, rfl⟩ := List.mem_map.mp ha
  have hk := List.mem_range.mp hk
  have hsz := u.sz.toNat_lt
  rw [Has] at h
  rw [UInt32.lt_iff_toNat_lt, UInt32.toNat_add, UInt32.toNat_ofNat']
  omega

variable (hsz : u.sz.toNat < kernBase)

include hsz

/-- A range that passes the two comparisons lies in the process. -/
theorem check_iff {size : UInt32} (hsize : size.toNat < 2 ^ 31) :
    ¬(p ≥ u.sz ∨ p + size > u.sz) ↔ p < u.sz ∧ u.Has p size.toNat := by
  rw [kernBase] at hsz
  rw [Has, ge_iff_le, gt_iff_lt, not_or, UInt32.not_le, UInt32.not_lt, UInt32.le_iff_toNat_le,
    UInt32.lt_iff_toNat_lt, UInt32.toNat_add]
  omega

theorem check_int_iff : ¬(addr ≥ u.sz ∨ addr + 4 > u.sz) ↔ u.Has addr 4 := by
  rw [check_iff hsz (by decide), UInt32.lt_iff_toNat_lt]
  change _ ∧ u.Has addr 4 ↔ _
  rw [Has]
  omega

theorem fetchint_iff {v : Int32} :
    u.fetchint addr = some v ↔
      u.Has addr 4 ∧ v = Int32.ofNat (get32 (u.mem.seen addr) 0) := by
  rw [fetchint, ← check_int_iff hsz]
  split <;> simp_all [eq_comm]

theorem fetchintLoads_lt (addr : UInt32) : ∀ a ∈ u.fetchintLoads addr, a < u.sz := by
  rw [fetchintLoads]
  split
  · simp
  · next h => exact ((check_int_iff hsz).mp h).addresses_lt

/-- `argptr` hands out exactly the ranges that lie in the process, if they are not empty. -/
theorem argptr_iff {n : UInt32} {size : Int32} :
    u.argptr n size = some p ↔ u.argint n = some p.toInt32 ∧ 0 ≤ size.toInt ∧ p < u.sz ∧
      u.Has p size.toInt.toNat := by
  have hiff (i : Int32) : i.toUInt32 = p ↔ i = p.toInt32 :=
    ⟨fun h => by rw [← h]; rfl, fun h => by rw [h]; rfl⟩
  rw [argptr]
  cases harg : u.argint n with
  | none => simp
  | some i =>
    dsimp only
    rw [Option.some.injEq, ← hiff]
    by_cases hneg : size < 0
    · have hlt : size.toInt < 0 := by simpa [Int32.lt_iff_toInt_lt] using hneg
      rw [if_pos (Or.inl hneg)]
      simp only [reduceCtorEq, false_iff]
      omega
    · have hge : 0 ≤ size.toInt := by simpa [Int32.lt_iff_toInt_lt] using hneg
      obtain ⟨hbits, -, hmax⟩ := toNat_toUInt32 size
      rw [if_pos hge] at hbits
      have hlt : size.toUInt32.toNat < 2 ^ 31 := by omega
      rw [show size.toInt.toNat = size.toUInt32.toNat by omega]
      by_cases hcheck : i.toUInt32 ≥ u.sz ∨ i.toUInt32 + size.toUInt32 > u.sz
      · rw [if_pos (Or.inr hcheck)]
        simp only [reduceCtorEq, false_iff]
        rintro ⟨rfl, -, hin⟩
        exact (check_iff hsz hlt).mpr hin hcheck
      · rw [if_neg (not_or.mpr ⟨hneg, hcheck⟩), Option.some.injEq]
        refine ⟨?_, And.left⟩
        rintro rfl
        exact ⟨rfl, hge, (check_iff hsz hlt).mp hcheck⟩

omit hsz

theorem toNat_sub_addr (h : ¬addr ≥ u.sz) : addr.toNat + (u.sz - addr).toNat = u.sz.toNat := by
  have hle := UInt32.le_of_lt (UInt32.not_le.mp h)
  rw [UInt32.toNat_sub_of_le _ _ hle]
  exact Nat.add_sub_cancel' (UInt32.le_iff_toNat_le.mp hle)

/-- `fetchstr` finds exactly the strings that end in the process. -/
theorem fetchstr_iff {len : Nat} :
    u.fetchstr addr = some (p, len) ↔ p = addr ∧ u.HasString addr len := by
  have hof (h : u.HasString addr len) : addr.toNat + (len + 1) ≤ u.sz.toNat := h.inside
  rw [fetchstr]
  split
  · next hge =>
    rw [ge_iff_le, UInt32.le_iff_toNat_le] at hge
    simp only [reduceCtorEq, false_iff]
    rintro ⟨-, h⟩
    have := hof h
    omega
  · next hlt =>
    have hsub := toNat_sub_addr hlt
    simp only [Option.map_eq_some_iff, List.find?_range_eq_some, Prod.mk.injEq]
    constructor
    · rintro ⟨k, ⟨hnul, hk, hfirst⟩, rfl, rfl⟩
      have hk := List.mem_range.mp hk
      exact ⟨rfl, by rw [Has]; omega, by simpa using hnul, by simpa using hfirst⟩
    · rintro ⟨rfl, h⟩
      have hinside := hof h
      exact ⟨len, ⟨by simpa using h.nul, List.mem_range.mpr (by omega), by simpa using h.first⟩,
        rfl, rfl⟩

theorem fetchstrLoads_lt (addr : UInt32) : ∀ a ∈ u.fetchstrLoads addr, a < u.sz := by
  rw [fetchstrLoads]
  split
  · simp
  · next hlt =>
    split
    · next len heq => exact (fetchstr_iff.mp heq).2.inside.addresses_lt
    · have hsub := toNat_sub_addr hlt
      exact Has.addresses_lt (by rw [Has]; omega)

end User

/-- Every address that is loaded lies in the process, whatever the arguments are. A word, a range or
a string that is handed out lies in the process, and it is refused only if it does not; of the
ranges, an empty one is refused also at the end of the process. -/
theorem pointers_confined (u : User) (hsz : u.sz.toNat < kernBase) :
    (∀ addr, (∀ a ∈ u.fetchintLoads addr, a < u.sz) ∧ ∀ v, u.fetchint addr = some v ↔
      u.Has addr 4 ∧ v = Int32.ofNat (get32 (u.mem.seen addr) 0)) ∧
    (∀ n, (∀ a ∈ u.argintLoads n, a < u.sz) ∧ ∀ v, u.argint n = some v ↔
      u.Has (u.esp + 4 + 4 * n) 4 ∧
        v = Int32.ofNat (get32 (u.mem.seen (u.esp + 4 + 4 * n)) 0)) ∧
    (∀ n size p, u.argptr n size = some p ↔
      u.argint n = some p.toInt32 ∧ 0 ≤ size.toInt ∧ p < u.sz ∧ u.Has p size.toInt.toNat) ∧
    (∀ addr, (∀ a ∈ u.fetchstrLoads addr, a < u.sz) ∧ ∀ p len,
      u.fetchstr addr = some (p, len) ↔ p = addr ∧ u.HasString addr len) ∧
    ∀ n, (∀ a ∈ u.argstrLoads n, a < u.sz) ∧ ∀ p len, u.argstr n = some (p, len) ↔
      u.argint n = some p.toInt32 ∧ u.HasString p len := by
  refine ⟨fun addr => ⟨User.fetchintLoads_lt hsz addr, fun v => User.fetchint_iff hsz⟩,
    fun n => ⟨User.fetchintLoads_lt hsz _, fun v => User.fetchint_iff hsz⟩,
    fun n size p => User.argptr_iff hsz,
    fun addr => ⟨User.fetchstrLoads_lt addr, fun p len => User.fetchstr_iff⟩,
    fun n => ⟨fun a ha => ?_, fun p len => ?_⟩⟩
  · rcases List.mem_append.mp ha with ha | ha
    · exact User.fetchintLoads_lt hsz _ a ha
    · split at ha
      · cases ha
      · exact User.fetchstrLoads_lt _ a ha
  · rw [User.argstr]
    cases u.argint n with
    | none => simp
    | some i =>
      dsimp only
      rw [User.fetchstr_iff, Option.some.injEq]
      constructor
      · rintro ⟨rfl, h⟩
        exact ⟨rfl, h⟩
      · rintro ⟨rfl, h⟩
        exact ⟨rfl, h⟩

/-- A process of one page with `esp` near the end of the address space: the address of the argument
wraps to 0, where the word 8 points to the string "hi". -/
def wrapped : User :=
  ⟨4096, 0xfffffffc, fun a => if a = 0 then 8 else if a = 8 then 104 else if a = 9 then 105 else 0⟩

theorem pointers_confined_wrapped :
    wrapped.sz.toNat < kernBase ∧ wrapped.argint 0 = some 8 ∧ wrapped.HasString 8 2 ∧
      wrapped.argstr 0 = some (8, 2) := by
  have hsz : wrapped.sz.toNat < kernBase := by decide
  have harg : wrapped.argint 0 = some 8 := by decide
  have hstring : wrapped.HasString 8 2 := ⟨by unfold User.Has; decide, by decide, by decide⟩
  exact ⟨hsz, harg, hstring,
    (((pointers_confined wrapped hsz).2.2.2.2 0).2 8 2).mpr ⟨harg, hstring⟩⟩

end Xv6.Syscall
