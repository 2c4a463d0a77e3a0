import Xv6.Syscall.Args

/-!
# Moving and filling memory

`memmove` of the kernel (`string.c`) copies from the end when the destination begins inside the
source. That of the user library (`ulib.c`) always copies from the beginning: if its destination
begins `d` bytes into the source then it repeats the first `d` bytes. The kernel's `memset` fills
words when the address and the size are multiples of four.
-/

namespace Xv6.Strings

open Function (update update_self update_of_ne)
open Syscall (Memory)
open UInt32 (ofNat_toNat toNat_ofNat' ofNat_add toNat_sub toNat_add lt_iff_toNat_lt toNat_inj)

def copyUp : (n : Nat) → (d s : UInt32) → Memory → Memory
  | 0, _, _, mem => mem
  | n + 1, d, s, mem => copyUp n (d + 1) (s + 1) (update mem d (mem s))

def copyDown : (n : Nat) → (d s : UInt32) → Memory → Memory
  | 0, _, _, mem => mem
  | n + 1, d, s, mem => copyDown n (d - 1) (s - 1) (update mem (d - 1) (mem (s - 1)))

/-- `memmove` of `string.c` -/
def Kernel.memmove (mem : Memory) (dst src n : UInt32) : Memory :=
  if src < dst ∧ src + n > dst then copyDown n.toNat (dst + n) (src + n) mem
  else copyUp n.toNat dst src mem

/-- `memmove` of `ulib.c` -/
def Ulib.memmove (mem : Memory) (vdst vsrc : UInt32) (n : Int32) : Memory :=
  copyUp n.toInt.toNat vdst vsrc mem

/-- The memory with `n` bytes from `dst` on taken from `mem`, at the places that `f` gives for the
offsets. -/
def moved (mem : Memory) (dst src : UInt32) (f : Nat → Nat) (n : Nat) : Memory :=
  fun a => if (a - dst).toNat < n then mem (src + UInt32.ofNat (f (a - dst).toNat)) else mem a

variable {mem : Memory} {dst src : UInt32} {f : Nat → Nat} {n : Nat}

theorem toNat_sub_eq_iff {a : UInt32} (hn : n < 2 ^ 32) :
    (a - dst).toNat = n ↔ a = dst + UInt32.ofNat n := by
  constructor
  · rintro rfl
    rw [ofNat_toNat, UInt32.add_comm, UInt32.sub_add_cancel]
  · rintro rfl
    rw [UInt32.add_comm, UInt32.add_sub_cancel, toNat_ofNat', Nat.mod_eq_of_lt hn]

theorem moved_succ (hn : n < 2 ^ 32) : moved mem dst src f (n + 1) =
    update (moved mem dst src f n) (dst + UInt32.ofNat n) (mem (src + UInt32.ofNat (f n))) := by
  funext a
  by_cases ha : a = dst + UInt32.ofNat n
  · rw [ha, update_self, moved, (toNat_sub_eq_iff hn).mpr rfl, if_pos (Nat.lt_succ_self n)]
  · have hne : (a - dst).toNat ≠ n := fun h => ha ((toNat_sub_eq_iff hn).mp h)
    rw [update_of_ne ha, moved, moved]
    exact if_congr (by omega) rfl rfl

theorem copyUp_succ (n : Nat) (dst src : UInt32) (mem : Memory) :
    copyUp (n + 1) dst src mem = update (copyUp n dst src mem) (dst + UInt32.ofNat n)
      (copyUp n dst src mem (src + UInt32.ofNat n)) := by
  induction n generalizing dst src mem with
  | zero => simp [copyUp]
  | succ n ih =>
    have hone (p : UInt32) : p + 1 + UInt32.ofNat n = p + UInt32.ofNat (n + 1) := by
      rw [ofNat_add, UInt32.add_assoc, UInt32.add_comm 1]
      rfl
    rw [copyUp, ih, hone, hone, ← copyUp]

/-- Copying up gives the bytes that `f` says if each round finds its byte: `f` says where a byte
comes from that has been overwritten before it is read. -/
theorem copyUp_eq (hn : n ≤ 2 ^ 32) (hf : ∀ k < n, moved mem dst src f k (src + UInt32.ofNat k) =
    mem (src + UInt32.ofNat (f k))) : copyUp n dst src mem = moved mem dst src f n := by
  induction n with
  | zero => rfl
  | succ n ih =>
    rw [copyUp_succ, ih (by omega) fun k hk => hf k (by omega), hf n (by omega),
      ← moved_succ (by omega)]

theorem toNat_source_sub {k : Nat} (hsrc : src.toNat + k < 2 ^ 32) :
    (src + UInt32.ofNat k - dst).toNat =
      if dst.toNat ≤ src.toNat + k then src.toNat + k - dst.toNat
      else 2 ^ 32 + src.toNat + k - dst.toNat := by
  have hdst := dst.toNat_lt
  rw [toNat_sub, toNat_add, toNat_ofNat']
  split <;> omega

theorem copyUp_eq_moved (hsrc : src.toNat + n ≤ 2 ^ 32)
    (hout : dst.toNat ≤ src.toNat ∨ src.toNat + n ≤ dst.toNat) :
    copyUp n dst src mem = moved mem dst src id n := by
  refine copyUp_eq (by omega) fun k hk => ?_
  have hdst := dst.toNat_lt
  rw [moved, toNat_source_sub (by omega), if_neg (by split <;> omega), id]

/-- If the destination begins `d` bytes into the source then the first `d` bytes are repeated. -/
theorem copyUp_eq_repeated (hsrc : src.toNat + n ≤ 2 ^ 32) (hlt : src.toNat < dst.toNat) :
    copyUp n dst src mem = moved mem dst src (· % (dst.toNat - src.toNat)) n := by
  refine copyUp_eq (by omega) fun k hk => ?_
  have hdst := dst.toNat_lt
  rw [moved, toNat_source_sub (by omega)]
  by_cases hle : dst.toNat ≤ src.toNat + k
  · rw [if_pos hle, if_pos (by omega), Nat.mod_eq_sub_mod (by omega : dst.toNat - src.toNat ≤ k)]
    congr 4
    omega
  · rw [if_neg hle, if_neg (by omega), Nat.mod_eq_of_lt (by omega)]

theorem copyDown_eq_moved (hdst : dst.toNat + n ≤ 2 ^ 32) (hlt : src.toNat < dst.toNat) :
    copyDown n (dst + UInt32.ofNat n) (src + UInt32.ofNat n) mem = moved mem dst src id n := by
  induction n generalizing mem with
  | zero => rfl
  | succ n ih =>
    have hone (p : UInt32) : p + UInt32.ofNat (n + 1) - 1 = p + UInt32.ofNat n := by
      rw [ofNat_add, ← UInt32.add_assoc]
      exact UInt32.add_sub_cancel _ _
    rw [copyDown, hone, hone, ih (by omega), moved_succ (by omega)]
    funext a
    by_cases ha : a = dst + UInt32.ofNat n
    · rw [ha, update_self, moved, (toNat_sub_eq_iff (by omega)).mpr rfl, if_neg (by omega),
        update_self, id]
    · rw [update_of_ne ha, moved, moved, update_of_ne ha]
      by_cases hk : (a - dst).toNat < n
      · rw [if_pos hk, if_pos hk, update_of_ne]
        intro heq
        have hnat := congrArg UInt32.toNat heq
        rw [toNat_add, toNat_add, toNat_ofNat', toNat_ofNat', id]
          at hnat
        omega
      · rw [if_neg hk, if_neg hk]

/-- The kernel's `memmove` moves memory also when the ranges overlap. -/
theorem Kernel.memmove_eq {n : UInt32} (hdst : dst.toNat + n.toNat ≤ 2 ^ 32)
    (hsrc : src.toNat + n.toNat ≤ 2 ^ 32) :
    Kernel.memmove mem dst src n = moved mem dst src id n.toNat := by
  rw [Kernel.memmove]
  split
  · next h =>
    have hdown : copyDown _ _ _ mem = _ :=
      copyDown_eq_moved hdst (lt_iff_toNat_lt.mp h.1)
    rwa [ofNat_toNat] at hdown
  · next h =>
    rw [lt_iff_toNat_lt, gt_iff_lt, lt_iff_toNat_lt, toNat_add] at h
    exact copyUp_eq_moved hsrc (by omega)

theorem moved_eq_moved_iff (hn : n ≤ 2 ^ 32) : moved mem dst src f n = moved mem dst src id n ↔
    ∀ k < n, mem (src + UInt32.ofNat k) = mem (src + UInt32.ofNat (f k)) := by
  constructor
  · intro h k hk
    have hat := congrFun h (dst + UInt32.ofNat k)
    rw [moved, moved, (toNat_sub_eq_iff (by omega)).mpr rfl, if_pos hk, if_pos hk] at hat
    exact hat.symm
  · intro h
    funext a
    rw [moved, moved]
    split
    · next hk => exact (h _ hk).symm
    · rfl

/-- The two functions leave the same memory, with the original `src[0..n)` in `dst[0..n)`. -/
def MemmovesAgree (mem : Memory) (dst src : UInt32) (n : Int32) : Prop :=
  Ulib.memmove mem dst src n = Kernel.memmove mem dst src n.toUInt32 ∧
    Kernel.memmove mem dst src n.toUInt32 = moved mem dst src id n.toInt.toNat

/-- The library's `memmove` is right unless the destination begins inside the source, and then only
if the source repeats its first bytes up to there. -/
theorem memmovesAgree_iff (mem : Memory) (dst src : UInt32) (n : Int32) (hn : 0 ≤ n.toInt)
    (hdst : dst.toNat + n.toInt.toNat ≤ 2 ^ 32) (hsrc : src.toNat + n.toInt.toNat ≤ 2 ^ 32) :
    MemmovesAgree mem dst src n ↔ (src < dst → ∀ k < n.toInt.toNat,
      mem (src + UInt32.ofNat k) = mem (src + UInt32.ofNat (k % (dst.toNat - src.toNat)))) := by
  obtain ⟨hbits, -, -⟩ := Bytes.toNat_toUInt32 n
  rw [if_pos hn] at hbits
  have hnat : n.toUInt32.toNat = n.toInt.toNat := by omega
  have hkernel : Kernel.memmove mem dst src n.toUInt32 = _ :=
    Kernel.memmove_eq (hnat ▸ hdst) (hnat ▸ hsrc)
  rw [hnat] at hkernel
  rw [MemmovesAgree, hkernel, and_iff_left rfl, Ulib.memmove]
  by_cases hlt : src < dst
  · rw [copyUp_eq_repeated hsrc (lt_iff_toNat_lt.mp hlt), moved_eq_moved_iff (by omega)]
    exact ⟨fun h _ => h, fun h => h hlt⟩
  · rw [lt_iff_toNat_lt] at hlt
    rw [copyUp_eq_moved hsrc (by omega)]
    exact ⟨fun _ h => absurd (lt_iff_toNat_lt.mp h) hlt, fun _ => rfl⟩

/-- Moving two bytes down by one. -/
theorem memmovesAgree_down : MemmovesAgree (fun a => a.toUInt8) 0 1 2 :=
  (memmovesAgree_iff _ _ _ _ (by decide) (by decide) (by decide)).mpr fun h =>
    absurd h (by decide)

/-- Moving two different bytes up by one. -/
theorem memmovesAgree_fails : ¬MemmovesAgree (fun a => a.toUInt8) 1 0 2 := by
  rintro ⟨hsame, -⟩
  have hat := congrFun hsame 2
  revert hat
  decide

/-- `rep stosb`: `cnt` times the low byte of `data`. -/
def stosb : (cnt : Nat) → (addr : UInt32) → (data : Int32) → Memory → Memory
  | 0, _, _, mem => mem
  | cnt + 1, addr, data, mem => stosb cnt (addr + 1) data (update mem addr data.toUInt32.toUInt8)

/-- A store of four bytes. -/
def store32 (mem : Memory) (addr data : UInt32) : Memory :=
  update (update (update (update mem addr data.toUInt8) (addr + 1) (data >>> 8).toUInt8)
    (addr + 2) (data >>> 16).toUInt8) (addr + 3) (data >>> 24).toUInt8

/-- `rep stosl` -/
def stosl : (cnt : Nat) → (addr : UInt32) → (data : Int32) → Memory → Memory
  | 0, _, _, mem => mem
  | cnt + 1, addr, data, mem => stosl cnt (addr + 4) data (store32 mem addr data.toUInt32)

/-- `memset` of `string.c` -/
def Kernel.memset (mem : Memory) (dst : UInt32) (c : Int32) (n : UInt32) : Memory :=
  if dst.toInt32 % 4 = 0 ∧ n % 4 = 0 then
    let c := c &&& 0xFF
    stosl (n / 4).toNat dst (c <<< 24 ||| c <<< 16 ||| c <<< 8 ||| c) mem
  else stosb n.toNat dst c mem

theorem replicated_bytes (b : Fin 256) :
    let c := Int32.ofNat b
    let w := (c <<< 24 ||| c <<< 16 ||| c <<< 8 ||| c).toUInt32
    w.toUInt8 = UInt8.ofNat b ∧ (w >>> 8).toUInt8 = UInt8.ofNat b ∧
      (w >>> 16).toUInt8 = UInt8.ofNat b ∧ (w >>> 24).toUInt8 = UInt8.ofNat b := by
  revert b
  decide +kernel

/-- The word path is the byte path if the four bytes of the word are the byte. -/
theorem stosl_eq_stosb {cnt : Nat} {addr : UInt32} {w c : Int32}
    (hw : ∀ mem addr, store32 mem addr w.toUInt32 = stosb 4 addr c mem) :
    stosl cnt addr w mem = stosb (4 * cnt) addr c mem := by
  induction cnt generalizing addr mem with
  | zero => rfl
  | succ cnt ih =>
    have hfour : addr + 1 + 1 + 1 + 1 = addr + 4 := by simp only [UInt32.add_assoc]; rfl
    rw [stosl, hw, ih, Nat.mul_succ]
    simp only [stosb, hfour]

theorem stosb_eq {cnt : Nat} {addr : UInt32} {c : Int32} (hcnt : cnt ≤ 2 ^ 32) :
    stosb cnt addr c mem =
      fun a => if (a - addr).toNat < cnt then c.toUInt32.toUInt8 else mem a := by
  induction cnt generalizing addr mem with
  | zero => rfl
  | succ cnt ih =>
    rw [stosb, ih (by omega)]
    funext a
    by_cases ha : a = addr
    · rw [ha, update_self, ite_self, UInt32.sub_self]
      exact (if_pos (Nat.succ_pos cnt)).symm
    · have hne : a.toNat ≠ addr.toNat := fun e => ha (toNat_inj.mp e)
      have ha' := a.toNat_lt
      have haddr := addr.toNat_lt
      rw [update_of_ne ha, toNat_sub, toNat_sub, toNat_add]
      refine if_congr ?_ rfl rfl
      simp only [UInt32.toNat_one]
      omega

theorem low_byte (c : Int32) : c &&& 0xFF = Int32.ofNat (c.toUInt32.toNat % 256) := by
  have hbits : c.toUInt32 &&& 0xFF = UInt32.ofNat (c.toUInt32.toNat % 256) := by
    refine toNat_inj.mp ?_
    rw [UInt32.toNat_and, toNat_ofNat']
    exact (Nat.and_two_pow_sub_one_eq_mod _ 8).trans (Nat.mod_eq_of_lt (by omega)).symm
  exact congrArg UInt32.toInt32 hbits

/-- **Both paths of `memset` set `dst[0..n)` to the low byte of `c`, and nothing else.** -/
theorem Kernel.memset_eq (mem : Memory) (dst : UInt32) (c : Int32) (n : UInt32) :
    Kernel.memset mem dst c n =
      fun a => if (a - dst).toNat < n.toNat then c.toUInt32.toUInt8 else mem a := by
  rw [← stosb_eq n.toNat_lt.le, Kernel.memset]
  split
  · next h =>
    have hfour : n.toNat = 4 * (n / 4).toNat := by
      have hmod := congrArg UInt32.toNat h.2
      rw [UInt32.toNat_mod] at hmod
      rw [UInt32.toNat_div]
      exact (Nat.mul_div_cancel' (Nat.dvd_of_mod_eq_zero hmod)).symm
    rw [hfour]
    refine stosl_eq_stosb fun mem addr => ?_
    obtain ⟨h₀, h₁, h₂, h₃⟩ := replicated_bytes ⟨c.toUInt32.toNat % 256, Nat.mod_lt _ (by decide)⟩
    have hbyte : UInt8.ofNat (c.toUInt32.toNat % 256) = c.toUInt32.toUInt8 := by
      refine UInt8.toNat_inj.mp ?_
      rw [UInt8.toNat_ofNat', UInt32.toNat_toUInt8]
      exact Nat.mod_mod _ _
    rw [store32, low_byte, h₀, h₁, h₂, h₃, hbyte]
    simp only [stosb, UInt32.add_assoc]
    rfl
  · rfl

end Xv6.Strings
