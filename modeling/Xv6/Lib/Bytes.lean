import Mathlib.Data.List.Range
import Mathlib.Tactic.Ring

/-!
# Byte memories and little-endian fields

A memory is a total function from offsets to bytes, with fields in little-endian order. The lemmas
say what a read sees after a write to the same range or to a disjoint one.
-/

abbrev Bytes := Nat → UInt8

namespace Bytes

def readBytes (m : Bytes) (o n : Nat) : List UInt8 :=
  (List.range n).map fun i => m (o + i)

def writeBytes (m : Bytes) (o : Nat) (bs : List UInt8) : Bytes :=
  fun i => if o ≤ i ∧ i < o + bs.length then bs.getD (i - o) 0 else m i

@[simp] theorem length_readBytes (m : Bytes) (o n : Nat) : (readBytes m o n).length = n := by
  simp [readBytes]

theorem readBytes_getElem (m : Bytes) (o n i : Nat) (h : i < (readBytes m o n).length) :
    (readBytes m o n)[i] = m (o + i) := by
  simp [readBytes]

variable {m : Bytes} {o : Nat} {bs : List UInt8}

theorem writeBytes_of_mem {i : Nat}
    (h₁ : o ≤ i) (h₂ : i < o + bs.length) : writeBytes m o bs i = bs.getD (i - o) 0 :=
  if_pos ⟨h₁, h₂⟩

theorem writeBytes_of_not_mem {i : Nat}
    (h : i < o ∨ o + bs.length ≤ i) : writeBytes m o bs i = m i :=
  if_neg (by omega)

@[simp] theorem writeBytes_nil (m : Bytes) (o : Nat) : writeBytes m o [] = m := by
  funext i
  exact writeBytes_of_not_mem (by simp only [List.length_nil]; omega)

variable {m' : Bytes}

theorem readBytes_congr {n : Nat} (h : ∀ i, i < n → m (o + i) = m' (o + i)) :
    readBytes m o n = readBytes m' o n := by
  unfold readBytes
  exact List.map_congr_left fun i hi => h i (List.mem_range.mp hi)

theorem readBytes_writeBytes (m : Bytes) (o : Nat) (bs : List UInt8) :
    readBytes (writeBytes m o bs) o bs.length = bs := by
  apply List.ext_getElem (by simp)
  intro i h₁ h₂
  rw [readBytes_getElem, writeBytes_of_mem (by omega) (by omega)]
  simp [h₂]

theorem readBytes_add (m : Bytes) (o n n' : Nat) :
    readBytes m o (n + n') = readBytes m o n ++ readBytes m (o + n) n' := by
  simp only [readBytes, List.range_add, List.map_append, List.map_map, Function.comp_def,
    Nat.add_assoc]

theorem writeBytes_append (m : Bytes) (o : Nat) (bs bs' : List UInt8) :
    writeBytes (writeBytes m o bs) (o + bs.length) bs' = writeBytes m o (bs ++ bs') := by
  funext i
  by_cases h : o + bs.length ≤ i ∧ i < o + bs.length + bs'.length
  · rw [writeBytes_of_mem h.1 h.2, writeBytes_of_mem (by omega)
      (by rw [List.length_append]; omega), List.getD_eq_getElem?_getD, List.getD_eq_getElem?_getD,
      List.getElem?_append_right (by omega), Nat.sub_sub]
  · rw [writeBytes_of_not_mem (by omega)]
    by_cases h' : o ≤ i ∧ i < o + bs.length
    · rw [writeBytes_of_mem h'.1 h'.2, writeBytes_of_mem h'.1
        (by rw [List.length_append]; omega), List.getD_eq_getElem?_getD,
        List.getD_eq_getElem?_getD, List.getElem?_append_left (by omega)]
    · rw [writeBytes_of_not_mem (by omega), writeBytes_of_not_mem
        (by rw [List.length_append]; omega)]

def le16 (v : Nat) : List UInt8 :=
  [UInt8.ofNat v, UInt8.ofNat (v / 256)]

def le32 (v : Nat) : List UInt8 :=
  [UInt8.ofNat v, UInt8.ofNat (v / 2 ^ 8), UInt8.ofNat (v / 2 ^ 16), UInt8.ofNat (v / 2 ^ 24)]

def get16 (m : Bytes) (o : Nat) : Nat :=
  (m o).toNat + 256 * (m (o + 1)).toNat

def get32 (m : Bytes) (o : Nat) : Nat :=
  (m o).toNat + 2 ^ 8 * (m (o + 1)).toNat + 2 ^ 16 * (m (o + 2)).toNat +
    2 ^ 24 * (m (o + 3)).toNat

def put32 (m : Bytes) (o v : Nat) : Bytes := writeBytes m o (le32 v)

@[simp] theorem length_le16 (v : Nat) : (le16 v).length = 2 := rfl

@[simp] theorem length_le32 (v : Nat) : (le32 v).length = 4 := rfl

theorem get16_lt (m : Bytes) (o : Nat) : get16 m o < 2 ^ 16 := by
  have h₀ := (m o).toNat_lt
  have h₁ := (m (o + 1)).toNat_lt
  unfold get16
  omega

theorem get32_lt (m : Bytes) (o : Nat) : get32 m o < 2 ^ 32 := by
  have h₀ := (m o).toNat_lt
  have h₁ := (m (o + 1)).toNat_lt
  have h₂ := (m (o + 2)).toNat_lt
  have h₃ := (m (o + 3)).toNat_lt
  unfold get32
  omega

theorem get16_congr (h : ∀ i, o ≤ i → i < o + 2 → m i = m' i) : get16 m o = get16 m' o := by
  unfold get16
  rw [h o (by omega) (by omega), h (o + 1) (by omega) (by omega)]

theorem get32_congr (h : ∀ i, o ≤ i → i < o + 4 → m i = m' i) : get32 m o = get32 m' o := by
  unfold get32
  rw [h o (by omega) (by omega), h (o + 1) (by omega) (by omega), h (o + 2) (by omega) (by omega),
    h (o + 3) (by omega) (by omega)]

theorem get32_put32 (m : Bytes) (o v : Nat) : get32 (put32 m o v) o = v % 2 ^ 32 := by
  unfold get32 put32
  rw [writeBytes_of_mem (by omega) (by simp), writeBytes_of_mem (by omega) (by simp),
    writeBytes_of_mem (by omega) (by simp), writeBytes_of_mem (by omega) (by simp)]
  simp [le32]
  omega

theorem get32_writeBytes_of_disjoint {o' : Nat}
    (h : o' + 4 ≤ o ∨ o + bs.length ≤ o') : get32 (writeBytes m o bs) o' = get32 m o' :=
  get32_congr fun i h₁ h₂ => writeBytes_of_not_mem (by omega)

theorem toNat_toUInt32 (n : Int32) : (n.toUInt32.toNat : Int) =
    (if 0 ≤ n.toInt then n.toInt else n.toInt + 2 ^ 32) ∧ -2 ^ 31 ≤ n.toInt ∧ n.toInt < 2 ^ 31 := by
  have hint : n.toInt = n.toBitVec.toInt := rfl
  have hnat : n.toUInt32.toNat = n.toBitVec.toNat := rfl
  have hlt := n.toBitVec.isLt
  rw [hint, hnat, BitVec.toInt_eq_toNat_cond]
  split <;> split <;> omega

end Bytes
