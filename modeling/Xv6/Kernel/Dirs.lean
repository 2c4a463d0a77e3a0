import Xv6.Kernel.Names
import Xv6.Kernel.Ops

namespace Xv6.Kernel

open Fs Bytes

/-- The bytes of an entry; `inum` is stored in an `ushort`. -/
def direntBytes (name : Name) (inum : Nat) : Nat → UInt8 :=
  fun i => (Dirent.toBytes ⟨inum % 2 ^ 16, strncpy name⟩).getD i 0

def entryAt (data : List UInt8) (j : Nat) : Dirent :=
  Dirent.ofBytes ((data.drop (direntSize * j)).take direntSize)

def entryCount (data : List UInt8) : Nat := data.length / direntSize

/-- The first entry from `j` on that satisfies `q`. -/
def search (q : Dirent → Bool) (data : List UInt8) (j : Nat) : Option Nat :=
  findFrom (fun i => q (entryAt data i)) j (entryCount data - j)

def lookup (data : List UInt8) (name : Name) : Option Nat :=
  search (fun de => de.inum ≠ 0 && namecmp name de.name) data 0

/-- The entry that `dirlink` writes. -/
def emptySlot (data : List UInt8) : Nat :=
  (search (fun de => de.inum = 0) data 0).getD ((data.length + (direntSize - 1)) / direntSize)

namespace Node

def setEntry (n : Node) (j : Nat) (src : Nat → UInt8) : Node :=
  { n with data := overwrite n.data (direntSize * j) src direntSize }

def linkIn (n : Node) (name : Name) (inum : Nat) : Node :=
  n.setEntry (emptySlot n.data) (direntBytes name inum)

def clearEntry (n : Node) (j : Nat) : Node := n.setEntry j fun _ => 0

end Node

variable {data : List UInt8} {j k : Nat} {src : Nat → UInt8} {q : Dirent → Bool}

theorem search_eq_some : search q data j = some k ↔ q (entryAt data k) = true ∧ j ≤ k ∧
    k < entryCount data ∧ ∀ i, j ≤ i → i < k → q (entryAt data i) = false := by
  rw [search, findFrom_eq_some]
  constructor
  · rintro ⟨hq, hjk, hk, hfirst⟩
    exact ⟨hq, hjk, by omega, hfirst⟩
  · rintro ⟨hq, hjk, hk, hfirst⟩
    exact ⟨hq, hjk, by omega, hfirst⟩

theorem search_eq_none : search q data j = none ↔
    ∀ i, j ≤ i → i < entryCount data → q (entryAt data i) = false := by
  rw [search, findFrom_eq_none]
  exact ⟨fun h i h₁ h₂ => h i h₁ (by omega), fun h i h₁ h₂ => h i h₁ (by omega)⟩

theorem lookup_eq_some {name : Name} : lookup data name = some k ↔
    ((entryAt data k).inum ≠ 0 ∧ namecmp name (entryAt data k).name = true) ∧
    k < entryCount data ∧
    ∀ i, i < k → (entryAt data i).inum ≠ 0 → namecmp name (entryAt data i).name = false := by
  simp [lookup, search_eq_some]

theorem lookup_eq_none {name : Name} : lookup data name = none ↔
    ∀ i, i < entryCount data → (entryAt data i).inum ≠ 0 →
      namecmp name (entryAt data i).name = false := by
  simp [lookup, search_eq_none]

theorem getD_overwrite (c : List UInt8) (off : Nat) (src : Nat → UInt8) (n o : Nat) :
    (overwrite c off src n).getD o 0 =
      if off ≤ o ∧ o < off + n then src (o - off) else c.getD o 0 := by
  by_cases ho : o < max c.length (off + n)
  · rw [List.getD_eq_getElem _ _ (by simpa using ho)]
    simp [overwrite]
  · rw [List.getD_eq_default _ _ (by simpa using ho), if_neg (by omega),
      List.getD_eq_default _ _ (by omega)]

theorem take_drop_eq {c : List UInt8} {o n : Nat} (h : o + n ≤ c.length) :
    (c.drop o).take n = (List.range n).map fun i => c.getD (o + i) 0 := by
  refine List.ext_getElem (by simp; omega) fun i h₁ h₂ => ?_
  have hi : i < n := by simpa using h₂
  simp only [List.getElem_take, List.getElem_drop, List.getElem_map, List.getElem_range]
  rw [List.getD_eq_getElem _ _ (by omega)]

theorem lt_entryCount : k < entryCount data ↔ direntSize * k + direntSize ≤ data.length := by
  simp only [entryCount, direntSize]
  omega

/-- Entries that lie in the directory depend on their bytes only. -/
theorem entryAt_eq (h : k < entryCount data) : entryAt data k =
    Dirent.ofBytes ((List.range direntSize).map fun i => data.getD (direntSize * k + i) 0) := by
  rw [entryAt, take_drop_eq (lt_entryCount.mp h)]

variable {n : Node}

theorem entryCount_setEntry (hj : direntSize * j ≤ n.data.length) :
    entryCount (n.setEntry j src).data = max (entryCount n.data) (j + 1) := by
  simp only [entryCount, Node.setEntry, length_overwrite, direntSize] at hj ⊢
  omega

theorem entryAt_setEntry_self (hj : direntSize * j ≤ n.data.length) :
    entryAt (n.setEntry j src).data j = Dirent.ofBytes ((List.range direntSize).map src) := by
  rw [entryAt_eq (by rw [entryCount_setEntry hj]; omega)]
  congr 1
  refine List.map_congr_left fun i hi => ?_
  have hi : i < direntSize := List.mem_range.mp hi
  rw [Node.setEntry, getD_overwrite, if_pos ⟨by omega, by omega⟩, Nat.add_sub_cancel_left]

theorem entryAt_setEntry_of_ne (hj : direntSize * j ≤ n.data.length) (hkj : k ≠ j)
    (hk : k < entryCount (n.setEntry j src).data) :
    k < entryCount n.data ∧ entryAt (n.setEntry j src).data k = entryAt n.data k := by
  have hk' : k < entryCount n.data := by
    rw [entryCount_setEntry hj] at hk
    simp only [entryCount, direntSize] at hk hj ⊢
    omega
  refine ⟨hk', ?_⟩
  rw [entryAt_eq hk, entryAt_eq hk']
  congr 1
  refine List.map_congr_left fun i hi => ?_
  have hi : i < direntSize := List.mem_range.mp hi
  rw [Node.setEntry, getD_overwrite, if_neg ?_]
  simp only [direntSize] at hi ⊢
  omega

theorem ofBytes_direntBytes (name : Name) (inum : Nat) :
    Dirent.ofBytes ((List.range direntSize).map (direntBytes name inum)) =
      ⟨inum % 2 ^ 16, strncpy name⟩ := by
  have hlen : (Dirent.toBytes ⟨inum % 2 ^ 16, strncpy name⟩).length = direntSize := by
    rw [Dirent.toBytes, List.length_append, length_le16, length_strncpy]
    rfl
  have hmap : (List.range direntSize).map (direntBytes name inum) =
      Dirent.toBytes ⟨inum % 2 ^ 16, strncpy name⟩ := by
    refine List.ext_getElem (by rw [hlen, List.length_map, List.length_range]) fun i h₁ h₂ => ?_
    simp only [List.getElem_map, List.getElem_range, direntBytes]
    rw [List.getD_eq_getElem _ _ h₂]
  rw [hmap, Dirent.ofBytes_toBytes (Nat.mod_lt _ (by norm_num))]

theorem ofBytes_zeros :
    Dirent.ofBytes ((List.range direntSize).map fun _ => 0) = ⟨0, List.replicate dirSiz 0⟩ := by
  decide

theorem emptySlot_le (data : List UInt8) :
    emptySlot data ≤ (data.length + (direntSize - 1)) / direntSize := by
  rw [emptySlot]
  cases hs : search (fun de => decide (de.inum = 0)) data 0 with
  | none => exact Nat.le_refl _
  | some i =>
    have := (search_eq_some.mp hs).2.2.1
    simp only [Option.getD_some, entryCount, direntSize] at this ⊢
    omega

theorem emptySlot_mul_le (h : direntSize ∣ data.length) :
    direntSize * emptySlot data ≤ data.length := by
  have := emptySlot_le data
  simp only [direntSize] at h this ⊢
  omega

theorem emptySlot_le_length (data : List UInt8) :
    direntSize * emptySlot data ≤ data.length + direntSize := by
  have := emptySlot_le data
  simp only [direntSize] at this ⊢
  omega

theorem emptySlot_free (h : emptySlot data < entryCount data) :
    (entryAt data (emptySlot data)).inum = 0 := by
  rw [emptySlot] at h ⊢
  cases hs : search (fun de => decide (de.inum = 0)) data 0 with
  | some j =>
    rw [Option.getD_some]
    simpa using (search_eq_some.mp hs).1
  | none =>
    rw [hs, Option.getD_none] at h
    simp only [entryCount, direntSize] at h
    omega

end Xv6.Kernel
