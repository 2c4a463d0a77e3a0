import Mathlib.Logic.Function.Basic
import Xv6.Lib.Bytes
import Xv6.Param

/-!
# The on-disk format

The layout of `fs.h`: where the super block puts inodes and the free map, and how `struct dinode`,
`struct dirent`, the free map and an indirect block lie in the bytes of a block.
-/

namespace Xv6.Fs

open Bytes
open Function (update update_self update_of_ne update_idem)

abbrev Disk := Nat → Bytes

structure Superblock where
  /-- Size of file system image (blocks) -/
  size : Nat
  /-- Number of data blocks -/
  nblocks : Nat
  /-- Number of inodes. -/
  ninodes : Nat
  /-- Number of log blocks -/
  nlog : Nat
  /-- Block number of first log block -/
  logstart : Nat
  /-- Block number of first inode block -/
  inodestart : Nat
  /-- Block number of first free map block -/
  bmapstart : Nat
  deriving DecidableEq

def readsb (disk : Disk) : Superblock where
  size := get32 (disk 1) 0
  nblocks := get32 (disk 1) 4
  ninodes := get32 (disk 1) 8
  nlog := get32 (disk 1) 12
  logstart := get32 (disk 1) 16
  inodestart := get32 (disk 1) 20
  bmapstart := get32 (disk 1) 24

variable (sb : Superblock)

/-- The number of blocks before the data blocks. -/
def Superblock.nmeta : Nat := sb.size - sb.nblocks

def iblock (i : Nat) : Nat := i / ipb + sb.inodestart

def bblock (b : Nat) : Nat := b / bpb + sb.bmapstart

/-- The inodes lie before the free map, and the free map before the data blocks. -/
structure Geometry : Prop where
  size_lt : sb.size < 2 ^ 32
  inodes : ∀ i, i < sb.ninodes → iblock sb i < sb.bmapstart
  bitmap : ∀ b, b < sb.size → bblock sb b < sb.nmeta
  nmeta_pos : 0 < sb.nmeta

/-- `struct dinode`, and the part of `struct inode` that is its copy. -/
@[ext] structure Dinode where
  /-- File type -/
  type : Int16
  /-- Major device number (T_DEV only) -/
  major : Int16
  /-- Minor device number (T_DEV only) -/
  minor : Int16
  /-- Number of links to inode in file system -/
  nlink : Int16
  /-- Size of file (bytes) -/
  size : UInt32
  /-- Data block addresses -/
  addrs : Fin (ndirect + 1) → UInt32

def Dinode.zero : Dinode := ⟨0, 0, 0, 0, 0, fun _ => 0⟩

/-- `addrs[k]` as a block number, `0` outside the array. -/
def Dinode.addr (d : Dinode) (k : Nat) : Nat :=
  if h : k < ndirect + 1 then (d.addrs ⟨k, h⟩).toNat else 0

def Dinode.setAddr (d : Dinode) (k b : Nat) : Dinode :=
  { d with addrs := fun j => if j.val = k then UInt32.ofNat b else d.addrs j }

def Dinode.short (d : Dinode) : Nat → Int16
  | 0 => d.type
  | 1 => d.major
  | 2 => d.minor
  | _ => d.nlink

/-- Byte `c` of a little-endian number. -/
def byteOf (v c : Nat) : UInt8 := UInt8.ofNat (v / 256 ^ c)

def Dinode.byte (d : Dinode) (j : Nat) : UInt8 :=
  if j < 8 then byteOf (d.short (j / 2)).toUInt16.toNat (j % 2)
  else if j < 12 then byteOf d.size.toNat (j - 8)
  else byteOf (d.addr ((j - 12) / 4)) ((j - 12) % 4)

def getShort (m : Bytes) (o : Nat) : Int16 := (UInt16.ofNat (get16 m o)).toInt16

def getDinode (m : Bytes) (o : Nat) : Dinode where
  type := getShort m o
  major := getShort m (o + 2)
  minor := getShort m (o + 4)
  nlink := getShort m (o + 6)
  size := UInt32.ofNat (get32 m (o + 8))
  addrs k := UInt32.ofNat (get32 m (o + 12 + 4 * k))

def putDinode (m : Bytes) (o : Nat) (d : Dinode) : Bytes :=
  fun i => if o ≤ i ∧ i < o + dinodeSize then d.byte (i - o) else m i

variable {m : Bytes} {o j : Nat}

theorem putDinode_of_mem {d : Dinode} (h : j < dinodeSize) :
    putDinode m o d (o + j) = d.byte j := by
  rw [putDinode, if_pos (by omega), Nat.add_sub_cancel_left]

variable {i : Nat}

theorem putDinode_of_not_mem {d : Dinode}
    (h : i < o ∨ o + dinodeSize ≤ i) : putDinode m o d i = m i :=
  if_neg (by omega)

theorem toNat_byteOf (v c : Nat) : (byteOf v c).toNat = v / 256 ^ c % 256 := by
  rw [byteOf, UInt8.toNat_ofNat']

theorem get16_of_bytes {v : Nat} (hv : v < 2 ^ 16)
    (h : ∀ c, c < 2 → m (o + c) = byteOf v c) : get16 m o = v := by
  have h0 := h 0 (by omega)
  have h1 := h 1 (by omega)
  rw [Nat.add_zero] at h0
  rw [get16, h0, h1, toNat_byteOf, toNat_byteOf]
  omega

theorem get32_of_bytes {v : Nat} (hv : v < 2 ^ 32)
    (h : ∀ c, c < 4 → m (o + c) = byteOf v c) : get32 m o = v := by
  have h0 := h 0 (by omega)
  have h1 := h 1 (by omega)
  have h2 := h 2 (by omega)
  have h3 := h 3 (by omega)
  rw [Nat.add_zero] at h0
  rw [get32, h0, h1, h2, h3, toNat_byteOf, toNat_byteOf, toNat_byteOf, toNat_byteOf]
  omega

theorem getShort_of_bytes {x : Int16}
    (h : ∀ c, c < 2 → m (o + c) = byteOf x.toUInt16.toNat c) : getShort m o = x := by
  rw [getShort, get16_of_bytes x.toUInt16.toNat_lt h, UInt16.ofNat_toNat, Int16.toInt16_toUInt16]

theorem getShort_putDinode (m : Bytes) (o f : Nat) (hf : f < 4) (d : Dinode) :
    getShort (putDinode m o d) (o + 2 * f) = d.short f := by
  refine getShort_of_bytes fun c hc => ?_
  have hidx : (2 * f + c) / 2 = f := by omega
  have hmod : (2 * f + c) % 2 = c := by omega
  rw [Nat.add_assoc, putDinode_of_mem (by simp; omega), Dinode.byte, if_pos (by omega), hidx, hmod]

theorem getDinode_putDinode (m : Bytes) (o : Nat) (d : Dinode) :
    getDinode (putDinode m o d) o = d := by
  have hsize : get32 (putDinode m o d) (o + 8) = d.size.toNat := by
    refine get32_of_bytes d.size.toNat_lt fun c hc => ?_
    rw [Nat.add_assoc, putDinode_of_mem (by simp; omega), Dinode.byte, if_neg (by omega),
      if_pos (by omega)]
    congr 1
    omega
  have haddr : ∀ k : Fin (ndirect + 1),
      get32 (putDinode m o d) (o + 12 + 4 * k) = (d.addrs k).toNat := by
    intro k
    have hk := k.isLt
    simp only [ndirect] at hk
    refine get32_of_bytes (d.addrs k).toNat_lt fun c hc => ?_
    rw [Nat.add_assoc, Nat.add_assoc, putDinode_of_mem (by simp; omega), Dinode.byte,
      if_neg (by omega), if_neg (by omega)]
    have hidx : (12 + (4 * k.val + c) - 12) / 4 = k.val := by omega
    have hmod : (12 + (4 * k.val + c) - 12) % 4 = c := by omega
    rw [hidx, hmod, Dinode.addr, dif_pos k.isLt]
  ext1
  · exact getShort_putDinode m o 0 (by omega) d
  · exact getShort_putDinode m o 1 (by omega) d
  · exact getShort_putDinode m o 2 (by omega) d
  · exact getShort_putDinode m o 3 (by omega) d
  · rw [getDinode, hsize, UInt32.ofNat_toNat]
  · funext k
    change UInt32.ofNat (get32 (putDinode m o d) (o + 12 + 4 * k)) = d.addrs k
    rw [haddr, UInt32.ofNat_toNat]

variable {c : Nat}

theorem byteOf_get16 (m : Bytes) (o : Nat) (hc : c < 2) : byteOf (get16 m o) c = m (o + c) := by
  apply UInt8.toNat_inj.mp
  have h0 := (m o).toNat_lt
  have h1 := (m (o + 1)).toNat_lt
  rw [toNat_byteOf, get16]
  obtain rfl | rfl : c = 0 ∨ c = 1 := by omega
  all_goals simp only [Nat.add_zero, Nat.pow_zero, Nat.pow_one]; omega

theorem byteOf_get32 (m : Bytes) (o : Nat) (hc : c < 4) : byteOf (get32 m o) c = m (o + c) := by
  apply UInt8.toNat_inj.mp
  have h0 := (m o).toNat_lt
  have h1 := (m (o + 1)).toNat_lt
  have h2 := (m (o + 2)).toNat_lt
  have h3 := (m (o + 3)).toNat_lt
  rw [toNat_byteOf, get32]
  obtain rfl | rfl | rfl | rfl : c = 0 ∨ c = 1 ∨ c = 2 ∨ c = 3 := by omega
  all_goals simp only [Nat.add_zero, Nat.pow_zero, Nat.pow_one, Nat.reducePow]; omega

theorem byte_getDinode (m : Bytes) (o : Nat) (hj : j < dinodeSize) :
    (getDinode m o).byte j = m (o + j) := by
  simp only [dinodeSize] at hj
  rw [Dinode.byte]
  by_cases h8 : j < 8
  · have hshort : ((getDinode m o).short (j / 2)).toUInt16.toNat = get16 m (o + 2 * (j / 2)) := by
      have : (getDinode m o).short (j / 2) = getShort m (o + 2 * (j / 2)) := by
        obtain h | h | h | h : j / 2 = 0 ∨ j / 2 = 1 ∨ j / 2 = 2 ∨ j / 2 = 3 := by omega
        all_goals rw [h]; rfl
      rw [this, getShort, UInt16.toUInt16_toInt16, UInt16.toNat_ofNat_of_lt' (get16_lt _ _)]
    rw [if_pos h8, hshort, byteOf_get16 _ _ (by omega)]
    congr 1
    omega
  · by_cases h12 : j < 12
    · have hsize : (getDinode m o).size.toNat = get32 m (o + 8) :=
        UInt32.toNat_ofNat_of_lt' (get32_lt _ _)
      rw [if_neg h8, if_pos h12, hsize, byteOf_get32 _ _ (by omega)]
      congr 1
      omega
    · have haddr : (getDinode m o).addr ((j - 12) / 4) = get32 m (o + 12 + 4 * ((j - 12) / 4)) := by
        rw [Dinode.addr, dif_pos (by simp only [ndirect]; omega)]
        exact UInt32.toNat_ofNat_of_lt' (get32_lt _ _)
      rw [if_neg h8, if_neg h12, haddr, byteOf_get32 _ _ (by omega)]
      congr 1
      omega

theorem getDinode_congr {m' : Bytes}
    (h : ∀ i, o ≤ i → i < o + dinodeSize → m i = m' i) : getDinode m o = getDinode m' o := by
  simp only [dinodeSize] at h
  have hshort : ∀ f, f < 4 → getShort m (o + 2 * f) = getShort m' (o + 2 * f) := by
    intro f hf
    rw [getShort, getShort, get16_congr fun i h₁ h₂ => h i (by omega) (by omega)]
  ext1
  · exact hshort 0 (by omega)
  · exact hshort 1 (by omega)
  · exact hshort 2 (by omega)
  · exact hshort 3 (by omega)
  · exact congrArg UInt32.ofNat (get32_congr fun i h₁ h₂ => h i (by omega) (by omega))
  · funext k
    have hk := k.isLt
    simp only [ndirect] at hk
    exact congrArg UInt32.ofNat (get32_congr fun i h₁ h₂ => h i (by omega) (by omega))

def dinode (disk : Disk) (i : Nat) : Dinode :=
  getDinode (disk (iblock sb i)) (dinodeSize * (i % ipb))

def setDinode (disk : Disk) (i : Nat) (d : Dinode) : Disk :=
  update disk (iblock sb i)
    (putDinode (disk (iblock sb i)) (dinodeSize * (i % ipb)) d)

variable {sb} {disk : Disk}

theorem iblock_eq_iff : iblock sb i = iblock sb j ↔ i / ipb = j / ipb := by
  simp only [iblock]
  omega

@[simp] theorem dinode_setDinode_self (i : Nat) (d : Dinode) :
    dinode sb (setDinode sb disk i d) i = d := by
  rw [dinode, setDinode, update_self, getDinode_putDinode]

theorem dinode_setDinode_of_ne (hij : j ≠ i) (d : Dinode) :
    dinode sb (setDinode sb disk i d) j = dinode sb disk j := by
  rw [dinode, setDinode]
  by_cases hb : iblock sb j = iblock sb i
  · rw [hb, update_self, dinode, hb]
    refine getDinode_congr fun o h₁ h₂ => putDinode_of_not_mem ?_
    have hdiv := iblock_eq_iff.mp hb
    simp only [ipb, bsize, dinodeSize] at hdiv h₁ h₂ ⊢
    omega
  · rw [update_of_ne hb, dinode]

theorem setDinode_dinode (i : Nat) : setDinode sb disk i (dinode sb disk i) = disk := by
  refine Function.update_eq_self_iff.mpr (funext fun k => ?_)
  rw [putDinode]
  split
  · next h =>
    rw [dinode, byte_getDinode _ _ (by omega), Nat.add_sub_cancel' h.1]
  · rfl

theorem setDinode_setDinode (i : Nat) (d d' : Dinode) :
    setDinode sb (setDinode sb disk i d) i d' = setDinode sb disk i d' := by
  simp only [setDinode, update_self, update_idem]
  congr 1
  funext k
  simp only [putDinode]
  split <;> rfl

variable {b : Nat}

theorem dinode_update_of_ge (hg : Geometry sb) (hb : sb.bmapstart ≤ b)
    (hi : i < sb.ninodes) (m : Bytes) : dinode sb (update disk b m) i = dinode sb disk i := by
  have := hg.inodes i hi
  rw [dinode, update_of_ne (by omega), dinode]

variable (sb) in
/-- The bit of block `b` in the free map: `bp->data[bi/8] & (1 << (bi % 8))`. -/
def bit (disk : Disk) (b : Nat) : Bool :=
  (disk (bblock sb b) (b % bpb / 8)).toNat.testBit (b % bpb % 8)

/-- A byte with bit `k` set or cleared. -/
def setBitOf (x : UInt8) (k : Nat) (v : Bool) : UInt8 :=
  if v then UInt8.ofNat (x.toNat ||| 2 ^ k) else UInt8.ofNat (x.toNat &&& (255 ^^^ 2 ^ k))

variable (sb) in
def setBit (disk : Disk) (b : Nat) (v : Bool) : Disk :=
  update disk (bblock sb b)
    (update (disk (bblock sb b)) (b % bpb / 8)
      (setBitOf (disk (bblock sb b) (b % bpb / 8)) (b % bpb % 8) v))

theorem testBit_setBitOf (x : UInt8) {k : Nat} (hj : j < 8) (hk : k < 8) (v : Bool) :
    (setBitOf x k v).toNat.testBit j = if j = k then v else x.toNat.testBit j := by
  have hx : x.toNat < 2 ^ 8 := x.toNat_lt
  have hk' : 2 ^ k < 2 ^ 8 := Nat.pow_lt_pow_right (by omega) hk
  have h255 : Nat.testBit 255 j = true := by
    have : (255 : Nat) = 2 ^ 8 - 1 := rfl
    rw [this, Nat.testBit_two_pow_sub_one]
    exact decide_eq_true hj
  cases v with
  | true =>
    rw [setBitOf, if_pos rfl, UInt8.toNat_ofNat', Nat.mod_eq_of_lt (Nat.or_lt_two_pow hx hk'),
      Nat.testBit_or, Nat.testBit_two_pow]
    by_cases hjk : j = k
    · simp [hjk]
    · simp [hjk, Ne.symm hjk]
  | false =>
    have hlt : x.toNat &&& (255 ^^^ 2 ^ k) < 2 ^ 8 := lt_of_le_of_lt Nat.and_le_left hx
    rw [setBitOf, if_neg (by simp), UInt8.toNat_ofNat', Nat.mod_eq_of_lt hlt, Nat.testBit_and,
      Nat.testBit_xor, Nat.testBit_two_pow, h255]
    by_cases hjk : j = k
    · simp [hjk]
    · simp [hjk, Ne.symm hjk]

theorem bit_setBit (b c : Nat) (v : Bool) :
    bit sb (setBit sb disk b v) c = update (bit sb disk) b v c := by
  rw [bit, setBit]
  by_cases hblk : bblock sb c = bblock sb b
  · rw [hblk, update_self]
    have hdiv : c / bpb = b / bpb := by
      simp only [bblock] at hblk
      omega
    by_cases hbyte : c % bpb / 8 = b % bpb / 8
    · rw [hbyte, update_self, testBit_setBitOf _ (by omega) (by omega)]
      by_cases hcb : c = b
      · simp [hcb]
      · have hbit : c % bpb % 8 ≠ b % bpb % 8 := by
          simp only [bpb, bsize] at hdiv hbyte ⊢
          omega
        rw [if_neg hbit, update_of_ne hcb, bit, hblk, hbyte]
    · have hcb : c ≠ b := fun e => hbyte (by rw [e])
      rw [update_of_ne hbyte, update_of_ne hcb, bit, hblk]
  · have hcb : c ≠ b := fun e => hblk (by rw [e])
    rw [update_of_ne hblk, update_of_ne hcb, bit]

theorem bit_update_of_ge (hg : Geometry sb) (hb : sb.nmeta ≤ b) (hc : c < sb.size)
    (m : Bytes) : bit sb (update disk b m) c = bit sb disk c := by
  have := hg.bitmap c hc
  rw [bit, update_of_ne (by omega), bit]

theorem bit_setDinode (hg : Geometry sb) (hi : i < sb.ninodes) (d : Dinode) :
    bit sb (setDinode sb disk i d) c = bit sb disk c := by
  have := hg.inodes i hi
  have hne : bblock sb c ≠ iblock sb i := by
    simp only [bblock, bpb, bsize]
    omega
  rw [bit, setDinode, update_of_ne hne, bit]

theorem dinode_setBit (hg : Geometry sb) (hi : i < sb.ninodes) (b : Nat) (v : Bool) :
    dinode sb (setBit sb disk b v) i = dinode sb disk i :=
  dinode_update_of_ge hg (Nat.le_add_left _ _) hi _

def entry (m : Bytes) (j : Nat) : Nat := get32 m (4 * j)

def setEntry (m : Bytes) (j b : Nat) : Bytes := put32 m (4 * j) b

theorem entry_setEntry_self (m : Bytes) (j : Nat) (hb : b < 2 ^ 32) :
    entry (setEntry m j b) j = b := by
  rw [entry, setEntry, get32_put32, Nat.mod_eq_of_lt hb]

theorem entry_setEntry_of_ne {k : Nat} (hjk : k ≠ j) (b : Nat) :
    entry (setEntry m j b) k = entry m k := by
  refine get32_writeBytes_of_disjoint ?_
  rw [length_le32]
  omega

structure Dirent where
  inum : Nat
  name : List UInt8
  deriving DecidableEq

def Dirent.ofBytes (bs : List UInt8) : Dirent where
  inum := (bs.getD 0 0).toNat + 256 * (bs.getD 1 0).toNat
  name := bs.drop 2

def Dirent.toBytes (de : Dirent) : List UInt8 := le16 de.inum ++ de.name

theorem Dirent.ofBytes_toBytes {de : Dirent} (h : de.inum < 2 ^ 16) :
    Dirent.ofBytes de.toBytes = de := by
  obtain ⟨inum, name⟩ := de
  have hinum : inum % 256 + 256 * (inum / 256 % 256) = inum := by
    dsimp only at h
    omega
  simpa [Dirent.ofBytes, Dirent.toBytes, le16] using hinum

end Xv6.Fs
