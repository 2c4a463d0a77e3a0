import Xv6.Lib.Ownership
import Xv6.Fs.Layout

/-!
# Block pointers and file contents

Which blocks and which bytes the 141 block pointers of a dinode stand for, and that both are
unchanged by anything that leaves its blocks alone.
-/

namespace Xv6.Fs

open Bytes Ownership

variable (sb : Superblock)

/-- The pointers of a dinode: `addrs`, then the entries of the indirect block. -/
def ptr (disk : Disk) (d : Dinode) (k : Nat) : Nat :=
  if k ≤ ndirect then d.addr k
  else if k ≤ maxFile ∧ d.addr ndirect ≠ 0 then entry (disk (d.addr ndirect)) (k - (ndirect + 1))
  else 0

/-- The index of the pointer to data block `bn`. -/
def slotOf (bn : Nat) : Nat := if bn < ndirect then bn else bn + 1

/-- The address of data block `bn`, `0` if there is none. -/
def blk (disk : Disk) (d : Dinode) (bn : Nat) : Nat := ptr disk d (slotOf bn)

/-- The pointers of all allocated inodes, by inode number and index. -/
def owner (disk : Disk) (table : Nat → Dinode) (x : Nat × Nat) : Nat :=
  if x.1 < sb.ninodes ∧ (table x.1).type ≠ 0 then ptr disk (table x.1) x.2 else 0

def byteAt (disk : Disk) (d : Dinode) (o : Nat) : UInt8 :=
  disk (blk disk d (o / bsize)) (o % bsize)

def content (disk : Disk) (d : Dinode) : List UInt8 :=
  (List.range d.size.toNat).map (byteAt disk d)

def HoleFree (disk : Disk) (d : Dinode) : Prop :=
  ∀ bn, bn * bsize < d.size.toNat → bn < maxFile ∧ blk disk d bn ≠ 0

/-- The free map agrees with the pointers in the given inode table. -/
def OwnedBy (disk : Disk) (table : Nat → Dinode) : Prop :=
  Owned sb.nmeta sb.size (owner sb disk table) (bit sb disk)

/-- The bit of a block is set exactly when the block is metadata or an allocated inode points
to it, no block is pointed to twice, and no allocated inode has a hole. -/
structure DiskOk (disk : Disk) : Prop where
  owned : OwnedBy sb disk (dinode sb disk)
  holes : ∀ i, i < sb.ninodes → (dinode sb disk i).type ≠ 0 → HoleFree disk (dinode sb disk i)

variable {sb} {disk disk' : Disk} {d d' : Dinode} {table : Nat → Dinode}

@[simp] theorem length_content (disk : Disk) (d : Dinode) :
    (content disk d).length = d.size.toNat := by
  simp [content]

variable {o : Nat}

theorem getElem_content (h : o < (content disk d).length) :
    (content disk d)[o] = byteAt disk d o := by
  simp [content]

theorem slotOf_ne_ndirect (bn : Nat) : slotOf bn ≠ ndirect := by
  rw [slotOf]
  split <;> omega

variable {b : Nat}

theorem slotOf_inj {c : Nat} (h : slotOf b = slotOf c) : b = c := by
  rw [slotOf, slotOf] at h
  split at h <;> split at h <;> omega

theorem ptr_ndirect (disk : Disk) (d : Dinode) : ptr disk d ndirect = d.addr ndirect :=
  if_pos (Nat.le_refl _)

variable {k : Nat}

theorem ptr_of_gt (h : maxFile < k) : ptr disk d k = 0 := by
  have hk : ¬ k ≤ ndirect := by
    simp only [maxFile, ndirect, nindirect, bsize] at h ⊢
    omega
  rw [ptr, if_neg hk, if_neg (by omega)]

theorem Dinode.addr_setAddr_self (d : Dinode) (hk : k ≤ ndirect) (hb : b < 2 ^ 32) :
    (d.setAddr k b).addr k = b := by
  rw [Dinode.addr, dif_pos (by omega)]
  simpa [Dinode.setAddr] using hb

theorem Dinode.addr_setAddr_of_ne (d : Dinode) {j : Nat} (hjk : j ≠ k) :
    (d.setAddr k b).addr j = d.addr j := by
  rw [Dinode.addr, Dinode.addr]
  split
  · simp [Dinode.setAddr, hjk]
  · rfl

theorem ptr_congr_addr (h : ∀ k, d'.addr k = d.addr k) (k : Nat) :
    ptr disk d' k = ptr disk d k := by
  simp only [ptr, h]

/-- The blocks that `d` points to are the same on both disks. -/
def Untouched (disk disk' : Disk) (d : Dinode) : Prop :=
  ∀ k, ptr disk d k ≠ 0 → disk' (ptr disk d k) = disk (ptr disk d k)

theorem Untouched.ptr_eq (h : Untouched disk disk' d) (k : Nat) : ptr disk' d k = ptr disk d k := by
  simp only [ptr]
  split
  · rfl
  · split
    · next hind =>
      have := h ndirect (by rw [ptr_ndirect]; exact hind.2)
      rw [ptr_ndirect] at this
      rw [this]
    · rfl

theorem Untouched.blk_eq (h : Untouched disk disk' d) (bn : Nat) : blk disk' d bn = blk disk d bn :=
  h.ptr_eq _

theorem Untouched.byteAt_eq (h : Untouched disk disk' d)
    (ho : blk disk d (o / bsize) ≠ 0) : byteAt disk' d o = byteAt disk d o := by
  rw [byteAt, byteAt, h.blk_eq, blk, h _ ho]

theorem HoleFree.blk_ne_zero (h : HoleFree disk d) (ho : o < d.size.toNat) :
    blk disk d (o / bsize) ≠ 0 :=
  (h (o / bsize) (lt_of_le_of_lt (Nat.div_mul_le_self o bsize) ho)).2

theorem Untouched.content_eq (h : Untouched disk disk' d) (hh : HoleFree disk d) :
    content disk' d = content disk d :=
  List.map_congr_left fun _ ho => h.byteAt_eq (hh.blk_ne_zero (List.mem_range.mp ho))

theorem Untouched.holeFree (h : Untouched disk disk' d) (hh : HoleFree disk d) :
    HoleFree disk' d := by
  intro bn hbn
  rw [h.blk_eq]
  exact hh bn hbn

theorem HoleFree.size_le (h : HoleFree disk d) : d.size.toNat ≤ maxFile * bsize := by
  by_contra hlt
  have := (h maxFile (by omega)).1
  omega

theorem owner_of_alloc (disk : Disk) (table : Nat → Dinode) {i : Nat} (hi : i < sb.ninodes) (ht : (table i).type ≠ 0) (k : Nat) :
    owner sb disk table (i, k) = ptr disk (table i) k :=
  if_pos ⟨hi, ht⟩

theorem OwnedBy.untouched (h : OwnedBy sb disk table) {i : Nat} (hi : i < sb.ninodes)
    (ht : (table i).type ≠ 0) (hsame : ∀ b, sb.nmeta ≤ b → b < sb.size → bit sb disk b = true →
      (∃ k, owner sb disk table (i, k) = b) → disk' b = disk b) :
    Untouched disk disk' (table i) := by
  intro k hk
  have hown := owner_of_alloc disk table hi ht k
  rw [← hown] at hk ⊢
  obtain ⟨hlo, hhi⟩ := h.range _ hk
  exact hsame _ hlo hhi (h.bit_own hk) ⟨k, rfl⟩

theorem owner_congr {table' : Nat → Dinode} {x : Nat × Nat}
    (htype : (table' x.1).type = (table x.1).type) (hptr : x.1 < sb.ninodes → (table x.1).type ≠ 0 →
      ptr disk' (table' x.1) x.2 = ptr disk (table x.1) x.2) :
    owner sb disk' table' x = owner sb disk table x := by
  simp only [owner, htype]
  split
  · next hc => exact hptr hc.1 hc.2
  · rfl

theorem OwnedBy.owner_eq_of_data (h : OwnedBy sb disk table)
    (hsame : ∀ b, sb.nmeta ≤ b → disk' b = disk b) (x : Nat × Nat) :
    owner sb disk' table x = owner sb disk table x := by
  refine owner_congr rfl fun hi ht => ?_
  exact (h.untouched hi ht fun b hlo _ _ _ => hsame b hlo).ptr_eq _

end Xv6.Fs
