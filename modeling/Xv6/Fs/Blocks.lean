import Mathlib.Data.Finset.Card
import Mathlib.Data.Finset.Filter
import Mathlib.Data.Finset.Range
import Xv6.Fs.Files
import Xv6.Fs.Store

/-!
# The block allocator and the owners of blocks

`log_write`, `balloc`, `bfree` and `bmap`. The free map stays the map of the blocks that inodes
point to, counting the in-memory copy of the inode at hand in place of its dinode.

A specification comes with a budget: either the caller accepts that the kernel stops when the log or
the disk is full, or the budget says how much is left, and then it does not stop.
-/

namespace Xv6.Fs

open Hoare Ownership
open Function (update update_self update_of_ne)

def Limit (e : Stop) : Prop :=
  e = .panic "too big a transaction" ∨ e = .panic "log_write outside of trans" ∨
    e = .panic "balloc: out of blocks" ∨ e = .asleep .log

variable (sb : Superblock)

/-- The number of blocks at which `log_write` panics. -/
def logLimit : Nat := min logSize (sb.nlog - 1)

def freeCount (disk : Disk) : Nat :=
  ((Finset.range sb.size).filter fun b => bit sb disk b = false).card

/-- Limits are accepted, or `n` more blocks fit into the log and `f` blocks are free. -/
def Budget (E : Stop → Prop) (n f : Nat) (s : Store) : Prop :=
  (∀ e, Limit e → E e) ∨
    1 ≤ s.outstanding ∧ s.lh.length + n < logLimit sb ∧ f ≤ freeCount sb s.disk

def Store.new (s : Store) (b : Nat) : Nat := if b ∈ s.lh then 0 else 1

def Store.logged (s : Store) (b : Nat) (data : Bytes) : Store :=
  { s with
    disk := update s.disk b data
    lh := if b ∈ s.lh then s.lh else s.lh ++ [b] }

variable {sb} {E : Stop → Prop} {n f : Nat} {s : Store}

variable {c : Nat}

theorem Store.mem_lh_logged (s : Store) (b : Nat) (data : Bytes) :
    c ∈ (s.logged b data).lh ↔ c ∈ s.lh ∨ c = b := by
  rw [Store.logged]
  by_cases hb : b ∈ s.lh
  · simp only [hb, if_true]
    exact ⟨Or.inl, fun h => h.elim id fun e => e ▸ hb⟩
  · simp [hb]

theorem Store.length_lh_logged (s : Store) (b : Nat) (data : Bytes) :
    (s.logged b data).lh.length = s.lh.length + s.new b := by
  rw [Store.logged, Store.new]
  split <;> simp

theorem Store.new_le_one (s : Store) (b : Nat) : s.new b ≤ 1 := by
  rw [Store.new]
  split <;> omega

theorem Budget.mono {n' f' : Nat} (h : Budget sb E n f s) (hn : n' ≤ n) (hf : f' ≤ f) :
    Budget sb E n' f' s :=
  h.imp_right fun ⟨h1, h2, h3⟩ => ⟨h1, by omega, by omega⟩

variable {b : Nat}

theorem Budget.logged {g : Nat} {data : Bytes} (h : Budget sb E (n + s.new b) f s)
    (hf : f ≤ freeCount sb s.disk → g ≤ freeCount sb (update s.disk b data)) :
    Budget sb E n g (s.logged b data) := by
  refine h.imp_right fun ⟨h1, h2, h3⟩ => ⟨h1, ?_, hf h3⟩
  rw [s.length_lh_logged]
  omega

theorem wp_logWrite {data : Bytes} {Q : Unit → Store → Prop}
    (hb : Budget sb E n f s) (hQ : Q () (s.logged b data)) : wp (logWrite sb b data) Q E s := by
  rw [wp, logWrite]
  by_cases hbig : s.lh.length ≥ logSize ∨ s.lh.length ≥ sb.nlog - 1
  · rw [if_pos hbig]
    rcases hb with hE | ⟨-, hroom, -⟩
    · exact hE _ (Or.inl rfl)
    · rw [logLimit] at hroom
      omega
  · rw [if_neg hbig]
    by_cases hout : s.outstanding < 1
    · rw [if_pos hout]
      rcases hb with hE | ⟨hopen, -⟩
      · exact hE _ (Or.inr (Or.inl rfl))
      · omega
    · rw [if_neg hout]
      exact hQ

theorem wp_getDisk {Q : Disk → Store → Prop} (h : Q s.disk s) : wp getDisk Q E s := h

theorem wp_bread {Q : Bytes → Store → Prop} (h : Q (s.disk b) s) : wp (bread b) Q E s := h

theorem freeCount_congr {disk disk' : Disk} (h : ∀ b, b < sb.size → bit sb disk' b = bit sb disk b) :
    freeCount sb disk' = freeCount sb disk := by
  rw [freeCount, freeCount]
  refine congrArg Finset.card (Finset.filter_congr fun b hb => ?_)
  rw [h b (Finset.mem_range.mp hb)]

theorem freeCount_take {disk : Disk} (disk' : Disk) (hb : b < sb.size)
    (hclear : bit sb disk b = false)
    (h : ∀ c, c < sb.size → bit sb disk' c = update (bit sb disk) b true c) :
    freeCount sb disk' + 1 = freeCount sb disk := by
  have hmem : b ∈ (Finset.range sb.size).filter fun c => bit sb disk c = false := by
    simp [hb, hclear]
  have herase : ((Finset.range sb.size).filter fun c => bit sb disk' c = false) =
      ((Finset.range sb.size).filter fun c => bit sb disk c = false).erase b := by
    ext c
    simp only [Finset.mem_filter, Finset.mem_range, Finset.mem_erase]
    constructor
    · rintro ⟨hc, hbit⟩
      rw [h c hc] at hbit
      have hcb : c ≠ b := fun e => by simp [e] at hbit
      rw [update_of_ne hcb] at hbit
      exact ⟨hcb, hc, hbit⟩
    · rintro ⟨hcb, hc, hbit⟩
      rw [h c hc, update_of_ne hcb]
      exact ⟨hc, hbit⟩
  rw [freeCount, freeCount, herase, Finset.card_erase_add_one hmem]

/-- What `balloc` has done when it returns `b`. -/
structure Balloc (sb : Superblock) (s : Store) (b : Nat) (s' : Store) : Prop where
  lt : b < sb.size
  clear : bit sb s.disk b = false
  disk : s'.disk = update (setBit sb s.disk b true) b zeroBlock
  logged : b ∈ s'.lh
  keeps : ∀ c ∈ s.lh, c ∈ s'.lh
  allocs : s'.allocs = s.allocs

variable {κ : Type} {own : κ → Nat}

/-- Setting the bit of a data block and zeroing it changes no other bit. -/
theorem bit_alloc (hg : Geometry sb) {disk : Disk} (hb : sb.nmeta ≤ b)
    (hc : c < sb.size) : bit sb (update (setBit sb disk b true) b zeroBlock) c =
      update (bit sb disk) b true c := by
  rw [bit_update_of_ge hg hb hc, bit_setBit]

theorem wp_balloc (hg : Geometry sb) (hown : Owned sb.nmeta sb.size own (bit sb s.disk))
    (hb : Budget sb E (n + 2) (f + 1) s) {Q : Nat → Store → Prop}
    (hQ : ∀ b s', Balloc sb s b s' → Budget sb E n f s' → Q b s') : wp (balloc sb) Q E s := by
  rw [balloc]
  refine wp_bind.mpr (wp_getDisk ?_)
  cases hfind : findFrom (fun b => !bit sb s.disk b) 0 sb.size with
  | none =>
    rcases hb with hE | ⟨-, -, hfree⟩
    · exact hE _ (Or.inr (Or.inr (Or.inl rfl)))
    · -- no clear bit was found, so no block is free
      have hnone := findFrom_eq_none.mp hfind
      have hcount : freeCount sb s.disk = 0 := by
        rw [freeCount, Finset.card_eq_zero, Finset.filter_eq_empty_iff]
        intro b hb
        have := hnone b (Nat.zero_le _) (by rw [Nat.zero_add]; exact Finset.mem_range.mp hb)
        simpa using this
      omega
  | some b =>
    obtain ⟨hclear, -, hlt, -⟩ := findFrom_eq_some.mp hfind
    rw [Nat.zero_add] at hlt
    have hclear : bit sb s.disk b = false := by simpa using hclear
    obtain ⟨hlo, -⟩ := hown.free hlt hclear
    have hfc := freeCount_take (update (setBit sb s.disk b true) b zeroBlock) hlt hclear fun c hc => bit_alloc hg hlo hc
    have hfc₁ := freeCount_take (setBit sb s.disk b true) hlt hclear
      fun c _ => bit_setBit b c true
    have hset : update s.disk (bblock sb b) (setBit sb s.disk b true (bblock sb b)) =
        setBit sb s.disk b true := by
      rw [setBit, update_self]
    refine wp_bind.mpr (wp_logWrite hb ?_)
    have hb₁ : Budget sb E (n + 1) f
        (s.logged (bblock sb b) (setBit sb s.disk b true (bblock sb b))) := by
      have hnew := s.new_le_one (bblock sb b)
      refine Budget.logged (hb.mono (by omega) (Nat.le_refl _)) fun hf => ?_
      rw [hset]
      omega
    refine wp_bind.mpr (wp_logWrite hb₁ ?_)
    have hdisk : ((s.logged (bblock sb b) (setBit sb s.disk b true (bblock sb b))).logged b
        zeroBlock).disk = update (setBit sb s.disk b true) b zeroBlock := by
      change update (update s.disk _ _) b zeroBlock = _
      rw [hset]
    refine hQ b _ ⟨hlt, hclear, hdisk, ?_, fun c hc => ?_, rfl⟩ ?_
    · exact (Store.mem_lh_logged _ _ _).mpr (Or.inr rfl)
    · exact (Store.mem_lh_logged _ _ _).mpr (Or.inl ((Store.mem_lh_logged _ _ _).mpr (Or.inl hc)))
    · have hnew := Store.new_le_one
        (s.logged (bblock sb b) (setBit sb s.disk b true (bblock sb b))) b
      refine Budget.logged (hb₁.mono (by omega) (Nat.le_refl _)) fun hf => ?_
      change f ≤ freeCount sb (update (update s.disk _ _) b zeroBlock)
      change f ≤ freeCount sb (update s.disk _ _) at hf
      rw [hset] at hf ⊢
      omega

/-- The pointers agree with the free map if `d` stands for inode `inum`. -/
structure CopyOk (sb : Superblock) (disk : Disk) (inum : Nat) (d : Dinode) : Prop where
  lt : inum < sb.ninodes
  type : d.type ≠ 0
  owned : OwnedBy sb disk (update (dinode sb disk) inum d)

variable {disk disk' : Disk} {inum : Nat} {d d' : Dinode}

theorem CopyOk.owner_self (h : CopyOk sb disk inum d) (k : Nat) :
    owner sb disk (update (dinode sb disk) inum d) (inum, k) = ptr disk d k := by
  have := owner_of_alloc disk (update (dinode sb disk) inum d) h.lt
    (by rw [update_self]; exact h.type) k
  rwa [update_self] at this

variable {i : Nat}

theorem owner_update_other (hi : i < sb.ninodes)
    (ht : (dinode sb disk i).type ≠ 0) (hne : i ≠ inum) (k : Nat) :
    owner sb disk (update (dinode sb disk) inum d) (i, k) =
      ptr disk (dinode sb disk i) k := by
  have := owner_of_alloc disk (update (dinode sb disk) inum d) hi
    (by rwa [update_of_ne hne]) k
  rwa [update_of_ne hne] at this

variable {k : Nat}

variable (h : CopyOk sb disk inum d)

include h

theorem CopyOk.ptr_range (hk : ptr disk d k ≠ 0) :
    sb.nmeta ≤ ptr disk d k ∧ ptr disk d k < sb.size ∧ bit sb disk (ptr disk d k) = true := by
  have hown := h.owner_self k
  rw [← hown] at hk ⊢
  exact ⟨(h.owned.range _ hk).1, (h.owned.range _ hk).2, h.owned.bit_own hk⟩

theorem CopyOk.ptr_inj {j : Nat} (hj : ptr disk d j ≠ 0)
    (hjk : ptr disk d j = ptr disk d k) : j = k := by
  rw [← h.owner_self j] at hj hjk
  rw [← h.owner_self k] at hjk
  simpa using h.owned.inj _ _ hj hjk

variable {bn : Nat}

theorem CopyOk.blk_ne_indirect (hb : blk disk d bn ≠ 0) : blk disk d bn ≠ d.addr ndirect := by
  intro he
  rw [← ptr_ndirect disk d] at he
  exact slotOf_ne_ndirect bn (h.ptr_inj hb he)

/-- Other inodes keep their blocks when only free blocks and the indirect block change. -/
theorem CopyOk.others
    (hsame : ∀ b, sb.nmeta ≤ b → b < sb.size → bit sb disk b = true → b ≠ d.addr ndirect →
      disk' b = disk b) (hi : i < sb.ninodes) (ht : (dinode sb disk i).type ≠ 0) (hne : i ≠ inum) :
    Untouched disk disk' (dinode sb disk i) := by
  have hot := owner_update_other (d := d) hi ht hne
  intro k hk
  rw [← hot] at hk ⊢
  refine hsame _ (h.owned.range _ hk).1 (h.owned.range _ hk).2 (h.owned.bit_own hk) fun he => ?_
  rw [← ptr_ndirect disk d, ← h.owner_self] at he
  have := h.owned.inj _ _ hk he
  rw [Prod.mk.injEq] at this
  exact hne this.1

theorem CopyOk.assign (hk : ptr disk d k = 0)
    (hb : b < sb.size) (hclear : bit sb disk b = false) (htype : d'.type = d.type)
    (htable : ∀ i, i < sb.ninodes → dinode sb disk' i = dinode sb disk i)
    (hbits : ∀ c, c < sb.size → bit sb disk' c = update (bit sb disk) b true c)
    (hsame : ∀ c, sb.nmeta ≤ c → c < sb.size → bit sb disk c = true → c ≠ d.addr ndirect →
      disk' c = disk c) (hptr : ∀ j, ptr disk' d' j = update (ptr disk d) k b j) :
    CopyOk sb disk' inum d' := by
  refine ⟨h.lt, htype ▸ h.type, ?_⟩
  have hassign := h.owned.assign (x := (inum, k)) (by rw [h.owner_self, hk]) hb hclear
  refine hassign.congr ?_ hbits
  rintro ⟨i, j⟩
  by_cases hi : i = inum
  · subst hi
    rw [owner_of_alloc _ _ h.lt (by rw [update_self, htype]; exact h.type),
      update_self, hptr]
    by_cases hjk : j = k
    · rw [hjk, update_self, update_self]
    · rw [update_of_ne hjk, update_of_ne (by simpa using hjk), h.owner_self]
  · rw [update_of_ne (by simp [hi])]
    by_cases hlt : i < sb.ninodes
    · refine owner_congr ?_ fun _ ht => ?_
      · simp only [update_of_ne hi, htable i hlt]
      · simp only [update_of_ne hi, htable i hlt] at ht ⊢
        exact (h.others hsame hlt ht hi).ptr_eq j
    · rw [owner, owner, if_neg (by simp [hlt]), if_neg (by simp [hlt])]

omit h

/-- What `bmap` has done when it returns `addr` for block `bn`. -/
structure Mapped (sb : Superblock) (disk : Disk) (inum : Nat) (d : Dinode) (bn addr : Nat)
    (d' : Dinode) (disk' : Disk) : Prop where
  table : ∀ i, i < sb.ninodes → dinode sb disk' i = dinode sb disk i
  copy : CopyOk sb disk' inum d'
  attrs : d' = { d with addrs := d'.addrs }
  addr_eq : blk disk' d' bn = addr
  ne : addr ≠ 0
  keep : ∀ c, c ≠ bn → blk disk' d' c = blk disk d c
  old : blk disk d bn ≠ 0 → addr = blk disk d bn ∧ d' = d ∧ disk' = disk
  indirect : d.addr ndirect ≠ 0 ∨ bn < ndirect → d'.addr ndirect = d.addr ndirect
  same : ∀ b, sb.nmeta ≤ b → b < sb.size → bit sb disk b = true → b ≠ d.addr ndirect →
    disk' b = disk b

theorem CopyOk.mapped_old (h : CopyOk sb disk inum d) (hb : blk disk d bn ≠ 0) :
    Mapped sb disk inum d bn (blk disk d bn) d disk where
  table _ _ := rfl
  copy := h
  attrs := rfl
  addr_eq := rfl
  ne := hb
  keep _ _ := rfl
  old _ := ⟨rfl, rfl, rfl⟩
  indirect _ := rfl
  same _ _ _ _ _ := rfl

abbrev allocDisk (sb : Superblock) (disk : Disk) (b : Nat) : Disk :=
  update (setBit sb disk b true) b zeroBlock

theorem allocDisk_of_bit (hg : Geometry sb) (hb : b < sb.size)
    (hclear : bit sb disk b = false) (hc : sb.nmeta ≤ c) (hbit : bit sb disk c = true) :
    allocDisk sb disk b c = disk c := by
  have hcb : c ≠ b := fun e => by simp [← e, hbit] at hclear
  have := hg.bitmap b hb
  rw [allocDisk, update_of_ne hcb, setBit, update_of_ne (by omega)]

theorem Geometry.bmapstart_le (hg : Geometry sb) (hb : b < sb.size) : sb.bmapstart ≤ sb.nmeta := by
  have := hg.bitmap b hb
  simp only [bblock, bpb, bsize] at this
  omega

theorem dinode_allocDisk (hg : Geometry sb) (hb : sb.nmeta ≤ b) (hbs : b < sb.size)
    (hi : i < sb.ninodes) : dinode sb (allocDisk sb disk b) i = dinode sb disk i := by
  rw [allocDisk, dinode_update_of_ge hg ((hg.bmapstart_le hbs).trans hb) hi, dinode_setBit hg hi]

theorem CopyOk.untouched_alloc (h : CopyOk sb disk inum d) (hg : Geometry sb)
    (hb : b < sb.size) (hclear : bit sb disk b = false) : Untouched disk (allocDisk sb disk b) d :=
  fun _ hk => allocDisk_of_bit hg hb hclear (h.ptr_range hk).1 (h.ptr_range hk).2.2

theorem ptr_setAddr_direct (hbn : bn < ndirect) (hb : b < 2 ^ 32) (j : Nat) :
    ptr disk (d.setAddr bn b) j = update (ptr disk d) bn b j := by
  by_cases hj : j = bn
  · subst hj
    rw [update_self, ptr, if_pos hbn.le, d.addr_setAddr_self hbn.le hb]
  · rw [update_of_ne hj, ptr, ptr, d.addr_setAddr_of_ne hj,
      d.addr_setAddr_of_ne (by omega)]

theorem ptr_setAddr_indirect (h0 : d.addr ndirect = 0) (hb : b < 2 ^ 32)
    (hzero : disk b = zeroBlock) (j : Nat) :
    ptr disk (d.setAddr ndirect b) j = update (ptr disk d) ndirect b j := by
  by_cases hj : j = ndirect
  · subst hj
    rw [update_self, ptr_ndirect, d.addr_setAddr_self (Nat.le_refl _) hb]
  · rw [update_of_ne hj, ptr, ptr, d.addr_setAddr_of_ne hj,
      d.addr_setAddr_self (Nat.le_refl _) hb, h0, hzero]
    simp [entry, Bytes.get32, zeroBlock]

theorem ptr_setEntry (hbn : ndirect ≤ bn) (hbn' : bn < maxFile)
    (hind : d.addr ndirect ≠ 0) (hb : b < 2 ^ 32) (j : Nat) :
    ptr (update disk (d.addr ndirect)
        (setEntry (disk (d.addr ndirect)) (bn - ndirect) b)) d j =
      update (ptr disk d) (bn + 1) b j := by
  simp only [ndirect, maxFile, nindirect, bsize] at hbn hbn'
  by_cases hj : j = bn + 1
  · subst hj
    have hidx : bn + 1 - (ndirect + 1) = bn - ndirect := by simp
    rw [update_self, ptr, if_neg (by simp; omega), if_pos ⟨by simp; omega, hind⟩,
      update_self, hidx, entry_setEntry_self _ _ hb]
  · rw [update_of_ne hj]
    simp only [ptr, update_self]
    split
    · rfl
    · next hk =>
      split
      · refine entry_setEntry_of_ne ?_ b
        simp only [ndirect] at hk ⊢
        omega
      · rfl

theorem CopyOk.growDirect (h : CopyOk sb disk inum d) (hg : Geometry sb)
    (hb : b < sb.size) (hclear : bit sb disk b = false) (hbn : bn < ndirect)
    (h0 : d.addr bn = 0) : Mapped sb disk inum d bn b (d.setAddr bn b) (allocDisk sb disk b) := by
  obtain ⟨hlo, -⟩ := h.owned.free hb hclear
  have hb32 : b < 2 ^ 32 := hb.trans hg.size_lt
  have hu := h.untouched_alloc hg hb hclear
  have hslot : slotOf bn = bn := if_pos hbn
  have hptr : ∀ j, ptr (allocDisk sb disk b) (d.setAddr bn b) j =
      update (ptr disk d) bn b j := by
    intro j
    rw [ptr_setAddr_direct hbn hb32]
    exact congrFun (congrArg (update · bn b) (funext hu.ptr_eq)) j
  have hp0 : ptr disk d bn = 0 := by rw [ptr, if_pos hbn.le, h0]
  have hsame : ∀ c, sb.nmeta ≤ c → c < sb.size → bit sb disk c = true → c ≠ d.addr ndirect →
      allocDisk sb disk b c = disk c := fun c hc _ hbit _ => allocDisk_of_bit hg hb hclear hc hbit
  refine ⟨fun i hi => dinode_allocDisk hg hlo hb hi, ?_, rfl, ?_, by have := h.owned.pos; omega,
    fun c hc => ?_, fun hne => absurd hp0 ?_, fun _ => d.addr_setAddr_of_ne (by omega), hsame⟩
  · exact h.assign hp0 hb hclear rfl (fun i hi => dinode_allocDisk hg hlo hb hi)
      (fun c hc => bit_alloc hg hlo hc) hsame hptr
  · rw [blk, hptr, hslot, update_self]
  · rw [blk, hptr, update_of_ne, blk]
    rw [← hslot]
    exact fun e => hc (slotOf_inj e)
  · rwa [blk, hslot] at hne

theorem CopyOk.growIndirect (h : CopyOk sb disk inum d) (hg : Geometry sb)
    (hb : b < sb.size) (hclear : bit sb disk b = false) (h0 : d.addr ndirect = 0) :
    CopyOk sb (allocDisk sb disk b) inum (d.setAddr ndirect b) ∧
      ∀ c, blk (allocDisk sb disk b) (d.setAddr ndirect b) c = blk disk d c := by
  obtain ⟨hlo, -⟩ := h.owned.free hb hclear
  have hb32 : b < 2 ^ 32 := hb.trans hg.size_lt
  have hu := h.untouched_alloc hg hb hclear
  have hptr : ∀ j, ptr (allocDisk sb disk b) (d.setAddr ndirect b) j =
      update (ptr disk d) ndirect b j := by
    intro j
    rw [ptr_setAddr_indirect h0 hb32 (update_self _ _ _)]
    exact congrFun (congrArg (update · ndirect b) (funext hu.ptr_eq)) j
  refine ⟨h.assign (by rw [ptr_ndirect, h0]) hb hclear rfl
    (fun i hi => dinode_allocDisk hg hlo hb hi) (fun c hc => bit_alloc hg hlo hc)
    (fun c hc _ hbit _ => allocDisk_of_bit hg hb hclear hc hbit) hptr, fun c => ?_⟩
  rw [blk, hptr, update_of_ne (slotOf_ne_ndirect c), blk]

theorem CopyOk.growEntry (h : CopyOk sb disk inum d) (hg : Geometry sb)
    (hb : b < sb.size) (hclear : bit sb disk b = false) (hbn : ndirect ≤ bn) (hbn' : bn < maxFile)
    (hind : d.addr ndirect ≠ 0) (h0 : entry (disk (d.addr ndirect)) (bn - ndirect) = 0) :
    Mapped sb disk inum d bn b d (update (allocDisk sb disk b) (d.addr ndirect)
      (setEntry (disk (d.addr ndirect)) (bn - ndirect) b)) := by
  obtain ⟨hlo, hfree⟩ := h.owned.free hb hclear
  have hb32 : b < 2 ^ 32 := hb.trans hg.size_lt
  have hu := h.untouched_alloc hg hb hclear
  have hr := h.ptr_range (k := ndirect) (by rwa [ptr_ndirect])
  rw [ptr_ndirect] at hr
  have hind_eq : allocDisk sb disk b (d.addr ndirect) = disk (d.addr ndirect) :=
    allocDisk_of_bit hg hb hclear hr.1 hr.2.2
  have hslot : slotOf bn = bn + 1 := if_neg (by omega)
  rw [← hind_eq]
  have hptr : ∀ j, ptr (update (allocDisk sb disk b) (d.addr ndirect)
      (setEntry (allocDisk sb disk b (d.addr ndirect)) (bn - ndirect) b)) d j =
      update (ptr disk d) (bn + 1) b j := by
    intro j
    rw [ptr_setEntry hbn hbn' hind hb32]
    exact congrFun (congrArg (update · (bn + 1) b) (funext hu.ptr_eq)) j
  have hp0 : ptr disk d (bn + 1) = 0 := by
    have hidx : bn + 1 - (ndirect + 1) = bn - ndirect := by simp
    rw [ptr, if_neg (by omega), if_pos ⟨hbn', hind⟩, hidx, h0]
  have htable : ∀ i, i < sb.ninodes → dinode sb (update (allocDisk sb disk b)
      (d.addr ndirect) (setEntry (allocDisk sb disk b (d.addr ndirect)) (bn - ndirect) b)) i =
        dinode sb disk i := by
    intro i hi
    rw [dinode_update_of_ge hg ((hg.bmapstart_le hb).trans hr.1) hi, dinode_allocDisk hg hlo hb hi]
  have hsame : ∀ c, sb.nmeta ≤ c → c < sb.size → bit sb disk c = true → c ≠ d.addr ndirect →
      update (allocDisk sb disk b) (d.addr ndirect)
        (setEntry (allocDisk sb disk b (d.addr ndirect)) (bn - ndirect) b) c = disk c := by
    intro c hc _ hbit hne
    rw [update_of_ne hne]
    exact allocDisk_of_bit hg hb hclear hc hbit
  refine ⟨htable, ?_, rfl, ?_, by have := h.owned.pos; omega, fun c hc => ?_,
    fun hne => absurd hp0 ?_, fun _ => rfl, hsame⟩
  · refine h.assign hp0 hb hclear rfl htable (fun c hc => ?_) hsame hptr
    rw [bit_update_of_ge hg hr.1 hc, bit_alloc hg hlo hc]
  · rw [blk, hptr, hslot, update_self]
  · rw [blk, hptr, update_of_ne, blk]
    rw [← hslot]
    exact fun e => hc (slotOf_inj e)
  · rwa [blk, hslot] at hne

theorem blk_of_no_indirect (hbn : ndirect ≤ bn) (hind : d.addr ndirect = 0) :
    blk disk d bn = 0 := by
  rw [blk, slotOf, if_neg (by omega), ptr, if_neg (by omega), if_neg fun h => h.2 hind]

/-- `bmap` fills the empty address of the indirect block, and then an entry. -/
theorem Mapped.of_indirect (hg : Geometry sb) (hc : CopyOk sb disk inum d) {addr : Nat}
    (hb : b < sb.size) (hclear : bit sb disk b = false) (hind : d.addr ndirect = 0)
    (hbn : ndirect ≤ bn)
    (hm : Mapped sb (allocDisk sb disk b) inum (d.setAddr ndirect b) bn addr d' disk') :
    Mapped sb disk inum d bn addr d' disk' := by
  have hlo := (hc.owned.free hb hclear).1
  have haddr : (d.setAddr ndirect b).addr ndirect = b :=
    d.addr_setAddr_self (Nat.le_refl _) (hb.trans hg.size_lt)
  refine ⟨fun i hi => ?_, hm.copy, hm.attrs, hm.addr_eq, hm.ne, fun c hcb => ?_, fun hb0 => ?_,
    fun hor => ?_, fun c hc1 hc2 hc3 _ => ?_⟩
  · rw [hm.table i hi, dinode_allocDisk hg hlo hb hi]
  · rw [hm.keep c hcb, (hc.growIndirect hg hb hclear hind).2]
  · exact absurd (blk_of_no_indirect hbn hind) hb0
  · exact absurd hor (by simp only [not_or, not_not]; exact ⟨hind, by omega⟩)
  · have hcb : c ≠ b := fun e => by simp [← e, hc3] at hclear
    have hold : allocDisk sb disk b c = disk c := allocDisk_of_bit hg hb hclear hc1 hc3
    rw [← hold]
    refine hm.same c hc1 hc2 ?_ (by rwa [haddr])
    rw [bit_alloc hg hlo hc2, update_of_ne hcb, hc3]

/-- `balloc` returned a data block that no allocated inode pointed to. -/
def Alloc.Ok (sb : Superblock) (a : Alloc) : Prop :=
  sb.nmeta ≤ a.block ∧ a.block < sb.size ∧
    ∀ x, owner sb a.disk (update (dinode sb a.disk) a.inum a.d) x ≠ a.block

def AllocsOk (sb : Superblock) (s : Store) : Prop := ∀ a ∈ s.allocs, a.Ok sb

theorem wp_ballocFor (hg : Geometry sb) (hc : CopyOk sb s.disk inum d) (ha : AllocsOk sb s)
    (hb : Budget sb E (n + 2) (f + 1) s) {Q : Nat → Store → Prop}
    (hQ : ∀ b s', b < sb.size → bit sb s.disk b = false → s'.disk = allocDisk sb s.disk b →
      b ∈ s'.lh → (∀ c, s'.new c ≤ s.new c) → AllocsOk sb s' → Budget sb E n f s' → Q b s') :
    wp (ballocFor sb inum d) Q E s := by
  rw [ballocFor]
  refine wp_bind.mpr (wp_getDisk (wp_bind.mpr (wp_balloc hg hc.owned hb fun b s' hbs hb' => ?_)))
  refine wp_bind.mpr ?_
  obtain ⟨hlo, hfree⟩ := hc.owned.free hbs.lt hbs.clear
  refine hQ b _ hbs.lt hbs.clear hbs.disk hbs.logged (fun c => ?_) ?_ hb'
  · simp only [Store.new]
    by_cases hcs : c ∈ s.lh
    · rw [if_pos hcs, if_pos (hbs.keeps c hcs)]
    · rw [if_neg hcs]
      split <;> omega
  · intro a hmem
    rcases List.mem_cons.mp hmem with rfl | hold
    · exact ⟨hlo, hbs.lt, hfree⟩
    · rw [hbs.allocs] at hold
      exact ha a hold

/-- The blocks that `bmap` has to allocate. -/
def need (disk : Disk) (d : Dinode) (bn : Nat) : Nat :=
  (if blk disk d bn = 0 then 1 else 0) +
    if ndirect ≤ bn ∧ d.addr ndirect = 0 then 1 else 0

/-- The log space to keep for the indirect block: itself and its bit. -/
def keepFor (s : Store) (d : Dinode) : Nat :=
  if d.addr ndirect = 0 then 2 else s.new (d.addr ndirect)

theorem blk_eq_entry (disk : Disk) (hbn : ndirect ≤ bn) (hbn' : bn < maxFile)
    (hind : d.addr ndirect ≠ 0) : blk disk d bn = entry (disk (d.addr ndirect)) (bn - ndirect) := by
  have hidx : bn + 1 - (ndirect + 1) = bn - ndirect := by simp
  rw [blk, slotOf, if_neg (by omega), ptr, if_neg (by omega), if_pos ⟨hbn', hind⟩, hidx]

theorem blk_eq_addr (hbn : bn < ndirect) : blk disk d bn = d.addr bn := by
  rw [blk, slotOf, if_pos hbn, ptr, if_pos hbn.le]

theorem wp_bmap_entry (hg : Geometry sb) (hc : CopyOk sb s.disk inum d)
    (hbn : ndirect ≤ bn) (hbn' : bn < maxFile) (hind : d.addr ndirect ≠ 0) (ha : AllocsOk sb s)
    (hb : Budget sb E (n + 2 + s.new (d.addr ndirect))
      (f + if blk s.disk d bn = 0 then 1 else 0) s) {Q : Nat × Dinode → Store → Prop}
    (hQ : ∀ addr s', Mapped sb s.disk inum d bn addr d s'.disk → AllocsOk sb s' →
      Budget sb E (n + s'.new addr + s'.new (d.addr ndirect)) f s' → Q (addr, d) s') :
    wp (do
      let a ← bread (d.addr ndirect)
      if entry a (bn - ndirect) = 0 then
        let addr ← ballocFor sb inum d
        logWrite sb (d.addr ndirect) (setEntry a (bn - ndirect) addr)
        return (addr, d)
      else return (entry a (bn - ndirect), d)) Q E s := by
  refine wp_bind.mpr (wp_bread (wp_ite (fun h0 => ?_) fun h0 => ?_))
  · have hblk : blk s.disk d bn = 0 := by rw [blk_eq_entry _ hbn hbn' hind, h0]
    rw [if_pos hblk] at hb
    refine wp_bind.mpr (wp_ballocFor (n := n + s.new (d.addr ndirect)) (f := f) hg hc ha
      (hb.mono (by omega) (Nat.le_refl _))
      fun addr s' hlt hclear hdisk hlog hnew ha' hb' => ?_)
    have hle := hnew (d.addr ndirect)
    refine wp_bind.mpr (wp_logWrite hb' (hQ addr _ ?_ ha' ?_))
    · change Mapped sb s.disk inum d bn addr d (update s'.disk _ _)
      rw [hdisk]
      exact hc.growEntry hg hlt hclear hbn hbn' hind h0
    · -- both blocks are in the header now
      have h1 : (s'.logged (d.addr ndirect)
          (setEntry (s.disk (d.addr ndirect)) (bn - ndirect) addr)).new addr = 0 :=
        if_pos ((Store.mem_lh_logged _ _ _).mpr (Or.inl hlog))
      have h2 : (s'.logged (d.addr ndirect)
          (setEntry (s.disk (d.addr ndirect)) (bn - ndirect) addr)).new (d.addr ndirect) = 0 :=
        if_pos ((Store.mem_lh_logged _ _ _).mpr (Or.inr rfl))
      rw [h1, h2]
      refine Budget.logged (hb'.mono (by omega) (Nat.le_refl _)) fun hf => ?_
      have hr := hc.ptr_range (k := ndirect) (by rwa [ptr_ndirect])
      rw [ptr_ndirect] at hr
      rwa [freeCount_congr fun c hcs => bit_update_of_ge hg hr.1 hcs _]
  · have hblk : blk s.disk d bn ≠ 0 := by rwa [blk_eq_entry _ hbn hbn' hind]
    have hm := hc.mapped_old hblk
    rw [blk_eq_entry _ hbn hbn' hind] at hm
    rw [if_neg hblk] at hb
    have hle := s.new_le_one (entry (s.disk (d.addr ndirect)) (bn - ndirect))
    exact hQ _ s hm ha (hb.mono (by omega) (by omega))

/-- **`bmap` returns the block, allocating it if there is none.** -/
theorem wp_bmap (hg : Geometry sb) (hc : CopyOk sb s.disk inum d)
    (hbn : bn < maxFile) (ha : AllocsOk sb s)
    (hb : Budget sb E (n + 2 + keepFor s d) (f + need s.disk d bn) s)
    {Q : Nat × Dinode → Store → Prop}
    (hQ : ∀ addr d' s', Mapped sb s.disk inum d bn addr d' s'.disk → AllocsOk sb s' →
      Budget sb E (n + s'.new addr + keepFor s' d') f s' → Q (addr, d') s') :
    wp (bmap sb inum d bn) Q E s := by
  rw [bmap]
  refine wp_ite (fun hdir => wp_ite (fun h0 => ?_) fun h0 => ?_) fun hdir => ?_
  · have hneed : need s.disk d bn = 1 := by
      rw [need, blk_eq_addr hdir, if_pos h0, if_neg (by omega)]
    rw [hneed] at hb
    refine wp_bind.mpr (wp_ballocFor (n := n + keepFor s d) (f := f) hg hc ha
      (hb.mono (by omega) (by omega)) fun addr s' hlt hclear hdisk hlog hnew ha' hb' => ?_)
    have hm := hc.growDirect hg hlt hclear hdir h0
    rw [← hdisk] at hm
    refine hQ addr _ s' hm ha' (hb'.mono ?_ (Nat.le_refl _))
    have hind : (d.setAddr bn addr).addr ndirect = d.addr ndirect :=
      d.addr_setAddr_of_ne (by omega)
    have h1 : s'.new addr = 0 := if_pos hlog
    have h2 := hnew (d.addr ndirect)
    simp only [keepFor, hind, h1]
    split <;> omega
  · have hblk : blk s.disk d bn ≠ 0 := by rwa [blk_eq_addr hdir]
    have hm := hc.mapped_old hblk
    rw [blk_eq_addr hdir] at hm
    have hle := s.new_le_one (d.addr bn)
    exact hQ _ d s hm ha (hb.mono (by omega) (by omega))
  · have hrange : bn - ndirect < nindirect := by
      simp only [maxFile] at hbn
      omega
    rw [if_pos hrange]
    have hbn₀ : ndirect ≤ bn := by omega
    by_cases hind : d.addr ndirect = 0
    · have hblk : blk s.disk d bn = 0 := blk_of_no_indirect hbn₀ hind
      have hneed : need s.disk d bn = 2 := by
        rw [need, if_pos hblk, if_pos ⟨hbn₀, hind⟩]
      rw [hneed, keepFor, if_pos hind] at hb
      rw [if_pos hind]
      refine wp_bind.mpr (wp_bind.mpr (wp_ballocFor (n := n + 2) (f := f + 1) hg hc ha
        (hb.mono (by omega) (by omega)) fun ind s₁ hlt hclear hdisk hlog hnew ha₁ hb₁ => ?_))
      have hc₁ := (hc.growIndirect hg hlt hclear hind).1
      have hlo := (hc.owned.free hlt hclear).1
      have haddr : (d.setAddr ndirect ind).addr ndirect = ind :=
        d.addr_setAddr_self (Nat.le_refl _) (hlt.trans hg.size_lt)
      have hne : (d.setAddr ndirect ind).addr ndirect ≠ 0 := by
        rw [haddr]
        have := hc.owned.pos
        omega
      have hnew₁ : s₁.new ((d.setAddr ndirect ind).addr ndirect) = 0 := by
        rw [haddr]
        exact if_pos hlog
      rw [← hdisk] at hc₁
      refine wp_bmap_entry hg hc₁ hbn₀ hbn hne ha₁ (n := n) (f := f) ?_ fun addr s' hm ha' hb' => ?_
      · rw [hnew₁]
        refine hb₁.mono (by omega) ?_
        split <;> omega
      · refine hQ addr _ s' ?_ ha' ?_
        · rw [hdisk] at hm
          exact Mapped.of_indirect hg hc hlt hclear hind hbn₀ hm
        · rw [keepFor, if_neg hne]
          exact hb'
    · rw [if_neg hind]
      refine wp_bind.mpr ((wp_pure _).mpr ?_)
      have hneed : need s.disk d bn = if blk s.disk d bn = 0 then 1 else 0 := by
        rw [need, if_neg (c := ndirect ≤ bn ∧ _) (fun h => hind h.2), Nat.add_zero]
      rw [hneed, keepFor, if_neg hind] at hb
      refine wp_bmap_entry hg hc hbn₀ hbn hind ha hb fun addr s' hm ha' hb' => ?_
      refine hQ addr d s' hm ha' ?_
      rw [keepFor, if_neg hind]
      exact hb'

end Xv6.Fs
