import Xv6.Fs.Blocks

namespace Xv6.Fs

open Hoare Ownership
open Function (update update_self update_of_ne update_eq_self)

variable {sb : Superblock} {E : Stop → Prop} {s : Store} {inum : Nat} {d d' : Dinode}
  {disk disk' : Disk} {table : Nat → Dinode} {n f : Nat}

theorem dinode_setDinode (inum : Nat) (d : Dinode) :
    dinode sb (setDinode sb disk inum d) = update (dinode sb disk) inum d := by
  funext i
  by_cases hi : i = inum
  · subst hi
    rw [dinode_setDinode_self, update_self]
  · rw [dinode_setDinode_of_ne hi, update_of_ne hi]

theorem Geometry.bmapstart_le_nmeta (hg : Geometry sb) : sb.bmapstart ≤ sb.nmeta := by
  refine hg.bmapstart_le (b := 0) ?_
  have := hg.nmeta_pos
  rw [Superblock.nmeta] at this
  omega

variable {b : Nat}

theorem setDinode_of_ge (hg : Geometry sb) (hi : inum < sb.ninodes) (hb : sb.nmeta ≤ b) :
    setDinode sb disk inum d b = disk b := by
  have h1 := hg.inodes inum hi
  have h2 := hg.bmapstart_le_nmeta
  rw [setDinode, update_of_ne (by omega)]

theorem setBit_of_ge (hg : Geometry sb) {c : Nat} (hb : b < sb.size) (hc : sb.nmeta ≤ c)
    (v : Bool) : setBit sb disk b v c = disk c := by
  have := hg.bitmap b hb
  rw [setBit, update_of_ne (by omega)]

theorem OwnedBy.store (hg : Geometry sb) (hi : inum < sb.ninodes)
    (h : OwnedBy sb disk (update (dinode sb disk) inum d)) :
    OwnedBy sb (setDinode sb disk inum d) (dinode sb (setDinode sb disk inum d)) := by
  rw [dinode_setDinode]
  refine Owned.congr h (fun x => ?_) fun b _ => bit_setDinode hg hi d
  exact h.owner_eq_of_data (fun b hb => setDinode_of_ge hg hi hb) x

theorem OwnedBy.untouched_of_data (h : OwnedBy sb disk table)
    (hsame : ∀ b, sb.nmeta ≤ b → disk' b = disk b) {i : Nat} (hi : i < sb.ninodes)
    (ht : (table i).type ≠ 0) : Untouched disk disk' (table i) :=
  h.untouched hi ht fun b hlo _ _ _ => hsame b hlo

theorem CopyOk.store (h : CopyOk sb disk inum d) (hg : Geometry sb) (hh : HoleFree disk d)
    (hothers : ∀ i, i < sb.ninodes → (dinode sb disk i).type ≠ 0 → i ≠ inum →
      HoleFree disk (dinode sb disk i)) : DiskOk sb (setDinode sb disk inum d) := by
  refine ⟨h.owned.store hg h.lt, fun i hi ht => ?_⟩
  have hdata : ∀ b, sb.nmeta ≤ b → setDinode sb disk inum d b = disk b :=
    fun b hb => setDinode_of_ge hg h.lt hb
  have hu := h.owned.untouched_of_data hdata hi
  rw [dinode_setDinode] at ht ⊢
  have hu := hu ht
  by_cases hin : i = inum
  · subst hin
    rw [update_self] at hu ⊢
    exact hu.holeFree hh
  · rw [update_of_ne hin] at hu ht ⊢
    exact hu.holeFree (hothers i hi ht hin)

theorem DiskOk.copyOk (h : DiskOk sb disk) (hi : inum < sb.ninodes)
    (ht : (dinode sb disk inum).type ≠ 0) : CopyOk sb disk inum (dinode sb disk inum) :=
  ⟨hi, ht, by rw [update_eq_self]; exact h.owned⟩

theorem wp_iupdate {Q : Unit → Store → Prop} (hb : Budget sb E n f s)
    (hQ : Q () (s.logged (iblock sb inum) (setDinode sb s.disk inum d (iblock sb inum)))) :
    wp (iupdate sb inum d) Q E s := by
  rw [iupdate]
  exact wp_bind.mpr (wp_getDisk (wp_logWrite hb hQ))

theorem Store.logged_iblock_disk (s : Store) (inum : Nat) (d : Dinode) :
    (s.logged (iblock sb inum) (setDinode sb s.disk inum d (iblock sb inum))).disk =
      setDinode sb s.disk inum d := by
  rw [Store.logged, setDinode, update_self]

theorem ptr_of_no_addr (h : ∀ k, d.addr k = 0) (k : Nat) : ptr disk d k = 0 := by
  rw [ptr, h, h]
  simp

theorem addr_of_addrs_zero (h : d.addrs = fun _ => 0) (k : Nat) : d.addr k = 0 := by
  rw [Dinode.addr, h]
  simp

theorem holeFree_of_size_zero (h : d.size = 0) : HoleFree disk d := by
  intro bn hbn
  rw [h] at hbn
  exact absurd hbn (by simp)

theorem OwnedBy.replace (h : OwnedBy sb disk (dinode sb disk))
    (hold : ∀ k, owner sb disk (dinode sb disk) (inum, k) = 0) (hnew : ∀ k, ptr disk d k = 0) :
    OwnedBy sb disk (update (dinode sb disk) inum d) := by
  refine Owned.congr h ?_ fun _ _ => rfl
  rintro ⟨i, k⟩
  by_cases hi : i = inum
  · subst hi
    rw [hold, owner, update_self, hnew, ite_self]
  · rw [owner, owner, update_of_ne hi]

/-- `ialloc` takes the first inode whose type is zero. -/
theorem wp_iallocDisk {type : Int16} {Q : Nat → Store → Prop} (hb : Budget sb E n f s)
    (hnone : findFrom (fun i => (dinode sb s.disk i).type = 0) 1 (sb.ninodes - 1) = none →
      E (.panic "ialloc: no inodes"))
    (hQ : ∀ i, findFrom (fun i => (dinode sb s.disk i).type = 0) 1 (sb.ninodes - 1) = some i →
      Q i (s.logged (iblock sb i)
        (setDinode sb s.disk i { Dinode.zero with type := type } (iblock sb i)))) :
    wp (iallocDisk sb type) Q E s := by
  rw [iallocDisk]
  refine wp_bind.mpr (wp_getDisk ?_)
  cases hfind : findFrom (fun i => (dinode sb s.disk i).type = 0) 1 (sb.ninodes - 1) with
  | none => exact hnone hfind
  | some i => exact wp_bind.mpr (wp_logWrite hb (hQ i hfind))

theorem DiskOk.take (h : DiskOk sb disk) (hg : Geometry sb) (hi : inum < sb.ninodes)
    (ht : (dinode sb disk inum).type = 0) (htype : d.type ≠ 0) (hsize : d.size = 0)
    (haddrs : d.addrs = fun _ => 0) : DiskOk sb (setDinode sb disk inum d) := by
  refine CopyOk.store ⟨hi, htype, h.owned.replace (fun k => ?_) fun k => ?_⟩ hg
    (holeFree_of_size_zero hsize) fun i hi ht _ => h.holes i hi ht
  · rw [owner, if_neg fun hc => hc.2 ht]
  · exact ptr_of_no_addr (addr_of_addrs_zero haddrs) k

theorem DiskOk.ialloc (h : DiskOk sb disk) (hg : Geometry sb) (hi : inum < sb.ninodes)
    (ht : (dinode sb disk inum).type = 0) {type : Int16} (htype : type ≠ 0) :
    DiskOk sb (setDinode sb disk inum { Dinode.zero with type := type }) :=
  h.take hg hi ht htype rfl rfl

theorem wp_bfree {κ : Type} [DecidableEq κ] {own : κ → Nat} (hE : ∀ e, Limit e → E e)
    (hown : Owned sb.nmeta sb.size own (bit sb s.disk)) {x : κ} (hx : own x ≠ 0)
    {Q : Unit → Store → Prop}
    (hQ : ∀ s', s'.disk = setBit sb s.disk (own x) false → s'.allocs = s.allocs →
      Owned sb.nmeta sb.size (update own x 0) (bit sb s'.disk) → Q () s') :
    wp (bfree sb (own x)) Q E s := by
  rw [bfree]
  have hset : bit sb s.disk (own x) = true := hown.bit_own hx
  refine wp_bind.mpr (wp_getDisk (wp_ite (fun hclear => ?_) fun _ => ?_))
  · exact absurd hclear (by simp [hset])
  · refine wp_logWrite (n := 0) (f := 0) (Or.inl hE) ?_
    have hdisk : (s.logged (bblock sb (own x)) (setBit sb s.disk (own x) false
        (bblock sb (own x)))).disk = setBit sb s.disk (own x) false := by
      rw [Store.logged, setBit, update_self]
    refine hQ _ hdisk rfl ?_
    rw [hdisk]
    exact (hown.clear hx).congr (fun _ => rfl) fun b _ => bit_setBit _ _ _

structure SameData (sb : Superblock) (disk disk' : Disk) : Prop where
  data : ∀ b, sb.nmeta ≤ b → disk' b = disk b
  table : ∀ i, i < sb.ninodes → dinode sb disk' i = dinode sb disk i

theorem SameData.refl (disk : Disk) : SameData sb disk disk :=
  ⟨fun _ _ => rfl, fun _ _ => rfl⟩

theorem SameData.trans {disk'' : Disk} (h : SameData sb disk disk')
    (h' : SameData sb disk' disk'') : SameData sb disk disk'' :=
  ⟨fun b hb => by rw [h'.data b hb, h.data b hb], fun i hi => by rw [h'.table i hi, h.table i hi]⟩

theorem SameData.setBit (hg : Geometry sb) (hb : b < sb.size) (v : Bool) :
    SameData sb disk (setBit sb disk b v) :=
  ⟨fun _ hc => setBit_of_ge hg hb hc v, fun _ hi => dinode_setBit hg hi b v⟩

theorem SameData.owner_eq (h : SameData sb disk disk')
    (hown : OwnedBy sb disk (update (dinode sb disk) inum d)) (x : Nat × Nat) :
    owner sb disk' (update (dinode sb disk') inum d) x =
      owner sb disk (update (dinode sb disk) inum d) x := by
  obtain ⟨i, k⟩ := x
  have hdata := hown.owner_eq_of_data h.data (i, k)
  rw [← hdata]
  by_cases hi : i < sb.ninodes
  · have htable : update (dinode sb disk') inum d i =
        update (dinode sb disk) inum d i := by
      by_cases hin : i = inum
      · rw [hin, update_self, update_self]
      · rw [update_of_ne hin, update_of_ne hin, h.table i hi]
    rw [owner, owner, htable]
  · rw [owner, owner, if_neg fun hc => hi hc.1, if_neg fun hc => hi hc.1]

theorem CopyOk.drop (h : CopyOk sb disk inum d) (hsame : SameData sb disk disk')
    {own : Nat × Nat → Nat} (hown : Owned sb.nmeta sb.size own (bit sb disk'))
    (htype : d'.type = d.type) (hown_self : ∀ k, own (inum, k) = ptr disk d' k)
    (hown_other : ∀ i k, i ≠ inum →
      own (i, k) = owner sb disk (update (dinode sb disk) inum d) (i, k))
    (hptr : ∀ k, ptr disk' d' k = ptr disk d' k) : CopyOk sb disk' inum d' := by
  refine ⟨h.lt, htype ▸ h.type, hown.congr ?_ fun _ _ => rfl⟩
  rintro ⟨i, k⟩
  by_cases hi : i = inum
  · subst hi
    rw [hown_self, owner, update_self, if_pos ⟨h.lt, htype ▸ h.type⟩, hptr]
  · rw [hown_other i k hi, ← hsame.owner_eq h.owned, owner, owner, update_of_ne hi,
      update_of_ne hi]

variable {Q : Dinode → Store → Prop}

theorem wp_truncDirect (hg : Geometry sb) (hE : ∀ e, Limit e → E e) {n i : Nat}
    (hc : CopyOk sb s.disk inum d) (hn : i + n ≤ ndirect)
    (hQ : ∀ d' s', CopyOk sb s'.disk inum d' → SameData sb s.disk s'.disk →
      s'.allocs = s.allocs → d' = { d with addrs := d'.addrs } →
      (∀ k, d'.addr k = if i ≤ k ∧ k < i + n then 0 else d.addr k) → Q d' s') :
    wp (truncDirect sb n i d) Q E s := by
  induction n generalizing i d s with
  | zero =>
    refine hQ d s hc (SameData.refl _) rfl rfl fun k => ?_
    rw [if_neg (by omega)]
  | succ n ih =>
    rw [truncDirect]
    have hi : i < ndirect := by omega
    refine wp_ite (fun hne => ?_) fun h0 => ?_
    · -- the owner of the block is pointer `i` of the inode
      have hptr : ptr s.disk d i = d.addr i := if_pos hi.le
      have hself : owner sb s.disk (update (dinode sb s.disk) inum d) (inum, i) =
          d.addr i := by rw [hc.owner_self, hptr]
      rw [← hself]
      refine wp_bind.mpr (wp_bfree hE hc.owned (by rwa [hself]) fun s₁ hdisk hallocs hown => ?_)
      rw [hself] at hdisk
      have hsame : SameData sb s.disk s₁.disk := by
        rw [hdisk]
        exact SameData.setBit hg (by rw [← hptr]; exact (hc.ptr_range (by rwa [hptr])).2.1) false
      have hzero : ∀ k, ptr s.disk (d.setAddr i 0) k = update (ptr s.disk d) i 0 k :=
        ptr_setAddr_direct hi (by omega)
      have hkeep : Untouched s.disk s₁.disk (d.setAddr i 0) := by
        intro k hk
        rw [hzero] at hk ⊢
        have hki : k ≠ i := fun e => hk (by rw [e, update_self])
        rw [update_of_ne hki] at hk ⊢
        exact hsame.data _ (hc.ptr_range hk).1
      have hc₁ : CopyOk sb s₁.disk inum (d.setAddr i 0) := by
        refine hc.drop hsame hown rfl (fun k => ?_) (fun j k hj => ?_) hkeep.ptr_eq
        · rw [hzero]
          by_cases hki : k = i
          · rw [hki, update_self, update_self]
          · rw [update_of_ne hki, update_of_ne (by simpa using hki),
              hc.owner_self]
        · rw [update_of_ne (by simp [hj])]
      refine ih hc₁ (by omega) fun d' s' hc' hsame' hallocs' hattrs haddr => ?_
      refine hQ d' s' hc' (hsame.trans hsame') (by rw [hallocs', hallocs]) ?_ fun k => ?_
      · rw [hattrs]
        rfl
      · rw [haddr]
        by_cases hki : k = i
        · rw [hki, if_neg (by omega), if_pos (by omega), d.addr_setAddr_self hi.le (by omega)]
        · rw [d.addr_setAddr_of_ne hki]
          refine if_congr ?_ rfl rfl
          omega
    · have h0 : d.addr i = 0 := by simpa using h0
      refine ih hc (by omega) fun d' s' hc' hsame hallocs hattrs haddr => ?_
      refine hQ d' s' hc' hsame hallocs hattrs fun k => ?_
      rw [haddr]
      by_cases hki : k = i
      · rw [hki, if_neg (by omega), if_pos (by omega), h0]
      · refine if_congr ?_ rfl rfl
        omega

/-- The owners without the first `j` entries of the indirect block of `inum`. -/
def withoutEntries (own : Nat × Nat → Nat) (inum j : Nat) (x : Nat × Nat) : Nat :=
  if x.1 = inum ∧ ndirect < x.2 ∧ x.2 ≤ ndirect + j then 0 else own x

theorem withoutEntries_succ (own : Nat × Nat → Nat) (inum j : Nat) (x : Nat × Nat) :
    withoutEntries own inum (j + 1) x =
      update (withoutEntries own inum j) (inum, ndirect + j + 1) 0 x := by
  obtain ⟨i, k⟩ := x
  by_cases hx : (i, k) = (inum, ndirect + j + 1)
  · rw [hx, update_self, withoutEntries, if_pos ⟨rfl, by simp only; omega, by simp only; omega⟩]
  · rw [update_of_ne hx, withoutEntries, withoutEntries]
    refine if_congr ?_ rfl rfl
    rw [Prod.mk.injEq, not_and] at hx
    refine and_congr_right fun hi => and_congr_right fun _ => ?_
    have := hx hi
    simp only
    omega

/-- The loop of `itrunc` over the indirect block frees the entries from `j` on. -/
theorem wp_truncEntries (hg : Geometry sb) (hE : ∀ e, Limit e → E e) {own : Nat × Nat → Nat}
    {a : Bytes} {n j : Nat} (hown : Owned sb.nmeta sb.size (withoutEntries own inum j) (bit sb s.disk))
    (ha : ∀ j, j < nindirect → own (inum, ndirect + j + 1) = entry a j) (hn : j + n ≤ nindirect)
    {Q : Unit → Store → Prop}
    (hQ : ∀ s', Owned sb.nmeta sb.size (withoutEntries own inum (j + n)) (bit sb s'.disk) →
      SameData sb s.disk s'.disk → s'.allocs = s.allocs → Q () s') :
    wp (truncEntries sb a n j) Q E s := by
  induction n generalizing j s with
  | zero => exact hQ s hown (SameData.refl _) rfl
  | succ n ih =>
    rw [truncEntries]
    have hj : withoutEntries own inum j (inum, ndirect + j + 1) = entry a j := by
      rw [withoutEntries, if_neg (by simp only; omega), ha j (by omega)]
    refine wp_ite (fun hne => ?_) fun h0 => ?_
    · rw [← hj]
      refine wp_bind.mpr (wp_bfree hE hown (by rwa [hj]) fun s₁ hdisk hallocs hown₁ => ?_)
      have hsame : SameData sb s.disk s₁.disk := by
        rw [hdisk]
        exact SameData.setBit hg (hown.range _ (by rwa [hj])).2 false
      refine ih (hown₁.congr (withoutEntries_succ own inum j) fun _ _ => rfl) (by omega)
        fun s' hown' hsame' hallocs' => ?_
      rw [Nat.add_right_comm] at hown'
      exact hQ s' hown' (hsame.trans hsame') (by rw [hallocs', hallocs])
    · have h0 : entry a j = 0 := by simpa using h0
      have hown₁ : Owned sb.nmeta sb.size (withoutEntries own inum (j + 1)) (bit sb s.disk) := by
        refine hown.congr (fun x => ?_) fun _ _ => rfl
        rw [withoutEntries_succ]
        by_cases hx : x = (inum, ndirect + j + 1)
        · rw [hx, update_self, hj, h0]
        · rw [update_of_ne hx]
      refine ih hown₁ (by omega) fun s' hown' hsame' hallocs' => ?_
      rw [Nat.add_right_comm] at hown'
      exact hQ s' hown' hsame' hallocs'

/-- `itrunc` gives back the indirect block and all that it points to. -/
theorem wp_truncIndirect (hg : Geometry sb) (hE : ∀ e, Limit e → E e)
    (hc : CopyOk sb s.disk inum d) (hdirect : ∀ k, k < ndirect → d.addr k = 0)
    (hind : d.addr ndirect ≠ 0)
    (hQ : ∀ s', CopyOk sb s'.disk inum (d.setAddr ndirect 0) → SameData sb s.disk s'.disk →
      s'.allocs = s.allocs → Q (d.setAddr ndirect 0) s') :
    wp (do
      let a ← bread (d.addr ndirect)
      truncEntries sb a nindirect 0
      bfree sb (d.addr ndirect)
      return d.setAddr ndirect 0) Q E s := by
  set own := owner sb s.disk (update (dinode sb s.disk) inum d) with hown_def
  have hself : ∀ k, own (inum, k) = ptr s.disk d k := hc.owner_self
  have hentries : ∀ j, j < nindirect →
      own (inum, ndirect + j + 1) = entry (s.disk (d.addr ndirect)) j := by
    intro j hj
    have hidx : ndirect + j + 1 - (ndirect + 1) = j := by omega
    rw [hself, ptr, if_neg (by omega), if_pos ⟨by simp only [maxFile]; omega, hind⟩, hidx]
  have hstart : Owned sb.nmeta sb.size (withoutEntries own inum 0) (bit sb s.disk) :=
    hc.owned.congr (fun x => if_neg (by omega)) fun _ _ => rfl
  refine wp_bind.mpr (wp_bread (wp_bind.mpr (wp_truncEntries hg hE hstart hentries (by omega)
    fun s₁ hown₁ hsame₁ hallocs₁ => ?_)))
  rw [Nat.zero_add] at hown₁
  have hlast : withoutEntries own inum nindirect (inum, ndirect) = d.addr ndirect := by
    rw [withoutEntries, if_neg (by simp), hself, ptr_ndirect]
  have hrange : d.addr ndirect < sb.size := by
    have := hc.ptr_range (k := ndirect) (by rwa [ptr_ndirect])
    rw [ptr_ndirect] at this
    exact this.2.1
  rw [← hlast]
  refine wp_bind.mpr (wp_bfree hE hown₁ (by rwa [hlast]) fun s₂ hdisk₂ hallocs₂ hown₂ => ?_)
  rw [hlast] at hdisk₂
  have hsame : SameData sb s.disk s₂.disk := by
    refine hsame₁.trans ?_
    rw [hdisk₂]
    exact SameData.setBit hg hrange false
  -- no pointer is left
  have hnone : ∀ k, (d.setAddr ndirect 0).addr k = 0 := by
    intro k
    by_cases hk : k = ndirect
    · rw [hk, d.addr_setAddr_self (Nat.le_refl _) (by omega)]
    · rw [d.addr_setAddr_of_ne hk]
      by_cases hlt : k < ndirect
      · exact hdirect k hlt
      · rw [Dinode.addr, dif_neg (by omega)]
  refine hQ s₂ ?_ hsame (by rw [hallocs₂, hallocs₁])
  refine hc.drop hsame hown₂ rfl (fun k => ?_) (fun i k hi => ?_) fun k => ?_
  · rw [ptr_of_no_addr hnone]
    by_cases hk : k = ndirect
    · rw [hk, update_self]
    · rw [update_of_ne (by simpa using hk), withoutEntries, hself]
      split
      · rfl
      · next hout =>
        by_cases hlt : k < ndirect
        · rw [ptr, if_pos hlt.le, hdirect k hlt]
        · refine ptr_of_gt ?_
          simp only [true_and] at hout
          simp only [maxFile]
          omega
  · rw [update_of_ne (by simp [hi]), withoutEntries, if_neg fun h => hi h.1]
  · rw [ptr_of_no_addr hnone, ptr_of_no_addr hnone]

/-- What `itrunc` has done: the inode has no blocks and no bytes, and only metadata changed. -/
structure Truncated (sb : Superblock) (disk : Disk) (inum : Nat) (d' : Dinode) (disk' : Disk) :
    Prop where
  data : ∀ b, sb.nmeta ≤ b → disk' b = disk b
  table : ∀ i, i < sb.ninodes → dinode sb disk' i = update (dinode sb disk) inum d' i
  ok : DiskOk sb disk'

theorem CopyOk.congr_addr (h : CopyOk sb disk inum d) (htype : d'.type = d.type)
    (haddr : ∀ k, d'.addr k = d.addr k) : CopyOk sb disk inum d' := by
  refine ⟨h.lt, htype ▸ h.type, Owned.congr h.owned ?_ fun _ _ => rfl⟩
  rintro ⟨i, k⟩
  by_cases hi : i = inum
  · subst hi
    exact owner_congr (by simpa using htype) fun _ _ => by simpa using ptr_congr_addr haddr k
  · rw [owner, owner, update_of_ne hi, update_of_ne hi]

/-- **`itrunc` frees all blocks of the inode and never meets a free one.** -/
theorem wp_itrunc (hg : Geometry sb) (hE : ∀ e, Limit e → E e) (hok : DiskOk sb s.disk)
    (hi : inum < sb.ninodes) (ht : (dinode sb s.disk inum).type ≠ 0)
    (hQ : ∀ s', Truncated sb s.disk inum
        { dinode sb s.disk inum with size := 0, addrs := fun _ => 0 } s'.disk →
      s'.allocs = s.allocs → Q { dinode sb s.disk inum with size := 0, addrs := fun _ => 0 } s') :
    wp (itrunc sb inum (dinode sb s.disk inum)) Q E s := by
  rw [itrunc]
  refine wp_bind.mpr (wp_truncDirect hg hE (hok.copyOk hi ht) (Nat.le_of_eq (Nat.zero_add _))
    fun d₁ s₁ hc₁ hsame₁ hallocs₁ hattrs₁ haddr₁ => ?_)
  have hdirect : ∀ k, k < ndirect → d₁.addr k = 0 := by
    intro k hk
    rw [haddr₁, if_pos ⟨Nat.zero_le _, by omega⟩]
  -- what remains is to store a copy without addresses
  have hfinish : ∀ d₂ s₂, CopyOk sb s₂.disk inum d₂ → SameData sb s.disk s₂.disk →
      s₂.allocs = s.allocs → d₂ = { dinode sb s.disk inum with addrs := d₂.addrs } →
      (∀ k, d₂.addr k = 0) → wp (do
        iupdate sb inum { d₂ with size := 0 }
        return { d₂ with size := 0 }) Q E s₂ := by
    intro d₂ s₂ hc₂ hsame₂ hallocs₂ hattrs₂ haddr₂
    have haddrs : d₂.addrs = fun _ => 0 := by
      funext k
      have := haddr₂ k
      rw [Dinode.addr, dif_pos k.isLt] at this
      exact UInt32.toNat_inj.mp this
    have hd : { d₂ with size := 0 } =
        { dinode sb s.disk inum with size := 0, addrs := fun _ => 0 } := by
      rw [hattrs₂, haddrs]
    have hc' : CopyOk sb s₂.disk inum { d₂ with size := 0 } := hc₂.congr_addr rfl fun k => rfl
    rw [hd] at hc' ⊢
    refine wp_bind.mpr (wp_iupdate (n := 0) (f := 0) (Or.inl hE) (hQ _ ?_ hallocs₂))
    rw [Store.logged_iblock_disk]
    refine ⟨fun b hb => ?_, fun i hin => ?_, hc'.store hg (holeFree_of_size_zero rfl) ?_⟩
    · rw [setDinode_of_ge hg hi hb, hsame₂.data b hb]
    · rw [dinode_setDinode]
      by_cases hii : i = inum
      · rw [hii, update_self, update_self]
      · rw [update_of_ne hii, update_of_ne hii, hsame₂.table i hin]
    · intro i hin hti hii
      rw [hsame₂.table i hin] at hti ⊢
      exact (hok.owned.untouched_of_data hsame₂.data hin hti).holeFree (hok.holes i hin hti)
  by_cases hind : d₁.addr ndirect = 0
  · rw [if_neg (by simpa using hind)]
    refine wp_bind.mpr ((wp_pure _).mpr (hfinish d₁ s₁ hc₁ hsame₁ hallocs₁ hattrs₁ fun k => ?_))
    by_cases hk : k < ndirect
    · exact hdirect k hk
    · by_cases hk' : k = ndirect
      · rw [hk', hind]
      · rw [Dinode.addr, dif_neg (by omega)]
  · rw [if_pos hind]
    refine wp_bind.mpr (wp_truncIndirect hg hE hc₁ hdirect hind fun s₂ hc₂ hsame₂ hallocs₂ => ?_)
    refine hfinish _ s₂ hc₂ (hsame₁.trans hsame₂) (by rw [hallocs₂, hallocs₁]) ?_ fun k => ?_
    · rw [hattrs₁]
      rfl
    · by_cases hk : k = ndirect
      · rw [hk, d₁.addr_setAddr_self (Nat.le_refl _) (by omega)]
      · rw [d₁.addr_setAddr_of_ne hk]
        by_cases hlt : k < ndirect
        · exact hdirect k hlt
        · rw [Dinode.addr, dif_neg (by omega)]

theorem DiskOk.ifree (h : DiskOk sb disk) (hg : Geometry sb) (hi : inum < sb.ninodes)
    (haddr : (dinode sb disk inum).addrs = fun _ => 0) (ht : d.type = 0) :
    DiskOk sb (setDinode sb disk inum d) := by
  have hown : OwnedBy sb disk (update (dinode sb disk) inum d) := by
    refine Owned.congr h.owned ?_ fun _ _ => rfl
    rintro ⟨i, k⟩
    by_cases hin : i = inum
    · subst hin
      rw [owner, update_self, if_neg fun hc => hc.2 ht, owner,
        ptr_of_no_addr (addr_of_addrs_zero haddr), ite_self]
    · rw [owner, owner, update_of_ne hin]
  refine ⟨hown.store hg hi, fun i hi' ht' => ?_⟩
  rw [dinode_setDinode] at ht' ⊢
  have hin : i ≠ inum := fun e => ht' (by rw [e, update_self, ht])
  rw [update_of_ne hin] at ht' ⊢
  exact (h.owned.untouched_of_data (fun b hb => setDinode_of_ge hg hi hb) hi' ht').holeFree
    (h.holes i hi' ht')

/-- What freeing an inode has done: it is not allocated, and only metadata changed. -/
structure Freed (sb : Superblock) (disk : Disk) (inum : Nat) (disk' : Disk) : Prop where
  data : ∀ b, sb.nmeta ≤ b → disk' b = disk b
  table : ∀ i, i < sb.ninodes → i ≠ inum → dinode sb disk' i = dinode sb disk i
  type : (dinode sb disk' inum).type = 0
  empty : (dinode sb disk' inum).size = 0 ∧ (dinode sb disk' inum).addrs = fun _ => 0
  ok : DiskOk sb disk'

theorem wp_ifree (hg : Geometry sb) (hE : ∀ e, Limit e → E e) (hok : DiskOk sb s.disk)
    (hi : inum < sb.ninodes) (ht : (dinode sb s.disk inum).type ≠ 0)
    (hQ : ∀ d' s', Freed sb s.disk inum s'.disk → s'.allocs = s.allocs → Q d' s') :
    wp (ifree sb inum (dinode sb s.disk inum)) Q E s := by
  rw [ifree]
  refine wp_bind.mpr (wp_itrunc hg hE hok hi ht fun st htr ha => ?_)
  set d : Dinode := { dinode sb s.disk inum with size := 0, addrs := fun _ => 0 }
  refine wp_bind.mpr (wp_iupdate (n := 0) (f := 0) (Or.inl hE) ((wp_pure _).mpr (hQ _ _ ?_ ha)))
  rw [Store.logged_iblock_disk]
  have hd : dinode sb st.disk inum = d := by rw [htr.table _ hi, update_self]
  refine ⟨fun b hb => ?_, fun i hin hne => ?_, ?_, ?_, htr.ok.ifree hg hi (by rw [hd]) rfl⟩
  · rw [setDinode_of_ge hg hi hb, htr.data b hb]
  · rw [dinode_setDinode_of_ne hne, htr.table i hin, update_of_ne hne]
  · rw [dinode_setDinode_self]
  · rw [dinode_setDinode_self]
    exact ⟨rfl, rfl⟩

end Xv6.Fs
