import Mathlib.Data.List.GetD
import Mathlib.Order.Interval.Finset.Nat
import Xv6.Mkfs.Layout

/-!
# Reading and writing files

`readi` and `writei` on a file without holes. A write changes the bytes of its range, extends the
file if it ends beyond its size, and leaves every other file alone.
-/

namespace Xv6.Fs

open Hoare Bytes Ownership
open Function (update update_self update_of_ne)
open UInt32 (lt_iff_toNat_lt toNat_add ofNat_toNat)

variable {sb : Superblock} {E : Stop → Prop} {s : Store} {inum : Nat} {d d₀ : Dinode}
  {disk disk' : Disk}

variable {bn : Nat}

theorem bmap_of_ne_zero (hbn : bn < maxFile) (hb : blk s.disk d bn ≠ 0) :
    bmap sb inum d bn s = .ok ((blk s.disk d bn, d), s) := by
  rw [bmap]
  by_cases hdir : bn < ndirect
  · have h0 : d.addr bn ≠ 0 := by rwa [blk_eq_addr hdir] at hb
    rw [if_pos hdir, if_neg h0, blk_eq_addr hdir]
    rfl
  · have hind : d.addr ndirect ≠ 0 := by
      intro h0
      rw [blk, slotOf, if_neg hdir, ptr, if_neg (by omega), if_neg fun h => h.2 h0] at hb
      exact hb rfl
    have hent := blk_eq_entry s.disk (d := d) (by omega) hbn hind
    rw [hent] at hb ⊢
    have hrange : bn - ndirect < nindirect := by
      simp only [maxFile] at hbn
      omega
    rw [if_neg hdir, if_pos hrange, if_neg hind]
    change (if entry (s.disk (d.addr ndirect)) (bn - ndirect) = 0 then _ else
      (return (entry (s.disk (d.addr ndirect)) (bn - ndirect), d)) : StoreM _) s = _
    rw [if_neg hb]
    rfl

def bytesFrom (disk : Disk) (d : Dinode) (off n : Nat) : List UInt8 :=
  (List.range n).map fun i => byteAt disk d (off + i)

theorem bytesFrom_add (disk : Disk) (d : Dinode) (off m n : Nat) :
    bytesFrom disk d off (m + n) = bytesFrom disk d off m ++ bytesFrom disk d (off + m) n := by
  simp only [bytesFrom, List.range_add, List.map_append, List.map_map]
  refine congrArg _ (List.map_congr_left fun i _ => ?_)
  rw [Function.comp, Nat.add_assoc]

variable {m : Nat}

theorem bytesFrom_block {off : Nat} (hm : m ≤ bsize - off % bsize) :
    bytesFrom disk d off m = readBytes (disk (blk disk d (off / bsize))) (off % bsize) m := by
  refine List.map_congr_left fun i hi => ?_
  have hi := List.mem_range.mp hi
  have hdiv : (off + i) / bsize = off / bsize := by
    simp only [bsize] at hm ⊢
    omega
  have hmod : (off + i) % bsize = off % bsize + i := by
    simp only [bsize] at hm ⊢
    omega
  rw [byteAt, hdiv, hmod]

variable {n : Nat}

theorem readLoop_eq {fuel : Nat} (tot off : Nat) (hfuel : n - tot ≤ fuel)
    (hh : ∀ bn, bn * bsize < off + (n - tot) → bn < maxFile ∧ blk s.disk d bn ≠ 0)
    (dst : List UInt8) :
    readLoop sb inum n fuel tot off d dst s =
      .ok ((dst ++ bytesFrom s.disk d off (n - tot), d), s) := by
  induction fuel generalizing tot off dst with
  | zero =>
    have h0 : n - tot = 0 := by omega
    rw [readLoop, h0, bytesFrom, List.range_zero, List.map_nil, List.append_nil]
    rfl
  | succ fuel ih =>
    rw [readLoop]
    by_cases hlt : tot < n
    · rw [if_pos hlt]
      -- one round reads `m` bytes, to the end of the block or of the range
      have hmod : off % bsize < bsize := Nat.mod_lt _ (by simp)
      generalize hm : min (n - tot) (bsize - off % bsize) = m
      have hm1 : 0 < m := by omega
      have hm2 : m ≤ bsize - off % bsize := by omega
      have hm3 : m ≤ n - tot := by omega
      have hbn : off / bsize * bsize < off + (n - tot) :=
        lt_of_le_of_lt (Nat.div_mul_le_self off bsize) (by omega)
      obtain ⟨hlt', hne⟩ := hh _ hbn
      have hsplit : n - tot = m + (n - (tot + m)) := by omega
      have hrec := ih (tot + m) (off + m) (by omega) (fun bn hbn => hh bn (by omega))
        (dst ++ readBytes (s.disk (blk s.disk d (off / bsize))) (off % bsize) m)
      rw [hsplit, bytesFrom_add, bytesFrom_block hm2, ← List.append_assoc]
      change (bmap sb inum d (off / bsize) s >>= fun p => _) = _
      rw [bmap_of_ne_zero hlt' hne]
      exact hrec
    · have h0 : n - tot = 0 := by omega
      rw [if_neg hlt, h0, bytesFrom, List.range_zero, List.map_nil, List.append_nil]
      rfl

theorem toNat_add_of_not_lt {a b : UInt32} (h : ¬ a + b < a) :
    (a + b).toNat = a.toNat + b.toNat := by
  rw [lt_iff_toNat_lt, toNat_add] at h
  have ha := a.toNat_lt
  have hb := b.toNat_lt
  rw [toNat_add]
  omega

theorem bytesFrom_eq_content {off : Nat} (h : off + n ≤ d.size.toNat) :
    bytesFrom disk d off n = ((content disk d).drop off).take n := by
  apply List.ext_getElem
  · simp [bytesFrom]
    omega
  · intro i h₁ h₂
    simp [bytesFrom, content]

def readResult (c : List UInt8) (off n : UInt32) : Option (List UInt8) :=
  if off.toNat > c.length ∨ off + n < off then none else some ((c.drop off.toNat).take n.toNat)

theorem readi_eq_of_range (hdev : d.type ≠ tDev) (off n : UInt32)
    (hh : ∀ bn, bn * bsize < off.toNat + n.toNat → bn * bsize < d.size.toNat →
      bn < maxFile ∧ blk s.disk d bn ≠ 0) :
    readi sb inum d off n s = .ok ((readResult (content s.disk d) off n, d), s) := by
  rw [readi, if_neg hdev, readResult, length_content]
  by_cases hbad : off > d.size ∨ off + n < off
  · have hbad' : off.toNat > d.size.toNat ∨ off + n < off := by
      rwa [gt_iff_lt, lt_iff_toNat_lt] at hbad
    rw [if_pos hbad, if_pos hbad']
    rfl
  · have hbad' : ¬ (off.toNat > d.size.toNat ∨ off + n < off) := by
      rwa [gt_iff_lt, lt_iff_toNat_lt] at hbad
    rw [if_neg hbad, if_neg hbad']
    have hoff : off.toNat ≤ d.size.toNat := by omega
    have hsum := toNat_add_of_not_lt fun h => hbad (Or.inr h)
    -- the number of bytes read is cut at the end of the file
    have hcut : (if off + n > d.size then d.size - off else n).toNat =
        min n.toNat (d.size.toNat - off.toNat) := by
      split
      · next hgt =>
        rw [gt_iff_lt, lt_iff_toNat_lt, hsum] at hgt
        rw [UInt32.toNat_sub_of_le _ _ (UInt32.le_iff_toNat_le.mpr hoff)]
        omega
      · next hle =>
        rw [gt_iff_lt, lt_iff_toNat_lt, hsum] at hle
        omega
    have hloop : readLoop sb inum _ _ 0 off.toNat d [] s = _ :=
      readLoop_eq (n := min n.toNat (d.size.toNat - off.toNat)) 0 off.toNat (Nat.le_refl _)
        (fun bn hbn => hh bn (by omega) (by omega)) []
    rw [List.nil_append, Nat.sub_zero, bytesFrom_eq_content (by omega)] at hloop
    have htake : ((content s.disk d).drop off.toNat).take (min n.toNat (d.size.toNat - off.toNat)) =
        ((content s.disk d).drop off.toNat).take n.toNat := by
      rw [List.take_eq_take_iff]
      simp
    rw [htake] at hloop
    change (readLoop sb inum _ _ 0 off.toNat d [] s >>= fun p => _) = _
    rw [hcut, hloop]
    rfl

/-- **`readi` returns the bytes of the file and changes nothing.** -/
theorem readi_eq (hh : HoleFree s.disk d) (hdev : d.type ≠ tDev) (off n : UInt32) :
    readi sb inum d off n s = .ok ((readResult (content s.disk d) off n, d), s) :=
  readi_eq_of_range hdev off n fun bn _ hbn => hh bn hbn

/-- The bytes of a file after `n` bytes of `src` are written at `off`. -/
def overwrite (c : List UInt8) (off : Nat) (src : Nat → UInt8) (n : Nat) : List UInt8 :=
  (List.range (max c.length (off + n))).map fun o =>
    if off ≤ o ∧ o < off + n then src (o - off) else c.getD o 0

@[simp] theorem length_overwrite (c : List UInt8) (off : Nat) (src : Nat → UInt8) (n : Nat) :
    (overwrite c off src n).length = max c.length (off + n) := by
  simp [overwrite]

theorem overwrite_getElem? {bs : List UInt8} {off : Nat} {src : Nat → UInt8}
    (hoff : off ≤ bs.length) (o : Nat) : (overwrite bs off src n)[o]? =
      if off ≤ o ∧ o < off + n then some (src (o - off)) else bs[o]? := by
  rw [overwrite, List.getElem?_map]
  by_cases ho : o < max bs.length (off + n)
  · rw [List.getElem?_range ho, Option.map_some]
    split
    · rfl
    · have hlt : o < bs.length := by omega
      rw [List.getD_eq_getElem?_getD, List.getElem?_eq_getElem hlt]
      rfl
  · rw [List.getElem?_eq_none (by simpa using ho), Option.map_none, if_neg (by omega),
      List.getElem?_eq_none (by omega)]

theorem Untouched.trans {disk'' : Disk} (h : Untouched disk disk' d)
    (h' : Untouched disk' disk'' d) : Untouched disk disk'' d := by
  intro k hk
  have := h' k (by rwa [h.ptr_eq])
  rw [h.ptr_eq] at this
  rw [this, h k hk]

theorem CopyOk.writeBlock (h : CopyOk sb disk inum d) (hg : Geometry sb)
    (hb : blk disk d bn ≠ 0) (data : Bytes) :
    (∀ k, ptr (update disk (blk disk d bn) data) d k = ptr disk d k) ∧
    (∀ i, i < sb.ninodes →
      dinode sb (update disk (blk disk d bn) data) i = dinode sb disk i) ∧
    CopyOk sb (update disk (blk disk d bn) data) inum d ∧
    ∀ i, i < sb.ninodes → (dinode sb disk i).type ≠ 0 → i ≠ inum →
      Untouched disk (update disk (blk disk d bn) data) (dinode sb disk i) := by
  obtain ⟨hlo, hhi, -⟩ := h.ptr_range hb
  have htable : ∀ i, i < sb.ninodes →
      dinode sb (update disk (blk disk d bn) data) i = dinode sb disk i :=
    fun i hi => dinode_update_of_ge hg ((hg.bmapstart_le hhi).trans hlo) hi data
  have hptr : ∀ k, ptr (update disk (blk disk d bn) data) d k = ptr disk d k := by
    intro k
    have hne := (h.blk_ne_indirect hb).symm
    simp only [ptr, update_of_ne hne]
  have hothers : ∀ i, i < sb.ninodes → (dinode sb disk i).type ≠ 0 → i ≠ inum →
      Untouched disk (update disk (blk disk d bn) data) (dinode sb disk i) := by
    intro i hi ht hne k hk
    rw [update_of_ne]
    have hot := owner_update_other (d := d) hi ht hne k
    intro he
    rw [blk, ← h.owner_self, ← hot] at he
    have := h.owned.inj _ _ (by rwa [hot]) he
    rw [Prod.mk.injEq] at this
    exact hne this.1
  refine ⟨hptr, htable, ⟨h.lt, h.type, ?_⟩, hothers⟩
  refine h.owned.congr ?_ fun c hc => bit_update_of_ge hg hlo hc data
  rintro ⟨i, k⟩
  by_cases hi : i < sb.ninodes
  · by_cases hin : i = inum
    · subst hin
      refine owner_congr (by simp) fun _ _ => ?_
      simpa using hptr k
    · refine owner_congr (by simp [hin, htable i hi]) fun _ ht => ?_
      simp only [update_of_ne hin, htable i hi] at ht ⊢
      exact (hothers i hi ht hin).ptr_eq k
  · rw [owner, owner, if_neg (by simp [hi]), if_neg (by simp [hi])]

/-- `writei` has written the bytes from `off₀` to `off`. -/
structure Writing (sb : Superblock) (inum : Nat) (disk₀ : Disk) (d₀ : Dinode) (src : Nat → UInt8)
    (off₀ off : Nat) (d : Dinode) (disk : Disk) : Prop where
  table : ∀ i, i < sb.ninodes → dinode sb disk i = dinode sb disk₀ i
  copy : CopyOk sb disk inum d
  attrs : d = { d₀ with addrs := d.addrs }
  full : ∀ bn, bn * bsize < max d₀.size.toNat off → blk disk d bn ≠ 0
  bytes : ∀ o, o < max d₀.size.toNat off →
    byteAt disk d o = if off₀ ≤ o ∧ o < off then src (o - off₀) else byteAt disk₀ d₀ o
  others : ∀ i, i < sb.ninodes → (dinode sb disk₀ i).type ≠ 0 → i ≠ inum →
    Untouched disk₀ disk (dinode sb disk₀ i)
  inside : off ≤ d₀.size.toNat → d = d₀
  beyond : ∀ bn, max d₀.size.toNat off ≤ bn * bsize → blk disk d bn = blk disk₀ d₀ bn

theorem Writing.start (hc : CopyOk sb disk inum d) (hh : HoleFree disk d) (src : Nat → UInt8)
    {off : Nat} (hoff : off ≤ d.size.toNat) : Writing sb inum disk d src off off d disk where
  table _ _ := rfl
  copy := hc
  attrs := rfl
  full bn hbn := (hh bn (by omega)).2
  bytes o _ := by rw [if_neg (by omega)]
  others _ _ _ _ _ _ := rfl
  inside _ := rfl
  beyond _ _ := rfl

variable {disk₀ : Disk} {src : Nat → UInt8} {off₀ off : Nat}

variable {d' : Dinode} {addr : Nat}

theorem Writing.round (h : Writing sb inum disk₀ d₀ src off₀ off d disk) (hg : Geometry sb)
    (hoff : off₀ ≤ off) (hm0 : 0 < m) (hm : m ≤ bsize - off % bsize)
    (hmap : Mapped sb disk inum d (off / bsize) addr d' disk') :
    Writing sb inum disk₀ d₀ src off₀ (off + m) d' (update disk' addr
      (moveIn (disk' addr) (off % bsize) m src (off - off₀))) := by
  obtain ⟨htable, hcopy, hattrs, haddr, hne, hkeep, hold, -, hsame⟩ := hmap
  subst haddr
  obtain ⟨hptr₂, htable₂, hcopy₂, hothers₂⟩ := hcopy.writeBlock hg hne
    (moveIn (disk' (blk disk' d' (off / bsize))) (off % bsize) m src (off - off₀))
  have hsz : bsize = 512 := rfl
  have hblk₂ : ∀ c, blk _ d' c = blk disk' d' c := fun c => hptr₂ (slotOf c)
  -- a block that was there is not among those that `bmap` touches
  have hkept : ∀ c, blk disk d c ≠ 0 → c * bsize < max d₀.size.toNat off →
      disk' (blk disk d c) = disk (blk disk d c) := by
    intro c hc _
    obtain ⟨hlo, hhi, hbit⟩ := h.copy.ptr_range hc
    exact hsame _ hlo hhi hbit (h.copy.blk_ne_indirect hc)
  refine ⟨fun i hi => ?_, hcopy₂, ?_, fun bn hbn => ?_, fun o ho => ?_, fun i hi ht hin => ?_,
    fun hle => ?_, fun bn hbn => ?_⟩
  · rw [htable₂ i hi, htable i hi, h.table i hi]
  · rw [hattrs, h.attrs]
  · rw [hblk₂]
    by_cases hb : bn = off / bsize
    · rwa [hb]
    · rw [hkeep bn hb]
      refine h.full bn ?_
      rw [hsz] at hbn hb hm ⊢
      omega
  · rw [byteAt, hblk₂]
    by_cases hb : o / bsize = off / bsize
    · rw [hb, update_self, moveIn]
      by_cases hin : off % bsize ≤ o % bsize ∧ o % bsize < off % bsize + m
      · have hin' : off₀ ≤ o ∧ o < off + m := by
          rw [hsz] at hin hb
          omega
        have hidx : off - off₀ + (o % bsize - off % bsize) = o - off₀ := by
          rw [hsz] at hin hb ⊢
          omega
        rw [if_pos hin, if_pos hin', hidx]
      · -- the byte was there before, so the block was too
        have ho' : o < max d₀.size.toNat off ∧ ¬ (off ≤ o ∧ o < off + m) := by
          rw [hsz] at hin hb hm
          omega
        have hfull := h.full (off / bsize) (by
          rw [← hb]
          exact lt_of_le_of_lt (Nat.div_mul_le_self o bsize) ho'.1)
        obtain ⟨heq, -, rfl⟩ := hold hfull
        rw [if_neg hin, heq]
        have hbyte := h.bytes o ho'.1
        rw [byteAt, hb] at hbyte
        rw [hbyte]
        refine if_congr ?_ rfl rfl
        omega
    · have hout : ¬ (off ≤ o ∧ o < off + m) := by
        rw [hsz] at hb hm
        omega
      have ho' : o < max d₀.size.toNat off := by omega
      have hfull := h.full (o / bsize) (lt_of_le_of_lt (Nat.div_mul_le_self o bsize) ho')
      have hne' : blk disk' d' (o / bsize) ≠ blk disk' d' (off / bsize) := by
        intro e
        refine hb (slotOf_inj (hcopy.ptr_inj ?_ e))
        change blk disk' d' (o / bsize) ≠ 0
        rwa [hkeep _ hb]
      have hbyte := h.bytes o ho'
      rw [byteAt] at hbyte
      rw [update_of_ne hne', hkeep _ hb, hkept _ hfull
        (lt_of_le_of_lt (Nat.div_mul_le_self o bsize) ho'), hbyte]
      refine if_congr ?_ rfl rfl
      omega
  · have ht' : (dinode sb disk i).type ≠ 0 := by rwa [h.table i hi]
    have hu := h.copy.others hsame hi ht' hin
    have hu₂ := hothers₂ i hi (by rwa [htable i hi]) hin
    rw [h.table i hi] at hu
    rw [htable i hi, h.table i hi] at hu₂
    exact ((h.others i hi ht hin).trans hu).trans hu₂
  · have hd := h.inside (by omega)
    have hfull := h.full (off / bsize) (by
      rw [hsz] at hm ⊢
      omega)
    rw [(hold hfull).2.1, hd]
  · have hb : bn ≠ off / bsize := by
      rw [hsz] at hbn ⊢
      omega
    rw [hblk₂, hkeep bn hb, h.beyond bn (by omega)]

/-- The number of blocks that `n` bytes from `off` on lie in. -/
def blocksIn (off n : Nat) : Nat :=
  if n = 0 then 0 else (off + n - 1) / bsize - off / bsize + 1

/-- The number of blocks that are missing among `cnt` blocks from `bn` on, the indirect block
included if one of them needs it. -/
def missing (disk : Disk) (d : Dinode) (bn cnt : Nat) : Nat :=
  ((List.range cnt).countP fun j => blk disk d (bn + j) = 0) +
    if d.addr ndirect = 0 ∧ ndirect < bn + cnt ∧ 0 < cnt then 1 else 0

theorem missing_zero (disk : Disk) (d : Dinode) (bn : Nat) : missing disk d bn 0 = 0 := by
  simp [missing]

theorem missing_congr (h : ∀ c, blk disk' d' c = blk disk d c)
    (hind : d'.addr ndirect = d.addr ndirect) (bn cnt : Nat) :
    missing disk' d' bn cnt = missing disk d bn cnt := by
  simp only [missing, h, hind]

theorem need_le_missing (disk : Disk) (d : Dinode) (bn cnt : Nat) :
    need disk d bn ≤ missing disk d bn (cnt + 1) := by
  rw [need, missing, List.range_succ_eq_map, List.countP_cons]
  have hfirst : (if blk disk d bn = 0 then 1 else 0) ≤
      if (decide (blk disk d (bn + 0) = 0)) = true then 1 else 0 := by simp
  have hind : (if ndirect ≤ bn ∧ d.addr ndirect = 0 then 1 else 0) ≤
      if d.addr ndirect = 0 ∧ ndirect < bn + (cnt + 1) ∧ 0 < cnt + 1 then 1 else 0 := by
    split_ifs <;> omega
  omega

theorem missing_mapped (cnt : Nat) (h : Mapped sb disk inum d bn addr d' disk') :
    need disk d bn + missing disk' d' (bn + 1) cnt ≤ missing disk d bn (cnt + 1) := by
  have hcount : ((List.range (cnt + 1)).countP fun j => blk disk d (bn + j) = 0) =
      (if blk disk d bn = 0 then 1 else 0) +
        (List.range cnt).countP fun j => blk disk' d' (bn + 1 + j) = 0 := by
    rw [List.range_succ_eq_map, List.countP_cons, List.countP_map, Nat.add_comm]
    congr 1
    · simp
    · refine List.countP_congr fun j _ => ?_
      rw [h.keep _ (by omega)]
      simp [Nat.add_comm 1 j, Nat.add_assoc]
  rw [missing, missing, need, hcount]
  by_cases hind : d.addr ndirect = 0
  · by_cases hbn : bn < ndirect
    · rw [h.indirect (Or.inr hbn), if_neg (c := ndirect ≤ bn ∧ _) (by omega)]
      split_ifs <;> omega
    · have hne : d'.addr ndirect ≠ 0 := by
        intro h0
        have haddr := h.addr_eq
        rw [blk, slotOf, if_neg hbn, ptr, if_neg (by omega), if_neg fun hc => hc.2 h0] at haddr
        exact h.ne haddr.symm
      rw [if_neg (c := d'.addr ndirect = 0 ∧ _) fun hc => hne hc.1]
      split_ifs <;> omega
  · have hno : ∀ p : Prop, ¬ (d.addr ndirect = 0 ∧ p) := fun p hc => hind hc.1
    rw [h.indirect (Or.inl hind), if_neg (c := ndirect ≤ bn ∧ _) fun hc => hind hc.2,
      if_neg (hno (ndirect < bn + 1 + cnt ∧ 0 < cnt)),
      if_neg (hno (ndirect < bn + (cnt + 1) ∧ 0 < cnt + 1))]
    omega

theorem blocksIn_round (off : Nat) (hn : 0 < n) (hm : m = min n (bsize - off % bsize)) :
    blocksIn off n = 1 + blocksIn (off + m) (n - m) ∧
      (blocksIn (off + m) (n - m) = 0 ∨ (off + m) / bsize = off / bsize + 1) := by
  simp only [blocksIn, bsize] at hm ⊢
  split_ifs <;> omega

theorem missing_of_ne (cnt : Nat) (h : blk disk d bn ≠ 0) :
    missing disk d bn (cnt + 1) ≤ missing disk d (bn + 1) cnt := by
  have hcount : ((List.range (cnt + 1)).countP fun j => blk disk d (bn + j) = 0) =
      (List.range cnt).countP fun j => blk disk d (bn + 1 + j) = 0 := by
    rw [List.range_succ_eq_map, List.countP_cons, List.countP_map]
    simp [h, Function.comp_def, Nat.add_comm, Nat.add_left_comm]
  rw [missing, missing, hcount]
  by_cases hind : d.addr ndirect = 0 ∧ ndirect < bn + (cnt + 1) ∧ 0 < cnt + 1
  · have hbn : bn < ndirect := by
      by_contra hge
      rw [blk_of_no_indirect (not_lt.mp hge) hind.1] at h
      exact h rfl
    have := hind.2.1
    rw [if_pos hind, if_pos ⟨hind.1, by omega, by omega⟩]
  · rw [if_neg hind]
    omega

/-- A round of the loop allocates what was missing for its block, and the bytes after it miss no
more than before. -/
theorem missing_round {off r : Nat}
    (h : Mapped sb disk inum d (off / bsize) addr d' disk') (hm : 0 < m)
    (hmb : m ≤ bsize - off % bsize) (hmr : m ≤ r) :
    need disk d (off / bsize) + missing disk' d' ((off + m) / bsize) (blocksIn (off + m) (r - m)) ≤
      missing disk d (off / bsize) (blocksIn off r) := by
  obtain ⟨cnt, hcnt⟩ : ∃ cnt, blocksIn off r = cnt + 1 := ⟨_, if_neg (by omega)⟩
  have hstep := missing_mapped cnt h
  rw [hcnt]
  suffices hle : missing disk' d' ((off + m) / bsize) (blocksIn (off + m) (r - m)) ≤
      missing disk' d' (off / bsize + 1) cnt by omega
  have hcases : blocksIn (off + m) (r - m) = 0 ∨
      ((off + m) / bsize = off / bsize + 1 ∧ blocksIn (off + m) (r - m) = cnt) ∨
      (off + m) / bsize = off / bsize ∧ blocksIn (off + m) (r - m) = cnt + 1 := by
    simp only [blocksIn, bsize] at hcnt hmb ⊢
    split_ifs at hcnt ⊢ <;> omega
  rcases hcases with h0 | ⟨hnext, hrest⟩ | ⟨hsame, hrest⟩
  · rw [h0, missing_zero]
    exact Nat.zero_le _
  · rw [hnext, hrest]
  · rw [hsame, hrest]
    exact missing_of_ne cnt (by rw [h.addr_eq]; exact h.ne)

theorem keepFor_mono {s s' : Store} (h : ∀ c, s'.new c ≤ s.new c) (d : Dinode) :
    keepFor s' d ≤ keepFor s d := by
  rw [keepFor, keepFor]
  split
  · exact Nat.le_refl _
  · exact h _

theorem Store.new_logged_le (s : Store) (b : Nat) (data : Bytes) (c : Nat) :
    (s.logged b data).new c ≤ s.new c := by
  rw [Store.new, Store.new]
  by_cases hc : c ∈ s.lh
  · rw [if_pos hc, if_pos ((s.mem_lh_logged b data).mpr (Or.inl hc))]
  · rw [if_neg hc]
    split <;> omega

theorem wp_writeLoop (hg : Geometry sb) (off₀ tot : Nat) {N fuel k : Nat} (hN : n ≤ N)
    {Q : Dinode → Store → Prop}
    (hw : Writing sb inum disk₀ d₀ src off₀ (off₀ + tot) d s.disk) (htot : tot ≤ n)
    (hmax : off₀ + n ≤ maxFile * bsize) (hfuel : n - tot ≤ fuel) (ha : AllocsOk sb s)
    (hb : Budget sb E (k + 2 * blocksIn (off₀ + tot) (n - tot) + keepFor s d)
      (missing s.disk d ((off₀ + tot) / bsize) (blocksIn (off₀ + tot) (N - tot))) s)
    (hQ : ∀ d' s', Writing sb inum disk₀ d₀ src off₀ (off₀ + n) d' s'.disk → AllocsOk sb s' →
      Budget sb E k (missing s'.disk d' ((off₀ + n) / bsize) (blocksIn (off₀ + n) (N - n))) s' →
      Q d' s') : wp (writeLoop sb inum src n fuel tot (off₀ + tot) d) Q E s := by
  induction fuel generalizing tot d s with
  | zero =>
    have htn : tot = n := by omega
    subst htn
    exact hQ d s hw ha (hb.mono (by omega) (Nat.le_refl _))
  | succ fuel ih =>
    rw [writeLoop]
    refine wp_ite (fun hlt => ?_) fun hge => ?_
    · have hmod : (off₀ + tot) % bsize < bsize := Nat.mod_lt _ (by simp)
      obtain ⟨hblocks, hnext⟩ := blocksIn_round (off₀ + tot) (n := n - tot) (by omega) rfl
      generalize hm : min (n - tot) (bsize - (off₀ + tot) % bsize) = m at hblocks hnext
      have hm0 : 0 < m := by omega
      have hbn : (off₀ + tot) / bsize < maxFile := by
        refine Nat.div_lt_of_lt_mul ?_
        rw [Nat.mul_comm]
        omega
      have hrest : n - tot - m = n - (tot + m) := by omega
      rw [hrest, Nat.add_assoc off₀ tot m] at hblocks hnext
      rw [hblocks] at hb
      -- what this block needs, and what is left for the others
      obtain ⟨cnt, hcnt⟩ : ∃ cnt, blocksIn (off₀ + tot) (N - tot) = cnt + 1 :=
        ⟨_, if_neg (by omega)⟩
      have hneed := need_le_missing s.disk d ((off₀ + tot) / bsize) cnt
      rw [← hcnt] at hneed
      refine wp_bind.mpr (wp_bmap hg hw.copy hbn ha
        (n := k + 2 * blocksIn (off₀ + (tot + m)) (n - (tot + m)))
        (f := missing s.disk d ((off₀ + tot) / bsize) (blocksIn (off₀ + tot) (N - tot)) -
          need s.disk d ((off₀ + tot) / bsize))
        (hb.mono (by omega) (by omega)) fun addr d' s' hmap ha' hb' => ?_)
      · have hw' := hw.round hg (Nat.le_add_right _ _) hm0 (by omega) hmap
        rw [Nat.add_sub_cancel_left, Nat.add_assoc] at hw'
        obtain ⟨hptr, -⟩ := hmap.copy.writeBlock hg (by rw [hmap.addr_eq]; exact hmap.ne)
          (moveIn (s'.disk addr) ((off₀ + tot) % bsize) m src tot)
        rw [hmap.addr_eq] at hptr
        obtain ⟨hlo, -, -⟩ := hmap.copy.ptr_range (k := slotOf ((off₀ + tot) / bsize)) (by
          change blk s'.disk d' ((off₀ + tot) / bsize) ≠ 0
          rw [hmap.addr_eq]
          exact hmap.ne)
        change sb.nmeta ≤ blk s'.disk d' ((off₀ + tot) / bsize) at hlo
        rw [hmap.addr_eq] at hlo
        refine wp_bind.mpr (wp_bread (wp_bind.mpr (wp_logWrite hb' ?_)))
        rw [Nat.add_assoc off₀ tot m]
        refine ih (tot + m) hw' (by omega) (by omega) ha' ?_
        refine (Budget.logged (n := k + 2 * blocksIn (off₀ + (tot + m)) (n - (tot + m)) +
          keepFor s' d') (hb'.mono (by omega) (Nat.le_refl _)) (g := missing s.disk d
            ((off₀ + tot) / bsize) (blocksIn (off₀ + tot) (N - tot)) -
              need s.disk d ((off₀ + tot) / bsize)) fun hf => ?_).mono ?_ ?_
        · rwa [freeCount_congr fun c hc => bit_update_of_ge hg hlo hc _]
        · have := keepFor_mono (Store.new_logged_le s' addr
            (moveIn (s'.disk addr) ((off₀ + tot) % bsize) m src tot)) d'
          omega
        · change missing (update s'.disk addr _) d' _ _ ≤ _
          rw [missing_congr (fun c => hptr (slotOf c)) rfl]
          have hround := missing_round hmap hm0 (by omega) (show m ≤ N - tot by omega)
          rw [Nat.add_assoc, show N - tot - m = N - (tot + m) by omega] at hround
          omega
    · have htn : tot = n := by omega
      subst htn
      exact hQ d s hw ha (hb.mono (by omega) (Nat.le_refl _))

/-- The disk after a write to inode `inum`. -/
structure Written (sb : Superblock) (inum : Nat) (disk₀ : Disk) (src : Nat → UInt8) (off n : Nat)
    (disk : Disk) : Prop where
  ok : DiskOk sb disk
  attrs : ∃ addrs, dinode sb disk inum = { dinode sb disk₀ inum with
    size := UInt32.ofNat (max (dinode sb disk₀ inum).size.toNat (off + n)), addrs := addrs }
  content_eq : content disk (dinode sb disk inum) =
    overwrite (content disk₀ (dinode sb disk₀ inum)) off src n
  table : ∀ i, i < sb.ninodes → i ≠ inum → dinode sb disk i = dinode sb disk₀ i
  others : ∀ i, i < sb.ninodes → (dinode sb disk₀ i).type ≠ 0 → i ≠ inum →
    content disk (dinode sb disk i) = content disk₀ (dinode sb disk₀ i)
  untouched : ∀ i, i < sb.ninodes → (dinode sb disk₀ i).type ≠ 0 → i ≠ inum →
    Untouched disk₀ disk (dinode sb disk₀ i)
  beyond : ∀ bn, (dinode sb disk inum).size.toNat ≤ bn * bsize →
    blk disk (dinode sb disk inum) bn = blk disk₀ (dinode sb disk₀ inum) bn

theorem byteAt_congr_addr (h : ∀ k, d'.addr k = d.addr k) (o : Nat) :
    byteAt disk d' o = byteAt disk d o := by
  rw [byteAt, byteAt, blk, blk, ptr_congr_addr h]

/-- The bytes of the copy are those of the overwritten file once it has the right size. -/
theorem Writing.content_eq
    (h : Writing sb inum disk₀ d₀ src off (off + n) d disk) (hoff : off ≤ d₀.size.toNat)
    (haddr : ∀ k, d'.addr k = d.addr k) (hsize : d'.size.toNat = max d₀.size.toNat (off + n)) :
    content disk d' = overwrite (content disk₀ d₀) off src n := by
  rw [overwrite, length_content, content, hsize]
  refine List.map_congr_left fun o ho => ?_
  rw [byteAt_congr_addr haddr, h.bytes o (List.mem_range.mp ho)]
  by_cases hin : off ≤ o ∧ o < off + n
  · rw [if_pos hin, if_pos hin]
  · have ho := List.mem_range.mp ho
    have hlt : o < (content disk₀ d₀).length := by
      rw [length_content]
      omega
    rw [if_neg hin, if_neg hin, List.getD_eq_getElem _ _ hlt, getElem_content]

theorem Writing.holeFree
    (h : Writing sb inum disk₀ d₀ src off (off + n) d disk) (hmax : off + n ≤ maxFile * bsize)
    (hh : HoleFree disk₀ d₀) (haddr : ∀ k, d'.addr k = d.addr k)
    (hsize : d'.size.toNat = max d₀.size.toNat (off + n)) : HoleFree disk d' := by
  intro bn hbn
  have hle := hh.size_le
  rw [hsize] at hbn
  refine ⟨?_, ?_⟩
  · by_contra hge
    have : maxFile * bsize ≤ bn * bsize := Nat.mul_le_mul_right _ (by omega)
    omega
  · rw [blk, ptr_congr_addr haddr]
    exact h.full bn hbn

theorem Writing.written (hg : Geometry sb) (hok : DiskOk sb disk₀)
    (h : Writing sb inum disk₀ (dinode sb disk₀ inum) src off (off + n) d disk)
    (hoff : off ≤ (dinode sb disk₀ inum).size.toNat) (hmax : off + n ≤ maxFile * bsize)
    (d' : Dinode) (hd' : d' = { d with size := UInt32.ofNat (max (dinode sb disk₀ inum).size.toNat (off + n)) }) :
    Written sb inum disk₀ src off n (setDinode sb disk inum d') ∧
      ∀ bn cnt, missing (setDinode sb disk inum d') d' bn cnt = missing disk d bn cnt := by
  have hi := h.copy.lt
  have ht₀ : (dinode sb disk₀ inum).type ≠ 0 := by
    have := h.copy.type
    rwa [h.attrs] at this
  have hle := (hok.holes inum hi ht₀).size_le
  have hsize : d'.size.toNat = max (dinode sb disk₀ inum).size.toNat (off + n) := by
    rw [hd']
    refine UInt32.toNat_ofNat_of_lt' (lt_of_le_of_lt (b := maxFile * bsize) (by omega) ?_)
    decide
  have haddr : ∀ k, d'.addr k = d.addr k := fun k => by rw [hd']; rfl
  have hc : CopyOk sb disk inum d' := h.copy.congr_addr (by rw [hd']) haddr
  have hh := h.holeFree hmax (hok.holes inum hi ht₀) haddr hsize
  -- files other than the one written keep their blocks
  have hothers : ∀ i, i < sb.ninodes → (dinode sb disk₀ i).type ≠ 0 → i ≠ inum →
      HoleFree disk (dinode sb disk₀ i) ∧
        content disk (dinode sb disk₀ i) = content disk₀ (dinode sb disk₀ i) := fun i hi ht hne =>
    ⟨(h.others i hi ht hne).holeFree (hok.holes i hi ht),
      (h.others i hi ht hne).content_eq (hok.holes i hi ht)⟩
  have hstore := hc.store hg hh fun i hi ht hne => by
    rw [h.table i hi] at ht ⊢
    exact (hothers i hi ht hne).1
  have hdata : ∀ b, sb.nmeta ≤ b → setDinode sb disk inum d' b = disk b :=
    fun b hb => setDinode_of_ge hg hi hb
  have hu := hc.owned.untouched_of_data hdata hi (by rw [update_self]; exact hc.type)
  rw [update_self] at hu
  have huo : ∀ i, i < sb.ninodes → (dinode sb disk₀ i).type ≠ 0 → i ≠ inum →
      Untouched disk (setDinode sb disk inum d') (dinode sb disk₀ i) := by
    intro i hi ht hne
    have ht' : (dinode sb disk i).type ≠ 0 := by rwa [h.table i hi]
    have hu := hc.owned.untouched_of_data hdata hi (by rwa [update_of_ne hne])
    rwa [update_of_ne hne, h.table i hi] at hu
  have hblk : ∀ bn, blk (setDinode sb disk inum d') d' bn = blk disk d bn := fun bn => by
    rw [hu.blk_eq, blk, ptr_congr_addr haddr, blk]
  refine ⟨⟨hstore, ⟨d.addrs, ?_⟩, ?_, fun i hi hne => ?_, fun i hi ht hne => ?_,
    fun i hi ht hne => (h.others i hi ht hne).trans (huo i hi ht hne), fun bn hbn => ?_⟩,
    missing_congr hblk (haddr _)⟩
  · rw [dinode_setDinode_self, hd', h.attrs]
  · rw [dinode_setDinode_self, hu.content_eq hh, h.content_eq hoff haddr hsize]
  · rw [dinode_setDinode_of_ne hne, h.table i hi]
  · rw [dinode_setDinode_of_ne hne, h.table i hi,
      (huo i hi ht hne).content_eq (hothers i hi ht hne).1, (hothers i hi ht hne).2]
  · rw [dinode_setDinode_self] at hbn ⊢
    rw [hblk]
    exact h.beyond bn (by rwa [hsize] at hbn)

/-- A write that starts inside the file and ends below the largest file size. -/
def Accepted (d : Dinode) (off n : UInt32) : Prop :=
  off.toNat ≤ d.size.toNat ∧ off.toNat + n.toNat ≤ maxFile * bsize

instance (d : Dinode) (off n : UInt32) : Decidable (Accepted d off n) :=
  inferInstanceAs (Decidable (_ ∧ _))

theorem Accepted.not_refused {off n : UInt32} (h : Accepted d off n) :
    ¬ (off > d.size ∨ off + n < off) ∧ ¬ (off + n).toNat > maxFile * bsize ∧
      (off + n).toNat = off.toNat + n.toNat := by
  obtain ⟨hoff, hmax⟩ := h
  have hsum : (off + n).toNat = off.toNat + n.toNat := by
    rw [toNat_add, Nat.mod_eq_of_lt]
    exact lt_of_le_of_lt hmax (by decide)
  rw [gt_iff_lt, lt_iff_toNat_lt, lt_iff_toNat_lt, hsum]
  omega

/-- `writei` refuses every other write and changes nothing. -/
theorem writei_refused {off n : UInt32} (hdev : d.type ≠ tDev) (h : ¬ Accepted d off n) :
    writei sb inum d src off n s = .ok ((none, d), s) := by
  rw [writei, if_neg hdev]
  by_cases hbad : off > d.size ∨ off + n < off
  · rw [if_pos hbad]
    rfl
  · have hsum := toNat_add_of_not_lt fun hlt => hbad (Or.inr hlt)
    rw [not_or, gt_iff_lt, lt_iff_toNat_lt] at hbad
    have hbig : (off + n).toNat > maxFile * bsize := by
      rw [hsum]
      by_contra hle
      exact h ⟨by omega, by omega⟩
    rw [if_neg (by rw [not_or, gt_iff_lt, lt_iff_toNat_lt]; exact hbad), if_pos hbig]
    rfl

/-- **`writei` overwrites the range and leaves every other file alone.** What is free for `N` bytes
from `off` on is still free for those after the range. -/
theorem wp_writei (hg : Geometry sb) (hok : DiskOk sb s.disk) (ha : AllocsOk sb s)
    (hi : inum < sb.ninodes) (ht : (dinode sb s.disk inum).type ≠ 0)
    (hdev : (dinode sb s.disk inum).type ≠ tDev) {off n : UInt32}
    (hacc : Accepted (dinode sb s.disk inum) off n) {N : Nat} (hN : n.toNat ≤ N) (hb : Budget sb E
      (1 + 2 * blocksIn off.toNat n.toNat + keepFor s (dinode sb s.disk inum))
      (missing s.disk (dinode sb s.disk inum) (off.toNat / bsize) (blocksIn off.toNat N)) s)
    {Q : Option UInt32 × Dinode → Store → Prop}
    (hQ : ∀ s', Written sb inum s.disk src off.toNat n.toNat s'.disk → AllocsOk sb s' →
      Budget sb E 0 (missing s'.disk (dinode sb s'.disk inum) ((off.toNat + n.toNat) / bsize)
        (blocksIn (off.toNat + n.toNat) (N - n.toNat))) s' →
      Q (some n, dinode sb s'.disk inum) s') :
    wp (writei sb inum (dinode sb s.disk inum) src off n) Q E s := by
  obtain ⟨hnot, hnot', hsum⟩ := hacc.not_refused
  obtain ⟨hoff, hmax⟩ := hacc
  rw [writei, if_neg hdev, if_neg hnot, if_neg hnot']
  have hstart := Writing.start (hok.copyOk hi ht) (hok.holes inum hi ht) src hoff
  refine wp_bind.mpr (wp_writeLoop hg off.toNat 0 (k := 1) hN hstart (Nat.zero_le _) hmax
    (Nat.le_refl _) ha (by simpa using hb) fun d' s' hw ha' hb' => ?_)
  have hsize : d'.size = (dinode sb s.disk inum).size := by rw [hw.attrs]
  by_cases hgrow : n > 0 ∧ off + n > d'.size
  · -- the file grows: the copy is stored with its new size
    have hnew : off + n =
        UInt32.ofNat (max (dinode sb s.disk inum).size.toNat (off.toNat + n.toNat)) := by
      have hlt := hgrow.2
      rw [gt_iff_lt, lt_iff_toNat_lt, hsize, hsum] at hlt
      rw [max_eq_right (by omega), ← hsum, ofNat_toNat]
    obtain ⟨hdone, hmiss⟩ := hw.written hg hok hoff hmax { d' with size := off + n } (by rw [hnew])
    rw [← Store.logged_iblock_disk] at hdone
    have hres := hQ _ hdone ha'
    rw [Store.logged_iblock_disk, dinode_setDinode_self, hmiss] at hres
    have hres := hres (Budget.logged (hb'.mono (by have := s'.new_le_one (iblock sb inum); omega)
      (Nat.le_refl _)) fun hf => by
        refine hf.trans_eq (freeCount_congr fun c _ => ?_).symm
        exact (congrArg (bit sb · c) (s'.logged_iblock_disk inum _)).trans (bit_setDinode hg hi _))
    rw [if_pos hgrow]
    exact wp_bind.mpr (wp_iupdate hb' hres)
  · -- it does not: the copy was not changed
    have hle : off.toNat + n.toNat ≤ (dinode sb s.disk inum).size.toNat := by
      by_contra hlt
      have hn : 0 < n.toNat := by omega
      refine hgrow ⟨?_, ?_⟩
      · rw [gt_iff_lt, lt_iff_toNat_lt]
        exact hn
      · rw [gt_iff_lt, lt_iff_toNat_lt, hsize, hsum]
        omega
    obtain rfl := hw.inside hle
    have hdone := (hw.written hg hok hoff hmax (dinode sb s.disk inum) (by
      rw [max_eq_left hle, ofNat_toNat])).1
    rw [← hw.table inum hi, setDinode_dinode] at hdone
    have hres := hQ s' hdone ha'
    rw [hw.table inum hi] at hres
    rw [if_neg hgrow]
    exact hres (hb'.mono (Nat.zero_le _) (Nat.le_refl _))

structure StoreOk (sb : Superblock) (s : Store) : Prop where
  geometry : Geometry sb
  disk : DiskOk sb s.disk
  allocs : AllocsOk sb s

/-- The caller is in a transaction, and there is room for a write of `n` bytes at `off`: two
blocks of the log for each block written, one for the inode and two for its indirect block,
and a free block for each that is missing. -/
def Room (sb : Superblock) (s : Store) (d : Dinode) (off n : Nat) : Prop :=
  1 ≤ s.outstanding ∧ s.lh.length + (2 * blocksIn off n + 3) < logLimit sb ∧
    missing s.disk d (off / bsize) (blocksIn off n) ≤ freeCount sb s.disk

theorem keepFor_le (s : Store) (d : Dinode) : keepFor s d ≤ 2 := by
  rw [keepFor]
  split
  · exact Nat.le_refl _
  · exact (s.new_le_one _).trans (by omega)

theorem Room.budget (h : Room sb s d off n) :
    Budget sb E (1 + 2 * blocksIn off n + keepFor s d)
      (missing s.disk d (off / bsize) (blocksIn off n)) s := by
  have := keepFor_le s d
  exact Or.inr ⟨h.1, by have := h.2.1; omega, h.2.2⟩

def oneFile : Store where
  disk := setDinode Mkfs.sb (Mkfs.blank Mkfs.nmeta) 1 { Dinode.zero with type := tFile }
  outstanding := 1
  lh := []
  allocs := []

theorem storeOk_oneFile : StoreOk Mkfs.sb oneFile where
  geometry := Mkfs.geometry
  disk := Mkfs.diskOk_blank.ialloc Mkfs.geometry (by decide)
    (by rw [Mkfs.dinode_blank (by decide)]; rfl) (by decide)
  allocs _ ha := absurd ha (by simp [oneFile])

theorem dinode_oneFile : dinode Mkfs.sb oneFile.disk 1 = { Dinode.zero with type := tFile } :=
  dinode_setDinode_self _ _

theorem freeCount_oneFile : 1941 ≤ freeCount Mkfs.sb oneFile.disk := by
  have hsub : Finset.Ico 59 2000 ⊆
      (Finset.range Mkfs.sb.size).filter fun b => bit Mkfs.sb oneFile.disk b = false := by
    intro b hb
    obtain ⟨hlo, hhi⟩ := Finset.mem_Ico.mp hb
    rw [Finset.mem_filter, Finset.mem_range, oneFile, bit_setDinode Mkfs.geometry (by decide),
      Mkfs.bit_blank hhi]
    exact ⟨hhi, decide_eq_false (by change ¬ b < 59; omega)⟩
  calc 1941 = (Finset.Ico 59 2000).card := by rw [Nat.card_Ico]
    _ ≤ freeCount Mkfs.sb oneFile.disk := Finset.card_le_card hsub

end Xv6.Fs
