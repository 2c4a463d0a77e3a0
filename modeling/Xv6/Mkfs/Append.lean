import Xv6.Mkfs.Image

/-!
# Appending to a file of the image

`iappend` finds blocks as `bmap` does, with a counter in place of the free map. Seen with the free
map that `mkfs` writes in the end, the image is well formed after each append. Either the caller of
a specification accepts that the program fails, or enough blocks are left, and then it does not
fail.
-/

namespace Xv6.Mkfs

open Fs Kernel Hoare
open Function (update update_self update_of_ne update_eq_self update_idem)

def Image.view (s : Image) : Disk := update s.disk sb.bmapstart (balloc s.freeblock)

/-- Failures are accepted, or `f` blocks are left. -/
def Spare (E : Failure → Prop) (f : Nat) (s : Image) : Prop :=
  (∀ e, E e) ∨ s.freeblock + f ≤ fsSize

/-- The image has its size, the blocks not taken are zero, and the blocks before the free map, the
next inode and the record are those of `s₀`. -/
structure Intact (s₀ s : Image) : Prop where
  sectors : s.sectors = fsSize
  freeinode : s.freeinode = s₀.freeinode
  written : s.written = s₀.written
  lo : nmeta ≤ s.freeblock
  hi : s.freeblock ≤ fsSize
  zero : ∀ b, s.freeblock ≤ b → b < fsSize → s.disk b = zeroBlock
  low : ∀ b, b < sb.bmapstart → s.disk b = s₀.disk b

variable {s s₀ : Image} {inum : Nat} {d : Dinode} {E : Failure → Prop} {α : Type} {f : Nat}

variable {b : Nat}

theorem view_of_ne (s : Image) (hb : b ≠ sb.bmapstart) : s.view b = s.disk b :=
  update_of_ne hb _ _

theorem bit_view (s : Image) (hb : b < sb.size) : bit sb s.view b = decide (b < s.freeblock) :=
  bit_map _ _ (lt_bpb hb)

variable {i : Nat}

theorem dinode_view (s : Image) (hi : iblock sb i < sb.bmapstart) :
    dinode sb s.view i = dinode sb s.disk i := by
  rw [dinode, view_of_ne s hi.ne, dinode]

theorem view_write (s : Image) (hb : b ≠ sb.bmapstart) (buf : Bytes) :
    ({ s with disk := update s.disk b buf } : Image).view = update s.view b buf := by
  rw [Image.view, Image.view, Function.update_comm hb]

theorem balloc_succ (used : Nat) : balloc (used + 1) =
    update (balloc used) (used / 8) (setBitOf (balloc used (used / 8)) (used % 8) true) := by
  rw [balloc, List.range_succ, List.foldl_append]
  rfl

/-- `freeblock++` is `balloc` of the kernel, on a disk whose free blocks are zero. -/
theorem view_take (h : Intact s₀ s) (hlt : s.freeblock < sb.size) :
    ({ s with freeblock := s.freeblock + 1 } : Image).view = allocDisk sb s.view s.freeblock := by
  have hblock : bblock sb s.freeblock = sb.bmapstart := by
    rw [bblock, Nat.div_eq_of_lt (lt_bpb hlt), Nat.zero_add]
  have hmap : s.view sb.bmapstart = balloc s.freeblock := update_self _ _ _
  have hset : setBit sb s.view s.freeblock true =
      update s.disk sb.bmapstart (balloc (s.freeblock + 1)) := by
    rw [setBit, hblock, Nat.mod_eq_of_lt (lt_bpb hlt), hmap, ← balloc_succ, Image.view,
      update_idem]
  have hne : s.freeblock ≠ sb.bmapstart := by
    have hlo : 59 ≤ s.freeblock := h.lo
    change s.freeblock ≠ 58
    omega
  have hzero : update s.disk sb.bmapstart (balloc (s.freeblock + 1)) s.freeblock =
      zeroBlock := by
    rw [update_of_ne hne, h.zero _ (Nat.le_refl _) hlt]
  rw [allocDisk, hset, ← hzero, update_eq_self]
  rfl

theorem clear_view (s : Image) (hlt : s.freeblock < sb.size) : bit sb s.view s.freeblock = false := by
  rw [bit_view s hlt]
  exact decide_eq_false (Nat.lt_irrefl _)

theorem Intact.take (h : Intact s₀ s) (hlt : s.freeblock < fsSize) :
    Intact s₀ { s with freeblock := s.freeblock + 1 } where
  sectors := h.sectors
  freeinode := h.freeinode
  written := h.written
  lo := h.lo.trans (Nat.le_succ _)
  hi := hlt
  zero b hb := h.zero b ((Nat.le_succ _).trans hb)
  low := h.low

theorem Intact.write (h : Intact s₀ s) (hlo : nmeta ≤ b) (hlt : b < s.freeblock)
    (buf : Bytes) : Intact s₀ { s with disk := update s.disk b buf } where
  sectors := h.sectors
  freeinode := h.freeinode
  written := h.written
  lo := h.lo
  hi := h.hi
  zero c hc hlt' := by
    have hne : c ≠ b := by
      change s.freeblock ≤ c at hc
      omega
    change update s.disk b buf c = _
    rw [update_of_ne hne, h.zero c hc hlt']
  low c hc := by
    have hne : c ≠ b := by
      have hmap : sb.bmapstart ≤ nmeta := by decide
      omega
    change update s.disk b buf c = _
    rw [update_of_ne hne, h.low c hc]

variable {Q : Unit → Image → Prop}

theorem wp_wsect {sec : Nat} {buf : Bytes} (hs : s.sectors = fsSize)
    (hsec : sec < fsSize) (hQ : Q () { s with disk := update s.disk sec buf }) :
    wp (wsect sec buf) Q E s := by
  have hmax : max s.sectors (sec + 1) = s.sectors := by omega
  rw [wp, wsect, if_neg (by omega), hmax]
  exact hQ

theorem wp_rsect {sec : Nat} {Q : Bytes → Image → Prop} (hs : s.sectors = fsSize)
    (hfail : fsSize ≤ sec → ∀ e, E e) (hQ : sec < fsSize → Q (s.disk sec) s) :
    wp (rsect sec) Q E s := by
  rw [wp, rsect]
  by_cases hgt : sec > fsSize
  · rw [if_pos hgt]
    exact hfail (by omega) _
  · rw [if_neg hgt]
    by_cases hend : s.sectors ≤ sec
    · rw [if_pos hend]
      exact hfail (by omega) _
    · rw [if_neg hend]
      exact hQ (by omega)

theorem wp_takeBlock {Q : Nat → Image → Prop}
    (hQ : Q s.freeblock { s with freeblock := s.freeblock + 1 }) : wp takeBlock Q E s := hQ

theorem wp_assert {cond : Bool} {text : String}
    (hfail : cond = false → ∀ e, E e) (hQ : cond = true → Q () s) :
    wp (Mkfs.assert cond text) Q E s := by
  rw [Mkfs.assert]
  cases cond with
  | true => exact hQ rfl
  | false => exact hfail rfl _

theorem ptr_taken (hc : CopyOk sb s.view inum d) {k : Nat} (hk : ptr s.view d k ≠ 0) :
    nmeta ≤ ptr s.view d k ∧ ptr s.view d k < s.freeblock ∧ ptr s.view d k < fsSize := by
  obtain ⟨hlo, hhi, hbit⟩ := hc.ptr_range hk
  rw [bit_view s hhi] at hbit
  exact ⟨hlo, of_decide_eq_true hbit, hhi⟩

theorem wp_blockFor_entry (h : Intact s₀ s) (hc : CopyOk sb s.view inum d) {fbn : Nat}
    (hlo : ndirect ≤ fbn) (hfbn : fbn < maxFile) (hind : d.addr ndirect ≠ 0)
    (hb : Spare E (f + if blk s.view d fbn = 0 then 1 else 0) s) {Q : Nat × Dinode → Image → Prop}
    (hQ : ∀ x s', Mapped sb s.view inum d fbn x d s'.view → Intact s₀ s' → Spare E f s' → Q (x, d) s')
    (hbad : (∀ e, E e) → ∀ x s', fsSize ≤ x → s'.sectors = fsSize → Q (x, d) s') :
    wp (do
      let indirect ← rsect (d.addr ndirect)
      if entry indirect (fbn - ndirect) = 0 then
        let b ← takeBlock
        wsect (d.addr ndirect) (setEntry indirect (fbn - ndirect) b)
        return (entry (setEntry indirect (fbn - ndirect) b) (fbn - ndirect), d)
      else return (entry indirect (fbn - ndirect), d)) Q E s := by
  have hp : ptr s.view d ndirect ≠ 0 := by rwa [ptr_ndirect]
  obtain ⟨hlo', hlt', hsize'⟩ := ptr_taken hc hp
  rw [ptr_ndirect] at hlo' hlt' hsize'
  have hne : d.addr ndirect ≠ sb.bmapstart := by
    change 59 ≤ d.addr ndirect at hlo'
    change _ ≠ 58
    omega
  have hblk := blk_eq_entry s.view (d := d) hlo hfbn hind
  rw [view_of_ne s hne] at hblk
  refine wp_bind.mpr (wp_rsect h.sectors (fun hge => absurd hsize' (by omega)) fun _ => ?_)
  refine wp_ite (fun h0 => ?_) fun h0 => ?_
  · rw [hblk, if_pos h0] at hb
    refine wp_bind.mpr (wp_takeBlock (wp_bind.mpr (wp_wsect h.sectors hsize' ?_)))
    have h32 : s.freeblock < 2 ^ 32 := lt_of_le_of_lt h.hi (by decide)
    rw [entry_setEntry_self _ _ h32]
    by_cases hlt : s.freeblock < fsSize
    · have hm := hc.growEntry geometry hlt (clear_view s hlt) hlo hfbn hind (by
        rw [view_of_ne s hne]
        exact h0)
      rw [← view_take h hlt, view_of_ne s hne, ← view_write _ hne] at hm
      refine hQ _ _ hm ((h.take hlt).write hlo' (by change _ < s.freeblock + 1; omega) _) ?_
      refine hb.imp_right fun hle => ?_
      change s.freeblock + 1 + f ≤ fsSize
      omega
    · rcases hb with hE | hle
      · exact hbad hE _ _ (by omega) h.sectors
      · omega
  · have hblk0 : blk s.view d fbn ≠ 0 := by rwa [hblk]
    have hm := hc.mapped_old hblk0
    rw [hblk] at hm
    rw [if_neg hblk0] at hb
    exact hQ _ s hm h hb

theorem wp_blockFor (h : Intact s₀ s) (hc : CopyOk sb s.view inum d) {fbn : Nat}
    (hfbn : fbn < maxFile) (hb : Spare E (f + need s.view d fbn) s)
    {Q : Nat × Dinode → Image → Prop}
    (hQ : ∀ x d' s', Mapped sb s.view inum d fbn x d' s'.view → Intact s₀ s' → Spare E f s' →
      Q (x, d') s')
    (hbad : (∀ e, E e) → ∀ x d' s', fsSize ≤ x → s'.sectors = fsSize → Q (x, d') s') :
    wp (blockFor d fbn) Q E s := by
  rw [blockFor]
  have h32 : s.freeblock < 2 ^ 32 := lt_of_le_of_lt h.hi (by decide)
  refine wp_ite (fun hdir => wp_ite (fun h0 => ?_) fun h0 => ?_) fun hdir => ?_
  · refine wp_bind.mpr (wp_takeBlock ?_)
    rw [d.addr_setAddr_self hdir.le h32]
    have hneed : need s.view d fbn = 1 := by
      rw [need, blk_eq_addr hdir, if_pos h0, if_neg (by omega)]
    rw [hneed] at hb
    by_cases hlt : s.freeblock < fsSize
    · have hm := hc.growDirect geometry hlt (clear_view s hlt) hdir h0
      rw [← view_take h hlt] at hm
      refine hQ _ _ _ hm (h.take hlt) (hb.imp_right fun hle => ?_)
      change s.freeblock + 1 + f ≤ fsSize
      omega
    · rcases hb with hE | hle
      · exact hbad hE _ _ _ (by omega) h.sectors
      · omega
  · have hblk : blk s.view d fbn ≠ 0 := by rwa [blk_eq_addr hdir]
    have hm := hc.mapped_old hblk
    rw [blk_eq_addr hdir] at hm
    exact hQ _ d s hm h (hb.imp_right fun hle => by omega)
  · have hlo : ndirect ≤ fbn := by omega
    by_cases hind : d.addr ndirect = 0
    · have hblk : blk s.view d fbn = 0 := blk_of_no_indirect hlo hind
      have hneed : need s.view d fbn = 2 := by rw [need, if_pos hblk, if_pos ⟨hlo, hind⟩]
      rw [hneed] at hb
      rw [if_pos hind]
      refine wp_bind.mpr (wp_bind.mpr (wp_takeBlock ?_))
      have haddr : (d.setAddr ndirect s.freeblock).addr ndirect = s.freeblock :=
        d.addr_setAddr_self (Nat.le_refl _) h32
      by_cases hlt : s.freeblock < fsSize
      · have hc₁ := (hc.growIndirect geometry hlt (clear_view s hlt) hind).1
        rw [← view_take h hlt] at hc₁
        refine wp_blockFor_entry (f := f) (h.take hlt) hc₁ hlo hfbn ?_ ?_ (fun x s' hm h' hb' => ?_)
          fun hE x s' hx hs => hbad hE _ _ _ hx hs
        · rw [haddr]
          have hlo' : 59 ≤ s.freeblock := h.lo
          omega
        · refine hb.imp_right fun hle => ?_
          change s.freeblock + 1 + _ ≤ fsSize
          split <;> omega
        · rw [view_take h hlt] at hm
          exact hQ x _ s' (Mapped.of_indirect geometry hc hlt (clear_view s hlt) hind hlo hm) h' hb'
      · rcases hb with hE | hle
        · refine wp_bind.mpr (wp_rsect h.sectors (fun _ => hE) fun hsec => ?_)
          rw [haddr] at hsec
          omega
        · omega
    · rw [if_neg hind]
      refine wp_bind.mpr ((wp_pure _).mpr ?_)
      have hneed : need s.view d fbn = if blk s.view d fbn = 0 then 1 else 0 := by
        rw [need, if_neg (c := ndirect ≤ fbn ∧ _) (fun h => hind h.2), Nat.add_zero]
      rw [hneed] at hb
      exact wp_blockFor_entry h hc hlo hfbn hind hb (fun x s' hm h' hb' => hQ x d s' hm h' hb')
        fun hE x s' hx hs => hbad hE x d s' hx hs

variable {p : Nat → UInt8} {n : Nat}

theorem wp_appendLoop {disk₀ : Disk} {d₀ : Dinode} (off₀ tot : Nat) {fuel : Nat}
    {Q : Nat × Dinode → Image → Prop} (h : Intact s₀ s)
    (hw : Writing sb inum disk₀ d₀ p off₀ (off₀ + tot) d s.view) (htot : tot ≤ n)
    (hfuel : n - tot ≤ fuel) (hb : (∀ e, E e) ∨ off₀ + n ≤ maxFile * bsize ∧ s.freeblock + (f +
      missing s.view d ((off₀ + tot) / bsize) (blocksIn (off₀ + tot) (n - tot))) ≤ fsSize)
    (hQ : ∀ d' s', Writing sb inum disk₀ d₀ p off₀ (off₀ + n) d' s'.view → Intact s₀ s' →
      Spare E f s' → (tot < n → off₀ + n ≤ maxFile * bsize) → Q (off₀ + n, d') s') :
    wp (appendLoop p n fuel tot (off₀ + tot) d) Q E s := by
  induction fuel generalizing tot d s with
  | zero =>
    have htn : tot = n := by omega
    subst htn
    exact hQ d s hw h (hb.imp_right fun hle => by omega) fun hlt => absurd hlt (Nat.lt_irrefl _)
  | succ fuel ih =>
    rw [appendLoop]
    refine wp_ite (fun hlt => ?_) fun hge => ?_
    · have hmod : (off₀ + tot) % bsize < bsize := Nat.mod_lt _ (by simp)
      -- the offset in the block, in the words of the kernel
      have hoff : off₀ + tot - (off₀ + tot) / bsize * bsize = (off₀ + tot) % bsize := by
        rw [Nat.mod_eq_sub_div_mul]
      have hmin : (((off₀ + tot) / bsize + 1) * bsize - (off₀ + tot)) =
          bsize - (off₀ + tot) % bsize := by
        have := Nat.div_add_mod' (off₀ + tot) bsize
        rw [Nat.add_mul, Nat.one_mul]
        omega
      obtain ⟨hblocks, hnext⟩ := blocksIn_round (off₀ + tot) (n := n - tot) (by omega) rfl
      dsimp only
      rw [hoff, hmin]
      generalize hm : min (n - tot) (bsize - (off₀ + tot) % bsize) = m at hblocks hnext
      have hm0 : 0 < m := by omega
      have hrest : n - tot - m = n - (tot + m) := by omega
      rw [hrest, Nat.add_assoc off₀ tot m] at hblocks hnext
      rw [hblocks, Nat.add_comm 1] at hb
      refine wp_bind.mpr (wp_assert (fun hbig => ?_) fun hfbn => ?_)
      · rcases hb with hE | ⟨hmax, -⟩
        · exact hE
        · refine absurd (Nat.div_lt_of_lt_mul ?_) (of_decide_eq_false hbig)
          rw [Nat.mul_comm]
          omega
      · have hfbn : (off₀ + tot) / bsize < maxFile := of_decide_eq_true hfbn
        have hneed := need_le_missing s.view d ((off₀ + tot) / bsize)
          (blocksIn (off₀ + (tot + m)) (n - (tot + m)))
        refine wp_bind.mpr (wp_blockFor (f := f + missing s.view d ((off₀ + tot) / bsize)
            (blocksIn (off₀ + (tot + m)) (n - (tot + m)) + 1) - need s.view d ((off₀ + tot) / bsize))
          h hw.copy hfbn (hb.imp_right fun hle => by omega) (fun x d' s' hmap h' hb' => ?_)
          fun hE x d' s' hx hs => wp_bind.mpr (wp_rsect hs (fun _ => hE) fun hlt => by omega))
        -- the block is one that has been taken
        have hblk : ptr s'.view d' (slotOf ((off₀ + tot) / bsize)) = x := hmap.addr_eq
        obtain ⟨hlo, htaken, hsize⟩ := ptr_taken hmap.copy (by rw [hblk]; exact hmap.ne)
        rw [hblk] at hlo htaken hsize
        have hne : x ≠ sb.bmapstart := by
          change 59 ≤ x at hlo
          change x ≠ 58
          omega
        refine wp_bind.mpr (wp_rsect h'.sectors (fun hge => absurd hsize (by omega)) fun _ => ?_)
        refine wp_bind.mpr (wp_wsect h'.sectors hsize ?_)
        have hw' := hw.round geometry (Nat.le_add_right _ _) hm0 (by omega) hmap
        have hview := view_write s' hne (moveIn (s'.disk x) ((off₀ + tot) % bsize) m p tot)
        rw [Nat.add_sub_cancel_left, view_of_ne s' hne, ← hview, Nat.add_assoc] at hw'
        obtain ⟨hptr, -⟩ := hmap.copy.writeBlock geometry (by rw [hmap.addr_eq]; exact hmap.ne)
          (moveIn (s'.disk x) ((off₀ + tot) % bsize) m p tot)
        rw [hmap.addr_eq, ← hview] at hptr
        rw [Nat.add_assoc off₀ tot m]
        refine ih (tot + m) (h'.write hlo htaken _) hw' (by omega) (by omega) ?_
          fun d'' s'' hw'' h'' hb'' hmax => hQ d'' s'' hw'' h'' hb'' fun _ => ?_
        · rcases hb with hE | ⟨hmax, hle⟩
          · exact Or.inl hE
          · refine hb'.imp_right fun hle' => ⟨hmax, ?_⟩
            change s'.freeblock + (f + missing _ d' _ _) ≤ fsSize
            rw [missing_congr (fun c => hptr (slotOf c)) rfl]
            have hstep := missing_mapped (blocksIn (off₀ + (tot + m)) (n - (tot + m))) hmap
            rcases hnext with h0 | hnext
            · rw [h0, missing_zero]
              omega
            · rw [hnext]
              omega
        · by_cases hlast : tot + m < n
          · exact hmax hlast
          · -- the last round ends in the block it has found
            have hend := Nat.div_add_mod' (off₀ + tot) bsize
            have hle : ((off₀ + tot) / bsize + 1) * bsize ≤ maxFile * bsize :=
              Nat.mul_le_mul_right _ hfbn
            rw [Nat.add_mul, Nat.one_mul] at hle
            omega
    · have htn : tot = n := by omega
      subst htn
      exact hQ d s hw h (hb.imp_right fun hle => by omega) fun hlt => absurd hlt (Nat.lt_irrefl _)

/-- The image is well formed, once it has its free map. -/
structure Built (s : Image) : Prop where
  intact : Intact s s
  ok : DiskOk sb s.view
  /-- no file has blocks behind its end -/
  beyond : ∀ i, i < sb.ninodes → (dinode sb s.view i).type ≠ 0 →
    ∀ bn, (dinode sb s.view i).size.toNat ≤ bn * bsize → blk s.view (dinode sb s.view i) bn = 0
  super : s.disk 1 = superBytes
  unused : ∀ i, i = 0 ∨ s.freeinode ≤ i → iblock sb i < sb.bmapstart →
    dinode sb s.view i = Dinode.zero

def Image.withDinode (s : Image) (inum : Nat) (d : Dinode) : Image :=
  { s with disk := setDinode sb s.disk inum d, written := inum :: s.written }

theorem view_withDinode (s : Image) {inum : Nat} (hi : iblock sb inum < sb.bmapstart) (d : Dinode) :
    (s.withDinode inum d).view = setDinode sb s.view inum d := by
  rw [setDinode, view_of_ne s hi.ne]
  exact view_write s hi.ne _

theorem iblock_lt_fsSize (hi : iblock sb i < sb.bmapstart) : iblock sb i < fsSize :=
  hi.trans (by decide)

theorem wp_winode (hs : s.sectors = fsSize)
    (hi : iblock sb inum < sb.bmapstart) (hQ : Q () (s.withDinode inum d)) :
    wp (winode inum d) Q E s := by
  have hlt := iblock_lt_fsSize hi
  rw [winode]
  refine wp_bind.mpr (wp_rsect hs (fun hge => absurd hlt (by omega)) fun _ => ?_)
  exact wp_bind.mpr (wp_wsect hs hlt hQ)

theorem wp_rinode {Q : Dinode → Image → Prop} (hs : s.sectors = fsSize)
    (hi : iblock sb inum < sb.bmapstart) (hQ : Q (dinode sb s.view inum) s) :
    wp (rinode inum) Q E s := by
  have hlt := iblock_lt_fsSize hi
  rw [dinode_view s hi] at hQ
  rw [rinode]
  exact wp_bind.mpr (wp_rsect hs (fun hge => absurd hlt (by omega)) fun _ => hQ)

theorem Intact.withDinode (h : Intact s₀ s) (hi : iblock sb inum < sb.bmapstart) (d : Dinode) :
    Intact (s.withDinode inum d) (s.withDinode inum d) where
  sectors := h.sectors
  freeinode := rfl
  written := rfl
  lo := h.lo
  hi := h.hi
  zero b hb hlt := by
    have hne : b ≠ iblock sb inum := by
      have hlo := h.lo
      have hmap : sb.bmapstart ≤ nmeta := by decide
      change s.freeblock ≤ b at hb
      omega
    change update s.disk _ _ b = _
    rw [update_of_ne hne, h.zero b hb hlt]
  low _ _ := rfl

theorem withDinode_super (s : Image) (inum : Nat) (d : Dinode) :
    (s.withDinode inum d).disk 1 = s.disk 1 := by
  have hne : 1 ≠ iblock sb inum := by
    change 1 ≠ inum / 8 + 32
    omega
  change setDinode sb s.disk inum d 1 = s.disk 1
  rw [setDinode, update_of_ne hne]

theorem Built.lt_freeinode (h : Built s) (hi : inum < sb.ninodes)
    (ht : (dinode sb s.view inum).type ≠ 0) : 0 < inum ∧ inum < s.freeinode := by
  have hb := geometry.inodes inum hi
  by_contra hc
  exact ht (by rw [h.unused inum (by omega) hb]; rfl)

structure Appended (inum : Nat) (p : Nat → UInt8) (n : Nat) (s s' : Image) : Prop where
  built : Built s'
  freeinode : s'.freeinode = s.freeinode
  written : s'.written = inum :: s.written
  result : Written sb inum s.view p (dinode sb s.view inum).size.toNat n s'.view
  size : (dinode sb s'.view inum).size.toNat = (dinode sb s.view inum).size.toNat + n

theorem missing_le (disk : Disk) (d : Dinode) (bn cnt : Nat) : missing disk d bn cnt ≤ cnt + 1 := by
  have hcount := List.countP_le_length (p := fun j => decide (blk disk d (bn + j) = 0))
    (l := List.range cnt)
  rw [List.length_range] at hcount
  rw [missing]
  split <;> omega

theorem blocksIn_le (off n : Nat) : blocksIn off n ≤ n / bsize + 2 := by
  simp only [blocksIn, bsize]
  split <;> omega

theorem Built.append (h : Built s) (hi : inum < sb.ninodes)
    (ht : (dinode sb s.view inum).type ≠ 0) {s₁ : Image} (h₁ : Intact s s₁)
    (hw : Writing sb inum s.view (dinode sb s.view inum) p (dinode sb s.view inum).size.toNat
      ((dinode sb s.view inum).size.toNat + n) d s₁.view)
    (hmax : (dinode sb s.view inum).size.toNat + n ≤ maxFile * bsize) :
    Appended inum p n s (s₁.withDinode inum { d with
      size := UInt32.ofNat ((dinode sb s.view inum).size.toNat + n) }) := by
  have hib := geometry.inodes inum hi
  have hres := (hw.written geometry h.ok (Nat.le_refl _) hmax _ rfl).1
  rw [max_eq_right (Nat.le_add_right _ n), ← view_withDinode s₁ hib] at hres
  have hsize : (dinode sb (s₁.withDinode inum { d with
      size := UInt32.ofNat ((dinode sb s.view inum).size.toNat + n) }).view inum).size.toNat =
      (dinode sb s.view inum).size.toNat + n := by
    rw [view_withDinode s₁ hib, dinode_setDinode_self]
    exact UInt32.toNat_ofNat_of_lt' (lt_of_le_of_lt hmax (by decide))
  refine ⟨⟨h₁.withDinode hib _, hres.ok, fun i hi' ht' bn hbn => ?_, ?_, fun i hi' hb => ?_⟩,
    h₁.freeinode, congrArg (inum :: ·) h₁.written, hres, hsize⟩
  · by_cases hin : i = inum
    · subst hin
      rw [hres.beyond bn hbn]
      exact h.beyond i hi ht bn (by omega)
    · have htable := hres.table i hi' hin
      rw [htable] at ht' hbn ⊢
      rw [(hres.untouched i hi' ht' hin).blk_eq]
      exact h.beyond i hi' ht' bn hbn
  · rw [withDinode_super, h₁.low 1 (by decide), h.super]
  · have hlt := h.lt_freeinode hi ht
    change i = 0 ∨ s₁.freeinode ≤ i at hi'
    rw [h₁.freeinode] at hi'
    have hne : i ≠ inum := by omega
    rw [view_withDinode s₁ hib, dinode_setDinode_of_ne hne, ← h.unused i hi' hb, dinode_view s₁ hb,
      dinode_view s hb, dinode, h₁.low _ hb, dinode]

theorem wp_iappend (h : Built s) (hi : inum < sb.ninodes) (ht : (dinode sb s.view inum).type ≠ 0) (hn : 0 < n)
    (hb : (∀ e, E e) ∨ (dinode sb s.view inum).size.toNat + n ≤ maxFile * bsize ∧
      s.freeblock + (f + (n / bsize + 3)) ≤ fsSize)
    (hQ : ∀ s', Appended inum p n s s' → Spare E f s' → Q () s') : wp (iappend inum p n) Q E s := by
  have hib := geometry.inodes inum hi
  rw [iappend]
  refine wp_bind.mpr (wp_rinode h.intact.sectors hib (wp_bind.mpr ?_))
  refine wp_appendLoop (f := f) (dinode sb s.view inum).size.toNat 0 h.intact
    (Writing.start (h.ok.copyOk hi ht) (h.ok.holes inum hi ht) p (Nat.le_refl _)) (Nat.zero_le n)
    (Nat.le_refl _) (hb.imp_right fun hle => ⟨hle.1, ?_⟩) fun d s₁ hw h₁ hb₁ hmax => ?_
  · have hmissing := missing_le s.view (dinode sb s.view inum)
      (((dinode sb s.view inum).size.toNat + 0) / bsize)
      (blocksIn ((dinode sb s.view inum).size.toNat + 0) (n - 0))
    have hblocks := blocksIn_le ((dinode sb s.view inum).size.toNat + 0) (n - 0)
    rw [Nat.sub_zero] at hmissing hblocks ⊢
    omega
  · exact wp_winode h₁.sectors hib (hQ _ (h.append hi ht h₁ hw (hmax hn)) hb₁)

def newDinode (type : Int16) : Dinode := { Dinode.zero with type := type, nlink := 1 }

structure Made (type : Int16) (s s' : Image) : Prop where
  built : Built s'
  freeinode : s'.freeinode = s.freeinode + 1
  freeblock : s'.freeblock = s.freeblock
  written : s'.written = s.freeinode :: s.written
  self : dinode sb s'.view s.freeinode = newDinode type
  others : ∀ i, i < sb.ninodes → (dinode sb s.view i).type ≠ 0 →
    dinode sb s'.view i = dinode sb s.view i ∧
      content s'.view (dinode sb s'.view i) = content s.view (dinode sb s.view i)

theorem DiskOk.outside {disk : Disk} (h : DiskOk sb disk) (hi : sb.ninodes ≤ i)
    (hib : iblock sb i < sb.bmapstart) (d : Dinode) : DiskOk sb (setDinode sb disk i d) := by
  have hdata : ∀ b, sb.nmeta ≤ b → setDinode sb disk i d b = disk b := fun b hb => by
    have := geometry.bmapstart_le_nmeta
    exact update_of_ne (by omega) _ _
  have htable : ∀ j, j < sb.ninodes → dinode sb (setDinode sb disk i d) j = dinode sb disk j :=
    fun j hj => dinode_setDinode_of_ne (by omega) d
  have hown : ∀ x, owner sb (setDinode sb disk i d) (dinode sb (setDinode sb disk i d)) x =
      owner sb disk (dinode sb disk) x := by
    intro x
    rw [← h.owned.owner_eq_of_data hdata x]
    by_cases hx : x.1 < sb.ninodes
    · rw [owner, owner, htable x.1 hx]
    · rw [owner, owner, if_neg fun hc => hx hc.1, if_neg fun hc => hx hc.1]
  refine ⟨Ownership.Owned.congr h.owned hown fun b _ => ?_, fun j hj ht => ?_⟩
  · have hne : bblock sb b ≠ iblock sb i := by
      have : sb.bmapstart ≤ bblock sb b := Nat.le_add_left _ _
      omega
    rw [bit, setDinode, update_of_ne hne, bit]
  · rw [htable j hj] at ht ⊢
    exact (h.owned.untouched_of_data hdata hj ht).holeFree (h.holes j hj ht)

theorem wp_ialloc (h : Built s) (hib : iblock sb s.freeinode < sb.bmapstart) (h0 : 0 < s.freeinode)
    {type : Int16} (htype : type ≠ 0) {Q : Nat → Image → Prop}
    (hQ : ∀ s', Made type s s' → Q s.freeinode s') : wp (ialloc type) Q E s := by
  rw [ialloc]
  refine wp_bind.mpr ?_
  change wp (winode s.freeinode (newDinode type) >>= fun _ => pure s.freeinode) Q E
    { s with freeinode := s.freeinode + 1 }
  refine wp_bind.mpr (wp_winode h.intact.sectors hib ((wp_pure _).mpr (hQ _ ?_)))
  have hview : (({ s with freeinode := s.freeinode + 1 } : Image).withDinode s.freeinode
      (newDinode type)).view = setDinode sb s.view s.freeinode (newDinode type) :=
    view_withDinode { s with freeinode := s.freeinode + 1 } hib _
  have hzero := h.unused s.freeinode (Or.inr (Nat.le_refl _)) hib
  have hok : DiskOk sb (setDinode sb s.view s.freeinode (newDinode type)) := by
    by_cases hi : s.freeinode < sb.ninodes
    · exact h.ok.take geometry hi (by rw [hzero]; rfl) htype rfl rfl
    · exact DiskOk.outside h.ok (by omega) hib _
  have hdata : ∀ b, sb.nmeta ≤ b →
      setDinode sb s.view s.freeinode (newDinode type) b = s.view b := fun b hb => by
    have := geometry.bmapstart_le_nmeta
    exact update_of_ne (by omega) _ _
  have hintact : Intact { s with freeinode := s.freeinode + 1 }
      { s with freeinode := s.freeinode + 1 } :=
    ⟨h.intact.sectors, rfl, rfl, h.intact.lo, h.intact.hi, h.intact.zero, fun _ _ => rfl⟩
  refine ⟨⟨hintact.withDinode hib _, ?_, ?_, ?_, ?_⟩, rfl, rfl, rfl, ?_, fun i hi ht => ?_⟩
  · rw [hview]
    exact hok
  · rw [hview]
    intro i hi ht bn hbn
    by_cases hin : i = s.freeinode
    · subst hin
      rw [dinode_setDinode_self]
      exact ptr_of_no_addr (addr_of_addrs_zero rfl) _
    · rw [dinode_setDinode_of_ne hin] at ht hbn ⊢
      rw [(h.ok.owned.untouched_of_data hdata hi ht).blk_eq]
      exact h.beyond i hi ht bn hbn
  · rw [withDinode_super]
    exact h.super
  · rw [hview]
    intro i hi hb
    change i = 0 ∨ s.freeinode + 1 ≤ i at hi
    have hne : i ≠ s.freeinode := by omega
    rw [dinode_setDinode_of_ne hne]
    exact h.unused i (by omega) hb
  · rw [hview, dinode_setDinode_self]
  · have hne : i ≠ s.freeinode := (h.lt_freeinode hi ht).2.ne
    rw [hview, dinode_setDinode_of_ne hne]
    exact ⟨rfl, (h.ok.owned.untouched_of_data hdata hi ht).content_eq (h.ok.holes i hi ht)⟩

end Xv6.Mkfs
