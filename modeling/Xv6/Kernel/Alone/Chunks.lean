import Xv6.Kernel.Alone.Lookup
import Xv6.Kernel.SharedWrite

/-!
# A write in chunks

`filewrite` splits a write into rounds of `writeMax` bytes, each in a transaction of its own. A
process that runs alone gets what a single write would give, up to the first round that does not fit
below the largest file size.
-/

namespace Xv6.Fs

variable {sb : Superblock} {α β : Type} {inum : Nat} {d : Dinode}

/-- The computation leaves the number of transactions alone. -/
def Steady (m : StoreM α) : Prop :=
  ∀ s a s', m s = .ok (a, s') → s'.outstanding = s.outstanding

namespace Steady

theorem bind {m : StoreM α} {f : α → StoreM β} (hm : Steady m) (hf : ∀ a, Steady (f a)) :
    Steady (m >>= f) := by
  intro s b s' h
  change (m s >>= fun q => f q.1 q.2) = _ at h
  cases hq : m s with
  | error e =>
    rw [hq] at h
    cases h
  | ok q =>
    rw [hq] at h
    exact (hf q.1 q.2 b s' h).trans (hm s q.1 q.2 hq)

theorem pure (a : α) : Steady (Pure.pure a : StoreM α) := by
  intro s b s' h
  cases h
  rfl

theorem panic (msg : String) : Steady (Fs.panic msg : StoreM α) := nofun

theorem ite {c : Prop} [Decidable c] {m m' : StoreM α} (hm : Steady m) (hm' : Steady m') :
    Steady (if c then m else m') := by
  split
  · exact hm
  · exact hm'

theorem getDisk : Steady getDisk := by
  intro s a s' h
  cases h
  rfl

theorem logWrite (b : Nat) (data : Bytes) : Steady (logWrite sb b data) := by
  intro s a s' h
  rw [Fs.logWrite] at h
  split at h
  · cases h
  · split at h
    · cases h
    · cases h
      rfl

theorem ballocFor : Steady (ballocFor sb inum d) := by
  refine getDisk.bind fun _ => bind (getDisk.bind fun disk => ?_) fun b => bind ?_ fun _ => pure b
  · split
    · exact panic _
    · exact (logWrite _ _).bind fun _ => (logWrite _ _).bind fun _ => pure _
  · intro s a s' h
    cases h
    rfl

theorem bmap (bn : Nat) : Steady (bmap sb inum d bn) := by
  refine ite (ite (ballocFor.bind fun _ => pure _) (pure _)) (ite (bind ?_ fun d => ?_) (panic _))
  · exact ite (ballocFor.bind fun _ => pure _) (pure _)
  · refine bind (fun s a s' h => by cases h; rfl) fun a => ite ?_ (pure _)
    exact ballocFor.bind fun _ => (logWrite _ _).bind fun _ => pure _

theorem writeLoop (src : Nat → UInt8) (n fuel : Nat) : ∀ tot off d,
    Steady (writeLoop sb inum src n fuel tot off d) := by
  induction fuel with
  | zero => exact fun _ _ d => pure d
  | succ fuel ih =>
    intro tot off d
    refine ite ((bmap _).bind fun q => bind ?_ fun data => ?_) (pure d)
    · intro s a s' h
      cases h
      rfl
    · exact (logWrite _ _).bind fun _ => ih _ _ _

theorem writei (src : Nat → UInt8) (off n : UInt32) : Steady (writei sb inum d src off n) := by
  refine ite (ite (pure _) (pure _)) (ite (pure _) (ite (pure _) ?_))
  refine (writeLoop src _ _ _ _ d).bind fun d => ite ?_ (pure _)
  exact bind (getDisk.bind fun _ => logWrite _ _) fun _ => pure _

end Steady

theorem overwrite_overwrite {c : List UInt8} {off : Nat} (src : Nat → UInt8) (a b : Nat)
    (hoff : off ≤ c.length) :
    overwrite (overwrite c off src a) (off + a) (fun o => src (a + o)) b =
      overwrite c off src (a + b) := by
  refine List.ext_getElem? fun o => ?_
  rw [overwrite_getElem? (by rw [length_overwrite]; omega), overwrite_getElem? hoff,
    overwrite_getElem? hoff]
  by_cases ho : off + a ≤ o ∧ o < off + a + b
  · rw [if_pos ho, if_pos (by omega)]
    congr 2
    omega
  · rw [if_neg ho]
    refine if_congr ?_ rfl rfl
    omega

theorem overwrite_zero {c : List UInt8} {off : Nat} (src : Nat → UInt8) (hoff : off ≤ c.length) :
    overwrite c off src 0 = c := by
  refine List.ext_getElem? fun o => ?_
  rw [overwrite_getElem? hoff, if_neg (by omega)]

theorem missing_le (disk : Disk) (bn cnt : Nat) : missing disk d bn cnt ≤ cnt + 1 := by
  refine Nat.add_le_add (List.countP_le_length.trans (List.length_range).le) ?_
  split <;> omega

end Xv6.Fs

namespace Xv6.Kernel

open Fs Hoare Program

/-- The bytes that `filewrite` writes of `n` bytes from `off` on: all, or those in the rounds that
end below the largest file size. -/
def writable (off n : Nat) : Nat :=
  if off + n ≤ maxFile * bsize then n else writeMax * ((maxFile * bsize - off) / writeMax)

theorem writeMax_pos : 0 < writeMax := by decide

theorem writable_round {off n : Nat} (hoff : off + min n writeMax ≤ maxFile * bsize) :
    writable off n = min n writeMax + writable (off + min n writeMax) (n - min n writeMax) := by
  by_cases hn : off + n ≤ maxFile * bsize
  · rw [writable, if_pos hn, writable, if_pos (by omega)]
    omega
  · have hmin : min n writeMax = writeMax := min_eq_right (by omega)
    rw [hmin] at hoff ⊢
    rw [writable, if_neg hn, writable, if_neg (by omega), ← Nat.sub_sub,
      Nat.div_eq_sub_div writeMax_pos (by omega), Nat.mul_succ, Nat.add_comm]

theorem writable_refused {off n : Nat} (hoff : off ≤ maxFile * bsize)
    (hmax : ¬ off + min n writeMax ≤ maxFile * bsize) :
    ¬ off + n ≤ maxFile * bsize ∧ writable off n = 0 := by
  have hn : ¬ off + n ≤ maxFile * bsize := by omega
  refine ⟨hn, ?_⟩
  rw [writable, if_neg hn, Nat.div_eq_of_lt (by omega), Nat.mul_zero]

namespace Alone

/-- File `f` is open for writing on the regular file in slot `ip`. The lock of the inode is `l`,
and `t` transactions are running. -/
structure Opened (sb : Superblock) (f ip : Nat) (l : Option Nat) (t : Nat) (s : Machine) :
    Prop where
  settled : Settled sb s
  file : (s.tables.ftable f).type = .inode ∧ (s.tables.ftable f).writable = true ∧
    (s.tables.ftable f).slot = ip
  ref : 0 < (s.slot ip).ref
  range : s.inum ip < sb.ninodes
  type : (s.get sb ip).type = tFile
  lock : (s.slot ip).lock = l
  outstanding : s.store.outstanding = t

/-- The blocks that `n` bytes from `off` on need are free. -/
def Free (sb : Superblock) (s : Machine) (ip off n : Nat) : Prop :=
  missing s.store.disk (dinode sb s.store.disk (s.inum ip)) (off / bsize) (blocksIn off n) ≤
    freeCount sb s.store.disk

/-- The disk, the file and the inode of the slot are the same. -/
structure Still (f ip : Nat) (s s' : Machine) : Prop where
  disk : s'.store.disk = s.store.disk
  file : s'.tables.ftable f = s.tables.ftable f
  inum : s'.inum ip = s.inum ip

variable {sb : Superblock} {p f ip t : Nat} {l : Option Nat} {s s' : Machine} {E : Stop → Prop}

theorem Still.get (h : Still f ip s s') : s'.get sb ip = s.get sb ip := by
  rw [Machine.get, h.inum, node_eq_of_disk h.disk, Machine.get]

variable {n : Nat}

theorem Still.free_iff (h : Still f ip s s') {off : Nat} :
    Free sb s' ip off n ↔ Free sb s ip off n := by
  rw [Free, h.disk, h.inum, Free]

theorem Still.trans {s'' : Machine} (h : Still f ip s s') (h' : Still f ip s' s'') :
    Still f ip s s'' :=
  ⟨h'.disk.trans h.disk, h'.file.trans h.file, h'.inum.trans h.inum⟩

namespace Opened

theorem still (h : Opened sb f ip l t s) (hst : Still f ip s s') (hs : Settled sb s')
    {l' : Option Nat} {t' : Nat} (href : (s'.slot ip).ref = (s.slot ip).ref)
    (hl : (s'.slot ip).lock = l') (ht : s'.store.outstanding = t') : Opened sb f ip l' t' s' where
  settled := hs
  file := by rw [hst.file]; exact h.file
  ref := by rw [href]; exact h.ref
  range := by rw [hst.inum]; exact h.range
  type := by rw [hst.get]; exact h.type
  lock := hl
  outstanding := ht

variable {Q : Unit → Machine → Prop}

theorem wp_beginOp (h : Opened sb f ip l 0 s) (hlh : s.store.lh = [])
    (hQ : ∀ s', Opened sb f ip l 1 s' → Still f ip s s' → s'.store.lh = [] → Q () s') :
    Wp sb p beginOp Q E s := by
  have hstep : Machine.beginOp s = .ok ((), { s with
      store := { s.store with outstanding := s.store.outstanding + 1 } }) := by
    refine if_neg ?_
    rw [hlh, h.outstanding]
    decide
  refine wp_call ((wp_of_ok (m := Machine.beginOp) hstep).mpr ?_)
  have hst : Still f ip s { s with
      store := { s.store with outstanding := s.store.outstanding + 1 } } := ⟨rfl, rfl, rfl⟩
  refine hQ _ (h.still hst (h.settled.congr rfl rfl rfl rfl) rfl h.lock ?_) hst hlh
  change s.store.outstanding + 1 = 1
  rw [h.outstanding]

theorem wp_endOp (h : Opened sb f ip l 1 s)
    (hQ : ∀ s', Opened sb f ip l 0 s' → Still f ip s s' → s'.store.lh = [] → Q () s') :
    Wp sb p endOp Q E s := by
  have hzero : s.store.outstanding - 1 = 0 := by rw [h.outstanding]
  have hst : Still f ip s { s with store := { s.store with
      outstanding := s.store.outstanding - 1
      lh := if s.store.outstanding - 1 = 0 then [] else s.store.lh } } := ⟨rfl, rfl, rfl⟩
  exact wp_call (hQ _ (h.still hst (h.settled.congr rfl rfl rfl rfl) rfl h.lock hzero) hst
    (if_pos hzero))

theorem wp_ilock (h : Opened sb f ip none t s)
    (hQ : ∀ s', Opened sb f ip (some p) t s' → Still f ip s s' → s'.store = s.store →
      (s'.slot ip).valid = true → Q () s') : Wp sb p (ilock ip) Q E s := by
  refine Alone.wp_ilock h.settled (fun hl => absurd h.lock hl) (fun h0 => ?_) h.ref h.range
    fun s' hs htab hstore _ _ => ?_
  · rw [h.type] at h0
    exact absurd h0 (by decide)
  · have hslot := slot_self htab
    have hst : Still f ip s s' :=
      ⟨by rw [hstore], by rw [htab]; rfl, (congrArg Slot.inum hslot :)⟩
    refine hQ s' (h.still hst hs ?_ ?_ ?_) hst hstore ?_
    · rw [hslot]
      rfl
    · rw [hslot]
      rfl
    · rw [hstore, h.outstanding]
    · rw [hslot]
      rfl

theorem wp_iunlock (h : Opened sb f ip (some p) t s) (hv : (s.slot ip).valid = true)
    (hQ : ∀ s', Opened sb f ip none t s' → Still f ip s s' → Q () s') :
    Wp sb p (iunlock ip) Q E s := by
  refine Alone.wp_iunlock h.settled ⟨h.ref, hv, h.lock⟩ fun hs => ?_
  have hslot := s.slot_withSlot_self ip ((s.slot ip).withLock none)
  have hst : Still f ip s (s.withSlot ip ((s.slot ip).withLock none)) :=
    ⟨rfl, rfl, inum_withSlot_self rfl⟩
  refine hQ _ (h.still hst hs ?_ ?_ h.outstanding) hst
  · rw [hslot]
    rfl
  · rw [hslot]
    rfl

theorem wp_setOff (h : Opened sb f ip l t s) {off : UInt32} (hQ : Opened sb f ip l t { s with
        tables := s.tables.setFile f { s.tables.ftable f with off := off } } →
      Q () { s with tables := s.tables.setFile f { s.tables.ftable f with off := off } }) :
    Wp sb p (table (.setOff f off)) Q E s := by
  refine wp_table_ok rfl (hQ ?_)
  have hf : (s.tables.setFile f { s.tables.ftable f with off := off }).ftable f =
      { s.tables.ftable f with off := off } := Function.update_self _ _ _
  refine ⟨h.settled.table (p := p) (o := .setOff f off) (r := ()) rfl rfl, ?_, h.ref, h.range,
    h.type, h.lock, h.outstanding⟩
  rw [hf]
  exact h.file

variable (h : Opened sb f ip (some p) 1 s) (hv : (s.slot ip).valid = true)

include h hv in
theorem copy : s.copy ip = dinode sb s.store.disk (s.inum ip) ∧
    (dinode sb s.store.disk (s.inum ip)).type = tFile ∧
    (dinode sb s.store.disk (s.inum ip)).size.toNat = (s.get sb ip).data.length := by
  have hget := h.settled.get_eq h.ref hv
  have hcopy := (h.settled.copy_eq h.ref hv).2.2
  rw [hcopy] at hget
  refine ⟨hcopy, ?_, ?_⟩
  · have := h.type
    rwa [hget] at this
  · rw [hget, length_content]

include h hv in
theorem wp_writei (hlh : s.store.lh = []) (hlog : maxOpBlocks + 1 < logLimit sb)
    {src : Nat → UInt8} {off n : UInt32} {N : Nat} (hn : n.toNat ≤ writeMax) (hN : n.toNat ≤ N)
    (hoff : off.toNat ≤ (s.get sb ip).data.length) (hmax : off.toNat + n.toNat ≤ maxFile * bsize)
    (hfree : Free sb s ip off.toNat N) {Q : Option UInt32 → Machine → Prop}
    (hQ : ∀ s', Opened sb f ip (some p) 1 s' → s'.tables = s.tables →
      (s'.get sb ip).data = overwrite (s.get sb ip).data off.toNat src n.toNat →
      Free sb s' ip (off.toNat + n.toNat) (N - n.toNat) → Q (some n) s') :
    Wp sb p (writei ip src off n) Q E s := by
  obtain ⟨hcopy, htype, hsize⟩ := h.copy hv
  have hdev : (s.get sb ip).type ≠ tDev := by
    rw [h.type]
    decide
  have hacc : Accepted (dinode sb s.store.disk (s.inum ip)) off n := ⟨by omega, hmax⟩
  -- at most four blocks are touched
  have hb : Budget sb (fun _ => False)
      (1 + 2 * blocksIn off.toNat n.toNat + keepFor s.store (dinode sb s.store.disk (s.inum ip)))
      (missing s.store.disk (dinode sb s.store.disk (s.inum ip)) (off.toNat / bsize)
        (blocksIn off.toNat N)) s.store := by
    refine Or.inr ⟨h.outstanding.ge, ?_, hfree⟩
    have hkeep := keepFor_le s.store (dinode sb s.store.disk (s.inum ip))
    have hblocks : blocksIn off.toNat n.toNat ≤ 4 := by
      have hn : n.toNat ≤ 1536 := hn
      rw [blocksIn, bsize]
      split <;> omega
    rw [hlh, List.length_nil]
    simp only [maxOpBlocks] at hlog
    omega
  have hwp : wp (Fs.writei sb (s.inum ip) (dinode sb s.store.disk (s.inum ip)) src off n)
      (fun _ st => missing st.disk (dinode sb st.disk (s.inum ip))
        ((off.toNat + n.toNat) / bsize) (blocksIn (off.toNat + n.toNat) (N - n.toNat)) ≤
          freeCount sb st.disk) (fun _ => False) s.store :=
    Fs.wp_writei h.settled.geometry h.settled.disk h.settled.allocs h.range
      (by rw [htype]; decide) (by rw [htype]; decide) hacc hN hb fun st _ _ hb' =>
        (hb'.resolve_left fun hf => hf _ (.inl rfl)).2.2
  refine Wp.bind (Alone.wp_attrs h.settled h.ref hv (Wp.ite (fun hd => absurd hd hdev) fun _ => ?_))
  refine wp_writeData h.settled (fun e he _ => ?_) ⟨h.ref, hv, h.lock⟩
    fun s' hs' hset htab hnode => ?_
  · rw [Machine.handler_writei, Machine.withCopy, hcopy] at he
    split at he
    · cases he
    · next hw => exact (hwp.error hw).elim
  · have hnew : Nodes.writeNode (s.get sb ip) src off n = (some n, { s.get sb ip with
        data := overwrite (s.get sb ip).data off.toNat src n.toNat }) := by
      rw [Nodes.writeNode, if_neg hdev, if_pos ⟨hoff, hmax⟩]
    rw [hnew] at hnode ⊢
    have hinum : s'.inum ip = s.inum ip := by rw [Machine.inum, htab, Machine.inum]
    have hslot : s'.slot ip = s.slot ip := by rw [Machine.slot, htab, Machine.slot]
    have hget : s'.get sb ip = { s.get sb ip with
        data := overwrite (s.get sb ip).data off.toNat src n.toNat } := by
      rw [Machine.get, hinum, hnode, Function.update_self]
    rw [Machine.handler_writei, Machine.withCopy, hcopy] at hs'
    split at hs'
    · next hw =>
      cases hs'
      refine hQ _ ⟨hset, h.file, h.ref, h.range, ?_, h.lock, ?_⟩ htab ?_ (hwp.ok hw)
      · rw [hget]
        exact h.type
      · exact (Steady.writei _ _ _ _ _ _ hw).trans h.outstanding
      · rw [hget]
    · cases hs'

include h hv in
theorem wp_writei_refused {src : Nat → UInt8} {off n : UInt32}
    (hmax : ¬ off.toNat + n.toNat ≤ maxFile * bsize) {Q : Option UInt32 → Machine → Prop}
    (hQ : Q none s) : Wp sb p (writei ip src off n) Q E s := by
  obtain ⟨hcopy, htype, -⟩ := h.copy hv
  have hdev : (s.get sb ip).type ≠ tDev := by
    rw [h.type]
    decide
  refine Wp.bind (Alone.wp_attrs h.settled h.ref hv (Wp.ite (fun hd => absurd hd hdev) fun _ => ?_))
  have hrun : Machine.handler sb p (.writei ip src off n) s = .ok (none, s) := by
    rw [Machine.handler_writei, Machine.withCopy, hcopy,
      writei_refused (by rw [htype]; decide) fun hacc => hmax hacc.2]
    simp only [← hcopy, Function.update_eq_self]
  exact wp_call ((wp_of_ok hrun).mpr hQ)

end Opened

/-- Between two rounds: the offset of the file is `off` and its contents are `c`, and no transaction
is running. -/
structure Idle (sb : Superblock) (f ip : Nat) (off : UInt32) (c : List UInt8) (s : Machine) : Prop
    extends Opened sb f ip none 0 s where
  lh : s.store.lh = []
  offset : (s.tables.ftable f).off = off
  data : (s.get sb ip).data = c
  within : off.toNat ≤ c.length

variable {c : List UInt8} {off : UInt32}

theorem Idle.le_max (h : Idle sb f ip off c s) : off.toNat ≤ maxFile * bsize := by
  have hsmall : (s.get sb ip).Small := h.settled.small (s.inum ip)
  rw [Node.Small, h.data] at hsmall
  exact h.within.trans hsmall

theorem Idle.refl (h : Idle sb f ip off c s) (src : Nat → UInt8)
    {m : Nat} (hm : m = 0) : ∃ off' : UInt32, off'.toNat = off.toNat + m ∧
      Idle sb f ip off' (overwrite c off.toNat src m) s := by
  refine ⟨off, by omega, ?_⟩
  rw [hm, overwrite_zero src h.within]
  exact h

theorem Idle.done (h : Idle sb f ip off c s) (addr : Nat → UInt8)
    {i : Nat} (hi : i ≤ n) (hn : ¬ i < n) : (if i = n then some n else none) =
      (if off.toNat + (n - i) ≤ maxFile * bsize then some n else none) ∧
    ∃ off', off'.toNat = off.toNat + writable off.toNat (n - i) ∧ Idle sb f ip off'
      (overwrite c off.toNat (fun o => addr (i + o)) (writable off.toNat (n - i))) s := by
  have hle : off.toNat + (n - i) ≤ maxFile * bsize := by
    have := h.le_max
    omega
  rw [if_pos (by omega), if_pos hle]
  exact ⟨rfl, h.refl _ (by rw [writable, if_pos hle]; omega)⟩

/-- The rounds that are left make up one write. -/
theorem Idle.wp_filewriteLoop (hlog : maxOpBlocks + 1 < logLimit sb) (addr : Nat → UInt8) (k : Nat) : ∀ {i : Nat} {off : UInt32} {c : List UInt8} {s : Machine},
    Idle sb f ip off c s → i ≤ n → n - i ≤ k →
    Free sb s ip off.toNat (writable off.toNat (n - i)) →
    Wp sb p (filewriteLoop f addr n k i) (fun r s' =>
      r = (if off.toNat + (n - i) ≤ maxFile * bsize then some n else none) ∧
      ∃ off', off'.toNat = off.toNat + writable off.toNat (n - i) ∧ Idle sb f ip off'
        (overwrite c off.toNat (fun o => addr (i + o)) (writable off.toNat (n - i))) s')
      (fun _ => False) s := by
  induction k with
  | zero =>
    intro i off c s h hi hk _
    exact Wp.pure (h.done addr hi (by omega))
  | succ k ih =>
    intro i off c s h hi hk hfree
    rw [filewriteLoop]
    refine Wp.ite (fun hlt => ?_) fun hlt => Wp.pure (h.done addr hi hlt)
    have hn : (UInt32.ofNat (min (n - i) writeMax)).toNat = min (n - i) writeMax :=
      toNat_ofNat_of_lt (lt_of_le_of_lt (Nat.min_le_right _ _) (by decide))
    refine Wp.bind (h.wp_beginOp h.lh fun s₁ h₁ hst₁ hlh₁ => Wp.bind (wp_file ?_))
    rw [h₁.file.2.2]
    refine Wp.bind (h₁.wp_ilock fun s₂ h₂ hst₂ hstore hv => Wp.bind (wp_file ?_))
    have hst := hst₁.trans hst₂
    rw [h₂.file.2.2, hst.file, h.offset]
    by_cases hmax : off.toNat + min (n - i) writeMax ≤ maxFile * bsize
    · -- the round is written, and the rest of the write starts behind it
      rw [writable_round hmax] at hfree
      refine Wp.bind (h₂.wp_writei hv (by rw [hstore, hlh₁]) hlog
        (by rw [hn]; exact Nat.min_le_right _ _) (by rw [hn]; exact Nat.le_add_right _ _)
        (by rw [hst.get, h.data]; exact h.within) (by rw [hn]; exact hmax)
        (hst.free_iff.mpr hfree) fun s₃ h₃ htab hdata hfree₃ => ?_)
      dsimp only
      refine Wp.bind (wp_file (Wp.bind (h₃.wp_setOff fun h₄ => ?_)))
      rw [h₃.file.2.2]
      refine Wp.bind (h₄.wp_iunlock ?_ fun s₅ h₅ hst₅ => Wp.bind
        (h₅.wp_endOp fun s₆ h₆ hst₆ hlh₆ => Wp.ite (fun hne => absurd rfl hne) fun _ => ?_))
      · change (s₃.slot ip).valid = true
        rw [Machine.slot, htab]
        exact hv
      have hst' := hst₅.trans hst₆
      have hsum : (off + UInt32.ofNat (min (n - i) writeMax)).toNat =
          off.toNat + min (n - i) writeMax := by
        rw [UInt32.toNat_add, hn, Nat.mod_eq_of_lt (lt_of_le_of_lt hmax (by decide))]
      have hidle : Idle sb f ip (off + UInt32.ofNat (min (n - i) writeMax))
          (overwrite c off.toNat (fun o => addr (i + o)) (min (n - i) writeMax)) s₆ := by
        refine ⟨h₆, hlh₆, ?_, ?_, ?_⟩
        · rw [hst'.file]
          refine (congrArg File.off (Function.update_self _ _ _)).trans ?_
          rw [htab, hst.file, h.offset]
        · rw [hst'.get]
          refine hdata.trans ?_
          rw [hst.get, h.data, hn]
        · rw [hsum, length_overwrite]
          exact le_max_right _ _
      have hrest : n - (i + min (n - i) writeMax) = n - i - min (n - i) writeMax := by omega
      have hpos := writeMax_pos
      refine (ih hidle (by omega) (by omega) ?_).mono (fun r s' hr => ?_) fun _ => id
      · rw [hst'.free_iff, hsum, hrest]
        rw [hn, Nat.add_sub_cancel_left] at hfree₃
        exact hfree₃
      · rw [hsum, hrest] at hr
        obtain ⟨hr, off', hoff', hidle'⟩ := hr
        refine ⟨hr.trans (if_congr (by omega) rfl rfl), off', ?_, ?_⟩
        · rw [writable_round hmax, hoff', Nat.add_assoc]
        · rw [writable_round hmax, ← overwrite_overwrite _ _ _ h.within]
          simpa only [Nat.add_assoc] using hidle'
    · -- the round is refused
      obtain ⟨hbig, hzero⟩ := writable_refused h.le_max hmax
      refine Wp.bind (h₂.wp_writei_refused hv (by rw [hn]; exact hmax) ?_)
      dsimp only
      rw [if_neg hbig]
      refine Wp.bind (h₂.wp_iunlock hv fun s₃ h₃ hst₃ => Wp.bind
        (h₃.wp_endOp fun s₄ h₄ hst₄ hlh₄ => Wp.pure
          ⟨rfl, Idle.refl ⟨h₄, hlh₄, ?_, ?_, h.within⟩ _ hzero⟩))
      · rw [hst₄.file, hst₃.file, hst.file, h.offset]
      · rw [hst₄.get, hst₃.get, hst.get, h.data]

theorem Opened.wp_filewrite (h : Opened sb f ip l t s) {a : Nat → UInt8}
    {q : Option Nat} {Q : Option Nat → Machine → Prop}
    (hloop : Wp sb p (filewriteLoop f a n n 0) Q E s) : Wp sb p (filewrite f a n q) Q E s := by
  refine Wp.bind (wp_file ?_)
  rw [h.file.1, h.file.2.1]
  exact hloop

/-- **A write in chunks is one write.** When no transaction is running and the blocks that are
needed are free, `filewrite` overwrites the file with the first bytes of `addr` at the offset and advances
the offset behind them. These are all the bytes, and then it returns `n`, or those in the rounds
that fit below the largest file size. -/
theorem filewrite_eq_overwrite {off : UInt32} {c : List UInt8} (h : Idle sb f ip off c s)
    (hlog : maxOpBlocks + 1 < logLimit sb) (addr : Nat → UInt8) (n : Nat) (pip : Option Nat)
    (hfree : Free sb s ip off.toNat (writable off.toNat n)) :
    ∃ s', Program.exec (Machine.handler sb p) (filewrite f addr n pip) s =
        .ok (if off.toNat + n ≤ maxFile * bsize then some n else none, s') ∧
      (s'.get sb ip).data = overwrite c off.toNat addr (writable off.toNat n) ∧
      (s'.tables.ftable f).off.toNat = off.toNat + writable off.toNat n := by
  have hloop := h.wp_filewriteLoop (p := p) hlog addr n (i := 0) (Nat.zero_le n) (Nat.sub_le n 0)
    hfree
  obtain ⟨r, s', hrun, rfl, off', hoff, hidle⟩ :=
    (h.wp_filewrite (a := addr) (q := pip) hloop).returns
  refine ⟨s', hrun, ?_, ?_⟩
  · rw [hidle.data]
    simp only [Nat.zero_add, Nat.sub_zero]
  · rw [hidle.offset]
    exact hoff

def blankFile : Machine :=
  { SharedWrite.emptyFile with
    tables := { SharedWrite.emptyFile.tables with
      icache := fun k => ⟨rootDev, 1, if k = 0 then 1 else 0, false, none, none⟩ } }

theorem idle_blankFile : Idle Mkfs.sb 0 0 0 [] blankFile := by
  have hpos : ∀ k, 0 < (blankFile.slot k).ref → k = 0 := by
    intro k hk
    by_contra hne
    change 0 < (if k = 0 then (1 : Int) else 0) at hk
    rw [if_neg hne] at hk
    omega
  have hget : blankFile.get Mkfs.sb 0 = ⟨tFile, 0, 0, 0, []⟩ := by
    change nodeOf Mkfs.sb oneFile.disk 1 = _
    rw [nodeOf_of_alloc (by decide) (by rw [dinode_oneFile]; decide), dinode_oneFile]
    rfl
  refine ⟨⟨⟨rfl, rfl, storeOk_oneFile.geometry, storeOk_oneFile.disk, storeOk_oneFile.allocs,
    fun k hk => ?_, fun k l hk hl _ => ?_, nofun, fun _ hd => absurd rfl hd⟩, ⟨rfl, rfl, rfl⟩,
    by decide, by decide, by rw [hget], rfl, rfl⟩, rfl, rfl, by rw [hget], Nat.zero_le _⟩
  · rw [hpos k hk]
    exact ⟨by decide, rfl⟩
  · rw [hpos k hk, hpos l hl]

/-- Of 100000 bytes the first 46 rounds fit into a file. -/
theorem filewrite_eq_overwrite_blankFile :
    ∃ s', Program.exec (Machine.handler Mkfs.sb 0) (filewrite 0 (fun _ => 97) 100000 none)
        blankFile = .ok (none, s') ∧
      (s'.get Mkfs.sb 0).data = overwrite [] 0 (fun _ => 97) 70656 ∧
      (s'.tables.ftable 0).off.toNat = 70656 := by
  have hw : writable (0 : UInt32).toNat 100000 = 70656 := by decide
  have hfree : Free Mkfs.sb blankFile 0 (0 : UInt32).toNat (writable (0 : UInt32).toNat 100000) := by
    rw [hw]
    exact (missing_le _ _ _).trans (le_trans (by decide) freeCount_oneFile)
  have hrun := filewrite_eq_overwrite (p := 0) idle_blankFile (by decide) (fun _ => 97) 100000 none
    hfree
  rw [if_neg (by decide), hw] at hrun
  exact hrun

end Alone

end Xv6.Kernel
