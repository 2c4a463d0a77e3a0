import Xv6.Kernel.Calls
import Xv6.Kernel.Refine

/-!
# Rules for a process that runs alone

Between two system calls every field of an inode has been written back. The rules say what becomes
of such a state when one process runs an operation, or a function that locks, unlocks or drops an
inode.
-/

namespace Xv6.Kernel

open Fs Hoare Program

namespace Slot

def withLock (sl : Slot) (o : Option Nat) : Slot := { sl with lock := o }

def withRef (sl : Slot) (r : Int) : Slot := { sl with ref := r }

def withValid (sl : Slot) (v : Bool) : Slot := { sl with valid := v }

def filled (sl : Slot) (inum : Nat) : Slot :=
  { sl with dev := rootDev, inum := inum, ref := 1, valid := false }

end Slot

namespace Machine

variable (sb : Superblock) (s : Machine)

/-- The inodes on the disk, with no field that waits to be written back. -/
def nodes : Nodes := ⟨s.tables, nodeOf sb s.store.disk, fun _ => none⟩

def node (i : Nat) : Node := nodeOf sb s.store.disk i

def get (k : Nat) : Node := s.node sb (s.inum k)

/-- Process `p` has locked and read the inode of slot `k`. -/
def Held (p k : Nat) : Prop :=
  0 < (s.slot k).ref ∧ (s.slot k).valid = true ∧ (s.slot k).lock = some p

/-- Dropping a reference to slot `k` will free its inode. -/
def Dies (k : Nat) : Prop :=
  (s.slot k).valid = true ∧ (s.get sb k).nlink = 0 ∧ (s.slot k).ref = 1

instance (k : Nat) : Decidable (s.Dies sb k) := inferInstanceAs (Decidable (_ ∧ _ ∧ _))

end Machine

def Node.Small (n : Node) : Prop := n.data.length ≤ maxFile * bsize

variable {n : Node}

theorem Node.Small.lt (h : n.Small) : n.data.length < 2 ^ 31 := by
  simp only [Node.Small, maxFile, ndirect, nindirect, bsize] at h
  omega

namespace Alone

/-- The state is well formed, and all fields have been written back. -/
def Settled (sb : Superblock) (s : Machine) : Prop := Refines sb s (s.nodes sb)

/-- From `s` the program returns with `Q` or stops with `E`. -/
abbrev Wp (sb : Superblock) (p : Nat) {α : Type} (m : Prog α) (Q : α → Machine → Prop)
    (E : Stop → Prop) (s : Machine) : Prop :=
  wp (Program.exec (Machine.handler sb p) m) Q E s

/-- The stops that a call may run into: all but a wrong use of a slot. -/
def Tame (E : Stop → Prop) : Prop := ∀ e, e ≠ .wrong → E e

variable {sb : Superblock} {p : Nat} {α β : Type} {m : Prog α} {E : Stop → Prop}
  {s s' : Machine} {t : Nodes} {k ip dp : Nat}

theorem Tame.asleep (hE : Tame E) (w : Wait) : E (.asleep w) := hE _ fun h => Stop.noConfusion h

theorem Tame.panic (hE : Tame E) (msg : String) : E (.panic msg) :=
  hE _ fun h => Stop.noConfusion h

theorem Wp.bind {f : α → Prog β} {Q : β → Machine → Prop}
    (h : Wp sb p m (fun a s' => Wp sb p (f a) Q E s') E s) : Wp sb p (m >>= f) Q E s :=
  wp_exec_bind.mpr h

theorem Wp.pure {a : α} {Q : α → Machine → Prop} (h : Q a s) :
    Wp sb p (Pure.pure a : Prog α) Q E s := h

theorem Wp.ite {c : Prop} [Decidable c] {m' : Prog α} {Q : α → Machine → Prop}
    (ht : c → Wp sb p m Q E s) (he : ¬ c → Wp sb p m' Q E s) :
    Wp sb p (if c then m else m') Q E s := by
  split
  · exact ht ‹_›
  · exact he ‹_›

theorem wp_panic {msg : String} {Q : α → Machine → Prop} (h : E (.panic msg)) :
    Wp sb p (Kernel.panic msg) Q E s := h

theorem wp_call {o : Op} {Q : o.Ret → Machine → Prop} (h : wp (Machine.handler sb p o) Q E s) :
    Wp sb p (call o) Q E s := by
  rw [Wp, call, exec_call]
  exact h

theorem settled_of_refines (h : Refines sb s t) (hd : t.dirty = fun _ => none) : Settled sb s := by
  have ht : t = s.nodes sb := by
    cases t
    simp only [Machine.nodes, Nodes.mk.injEq]
    exact ⟨h.tables, h.nodes, hd⟩
  rw [ht] at h
  exact h

/-- An operation that does not go wrong without the disk, does the same with it. -/
theorem wp_op {o : Op} {Q : o.Ret → Machine → Prop} (h : Refines sb s t)
    (hE : ∀ e, Machine.handler sb p o s = .error e → e ≠ .wrong → E e)
    (hwrong : Nodes.handler sb p o t ≠ .error .wrong)
    (hQ : ∀ r s' t', Machine.handler sb p o s = .ok (r, s') →
      Nodes.handler sb p o t = .ok (r, t') → Refines sb s' t' → Q r s') :
    Wp sb p (call o) Q E s := by
  refine wp_call ?_
  have hmatch := (handler_matches o h).resolve_left hwrong
  cases hres : Machine.handler sb p o s with
  | ok q =>
    rw [hres] at hmatch
    obtain ⟨t', ht, href⟩ := hmatch
    exact (wp_of_ok hres).mpr (hQ q.1 q.2 t' hres ht href)
  | error e =>
    rw [hres] at hmatch
    refine (wp_of_error hres).mpr (hE e hres fun he => ?_)
    rcases hmatch with hl | ht
    · rw [he] at hl
      simp [Limit] at hl
    · exact hwrong (he ▸ ht)

variable {o : TableOp} {c : Tables}

theorem machine_table {r : o.Ret} (hrun : o.run p s.tables = .ok (r, c)) :
    Machine.handler sb p (.table o) s = .ok (r, { s with tables := c }) := by
  simp only [Machine.handler, hrun]

theorem nodes_table {r : o.Ret} (hal : Nodes.allowed o t = true)
    (hrun : o.run p t.tables = .ok (r, c)) :
    Nodes.handler sb p (.table o) t = .ok (r, { t with tables := c }) := by
  simp only [Nodes.handler, if_pos hal, hrun]

theorem Settled.table (h : Settled sb s) {r : o.Ret}
    (hal : Nodes.allowed o (s.nodes sb) = true) (hrun : o.run p s.tables = .ok (r, c)) :
    Settled sb { s with tables := c } := by
  have hx := Refines.table (p := p) h o
  rw [machine_table hrun, nodes_table hal hrun] at hx
  obtain hx | ⟨t, ht, href⟩ := hx
  · cases hx
  · cases ht
    exact settled_of_refines href rfl

theorem Settled.copy_eq (h : Settled sb s) (href : 0 < (s.slot k).ref)
    (hv : (s.slot k).valid = true) : s.inum k < sb.ninodes ∧
      (dinode sb s.store.disk (s.inum k)).type ≠ 0 ∧
      s.copy k = dinode sb s.store.disk (s.inum k) := h.valid k href hv

theorem Settled.get_eq (h : Settled sb s) (href : 0 < (s.slot k).ref)
    (hv : (s.slot k).valid = true) : s.get sb k =
      ⟨(s.copy k).type, (s.copy k).major, (s.copy k).minor, (s.copy k).nlink,
        content s.store.disk (s.copy k)⟩ := by
  obtain ⟨hi, ht, hc⟩ := h.copy_eq href hv
  rw [Machine.get, Machine.node, nodeOf_of_alloc hi ht, hc]

theorem Settled.type_ne_zero (h : Settled sb s) (href : 0 < (s.slot k).ref)
    (hv : (s.slot k).valid = true) : (s.get sb k).type ≠ 0 := by
  rw [h.get_eq href hv, (h.copy_eq href hv).2.2]
  exact (h.copy_eq href hv).2.1

theorem Settled.small (h : Settled sb s) (i : Nat) : (s.node sb i).Small := by
  rw [Machine.node, nodeOf]
  split
  · next hi =>
    have hh := h.disk.holes i hi.1 hi.2
    rw [Node.Small, length_content]
    by_contra hlt
    have := (hh maxFile (not_le.mp hlt)).1
    omega
  · exact Nat.zero_le _

theorem wp_table {Q : o.Ret → Machine → Prop}
    (hok : ∀ r c, o.run p s.tables = .ok (r, c) → Q r { s with tables := c })
    (herr : ∀ e, o.run p s.tables = .error e → E e) : Wp sb p (table o) Q E s := by
  refine wp_call ?_
  cases hrun : o.run p s.tables with
  | ok q => exact (wp_of_ok (machine_table hrun)).mpr (hok q.1 q.2 hrun)
  | error e =>
    have herror : Machine.handler sb p (.table o) s = .error e := by
      simp only [Machine.handler, hrun]
    exact (wp_of_error herror).mpr (herr e hrun)

theorem wp_table_ok {Q : o.Ret → Machine → Prop} {r : o.Ret}
    (hrun : o.run p s.tables = .ok (r, c)) (hQ : Q r { s with tables := c }) :
    Wp sb p (table o) Q E s :=
  wp_call ((wp_of_ok (machine_table hrun)).mpr hQ)

theorem wp_ref {Q : Int → Machine → Prop} (h : Q (s.slot ip).ref s) :
    Wp sb p (table (.ref ip)) Q E s := wp_table_ok rfl h

theorem wp_ident {Q : Nat × Nat → Machine → Prop} (h : Q ((s.slot ip).dev, s.inum ip) s) :
    Wp sb p (table (.ident ip)) Q E s := wp_table_ok rfl h

theorem wp_valid {Q : Bool → Machine → Prop} (h : Q (s.slot ip).valid s) :
    Wp sb p (table (.valid ip)) Q E s := wp_table_ok rfl h

theorem wp_holdingsleep {Q : Bool → Machine → Prop} (h : Q ((s.slot ip).lock = some p) s) :
    Wp sb p (table (.holdingsleep ip)) Q E s := wp_table_ok rfl h

theorem wp_file {f : Nat} {Q : File → Machine → Prop} (h : Q (s.tables.ftable f) s) :
    Wp sb p (table (.file f)) Q E s := wp_table_ok rfl h

variable {Q : Unit → Machine → Prop}

theorem wp_beginOp (hE : Tame E)
    (h : ∀ s', s'.tables = s.tables → s'.store.disk = s.store.disk → s'.copy = s.copy →
      s'.store.allocs = s.store.allocs → Q () s') : Wp sb p beginOp Q E s := by
  refine wp_call ?_
  change wp Machine.beginOp Q E s
  rw [wp, Machine.beginOp]
  split
  · next hx =>
    split at hx
    · cases hx
    · cases hx
      exact h _ rfl rfl rfl rfl
  · next hx =>
    split at hx <;> cases hx
    exact hE.asleep _

theorem wp_endOp (h : ∀ s', s'.tables = s.tables → s'.store.disk = s.store.disk → s'.copy = s.copy →
      s'.store.allocs = s.store.allocs → Q () s') : Wp sb p endOp Q E s :=
  wp_call (h _ rfl rfl rfl rfl)

theorem inum_withSlot_self {sl : Slot} (h : sl.inum = s.inum ip) :
    (s.withSlot ip sl).inum ip = s.inum ip := by
  change ((s.withSlot ip sl).slot ip).inum = _
  rw [Machine.slot_withSlot_self, h]

theorem get_withSlot_self {sl : Slot} (h : sl.inum = s.inum ip) :
    (s.withSlot ip sl).get sb ip = s.get sb ip := by
  rw [Machine.get, inum_withSlot_self h]
  rfl

theorem usable_of_held (hheld : s.Held p ip) : (s.nodes sb).usable p ip = true := by
  obtain ⟨href, hv, hlock⟩ := hheld
  have href : 0 < (s.tables.icache ip).ref := href
  have hv : (s.tables.icache ip).valid = true := hv
  have hlock : (s.tables.icache ip).lock = some p := hlock
  simp [Nodes.usable, Nodes.locked, Machine.nodes, href, hv, hlock]

section

variable (h : Settled sb s)

include h

theorem wp_attrs {Q : Attrs → Machine → Prop} (href : 0 < (s.slot ip).ref)
    (hv : (s.slot ip).valid = true)
    (hQ : Q ⟨(s.get sb ip).type, (s.get sb ip).major, (s.get sb ip).nlink,
      UInt32.ofNat (s.get sb ip).data.length⟩ s) : Wp sb p (attrs ip) Q E s := by
  refine wp_call ?_
  rw [h.get_eq href hv, length_content, UInt32.ofNat_toNat] at hQ
  exact hQ

theorem wp_readData {off n : UInt32} {Q : Option (List UInt8) → Machine → Prop} (href : 0 < (s.slot ip).ref) (hv : (s.slot ip).valid = true)
    (hdev : (s.get sb ip).type ≠ tDev) (hQ : Q (readResult (s.get sb ip).data off n) s) :
    Wp sb p (readData ip off n) Q E s := by
  obtain ⟨hi, ht, hc⟩ := h.copy_eq href hv
  have hget := h.get_eq href hv
  rw [hget] at hdev hQ
  have hfull : HoleFree s.store.disk (s.copy ip) := hc ▸ h.disk.holes _ hi ht
  have hread : Fs.readi sb (s.inum ip) (s.copy ip) off n s.store = _ := readi_eq hfull hdev off n
  refine wp_call ?_
  rw [Machine.handler_readi]
  have hstep : Machine.withCopy ip (fun inum d => Fs.readi sb inum d off n) s =
      .ok (readResult (content s.store.disk (s.copy ip)) off n, s) := by
    simp only [Machine.withCopy, hread, Function.update_eq_self]
  exact (wp_of_ok hstep).mpr hQ

theorem wp_acquiresleep (hlock : (s.slot ip).lock ≠ none → E (.asleep (.inode ip)))
    (hQ : (s.slot ip).lock = none → ∀ s₁, s₁ = s.withSlot ip ((s.slot ip).withLock (some p)) →
      Settled sb s₁ → s₁.slot ip = (s.slot ip).withLock (some p) → s₁.inum ip = s.inum ip →
      s₁.get sb ip = s.get sb ip → Q () s₁) : Wp sb p (table (.acquiresleep ip)) Q E s := by
  refine wp_table (fun r c hrun => ?_) fun e hrun => ?_ <;>
    simp only [TableOp.run] at hrun <;> split at hrun <;> cases hrun
  · next hnone =>
    exact hQ hnone _ rfl (h.table (p := p) (o := .acquiresleep ip) (r := ()) rfl (if_pos hnone))
      (s.slot_withSlot_self ip _) (inum_withSlot_self rfl) (get_withSlot_self rfl)
  · exact hlock ‹_›

theorem wp_releasesleep (hQ : Settled sb (s.withSlot ip ((s.slot ip).withLock none)) →
      Q () (s.withSlot ip ((s.slot ip).withLock none))) :
    Wp sb p (table (.releasesleep ip)) Q E s :=
  wp_table_ok rfl (hQ (h.table (p := p) (o := .releasesleep ip) (r := ()) rfl rfl))

theorem wp_unref (href : 0 < (s.slot ip).ref)
    (hQ : Settled sb (s.withSlot ip ((s.slot ip).withRef ((s.slot ip).ref - 1))) →
      Q () (s.withSlot ip ((s.slot ip).withRef ((s.slot ip).ref - 1)))) :
    Wp sb p (table (.unref ip)) Q E s := by
  have hal : Nodes.allowed (.unref ip) (s.nodes sb) = true := by
    simp only [Nodes.allowed, Machine.nodes, Option.isNone_none, Bool.or_true, Bool.and_true]
    exact decide_eq_true href
  exact wp_table_ok rfl (hQ (h.table (p := p) (o := .unref ip) (r := ()) hal rfl))

theorem wp_load (hE : (s.get sb ip).type = 0 → E (.panic "ilock: no type"))
    (href : 0 < (s.slot ip).ref) (hv : (s.slot ip).valid = false)
    (hlock : (s.slot ip).lock = some p) (hi : s.inum ip < sb.ninodes)
    (hQ : ∀ s', Settled sb s' → s'.tables = s.tables.setSlot ip ((s.slot ip).withValid true) →
      s'.store = s.store → (s.get sb ip).type ≠ 0 → Q () s') : Wp sb p (call (.load ip)) Q E s := by
  have hload : Nodes.load sb p ip (s.nodes sb) =
      if (s.get sb ip).type = 0 then .error (.panic "ilock: no type")
      else .ok ((), (s.nodes sb).setValid ip true) := if_pos ⟨href, hv, hlock, hi⟩
  refine wp_op h (fun e he _ => ?_) (fun hw => ?_) fun r s' t' hs' ht' href' => ?_
  · change Machine.load sb ip s = _ at he
    rw [Machine.load] at he
    dsimp only at he
    split at he
    · next hzero =>
      cases he
      refine hE ?_
      rw [Machine.get, Machine.node, nodeOf, if_neg fun hc => hc.2 hzero]
      rfl
    · cases he
  · rw [show Nodes.handler sb p (.load ip) = Nodes.load sb p ip from rfl, hload] at hw
    split at hw <;> cases hw
  · rw [show Nodes.handler sb p (.load ip) = Nodes.load sb p ip from rfl, hload] at ht'
    split at ht'
    · cases ht'
    · next htype =>
      cases ht'
      change Machine.load sb ip s = _ at hs'
      rw [Machine.load] at hs'
      dsimp only at hs'
      split at hs'
      · cases hs'
      · cases hs'
        exact hQ _ (settled_of_refines href' rfl) rfl rfl htype

/-- `ilock` sleeps if the lock is held, panics if the inode is not allocated, and else takes the
lock of an inode that has been read. -/
theorem wp_ilock (hlock : (s.slot ip).lock ≠ none → E (.asleep (.inode ip)))
    (htype : (s.get sb ip).type = 0 → E (.panic "ilock: no type"))
    (href : 0 < (s.slot ip).ref) (hi : s.inum ip < sb.ninodes)
    (hQ : ∀ s', Settled sb s' → s'.tables = s.tables.setSlot ip
        (((s.slot ip).withLock (some p)).withValid true) → s'.store = s.store →
      (s.slot ip).lock = none → (s.get sb ip).type ≠ 0 → Q () s') : Wp sb p (ilock ip) Q E s := by
  rw [ilock]
  refine Wp.bind (wp_ref (Wp.ite
    (fun hlt : (s.slot ip).ref < 1 => absurd href (by omega)) fun _ => Wp.bind ?_))
  refine wp_acquiresleep h hlock fun hnone s₁ hs₁ hset hslot hinum hget => ?_
  refine Wp.bind (wp_valid (Wp.ite (fun hv => Wp.pure ?_) fun hv => ?_))
  · rw [hslot] at hv
    refine hQ _ hset ?_ (by rw [hs₁]; rfl) hnone (h.type_ne_zero href hv)
    rw [← hv, hs₁]
    rfl
  · refine wp_load hset (fun h0 => htype (hget ▸ h0)) ?_ (by simpa using hv) ?_
      (by rw [hinum]; exact hi) ?_
    · rw [hslot]
      exact href
    · rw [hslot]
      rfl
    intro s' hs' htab hstore htype
    refine hQ s' hs' ?_ (by rw [hstore, hs₁]; rfl) hnone (hget ▸ htype)
    rw [htab, hslot, hs₁]
    simp only [Machine.withSlot, Tables.setSlot, Function.update_idem]

theorem wp_iunlock (hheld : s.Held p ip)
    (hQ : Settled sb (s.withSlot ip ((s.slot ip).withLock none)) →
      Q () (s.withSlot ip ((s.slot ip).withLock none))) : Wp sb p (iunlock ip) Q E s := by
  obtain ⟨href, -, hlock⟩ := hheld
  rw [iunlock]
  refine Wp.bind (wp_holdingsleep (Wp.bind (wp_ref (Wp.ite (fun hc => ?_) fun _ => ?_))))
  · have hlt : (s.slot ip).ref < 1 := by simpa [hlock] using hc
    omega
  · exact wp_releasesleep h hQ

theorem wp_iputFree
    (hE : s.Dies sb ip → Tame E) (href : 0 < (s.slot ip).ref) (hlock : (s.slot ip).lock = some p)
    (hkeep : ¬ s.Dies sb ip → Q () s) (hfree : s.Dies sb ip → ∀ s', Settled sb s' →
      s'.tables = s.tables.setSlot ip ((s.slot ip).withValid false) →
      s'.node sb = Function.update (s.node sb) (s.inum ip) Node.free → Q () s') :
    Wp sb p (iputFree ip) Q E s := by
  rw [iputFree]
  refine Wp.bind (wp_valid (Wp.ite (fun hv => ?_) fun hv => Wp.pure (hkeep fun hd => hv hd.1)))
  refine Wp.bind (wp_attrs h href hv (Wp.ite (fun hn => ?_) fun hn =>
    Wp.pure (hkeep fun hd => hn hd.2.1)))
  refine Wp.bind (wp_ref (Wp.ite (fun hr => ?_) fun hr => Wp.pure (hkeep fun hd => hr hd.2.2)))
  have hu : (s.nodes sb).usable p ip = true := usable_of_held ⟨href, hv, hlock⟩
  have hstep : Nodes.handler sb p (.free ip) (s.nodes sb) =
      .ok ((), ((s.nodes sb).setAt ip Node.free).setValid ip false) := by
    rw [Nodes.handler_free]
    exact if_pos hu
  refine wp_op h (fun e _ => hE ⟨hv, hn, hr⟩ e) (fun hw => ?_) fun r s' t' _ ht' href' => ?_
  · rw [hstep] at hw
    cases hw
  · rw [hstep] at ht'
    cases ht'
    exact hfree ⟨hv, hn, hr⟩ s' (settled_of_refines href' rfl) href'.tables.symm href'.nodes.symm

/-- `iput` sleeps if the lock is held, and else drops the reference. -/
theorem wp_iput (hlock : (s.slot ip).lock ≠ none → E (.asleep (.inode ip)))
    (hE : (s.slot ip).lock = none → s.Dies sb ip → Tame E) (href : 0 < (s.slot ip).ref)
    (hkeep : ¬ s.Dies sb ip → (s.slot ip).lock = none →
      Settled sb (s.withSlot ip ((s.slot ip).withRef ((s.slot ip).ref - 1))) →
      Q () (s.withSlot ip ((s.slot ip).withRef ((s.slot ip).ref - 1))))
    (hfree : s.Dies sb ip → (s.slot ip).lock = none → ∀ s', Settled sb s' →
      s'.tables = s.tables.setSlot ip
        (((s.slot ip).withValid false).withRef ((s.slot ip).ref - 1)) →
      s'.node sb = Function.update (s.node sb) (s.inum ip) Node.free → Q () s') :
    Wp sb p (iput ip) Q E s := by
  rw [iput]
  refine Wp.bind (wp_acquiresleep h hlock fun hnone s₁ hs₁ hset hslot hinum hget => Wp.bind ?_)
  have hdies : s₁.Dies sb ip ↔ s.Dies sb ip := by
    rw [Machine.Dies, hslot, hget, Machine.Dies]
    rfl
  -- what is left to do once the inode has been freed or not
  have hrest : ∀ (s₂ : Machine) (v : Bool), Settled sb s₂ →
      s₂.slot ip = ((s.slot ip).withLock (some p)).withValid v →
      (Settled sb (s₂.withSlot ip (((s.slot ip).withValid v).withRef ((s.slot ip).ref - 1))) →
        Q () (s₂.withSlot ip (((s.slot ip).withValid v).withRef ((s.slot ip).ref - 1)))) →
      Wp sb p (do
        table (.releasesleep ip)
        table (.unref ip)) Q E s₂ := by
    intro s₂ v hs₂ hsl hq
    have hfree : (s₂.slot ip).withLock none = (s.slot ip).withValid v := by
      rw [hsl, ← hnone]
      rfl
    refine Wp.bind (wp_releasesleep hs₂ fun hs₃ => ?_)
    rw [hfree] at hs₃ ⊢
    refine wp_unref hs₃ ?_ ?_
    · rw [Machine.slot_withSlot_self]
      exact href
    · rw [Machine.slot_withSlot_self, Machine.withSlot_withSlot]
      exact hq
  refine wp_iputFree hset (fun hd => hE hnone (hdies.mp hd)) (by rw [hslot]; exact href)
    (by rw [hslot]; rfl) (fun hd => ?_) ?_
  · refine hrest _ (s.slot ip).valid hset hslot ?_
    rw [hs₁, Machine.withSlot_withSlot]
    exact hkeep (fun hd' => hd (hdies.mpr hd')) hnone
  · intro hd s₂ hs₂ htab hnode
    have htab : s₂.tables = s.tables.setSlot ip
        (((s.slot ip).withLock (some p)).withValid false) := by
      rw [htab, hslot, hs₁]
      simp only [Machine.withSlot, Tables.setSlot, Function.update_idem]
    have hsl : s₂.slot ip = (((s.slot ip).withLock (some p)).withValid false) := by
      rw [Machine.slot, htab]
      exact Function.update_self _ _ _
    refine hrest s₂ false hs₂ hsl fun hs₃ => hfree (hdies.mp hd) hnone _ hs₃ ?_ ?_
    · simp only [Machine.withSlot, htab, Tables.setSlot, Function.update_idem]
    · rw [← hinum]
      exact hnode.trans (by rw [hs₁]; rfl)

end

theorem disk_of_iupdate {r : Unit} (h : Machine.handler sb p (.iupdate ip) s = .ok (r, s')) :
    s'.store.disk = setDinode sb s.store.disk (s.inum ip) (s.copy ip) := by
  have hwp : wp (do
      Fs.iupdate sb (s.inum ip) (s.copy ip)
      return ((), s.copy ip) : StoreM (Unit × Dinode)) (fun _ st =>
        st.disk = setDinode sb s.store.disk (s.inum ip) (s.copy ip)) (fun _ => True) s.store := by
    refine wp_bind.mpr (wp_iupdate (n := 0) (f := 0) (Or.inl fun _ _ => trivial) ?_)
    exact (wp_pure _).mpr (Store.logged_iblock_disk _ _ _)
  rw [Machine.handler_iupdate, Machine.withCopy] at h
  split at h
  · next hw =>
    cases h
    exact hwp.ok hw
  · cases h

theorem wp_update {f : Links → Links} (h : Settled sb s) (hE : Tame E) (hheld : s.Held p ip)
    (hQ : ∀ s', Settled sb s' → s'.tables = s.tables →
      s'.node sb = Function.update (s.node sb) (s.inum ip) ((s.get sb ip).setLinks f) →
      s'.store.disk = setDinode sb s.store.disk (s.inum ip)
        (Links.assign f (dinode sb s.store.disk (s.inum ip))) → Q () s') :
    Wp sb p (update ip f) Q E s := by
  have hu : (s.nodes sb).usable p ip = true := usable_of_held hheld
  obtain ⟨href, hv, hlock⟩ := hheld
  have hcopy := (h.copy_eq href hv).2.2
  have hassign : Nodes.handler sb p (.assign ip f) (s.nodes sb) = .ok ((), { s.nodes sb with
      dirty := Function.update (s.nodes sb).dirty ip
        (some (f ⟨(s.get sb ip).major, (s.get sb ip).minor, (s.get sb ip).nlink⟩)) }) := by
    rw [Nodes.handler_assign]
    exact if_pos hu
  rw [update]
  refine Wp.bind (wp_op h (fun e _ => hE e) (fun hw => ?_) fun r s₁ t₁ hs₁ ht₁ href₁ => ?_)
  · rw [hassign] at hw
    cases hw
  rw [hassign] at ht₁
  cases ht₁
  cases hs₁
  set t₁ : Nodes := { s.nodes sb with
      dirty := Function.update (s.nodes sb).dirty ip
        (some (f ⟨(s.get sb ip).major, (s.get sb ip).minor, (s.get sb ip).nlink⟩)) } with ht₁
  have hlocked : t₁.locked p ip = true := by
    rw [Nodes.usable, Bool.and_eq_true] at hu
    exact hu.1
  have hdirty : t₁.dirty ip =
      some (f ⟨(s.get sb ip).major, (s.get sb ip).minor, (s.get sb ip).nlink⟩) :=
    Function.update_self _ _ _
  have hback : Nodes.handler sb p (.iupdate ip) t₁ =
      .ok ((), t₁.put ip ((s.get sb ip).setLinks f)) := by
    change (if t₁.locked p ip = true then Except.ok ((), t₁.writeBack ip)
      else .error Stop.wrong) = _
    rw [if_pos hlocked, Nodes.writeBack, hdirty]
    rfl
  refine wp_op href₁ (fun e _ => hE e) (fun hw => ?_) fun r s₂ t₂ hs₂ ht₂ href₂ => ?_
  · rw [hback] at hw
    cases hw
  rw [hback] at ht₂
  cases ht₂
  refine hQ s₂ (settled_of_refines href₂ ?_) href₂.tables.symm href₂.nodes.symm ?_
  · change Function.update t₁.dirty ip none = _
    rw [ht₁, Function.update_idem]
    exact Function.update_eq_self ip _
  · -- the copy that is written is the one that was assigned
    rw [disk_of_iupdate hs₂, ← hcopy]
    exact congrArg (setDinode sb s.store.disk (s.inum ip)) (Function.update_self _ _ _)

theorem wp_writeData {src : Nat → UInt8} {off n : UInt32} {Q : Option UInt32 → Machine → Prop}
    (h : Settled sb s)
    (hE : ∀ e, Machine.handler sb p (.writei ip src off n) s = .error e → e ≠ .wrong → E e)
    (hheld : s.Held p ip) (hQ : ∀ s', Machine.handler sb p (.writei ip src off n) s =
        .ok ((Nodes.writeNode (s.get sb ip) src off n).1, s') → Settled sb s' →
      s'.tables = s.tables →
      s'.node sb = Function.update (s.node sb) (s.inum ip)
        (Nodes.writeNode (s.get sb ip) src off n).2 →
      Q (Nodes.writeNode (s.get sb ip) src off n).1 s') :
    Wp sb p (writeData ip src off n) Q E s := by
  have hstep : Nodes.handler sb p (.writei ip src off n) (s.nodes sb) =
      .ok ((Nodes.writeNode (s.get sb ip) src off n).1,
        (s.nodes sb).setAt ip (Nodes.writeNode (s.get sb ip) src off n).2) := by
    rw [Nodes.handler_writei]
    exact if_pos (usable_of_held hheld)
  refine wp_op h hE (fun hw => ?_) fun r s' t' hs' ht' href' => ?_
  · rw [hstep] at hw
    cases hw
  · rw [hstep] at ht'
    cases ht'
    exact hQ s' hs' (settled_of_refines href' rfl) href'.tables.symm href'.nodes.symm

theorem toNat_ofNat_of_lt {a : Nat} (h : a < 2 ^ 32) : (UInt32.ofNat a).toNat = a := by
  rw [UInt32.toNat_ofNat', Nat.mod_eq_of_lt h]

variable {j : Nat}

theorem readResult_entry (hsmall : n.Small) (hj : direntSize * j < n.data.length) :
    readResult n.data (UInt32.ofNat (direntSize * j)) (UInt32.ofNat direntSize) =
      some ((n.data.drop (direntSize * j)).take direntSize) := by
  have hlt := hsmall.lt
  have hoff : (UInt32.ofNat (direntSize * j)).toNat = direntSize * j :=
    toNat_ofNat_of_lt (by omega)
  have hsum : ¬ UInt32.ofNat (direntSize * j) + UInt32.ofNat direntSize <
      UInt32.ofNat (direntSize * j) := by
    rw [UInt32.lt_iff_toNat_lt, UInt32.toNat_add, hoff]
    simp only [direntSize] at hj ⊢
    change ¬ (16 * j + 16) % 2 ^ 32 < 16 * j
    omega
  rw [readResult, hoff, if_neg fun h => h.elim (fun h => by omega) hsum]
  rfl

structure IsDir (sb : Superblock) (s : Machine) (dp : Nat) : Prop where
  settled : Settled sb s
  ref : 0 < (s.slot dp).ref
  valid : (s.slot dp).valid = true
  type : (s.get sb dp).type = tDir

namespace IsDir

variable (h : IsDir sb s dp)

include h in
theorem small : (s.get sb dp).Small := h.settled.small (s.inum dp)

include h in
theorem size_eq : (UInt32.ofNat (s.get sb dp).data.length).toNat = (s.get sb dp).data.length :=
  toNat_ofNat_of_lt (by have := h.small.lt; omega)

include h in
theorem wp_readDirent {j : Nat} {msg : String} {Q : Dirent → Machine → Prop}
    (hj : direntSize * j < (s.get sb dp).data.length)
    (hpanic : ¬ direntSize ∣ (s.get sb dp).data.length → E (.panic msg))
    (hQ : j < entryCount (s.get sb dp).data → Q (entryAt (s.get sb dp).data j) s) :
    Wp sb p (readDirent dp j msg) Q E s := by
  rw [readDirent]
  refine Wp.bind (wp_readData h.settled h.ref h.valid (by rw [h.type]; decide) ?_)
  rw [readResult_entry h.small hj]
  refine Wp.ite (fun hlen => Wp.pure (hQ ?_)) fun hlen => wp_panic (hpanic fun hdvd => ?_) <;>
    rw [List.length_take, List.length_drop] at hlen
  · rw [lt_entryCount]
    omega
  · simp only [direntSize] at hdvd hlen hj
    omega

end IsDir

variable {q : Dirent → Bool}

theorem search_of_ge {data : List UInt8}
    (hj : ¬ direntSize * j < data.length) : search q data j = none := by
  rw [search_eq_none]
  intro i hi hlt
  rw [lt_entryCount] at hlt
  simp only [direntSize] at hj hlt
  omega

theorem search_of_lt {data : List UInt8} (hj : j < entryCount data) :
    search q data j = if q (entryAt data j) = true then some j else search q data (j + 1) := by
  rw [search, search, show entryCount data - j = entryCount data - (j + 1) + 1 by omega, findFrom]

/-- The loops over a directory stop at the first entry they look for. -/
theorem IsDir.wp_scan (h : IsDir sb s dp) {msg : String}
    {Q : Option (Nat × Dirent) → Machine → Prop}
    (hpanic : ¬ direntSize ∣ (s.get sb dp).data.length → E (.panic msg)) (n j : Nat)
    (hn : (s.get sb dp).data.length < n + j)
    (hQ : Q ((search q (s.get sb dp).data j).map fun i => (i, entryAt (s.get sb dp).data i)) s) :
    Wp sb p (scan dp msg q n j) Q E s := by
  induction n generalizing j with
  | zero =>
    rw [scan]
    rw [search_of_ge (by simp only [direntSize]; omega)] at hQ
    exact Wp.pure hQ
  | succ n ih =>
    rw [scan]
    refine Wp.bind (wp_attrs h.settled h.ref h.valid ?_)
    simp only [h.size_eq]
    refine Wp.ite (fun hj => ?_) fun hj => ?_
    · refine Wp.bind (h.wp_readDirent hj hpanic fun hlt => ?_)
      rw [search_of_lt hlt] at hQ
      refine Wp.ite (fun hq => Wp.pure ?_) fun hq => ih (j + 1) (by omega) ?_
      · rw [if_pos hq] at hQ
        exact hQ
      · rw [if_neg hq] at hQ
        exact hQ
    · rw [search_of_ge hj] at hQ
      exact Wp.pure hQ

theorem writeNode_entry {src : Nat → UInt8} (hdir : n.type = tDir) (hj : direntSize * j < 2 ^ 32) :
    Nodes.writeNode n src (UInt32.ofNat (direntSize * j)) (UInt32.ofNat direntSize) =
      if direntSize * j ≤ n.data.length ∧ direntSize * j + direntSize ≤ maxFile * bsize then
        (some (UInt32.ofNat direntSize), n.setEntry j src)
      else (none, n) := by
  have hdev : n.type ≠ tDev := by
    rw [hdir]
    decide
  rw [Nodes.writeNode, if_neg hdev, toNat_ofNat_of_lt hj]
  rfl

theorem IsDir.wp_isdirempty (h : IsDir sb s dp) {Q : Bool → Machine → Prop}
    (hE : ¬ direntSize ∣ (s.get sb dp).data.length → Tame E)
    (hQ : Q (search (fun de => de.inum ≠ 0) (s.get sb dp).data 2).isNone s) :
    Wp sb p (isdirempty dp) Q E s := by
  rw [isdirempty]
  refine Wp.bind (wp_attrs h.settled h.ref h.valid (Wp.bind ?_))
  simp only [h.size_eq]
  refine h.wp_scan (fun hn => (hE hn).panic _) _ _ (by omega) (Wp.pure ?_)
  rw [Option.isNone_map]
  exact hQ

end Alone

end Xv6.Kernel
