import Xv6.Lib.Monitor
import Xv6.Param

/-!
# The disk driver

`iderw` and `ideintr` under `idelock`. Whoever has the sleep lock of a buffer is in `owner`. `bget`
gives a buffer to another block only while nobody has its lock.
-/

namespace Xv6.Sleep

open Monitor
open Function (update update_self update_of_ne update_eq_self)

/-- The part of `struct buf` that the driver uses. -/
structure Buf where
  blockno : Nat
  valid : Bool
  dirty : Bool
  deriving DecidableEq

/-- `(b->flags & (B_VALID|B_DIRTY)) == B_VALID` -/
def Buf.done (b : Buf) : Bool := b.valid && !b.dirty

/-- `idequeue`, the buffers and the holders of their sleep locks. -/
structure Disk where
  idequeue : List Nat
  buf : Nat → Buf
  owner : Nat → Option Nat

def Disk.setBuf (d : Disk) (b : Nat) (x : Buf) : Disk :=
  { d with buf := update d.buf b x }

theorem Disk.setBuf_self (d : Disk) (b : Nat) (x : Buf) : (d.setBuf b x).buf b = x := by
  simp [setBuf]

theorem Disk.setBuf_of_ne {d : Disk} {b b' : Nat} {x : Buf} (h : b' ≠ b) :
    (d.setBuf b x).buf b' = d.buf b' := by
  simp [setBuf, h]

inductive DiskOut
  | idle
  /-- the process holds the sleep lock of buffer `b` -/
  | owns (b : Nat)
  deriving DecidableEq

inductive DiskIn
  /-- `iderw`: append `b` to `idequeue` and start the disk if necessary -/
  | rwAppend (b : Nat)
  /-- `iderw`: wait for the request to finish -/
  | rwWait (b : Nat)
  /-- `ideintr` -/
  | intr
  /-- `ideintr`: start the disk on the next buffer -/
  | intrNext
  deriving DecidableEq

inductive DiskCall
  /-- take the sleep lock of a buffer -/
  | lock (b : Nat)
  /-- `bget` gives a buffer to another block -/
  | recycle (b blockno : Nat)
  /-- `b->flags |= B_DIRTY`, in `bwrite` or `log_write` -/
  | dirty
  | iderw
  /-- give the sleep lock back -/
  | unlock
  | ideintr

/-- `idestart` panics for a block beyond the disk. -/
def idestart (d : Disk) (b : Nat) : Bool := (d.buf b).blockno < fsSize

def ideOutside (p : Nat) (o : DiskOut) (d : Disk) (r : DiskCall) :
    Option (OutStep Disk DiskOut DiskIn) :=
  match o, r with
  | .idle, .lock b =>
    if d.owner b = none then
      some (.move { d with owner := update d.owner b (some p) } (.owns b))
    else none
  | .idle, .recycle b blockno =>
    if d.owner b = none then some (.move (d.setBuf b ⟨blockno, false, false⟩) .idle) else none
  | .idle, .ideintr => some (.enter .intr)
  | .owns b, .dirty => some (.move (d.setBuf b { d.buf b with dirty := true }) (.owns b))
  | .owns b, .iderw => if (d.buf b).done then none else some (.enter (.rwAppend b))
  | .owns b, .unlock => some (.move { d with owner := update d.owner b none } .idle)
  | _, _ => none

def ideInside (_ : Nat) (i : DiskIn) (d : Disk) (_ : DiskCall) :
    Option (InStep Disk DiskOut DiskIn Nat) :=
  match i with
  | .rwAppend b =>
    let d := { d with idequeue := d.idequeue ++ [b] }
    if d.idequeue.head? ≠ some b ∨ idestart d b then some (.move d (.rwWait b)) else none
  | .rwWait b => if (d.buf b).done then some (.leave d (.owns b)) else some (.sleep (.rwWait b))
  | .intr =>
    match d.idequeue with
    | [] => some (.leave d .idle)
    | b :: rest =>
      let d := { d with idequeue := rest }
      some (.wake b (d.setBuf b { d.buf b with valid := true, dirty := false }) .intrNext)
  | .intrNext =>
    match d.idequeue with
    | [] => some (.leave d .idle)
    | b :: _ => if idestart d b then some (.leave d .idle) else none

/-- The driver. A process sleeps on its buffer. -/
def ide : Client Nat Disk DiskOut DiskIn Nat DiskCall where
  outside := ideOutside
  inside := ideInside
  chan
    | .rwAppend b | .rwWait b => b
    | .intr | .intrNext => 0

def holding : DiskOut ⊕ DiskIn → Option Nat
  | .inl (.owns b) | .inr (.rwAppend b) | .inr (.rwWait b) => some b
  | _ => none

/-- The queued buffers are those whose owners wait for them. -/
structure DiskInv (d : Disk) (f : Nat → DiskOut ⊕ DiskIn) : Prop where
  owner : ∀ p b, holding (f p) = some b → d.owner b = some p
  nodup : d.idequeue.Nodup
  waits : ∀ b ∈ d.idequeue, (d.buf b).done = false ∧ ∃ p, f p = .inr (.rwWait b)
  /-- a request that is not queued any more is done -/
  served : ∀ p b, f p = .inr (.rwWait b) → b ∈ d.idequeue ∨ (d.buf b).done = true
  fresh : ∀ p b, f p = .inr (.rwAppend b) → (d.buf b).done = false

/-- When a process may sleep. -/
def rwBlocked (i : DiskIn) (d : Disk) : Prop :=
  match i with
  | .rwWait b => b ∈ d.idequeue ∧ (d.buf b).done = false
  | _ => False

variable {d : Disk} {f : Nat → DiskOut ⊕ DiskIn} {p q b : Nat}

theorem DiskInv.ne (h : DiskInv d f) {b' : Nat} (hp : holding (f p) = some b)
    (hq : holding (f q) = some b') (hqp : q ≠ p) : b' ≠ b := by
  rintro rfl
  have e := (h.owner p b' hp).symm.trans (h.owner q b' hq)
  exact hqp (Option.some.inj e).symm

theorem holding_wait (h : f p = .inr (.rwWait b)) : holding (f p) = some b := by
  rw [h]
  rfl

variable {d' : Disk}

/-- A step of `p` after which it waits for no buffer, which changes at most a buffer of its own or
of nobody. -/
theorem DiskInv.change (h : DiskInv d f) {x : DiskOut ⊕ DiskIn}
    (hx : ∀ b, x ≠ .inr (.rwWait b)) (hp : ∀ b, f p = .inr (.rwWait b) → b ∉ d.idequeue)
    (howner : ∀ b, holding x = some b → d'.owner b = some p)
    (hfresh : ∀ b, x = .inr (.rwAppend b) → (d'.buf b).done = false)
    (hqueue : d'.idequeue = d.idequeue) (hothers : ∀ q b, q ≠ p → holding (f q) = some b →
      d'.owner b = d.owner b ∧ d'.buf b = d.buf b) : DiskInv d' (update f p x) := by
  have hself : update f p x p = x := update_self p x f
  have hother : ∀ q, q ≠ p → update f p x q = f q := fun q hq => update_of_ne hq _ _
  refine ⟨fun q b hq => ?_, hqueue ▸ h.nodup, fun b hb => ?_, fun q b hq => ?_, fun q b hq => ?_⟩
  · by_cases hqp : q = p
    · subst hqp
      rw [hself] at hq
      exact howner b hq
    · rw [hother q hqp] at hq
      rw [(hothers q b hqp hq).1, h.owner q b hq]
  · rw [hqueue] at hb
    obtain ⟨hdone, q, hq⟩ := h.waits b hb
    have hqp : q ≠ p := by
      rintro rfl
      exact hp b hq hb
    rw [(hothers q b hqp (holding_wait hq)).2]
    exact ⟨hdone, q, by rw [hother q hqp, hq]⟩
  · have hqp : q ≠ p := by
      rintro rfl
      exact hx b (hself.symm.trans hq)
    rw [hother q hqp] at hq
    rw [(hothers q b hqp (holding_wait hq)).2, hqueue]
    exact h.served q b hq
  · by_cases hqp : q = p
    · subst hqp
      exact hfresh b (hself.symm.trans hq)
    · rw [hother q hqp] at hq
      rw [(hothers q b hqp (by rw [hq]; rfl)).2]
      exact h.fresh q b hq

/-- Who waits for a buffer of another is not disturbed. -/
theorem rwBlocked_congr {j : DiskIn} (hqueue : ∀ b, b ∈ d.idequeue → b ∈ d'.idequeue)
    (hbuf : ∀ b, holding (.inr j) = some b → d'.buf b = d.buf b) (h : rwBlocked j d) :
    rwBlocked j d' := by
  cases j with
  | rwWait b =>
    rw [rwBlocked, hbuf b rfl]
    exact ⟨hqueue b h.1, h.2⟩
  | rwAppend | intr | intrNext => exact h

variable {o : DiskOut} {r : DiskCall}

/-- A step outside `idelock`: the invariant, and nobody who waits is disturbed. -/
theorem ideOutside_move (h : DiskInv d f) {o' : DiskOut}
    (hp : f p = .inl o) (hstep : ideOutside p o d r = some (.move d' o')) :
    DiskInv d' (update f p (.inl o')) ∧
      ∀ q j, q ≠ p → f q = .inr j → rwBlocked j d → rwBlocked j d' := by
  have hnot : ∀ b, f p = .inr (.rwWait b) → b ∉ d.idequeue := by
    rw [hp]
    nofun
  -- what a step may do to the buffers
  suffices hx : (∀ b, holding (.inl o') = some b → d'.owner b = some p) ∧
      d'.idequeue = d.idequeue ∧ ∀ q b, q ≠ p → holding (f q) = some b →
        d'.owner b = d.owner b ∧ d'.buf b = d.buf b by
    refine ⟨h.change nofun hnot hx.1 nofun hx.2.1 hx.2.2, fun q j hqp hq => ?_⟩
    exact rwBlocked_congr (fun b hb => hx.2.1 ▸ hb) fun b hb => (hx.2.2 q b hqp (by rw [hq, hb])).2
  have hfree : ∀ {q b b'}, d.owner b = none → holding (f q) = some b' → b' ≠ b := by
    rintro q b _ hb hq rfl
    rw [h.owner q _ hq] at hb
    cases hb
  unfold ideOutside at hstep
  split at hstep
  · split_ifs at hstep with hb
    cases hstep
    refine ⟨fun b' hb' => ?_, rfl, fun q b' _ hq => ⟨?_, rfl⟩⟩
    · cases hb'
      exact update_self _ _ _
    · exact update_of_ne (hfree hb hq) _ _
  · split_ifs at hstep with hb
    cases hstep
    exact ⟨nofun, rfl, fun q b' _ hq => ⟨rfl, Disk.setBuf_of_ne (hfree hb hq)⟩⟩
  · cases hstep
  · next b =>
    cases hstep
    have hmine : holding (f p) = some b := by rw [hp]; rfl
    refine ⟨fun b' hb' => ?_, rfl, fun q b' hqp hq => ⟨rfl, ?_⟩⟩
    · cases hb'
      exact h.owner p b hmine
    · exact Disk.setBuf_of_ne (h.ne hmine hq hqp)
  · split_ifs at hstep
    cases hstep
  · next b =>
    cases hstep
    have hmine : holding (f p) = some b := by rw [hp]; rfl
    exact ⟨nofun, rfl, fun q b' hqp hq =>
      ⟨update_of_ne (h.ne hmine hq hqp) _ _, rfl⟩⟩
  · cases hstep

variable {i : DiskIn}

theorem ideOutside_enter (h : DiskInv d f)
    (hp : f p = .inl o) (hstep : ideOutside p o d r = some (.enter i)) :
    DiskInv d (update f p (.inr i)) := by
  have hnot : ∀ b, f p = .inr (.rwWait b) → b ∉ d.idequeue := by
    rw [hp]
    nofun
  unfold ideOutside at hstep
  split at hstep
  · split_ifs at hstep
    cases hstep
  · split_ifs at hstep
    cases hstep
  · cases hstep
    exact h.change nofun hnot nofun nofun rfl fun _ _ _ _ => ⟨rfl, rfl⟩
  · cases hstep
  · split_ifs at hstep with hdone
    cases hstep
    refine h.change nofun hnot (fun b' hb' => ?_) (fun b' hb' => ?_) rfl
      fun _ _ _ _ => ⟨rfl, rfl⟩
    · refine h.owner p b' ?_
      rw [hp]
      exact hb'
    · cases hb'
      simpa using hdone
  · cases hstep
  · cases hstep

theorem DiskInv.append (h : DiskInv d f) (hp : f p = .inr (.rwAppend b)) :
    DiskInv { d with idequeue := d.idequeue ++ [b] } (update f p (.inr (.rwWait b))) := by
  have hmine : holding (f p) = some b := by rw [hp]; rfl
  have hself : update f p (.inr (.rwWait b)) p = .inr (.rwWait b) :=
    update_self p _ f
  have hother : ∀ q, q ≠ p → update f p (.inr (.rwWait b)) q = f q :=
    fun q hq => update_of_ne hq _ _
  -- only the owner queues a buffer
  have hnew : b ∉ d.idequeue := by
    intro hmem
    obtain ⟨-, q, hq⟩ := h.waits b hmem
    refine h.ne hmine (holding_wait hq) ?_ rfl
    rintro rfl
    rw [hp] at hq
    cases hq
  refine ⟨fun q b' hq => ?_, ?_, fun b' hb' => ?_, fun q b' hq => ?_, fun q b' hq => ?_⟩
  · by_cases hqp : q = p
    · subst hqp
      rw [hself] at hq
      exact h.owner q b' (hmine.trans hq)
    · rw [hother q hqp] at hq
      exact h.owner q b' hq
  · refine List.pairwise_append.mpr ⟨h.nodup, List.pairwise_singleton _ b, ?_⟩
    intro x hx y hy hxy
    rw [List.mem_singleton] at hy
    exact hnew (hy ▸ hxy ▸ hx)
  · rcases List.mem_append.mp hb' with hb' | hb'
    · obtain ⟨hdone, q, hq⟩ := h.waits b' hb'
      refine ⟨hdone, q, ?_⟩
      rw [hother q ?_, hq]
      rintro rfl
      rw [hp] at hq
      cases hq
    · rw [List.mem_singleton] at hb'
      subst hb'
      exact ⟨h.fresh p b' hp, p, hself⟩
  · by_cases hqp : q = p
    · subst hqp
      rw [hself] at hq
      cases hq
      exact Or.inl (List.mem_append_right _ (List.mem_singleton_self b))
    · rw [hother q hqp] at hq
      exact (h.served q b' hq).imp_left (List.mem_append_left _)
  · have hqp : q ≠ p := by
      rintro rfl
      rw [hself] at hq
      cases hq
    rw [hother q hqp] at hq
    exact h.fresh q b' hq

theorem DiskInv.finish (h : DiskInv d f) {rest : List Nat} (hq : d.idequeue = b :: rest)
    (hp : f p = .inr .intr) :
    DiskInv (Disk.setBuf { d with idequeue := rest } b
      { d.buf b with valid := true, dirty := false }) (update f p (.inr .intrNext)) := by
  have hother : ∀ q x, x ≠ DiskIn.intrNext → update f p (.inr .intrNext) q = .inr x →
      f q = .inr x := by
    intro q x hx hfx
    by_cases hqp : q = p
    · subst hqp
      rw [update_self] at hfx
      exact absurd (Sum.inr.inj hfx).symm hx
    · rwa [update_of_ne hqp] at hfx
  obtain ⟨hb, hnodup⟩ := List.nodup_cons.mp (hq ▸ h.nodup)
  obtain ⟨-, w, hw⟩ := h.waits b (by simp [hq])
  refine ⟨fun q b' hq' => ?_, hnodup, fun b' hb' => ?_, fun q b' hq' => ?_, fun q b' hq' => ?_⟩
  · refine h.owner q b' ?_
    by_cases hqp : q = p
    · subst hqp
      rw [update_self] at hq'
      cases hq'
    · rwa [update_of_ne hqp] at hq'
  · have hne : b' ≠ b := by
      rintro rfl
      exact hb hb'
    obtain ⟨hdone, q, hq'⟩ := h.waits b' (by rw [hq]; exact List.mem_cons_of_mem b hb')
    refine ⟨?_, q, ?_⟩
    · rw [Disk.setBuf_of_ne hne]
      exact hdone
    · rw [update_of_ne ?_, hq']
      rintro rfl
      rw [hp] at hq'
      cases hq'
  · have hq' := hother q _ (by simp) hq'
    by_cases hne : b' = b
    · subst hne
      exact Or.inr (by rw [Disk.setBuf_self]; rfl)
    · rcases h.served q b' hq' with hmem | hdone
      · rw [hq] at hmem
        exact Or.inl ((List.mem_cons.mp hmem).resolve_left hne)
      · refine Or.inr ?_
        rw [Disk.setBuf_of_ne hne]
        exact hdone
  · have hq' := hother q _ (by simp) hq'
    have hne : b' ≠ b := by
      refine h.ne (holding_wait hw) (by rw [hq']; rfl) ?_
      rintro rfl
      rw [hw] at hq'
      cases hq'
    rw [Disk.setBuf_of_ne hne]
    exact h.fresh q b' hq'

inductive IdeStep (d : Disk) : DiskIn → InStep Disk DiskOut DiskIn Nat → Prop
  | append (b : Nat) :
      IdeStep d (.rwAppend b) (.move { d with idequeue := d.idequeue ++ [b] } (.rwWait b))
  | done (b : Nat) (h : (d.buf b).done = true) : IdeStep d (.rwWait b) (.leave d (.owns b))
  | wait (b : Nat) (h : (d.buf b).done = false) : IdeStep d (.rwWait b) (.sleep (.rwWait b))
  | spurious : IdeStep d .intr (.leave d .idle)
  | finish {b : Nat} {rest : List Nat} (h : d.idequeue = b :: rest) :
      IdeStep d .intr (.wake b (Disk.setBuf { d with idequeue := rest } b
        { d.buf b with valid := true, dirty := false }) .intrNext)
  | next : IdeStep d .intrNext (.leave d .idle)

theorem ideInside_inv {x : InStep Disk DiskOut DiskIn Nat}
    (h : ide.inside p i d r = some x) : IdeStep d i x := by
  change ideInside p i d r = some x at h
  cases i with
  | rwAppend b =>
    simp only [ideInside] at h
    split_ifs at h
    cases h
    exact .append b
  | rwWait b =>
    simp only [ideInside] at h
    split_ifs at h with hdone <;> cases h
    · exact .done b hdone
    · exact .wait b (by simpa using hdone)
  | intr =>
    simp only [ideInside] at h
    split at h <;> cases h
    · exact .spurious
    · next hq => exact .finish hq
  | intrNext =>
    simp only [ideInside] at h
    split at h
    · cases h
      exact .next
    · split_ifs at h
      cases h
      exact .next

theorem DiskInv.leave (h : DiskInv d f) (hp : f p = .inr i)
    (hi : ∀ b, i = .rwWait b → (d.buf b).done = true)
    (ho : ∀ b, holding (.inl o) = some b → holding (.inr i) = some b) :
    DiskInv d (update f p (.inl o)) := by
  refine h.change nofun (fun b hb hmem => ?_) (fun b hb => ?_) nofun rfl
    fun _ _ _ _ => ⟨rfl, rfl⟩
  · rw [hp, Sum.inr.injEq] at hb
    have := (h.waits b hmem).1
    rw [hi b hb] at this
    cases this
  · exact h.owner p b (by rw [hp]; exact ho b hb)

/-- **The driver keeps its promises.** -/
theorem ide_sound : ide.Sound rwBlocked (fun _ _ => False) DiskInv where
  out_move h hp hstep := ideOutside_move h hp hstep
  out_enter h hp hstep := ideOutside_enter h hp hstep
  in_move := by
    intro d d' f p i i' r h hp hstep
    cases ideInside_inv hstep with
    | append b =>
      refine ⟨h.append hp, fun q j _ _ hj => Or.inl ?_⟩
      exact rwBlocked_congr (fun b' hb' => List.mem_append_left _ hb') (fun _ _ => rfl)
        (hj.resolve_right id)
  in_leave := by
    intro d d' f p i o r h hp hstep
    cases ideInside_inv hstep with
    | done b hdone =>
      refine ⟨h.leave hp (fun b' e => ?_) fun _ => id, fun _ _ _ _ hj => hj.resolve_right id⟩
      cases e
      exact hdone
    | spurious | next => exact ⟨h.leave hp nofun nofun, fun _ _ _ _ hj => hj.resolve_right id⟩
  in_wake := by
    intro d d' f p i c i' r h hp hstep
    cases ideInside_inv hstep with
    | @finish _ rest hq =>
      refine ⟨h.finish hq hp, fun q j _ _ hne hj => Or.inl ?_⟩
      cases j with
      | rwWait b =>
        obtain ⟨hmem, hdone⟩ := hj.resolve_right id
        have hne : b ≠ c := hne
        rw [hq] at hmem
        exact ⟨(List.mem_cons.mp hmem).resolve_left hne, by rwa [Disk.setBuf_of_ne hne]⟩
      | rwAppend | intr | intrNext => exact hj.resolve_right id
  in_sleep := by
    intro d f p i i' r h hp hstep
    cases ideInside_inv hstep with
    | wait b hdone =>
      refine ⟨?_, ⟨(h.served p b hp).resolve_right (by simp [hdone]), hdone⟩, fun _ _ _ _ => False.elim⟩
      rw [← hp, update_eq_self]
      exact h

/-- The driver after `ideinit` and `binit`. -/
def ideinit : Disk where
  idequeue := []
  buf := fun _ => ⟨0, false, false⟩
  owner := fun _ => none

theorem ideinit_inv : DiskInv ideinit fun _ => .inl .idle :=
  ⟨nofun, List.nodup_nil, nofun, nofun, nofun⟩

end Xv6.Sleep
