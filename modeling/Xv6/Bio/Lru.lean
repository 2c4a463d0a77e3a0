import Xv6.Lib.Circular
import Xv6.Lib.Transition
import Xv6.Param

/-!
# The list of the buffer cache

`bcache` with its pointers: the loop of `bget` that follows `prev` recycles the buffer released
longest ago. A critical section of `bcache.lock` is one step. A `brelse` of a buffer that the caller
does not hold panics; the results do without this check.
-/

namespace Xv6.Bio.Lru

open Circular Transition
open Function (update update_self update_of_ne)

/-- A pointer of the list; `none` is `&bcache.head`. -/
abbrev Ptr := Option Nat

structure Buf where
  flags : UInt32
  dev : UInt32
  blockno : UInt32
  refcnt : UInt32

namespace Buf

def dirty : UInt32 := 4

/-- `b->dev == dev && b->blockno == blockno` -/
def Carries (b : Buf) (dev blockno : UInt32) : Prop := b.dev = dev ∧ b.blockno = blockno

/-- `b->refcnt == 0 && (b->flags & B_DIRTY) == 0` -/
def Unused (b : Buf) : Prop := b.refcnt = 0 ∧ b.flags &&& dirty = 0

instance (b : Buf) (dev blockno : UInt32) : Decidable (b.Carries dev blockno) :=
  inferInstanceAs (Decidable (_ ∧ _))

instance (b : Buf) : Decidable b.Unused := inferInstanceAs (Decidable (_ ∧ _))

end Buf

/-- No step reads the last two fields: how often a buffer has been released to `refcnt` 0, and
which of these was the last time for each buffer, 0 for never. -/
structure Bcache where
  next : Ptr → Ptr
  prev : Ptr → Ptr
  buf : Nat → Buf
  clock : Nat
  time : Nat → Nat

/-- A loop over the list from `b` on: the first buffer with `p`, or the head. -/
def scan (ptr : Ptr → Ptr) (p : Nat → Bool) : (fuel : Nat) → (b : Ptr) → Option Ptr
  | 0, _ => none
  | _ + 1, none => some none
  | fuel + 1, some b => if p b then some (some b) else scan ptr p fuel (ptr (some b))

namespace Bcache

def set (s : Bcache) (b : Nat) (x : Buf) : Bcache := { s with buf := update s.buf b x }

/-- The four assignments after which `head.next` is `b`. -/
def insert (s : Bcache) (b : Nat) : Bcache :=
  let next := update s.next (some b) (s.next none)
  let prev := update s.prev (some b) none
  { s with
    prev := update prev (next none) (some b)
    next := update next none (some b) }

/-- The two assignments that take `b` out of the list. -/
def unlink (s : Bcache) (b : Nat) : Bcache :=
  let prev := update s.prev (s.next (some b)) (s.prev (some b))
  { s with
    prev := prev
    next := update s.next (prev (some b)) (s.next (some b)) }

/-- The buffer has been released. -/
def stamp (s : Bcache) (b : Nat) : Bcache :=
  { s with clock := s.clock + 1, time := update s.time b (s.clock + 1) }

def recycle (s : Bcache) (b : Nat) (dev blockno : UInt32) : Bcache :=
  s.set b ⟨0, dev, blockno, 1⟩

/-- `bget` up to `acquiresleep`; the last `none` is the panic. -/
def bget (s : Bcache) (dev blockno : UInt32) : Option (Nat × Bcache) :=
  match scan s.next (fun b => (s.buf b).Carries dev blockno) (nbuf + 1) (s.next none) with
  | none => none
  | some (some b) => some (b, s.set b { s.buf b with refcnt := (s.buf b).refcnt + 1 })
  | some none =>
    match scan s.prev (fun b => (s.buf b).Unused) (nbuf + 1) (s.prev none) with
    | none => none
    | some (some b) => some (b, s.recycle b dev blockno)
    | some none => none

/-- `brelse` after `releasesleep` -/
def brelse (s : Bcache) (b : Nat) : Bcache :=
  let s := s.set b { s.buf b with refcnt := (s.buf b).refcnt - 1 }
  if (s.buf b).refcnt = 0 then ((s.unlink b).insert b).stamp b else s

end Bcache

/-- `binit`, whatever is in memory before. -/
def binit (next prev : Ptr → Ptr) (buf : Nat → Buf) : Bcache :=
  (List.range nbuf).foldl Bcache.insert
    ⟨update next none none, update prev none none, buf, 0, fun _ => 0⟩

inductive Action
  | bget (dev blockno : UInt32)
  | brelse (b : Nat)
  /-- `iderw`, `bwrite` and `log_write` change the flags of a buffer. -/
  | mark (b : Nat) (flags : UInt32)

def step (s : Bcache) : Action → Option Bcache
  | .bget dev blockno => (s.bget dev blockno).map Prod.snd
  | .brelse b => if b < nbuf then some (s.brelse b) else none
  | .mark b flags => some (s.set b { s.buf b with flags := flags })

theorem scan_path {ptr : Ptr → Ptr} {xs : List Nat} (h : Path ptr (xs.map some) none)
    (p : Nat → Bool) {fuel : Nat} (hfuel : xs.length < fuel) :
    scan ptr p fuel ((xs.map some).headD none) = some (xs.find? p) := by
  induction xs generalizing fuel with
  | nil =>
    cases fuel with
    | zero => cases hfuel
    | succ fuel => rfl
  | cons b xs ih =>
    cases fuel with
    | zero => cases hfuel
    | succ fuel =>
      rw [List.map_cons, List.headD_cons, scan, List.find?_cons]
      cases p b with
      | true => rfl
      | false => exact (congrArg (scan ptr p fuel) h.1).trans (ih h.2 (Nat.lt_of_succ_lt_succ hfuel))

/-- The list is `xs`: all buffers, the one released last first and those never released last. -/
structure Inv (s : Bcache) (xs : List Nat) : Prop where
  linked : Linked s.next s.prev none (xs.map some)
  all : xs.Perm (List.range nbuf)
  sorted : xs.Pairwise fun i j => s.time j = 0 ∨ s.time j < s.time i
  bound : ∀ i, s.time i ≤ s.clock

variable {s : Bcache} {xs ys : List Nat} {b : Nat}

theorem linked_insert (h : Linked s.next s.prev none (xs.map some)) (hb : b ∉ xs) :
    Linked (s.insert b).next (s.insert b).prev none ((b :: xs).map some) := by
  have hinsert := h.insert (y := some b) (by simpa using hb)
  simpa [Bcache.insert] using hinsert

theorem linked_unlink (h : Linked s.next s.prev none ((xs ++ b :: ys).map some)) :
    Linked (s.unlink b).next (s.unlink b).prev none ((xs ++ ys).map some) := by
  have hprev : update s.prev (s.next (some b)) (s.prev (some b)) (some b) = s.prev (some b) := by
    by_cases hb : some b = s.next (some b)
    · rw [← hb, update_self]
    · rw [update_of_ne hb]
  rw [List.map_append, List.map_cons] at h
  rw [Bcache.unlink, List.map_append]
  simp only [hprev]
  exact h.erase

theorem Inv.set (h : Inv s xs) (b : Nat) (x : Buf) : Inv (s.set b x) xs :=
  ⟨h.linked, h.all, h.sorted, h.bound⟩

theorem Inv.nodup (h : Inv s xs) : xs.Nodup := h.all.nodup_iff.mpr List.nodup_range

theorem Inv.mem_iff (h : Inv s xs) : b ∈ xs ↔ b < nbuf := by
  rw [h.all.mem_iff, List.mem_range]

theorem Inv.release (h : Inv s xs) (hb : b < nbuf) :
    ∃ ys, Inv (((s.unlink b).insert b).stamp b) ys := by
  obtain ⟨pre, post, rfl⟩ := List.append_of_mem (h.mem_iff.mpr hb)
  have hnot := (List.nodup_cons.mp (List.nodup_middle.mp h.nodup)).1
  have hself : (((s.unlink b).insert b).stamp b).time b = s.clock + 1 := update_self ..
  have hother {i : Nat} (hi : i ≠ b) : (((s.unlink b).insert b).stamp b).time i = s.time i :=
    update_of_ne hi ..
  have hne {i : Nat} (hi : i ∈ pre ++ post) : i ≠ b := ne_of_mem_of_not_mem hi hnot
  refine ⟨b :: (pre ++ post), linked_insert (linked_unlink h.linked) hnot,
    List.perm_middle.symm.trans h.all, List.pairwise_cons.mpr ⟨fun i hi => ?_, ?_⟩, fun i => ?_⟩
  · rw [hself, hother (hne hi)]
    exact Or.inr (Nat.lt_succ_of_le (h.bound i))
  · refine (h.sorted.sublist ((List.sublist_cons_self b post).append_left pre)).imp_of_mem
      fun hi hj hij => ?_
    rwa [hother (hne hi), hother (hne hj)]
  · by_cases hi : i = b
    · rw [hi, hself]
      exact le_rfl
    · rw [hother hi]
      exact Nat.le_succ_of_le (h.bound i)

/-- `bget` by the list: a buffer that has the block, or else the last one that is not used. -/
theorem Inv.bget (h : Inv s xs) (dev blockno : UInt32) :
    s.bget dev blockno = match xs.find? fun b => (s.buf b).Carries dev blockno with
      | some b => some (b, s.set b { s.buf b with refcnt := (s.buf b).refcnt + 1 })
      | none => (xs.reverse.find? fun b => (s.buf b).Unused).map fun b =>
          (b, s.recycle b dev blockno) := by
  have hlen : xs.length < nbuf + 1 := by
    rw [h.all.length_eq, List.length_range]
    exact Nat.lt_succ_self _
  have hprev := h.linked.ring_prev
  rw [← List.map_reverse] at hprev
  rw [Bcache.bget, h.linked.ring.1, hprev.1, scan_path h.linked.ring.2 _ hlen,
    scan_path hprev.2 _ (by rwa [List.length_reverse])]
  cases xs.find? fun b => (s.buf b).Carries dev blockno with
  | some b => rfl
  | none => cases xs.reverse.find? fun b => (s.buf b).Unused <;> rfl

theorem Inv.step (h : Inv s xs) (a : Action) {t : Bcache} (ht : step s a = some t) :
    ∃ ys, Inv t ys := by
  cases a with
  | bget dev blockno =>
    obtain ⟨⟨b, c⟩, hget, rfl⟩ := Option.map_eq_some_iff.mp ht
    rw [h.bget] at hget
    split at hget
    · cases hget
      exact ⟨xs, h.set _ _⟩
    · obtain ⟨b, -, he⟩ := Option.map_eq_some_iff.mp hget
      cases he
      exact ⟨xs, h.set _ _⟩
  | brelse b =>
    rw [Lru.step, Option.ite_none_right_eq_some, Option.some.injEq] at ht
    obtain ⟨hb, rfl⟩ := ht
    rw [Bcache.brelse]
    split
    · exact (h.set b _).release hb
    · exact ⟨xs, h.set b _⟩
  | mark b flags =>
    cases ht
    exact ⟨xs, h.set b _⟩

end Xv6.Bio.Lru
