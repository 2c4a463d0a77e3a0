import Xv6.Lib.Lock
import Xv6.Pipe.Defs

/-!
# What a process knows at each point of a pipe call

The holders of `p->lock` and `ptable.lock` are known from the program points. A process that holds
`p->lock` can rely on what it has tested.
-/

namespace Xv6.Pipe

open Lock

def Pc.HoldsLock : Pc → Prop
  | .user | .writeAcquire _ | .readAcquire _ | .closeAcquire _ => False
  | .sleep _ .acquireTable | .sleep _ .releaseLock => True
  | .sleep _ _ => False
  | _ => True

def Pc.HoldsTable : Pc → Prop
  | .sleep _ .releaseLock | .sleep _ .mark | .sleep _ .tidy => True
  | _ => False

/-- The condition that a sleeper waits on: its loop would sleep again. -/
def Sleeper.Waits (p : Pipe) : Sleeper → Prop
  | .writer _ _ => p.full = true ∧ p.readopen = true
  | .reader _ => p.empty = true ∧ p.writeopen = true

/-- What the holder of `p->lock` has established about the pipe. -/
def Pc.Knows (p : Pipe) : Pc → Prop
  | .writeFull addr i => (Sleeper.writer addr i).Waits p
  | .sleep k .acquireTable | .sleep k .releaseLock => k.Waits p
  | .readCopy n out => out = [] → ¬ (Sleeper.reader n).Waits p
  | .readWake n out => out = [] → 0 < n → p.empty = true ∧ p.writeopen = false
  | .readRelease n _ ret => ret = 0 → 0 < n → p.empty = true ∧ p.writeopen = false
  | _ => True

variable {pc : Pc}

theorem Pc.knows_of_not_holdsLock (h : ¬ pc.HoldsLock) (p : Pipe) : pc.Knows p := by
  cases pc with
  | sleep k ph => cases ph <;> first | trivial | exact absurd trivial h
  | _ => first | trivial | exact absurd trivial h

/-- A sleeping process is switched out, on the channel of its call. -/
def Proc.SleepsOk (x : Proc) : Prop :=
  (x.state = .sleeping → ∃ k, x.pc = .sleep k .switched) ∧
    ∀ k, x.pc = .sleep k .switched → x.chan = some k.chan

/-- The holders of both locks, what they know, and who sleeps. -/
structure Inv (s : Sys) : Prop where
  lock : Held s.lock s.proc (·.pc.HoldsLock)
  ptable : Held s.ptable s.proc (·.pc.HoldsTable)
  knows : ∀ q, (s.proc q).pc.Knows s.pipe
  sleeps : ∀ q, (s.proc q).SleepsOk

variable {s t : Sys} {q : Nat}

theorem forall_update {α : Type*} {P : α → Prop} {f : Nat → α} {x : α} (hx : P x)
    (hf : ∀ p, p ≠ q → P (f p)) (p : Nat) : P (Function.update f q x p) := by
  by_cases hpq : p = q
  · subst hpq
    rwa [Function.update_self]
  · rw [Function.update_of_ne hpq]
    exact hf p hpq

/-- Only the holder of `p->lock` knows anything about the pipe. -/
theorem Inv.knows_other (h : Inv s) (hq : (s.proc q).pc.HoldsLock) (p' : Pipe) (p : Nat)
    (hpq : p ≠ q) : (s.proc p).pc.Knows p' :=
  Pc.knows_of_not_holdsLock (fun hp => hpq (h.lock.unique hp hq)) p'

variable {x : Proc}

theorem sleepsOk_of_pc (hx : x.SleepsOk)
    (hold : ∀ k, x.pc ≠ .sleep k .switched) (hnew : ∀ k, pc ≠ .sleep k .switched) :
    Proc.SleepsOk { x with pc := pc } :=
  ⟨fun hs => absurd (hx.1 hs).choose_spec (hold _), fun k hk => absurd hk (hnew k)⟩

/-- The invariant after a step that changes one process, from what it does to the locks. -/
theorem Inv.move (h : Inv s) (hproc : t.proc = Function.update s.proc q x)
    (hlock : Held t.lock (Function.update s.proc q x) (·.pc.HoldsLock))
    (htable : Held t.ptable (Function.update s.proc q x) (·.pc.HoldsTable))
    (hpipe : t.pipe = s.pipe ∨ (s.proc q).pc.HoldsLock) (hknows : x.pc.Knows t.pipe)
    (hsleep : x.SleepsOk) : Inv t := by
  refine ⟨hproc ▸ hlock, hproc ▸ htable, ?_, ?_⟩
  · rw [hproc]
    refine forall_update (P := fun y : Proc => y.pc.Knows t.pipe) hknows fun p hpq => ?_
    rcases hpipe with hsame | hq
    · rw [hsame]
      exact h.knows p
    · exact h.knows_other hq t.pipe p hpq
  · rw [hproc]
    exact forall_update hsleep fun p _ => h.sleeps p

variable {pc' : Pc}

theorem Inv.hold (h : Inv s) (hpc : (s.proc q).pc = pc)
    (hproc : t.proc = Function.update s.proc q { s.proc q with pc := pc' })
    (hl : t.lock = s.lock) (hp : t.ptable = s.ptable) (hq : pc.HoldsLock) (hq' : pc'.HoldsLock)
    (htable : pc'.HoldsTable ↔ pc.HoldsTable) (hknows : pc'.Knows t.pipe) : Inv t := by
  subst hpc
  refine h.move hproc ?_ ?_ (Or.inr hq) hknows (sleepsOk_of_pc (h.sleeps q) ?_ ?_)
  · rw [hl]
    exact h.lock.keep q (iff_of_true hq' hq)
  · rw [hp]
    exact h.ptable.keep q htable
  · rintro k hk
    rw [hk] at hq
    exact hq
  · rintro k rfl
    exact hq'

theorem Inv.acquire (h : Inv s) (hpc : (s.proc q).pc = pc)
    (ht : s.acquire q pc' = some t) (hq' : pc'.HoldsLock) (htable : ¬ pc.HoldsTable)
    (htable' : ¬ pc'.HoldsTable) (hknows : pc'.Knows s.pipe)
    (hns : ∀ k, pc ≠ .sleep k .switched) : Inv t := by
  subst hpc
  rw [Sys.acquire] at ht
  split at ht <;> cases ht
  rename_i hfree
  refine h.move rfl (h.lock.acquire hfree.1 q hq') (h.ptable.keep q (iff_of_false htable' htable))
    (Or.inl rfl) hknows (sleepsOk_of_pc (h.sleeps q) hns ?_)
  rintro k rfl
  exact hq'

theorem Inv.release (h : Inv s) (hpc : (s.proc q).pc = pc)
    (hproc : t.proc = Function.update s.proc q { s.proc q with pc := pc' })
    (hl : t.lock = none) (hp : t.ptable = s.ptable) (hpipe : t.pipe = s.pipe)
    (hq : pc.HoldsLock) (hq' : ¬ pc'.HoldsLock) (htable : pc'.HoldsTable ↔ pc.HoldsTable)
    (hns : ∀ k, pc' ≠ .sleep k .switched) : Inv t := by
  subst hpc
  refine h.move hproc ?_ ?_ (Or.inl hpipe) (Pc.knows_of_not_holdsLock hq' _)
    (sleepsOk_of_pc (h.sleeps q) ?_ hns)
  · rw [hl]
    exact h.lock.release q hq hq'
  · rw [hp]
    exact h.ptable.keep q htable
  · rintro k hk
    rw [hk] at hq
    exact hq

@[simp] theorem wakeup1_pc (c : Chan) (x : Proc) : (wakeup1 c x).pc = x.pc := by
  rw [wakeup1]
  split <;> rfl

@[simp] theorem wakeup1_chan (c : Chan) (x : Proc) : (wakeup1 c x).chan = x.chan := by
  rw [wakeup1]
  split <;> rfl

theorem wakeup1_sleeping {c : Chan} :
    (wakeup1 c x).state = .sleeping ↔ x.state = .sleeping ∧ x.chan ≠ some c := by
  rw [wakeup1]
  split
  · next hc => exact ⟨fun e => absurd e (by simp), fun e => absurd hc.2 e.2⟩
  · next hc => exact ⟨fun e => ⟨e, fun hch => hc ⟨e, hch⟩⟩, fun e => e.1⟩

variable (h : Inv s)

include h

theorem Inv.wakeAll (c : Chan) :
    Inv { s with proc := fun p => wakeup1 c (s.proc p) } where
  lock := h.lock.congr fun p => by simp
  ptable := h.ptable.congr fun p => by simp
  knows p := by simpa using h.knows p
  sleeps p := by
    refine ⟨fun hs => ?_, fun k hk => ?_⟩
    · simpa using (h.sleeps p).1 (wakeup1_sleeping.mp hs).1
    · simpa using (h.sleeps p).2 k (by simpa using hk)

theorem Inv.wakeup {c : Chan} (hpc : (s.proc q).pc = pc)
    (ht : s.wakeup q c pc' = some t) (hq : pc.HoldsLock) (hq' : pc'.HoldsLock)
    (htable : pc'.HoldsTable ↔ pc.HoldsTable) (hknows : pc'.Knows s.pipe) : Inv t := by
  rw [Sys.wakeup] at ht
  split at ht <;> cases ht
  have hpc' : (wakeup1 c (s.proc q)).pc = pc := by simpa using hpc
  exact (h.wakeAll c).hold hpc' rfl rfl rfl hq hq' htable hknows

theorem Inv.sleep {k : Sleeper} {ph : SleepPc}
    (hpc : (s.proc q).pc = .sleep k ph) (ht : Pipe.sleep s q k ph = some t) : Inv t := by
  have hk := h.knows q
  rw [hpc] at hk
  cases ph with
  | acquireTable =>
    rw [Pipe.sleep] at ht
    split at ht <;> cases ht
    rename_i hfree
    refine h.move rfl (h.lock.keep q ?_) (h.ptable.acquire hfree q trivial) (Or.inl rfl) hk
      (sleepsOk_of_pc (h.sleeps q) (by simp [hpc]) (by simp))
    rw [hpc]
    exact Iff.rfl
  | releaseLock =>
    cases ht
    exact h.release hpc rfl rfl rfl rfl trivial id Iff.rfl (by simp)
  | mark =>
    cases ht
    refine h.move rfl (h.lock.keep q ?_) (h.ptable.release q ?_ id) (Or.inl rfl) trivial
      ⟨fun _ => ⟨k, rfl⟩, fun k' hk' => ?_⟩
    · rw [hpc]
      exact Iff.rfl
    · rw [hpc]
      trivial
    · cases hk'
      rfl
  | switched =>
    rw [Pipe.sleep] at ht
    split at ht <;> cases ht
    rename_i hfree
    refine h.move rfl (h.lock.keep q ?_) (h.ptable.acquire hfree.2 q trivial) (Or.inl rfl) trivial
      ⟨fun hs => by simp at hs, fun k' hk' => by simp at hk'⟩
    rw [hpc]
    exact Iff.rfl
  | tidy =>
    cases ht
    refine h.move rfl (h.lock.keep q ?_) (h.ptable.release q ?_ id) (Or.inl rfl) trivial
      ⟨fun hs => ?_, fun k' hk' => by simp at hk'⟩
    · rw [hpc]
      exact Iff.rfl
    · rw [hpc]
      trivial
    · obtain ⟨k', hk'⟩ := (h.sleeps q).1 hs
      simp [hpc] at hk'
  | reacquire =>
    refine h.acquire hpc ht ?_ id ?_ ?_ (by simp)
    all_goals cases k <;> simp [Sleeper.resume, Pc.HoldsLock, Pc.HoldsTable, Pc.Knows]

theorem Inv.writeLoop {addr : List UInt8} {i : Nat}
    (hpc : (s.proc q).pc = .writeLoop addr i) : Inv (Pipe.writeLoop s q addr i) := by
  rw [Pipe.writeLoop]
  split_ifs with hi hfull hret
  · exact h.hold hpc rfl rfl rfl trivial trivial Iff.rfl trivial
  · refine h.hold hpc rfl rfl rfl trivial trivial Iff.rfl ⟨hfull, ?_⟩
    exact (Bool.eq_false_or_eq_true _).resolve_right fun e => hret (Or.inl e)
  · exact h.hold hpc rfl rfl rfl trivial trivial Iff.rfl trivial
  · exact h.hold hpc rfl rfl rfl trivial trivial Iff.rfl trivial

theorem Inv.readLoop {n : Nat} (hpc : (s.proc q).pc = .readLoop n) : Inv (Pipe.readLoop s q n) := by
  rw [Pipe.readLoop]
  split_ifs with hwait hkill
  · exact h.hold hpc rfl rfl rfl trivial trivial Iff.rfl fun e => absurd e (by simp)
  · exact h.hold hpc rfl rfl rfl trivial trivial Iff.rfl hwait
  · exact h.hold hpc rfl rfl rfl trivial trivial Iff.rfl fun _ => hwait

theorem Inv.readCopy {n : Nat} {out : List UInt8}
    (hpc : (s.proc q).pc = .readCopy n out) : Inv (Pipe.readCopy s q n out) := by
  have hk := h.knows q
  rw [hpc] at hk
  rw [Pipe.readCopy]
  split_ifs with hmore
  · exact h.hold hpc rfl rfl rfl trivial trivial Iff.rfl fun e => absurd e (by simp)
  · refine h.hold hpc rfl rfl rfl trivial trivial Iff.rfl fun hout hn => ?_
    subst hout
    have hempty : s.pipe.empty = true := by
      by_contra hne
      exact hmore ⟨hn, by simpa using hne⟩
    refine ⟨hempty, ?_⟩
    by_contra hopen
    exact hk rfl ⟨hempty, Bool.eq_true_of_not_eq_false hopen⟩

theorem Inv.stepProc (ht : stepProc s q = some t) : Inv t := by
  have hk := h.knows q
  rw [Pipe.stepProc] at ht
  split at ht
  all_goals rename_i hpc
  all_goals rw [hpc] at hk
  · simp at ht
  · exact h.acquire hpc ht trivial id id trivial (by simp)
  · cases ht
    exact h.writeLoop hpc
  · exact h.wakeup hpc ht trivial trivial Iff.rfl hk
  · exact h.wakeup hpc ht trivial trivial Iff.rfl trivial
  · cases ht
    exact h.release hpc rfl rfl rfl rfl trivial id Iff.rfl (by simp)
  · exact h.acquire hpc ht trivial id id trivial (by simp)
  · cases ht
    exact h.readLoop hpc
  · cases ht
    exact h.readCopy hpc
  · refine h.wakeup hpc ht trivial trivial Iff.rfl fun hret => hk ?_
    exact List.length_eq_zero_iff.mp (by exact_mod_cast hret)
  · cases ht
    exact h.release hpc rfl rfl rfl rfl trivial id Iff.rfl (by simp)
  · exact h.acquire hpc ht trivial id id trivial (by simp)
  · cases ht
    exact h.hold hpc rfl rfl rfl trivial trivial Iff.rfl trivial
  · cases ht
    exact h.hold hpc rfl rfl rfl trivial trivial Iff.rfl trivial
  · exact h.wakeup hpc ht trivial trivial Iff.rfl trivial
  · exact h.wakeup hpc ht trivial trivial Iff.rfl trivial
  · cases ht
    exact h.release hpc rfl rfl rfl rfl trivial id Iff.rfl (by simp)
  · exact h.sleep hpc ht

theorem Inv.enter (hlock : ¬ pc.HoldsLock) (htable : ¬ pc.HoldsTable)
    (hns : ∀ k, pc ≠ .sleep k .switched) (ht : s.enter q pc = some t) : Inv t := by
  rw [Sys.enter] at ht
  split at ht <;> cases ht
  rename_i hpc
  refine h.move rfl (h.lock.keep q (iff_of_false hlock ?_)) (h.ptable.keep q (iff_of_false htable ?_))
    (Or.inl rfl) (Pc.knows_of_not_holdsLock hlock _) (sleepsOk_of_pc (h.sleeps q) ?_ hns)
  all_goals simp [hpc, Pc.HoldsLock, Pc.HoldsTable]

theorem Inv.kill (ht : kill s q = some t) : Inv t := by
  rw [Pipe.kill] at ht
  split at ht <;> cases ht
  refine h.move rfl (h.lock.keep q Iff.rfl) (h.ptable.keep q Iff.rfl) (Or.inl rfl) (h.knows q)
    ⟨fun hs => ?_, (h.sleeps q).2⟩
  dsimp only at hs
  split at hs
  · simp at hs
  · next hne => exact absurd hs hne

/-- **Every step keeps the locks and what their holders know.** -/
theorem Inv.step {a : Action} (ht : step s a = some t) : Inv t := by
  cases a with
  | pipewrite q addr | piperead q n | pipeclose q w => exact h.enter id id (by simp) ht
  | proc q => exact h.stepProc ht
  | kill q => exact h.kill ht

omit h

theorem Inv.pipealloc : Inv pipealloc where
  lock p := by simp [Pipe.pipealloc, Proc.fresh, Pc.HoldsLock]
  ptable p := by simp [Pipe.pipealloc, Proc.fresh, Pc.HoldsTable]
  knows p := trivial
  sleeps p := by simp [Pipe.pipealloc, Proc.fresh, Proc.SleepsOk]

end Xv6.Pipe
