import Xv6.Pipe.Locks

/-!
# Sleeping on a pipe

A process may only sleep while the condition it waits on holds, or while the process that has
falsified it has its `wakeup` still ahead. `pipewrite` breaks this: when it finds the pipe full and
returns `-1`, it does not call `wakeup(&p->nread)` for the bytes it has appended.
-/

namespace Xv6.Pipe

open Transition Lock
open Function (update update_self update_of_ne)

variable {s t : Sys} {q : Nat}

/-- The process sleeps in the call `k`, or is about to with `p->lock` already released. -/
def Proc.Asleep (x : Proc) (k : Sleeper) : Prop :=
  x.pc = .sleep k .mark ∨ x.pc = .sleep k .switched ∧ x.state = .sleeping

/-- The process calls `wakeup(chan)` before it gives `p->lock` back, early returns apart. -/
def Pc.WillWake : Pc → Chan → Prop
  | .writeLoop _ _, .nread | .writeFull _ _, .nread | .writeWake _, .nread => True
  | .closeWake true, .nread => True
  | .readCopy _ _, .nwrite | .readWake _ _, .nwrite => True
  | .closeWake false, .nwrite => True
  | _, _ => False

/-- Every sleeper on `c` waits rightly or is about to be woken. -/
def Covered (c : Chan) (s : Sys) : Prop :=
  ∀ p k, k.chan = c → (s.proc p).Asleep k →
    k.Waits s.pipe ∨ ∃ q, s.lock = some q ∧ (s.proc q).pc.WillWake c

/-- `pipewrite` returns `-1` from a full pipe in this step. -/
def earlyReturn (s : Sys) : Action → Bool
  | .proc q =>
    match (s.proc q).pc with
    | .writeLoop addr i =>
      i < addr.length && s.pipe.full && (!s.pipe.readopen || (s.proc q).killed)
    | _ => false
  | _ => false

/-- No reader sleeps when `pipewrite` returns early. -/
def ReturnSafe (s : Sys) (a : Action) : Prop :=
  earlyReturn s a = true → ∀ p n, ¬ (s.proc p).Asleep (.reader n)

variable {k : Sleeper} {x : Proc}

theorem Proc.Asleep.not_holdsLock (h : x.Asleep k) : ¬ x.pc.HoldsLock := by
  rcases h with h | ⟨h, -⟩
  all_goals
    rw [h]
    exact id

variable {c : Chan} {pc' : Pc}

/-- The holder of `p->lock` moves on and keeps it: what it owes the sleepers it still owes. -/
theorem Covered.hold (h : Covered c s) (hl : s.lock = some q)
    (hproc : t.proc = update s.proc q { s.proc q with pc := pc' })
    (hlock : t.lock = s.lock) (hpc' : pc'.HoldsLock)
    (howes : ∀ p k, k.chan = c → (s.proc p).Asleep k →
      k.Waits s.pipe ∨ (s.proc q).pc.WillWake c → k.Waits t.pipe ∨ pc'.WillWake c) :
    Covered c t := by
  intro p k hk hp
  rw [hproc] at hp
  by_cases hpq : p = q
  · subst hpq
    rw [update_self] at hp
    exact absurd hpc' hp.not_holdsLock
  · rw [update_of_ne hpq] at hp
    have hold : k.Waits s.pipe ∨ (s.proc q).pc.WillWake c := by
      refine (h p k hk hp).imp_right ?_
      rintro ⟨q', hq', hw⟩
      rw [hl, Option.some.injEq] at hq'
      exact hq' ▸ hw
    refine (howes p k hk hp hold).imp_right fun hw => ⟨q, hlock.trans hl, ?_⟩
    rw [hproc, update_self]
    exact hw

/-- A process that is not asleep moves, and the pipe is as before: sleepers that waited
rightly still do. -/
theorem Covered.frame (h : Covered c s)
    (hproc : t.proc = update s.proc q x) (hpipe : t.pipe = s.pipe)
    (hlock : t.lock = s.lock ∨ ∀ p, s.lock = some p → ¬ (s.proc p).pc.WillWake c)
    (hq : (s.proc q).pc.WillWake c → x.pc.WillWake c)
    (hx : ∀ k, k.chan = c → x.Asleep k → k.Waits s.pipe ∨ (s.proc q).Asleep k) : Covered c t := by
  have main : ∀ p k, k.chan = c → (s.proc p).Asleep k →
      k.Waits t.pipe ∨ ∃ q, t.lock = some q ∧ (t.proc q).pc.WillWake c := by
    intro p k hk hp
    rcases h p k hk hp with hw | ⟨p', hl, hw⟩
    · exact Or.inl (hpipe ▸ hw)
    · rcases hlock with hsame | hnone
      · refine Or.inr ⟨p', hsame.trans hl, ?_⟩
        rw [hproc]
        by_cases hpq : p' = q
        · subst hpq
          rw [update_self]
          exact hq hw
        · rwa [update_of_ne hpq]
      · exact absurd hw (hnone p' hl)
  intro p k hk hp
  rw [hproc] at hp
  by_cases hpq : p = q
  · subst hpq
    rw [update_self] at hp
    rcases hx k hk hp with hw | hold
    · exact Or.inl (hpipe ▸ hw)
    · exact main p k hk hold
  · rw [update_of_ne hpq] at hp
    exact main p k hk hp

theorem Covered.acquire (h : Covered c s) (ht : s.acquire q pc' = some t)
    (hpc' : pc'.HoldsLock) : Covered c t := by
  rw [Sys.acquire] at ht
  split at ht <;> cases ht
  rename_i hfree
  -- the lock was free, so every sleeper waited rightly
  intro p k hk hp
  have hp' : (s.proc p).Asleep k := by
    by_cases hpq : p = q
    · subst hpq
      simp only [Sys.goto, update_self] at hp
      exact absurd hpc' hp.not_holdsLock
    · simpa only [Sys.goto, update_of_ne hpq] using hp
  refine Or.inl ((h p k hk hp').resolve_right ?_)
  rintro ⟨q', hq', -⟩
  rw [hfree.1] at hq'
  exact absurd hq' (by simp)

/-- Giving `p->lock` back is safe where no `wakeup` is owed any more. -/
theorem Covered.release (h : Covered c s) (hl : s.lock = some q) (hpc : ¬ (s.proc q).pc.WillWake c)
    (hproc : t.proc = update s.proc q { s.proc q with pc := pc' }) (hpipe : t.pipe = s.pipe)
    (hpc' : ∀ k, k.chan = c → Proc.Asleep { s.proc q with pc := pc' } k → k.Waits s.pipe) :
    Covered c t := by
  refine h.frame hproc hpipe (Or.inr fun p hp => ?_) (fun hw => absurd hw hpc)
    fun k hk hx => Or.inl (hpc' k hk hx)
  rw [hl, Option.some.injEq] at hp
  exact hp ▸ hpc

theorem not_asleep_wakeup1 (hinv : Inv s) (htable : s.ptable = none) {p : Nat} (hk : k.chan = c) : ¬ (wakeup1 c (s.proc p)).Asleep k := by
  rintro (hmark | ⟨hsw, hst⟩)
  · refine hinv.ptable.not_of_none htable p ?_
    rw [wakeup1_pc] at hmark
    rw [hmark]
    trivial
  · rw [wakeup1_pc] at hsw
    have hchan := (hinv.sleeps p).2 k hsw
    rw [hk] at hchan
    exact (wakeup1_sleeping.mp hst).2 hchan

theorem Proc.Asleep.of_wakeup1 (h : (wakeup1 c x).Asleep k) : x.Asleep k := by
  rcases h with h | ⟨h, hst⟩
  · exact Or.inl (by simpa using h)
  · exact Or.inr ⟨by simpa using h, (wakeup1_sleeping.mp hst).1⟩

variable (h : Covered c s)

include h

theorem Covered.wakeup {c' : Chan} (hinv : Inv s)
    (hl : s.lock = some q) (ht : s.wakeup q c' pc' = some t) (hpc' : pc'.HoldsLock)
    (hpc : c ≠ c' → ¬ (s.proc q).pc.WillWake c) : Covered c t := by
  rw [Sys.wakeup] at ht
  split at ht <;> cases ht
  rename_i htable
  have hall : Covered c { s with proc := fun p => wakeup1 c' (s.proc p) } := by
    intro p k hk hp
    simpa using h p k hk hp.of_wakeup1
  refine hall.hold hl rfl rfl hpc' fun p k hk hp hold => ?_
  by_cases hcc : c = c'
  · subst hcc
    exact absurd hp (not_asleep_wakeup1 hinv htable hk)
  · exact Or.inl (hold.resolve_right (by simpa using hpc hcc))

theorem Covered.sleep (hinv : Inv s) {ph : SleepPc}
    (hpc : (s.proc q).pc = .sleep k ph) (ht : Pipe.sleep s q k ph = some t) : Covered c t := by
  have hnw : ¬ (s.proc q).pc.WillWake c := by
    rw [hpc]
    exact id
  cases ph with
  | acquireTable =>
    rw [Pipe.sleep] at ht
    split at ht <;> cases ht
    exact h.frame rfl rfl (Or.inl rfl) (fun hw => absurd hw hnw)
      fun k' _ hx => absurd trivial hx.not_holdsLock
  | releaseLock =>
    cases ht
    have hknow := hinv.knows q
    have hl : s.lock = some q := (hinv.lock q).mpr (by simp only [hpc, Pc.HoldsLock])
    rw [hpc] at hknow
    refine h.release hl hnw rfl rfl fun k' _ hx => ?_
    rcases hx with hx | ⟨hx, -⟩
    · cases hx
      exact hknow
    · simp at hx
  | mark =>
    cases ht
    refine h.frame rfl rfl (Or.inl rfl) (fun hw => absurd hw hnw) fun k' _ hx => Or.inr ?_
    rcases hx with hx | ⟨hx, -⟩
    · simp at hx
    · cases hx
      exact Or.inl hpc
  | switched =>
    rw [Pipe.sleep] at ht
    split at ht <;> cases ht
    refine h.frame rfl rfl (Or.inl rfl) (fun hw => absurd hw hnw) fun k' _ hx => ?_
    simp [Proc.Asleep] at hx
  | tidy =>
    cases ht
    refine h.frame rfl rfl (Or.inl rfl) (fun hw => absurd hw hnw) fun k' _ hx => ?_
    simp [Proc.Asleep] at hx
  | reacquire =>
    have hholds : k.resume.HoldsLock := by cases k <;> trivial
    exact h.acquire ht hholds

/-- A byte appended, a full pipe or the end of the loop: `wakeup(&p->nread)` is still ahead.
Only the early return needs that no reader sleeps. -/
theorem Covered.writeLoop (hl : s.lock = some q)
    {addr : List UInt8} {i : Nat} (hpc : (s.proc q).pc = .writeLoop addr i)
    (hsafe : c = .nread → ReturnSafe s (.proc q)) : Covered c (Pipe.writeLoop s q addr i) := by
  have hwriter : ∀ addr' i', (Sleeper.writer addr' i').chan = c →
      (Sleeper.writer addr' i').Waits s.pipe ∨ (s.proc q).pc.WillWake c →
        (Sleeper.writer addr' i').Waits s.pipe := by
    rintro addr' i' rfl hold
    rw [hpc] at hold
    exact hold.resolve_right id
  rw [Pipe.writeLoop]
  split_ifs with hi hfull hret
  · refine h.hold hl rfl rfl trivial fun p k hk hp hold => ?_
    cases k with
    | writer => exact Or.inl (hwriter _ _ hk hold)
    | reader n =>
      have hearly : earlyReturn s (.proc q) = true := by
        simpa [earlyReturn, hpc, hi, hfull] using hret
      exact absurd hp (hsafe hk.symm hearly p n)
  · refine h.hold hl rfl rfl trivial fun p k hk hp hold => ?_
    cases k with
    | writer => exact Or.inl (hwriter _ _ hk hold)
    | reader n => exact Or.inr (hk ▸ trivial)
  · refine h.hold hl rfl rfl trivial fun p k hk hp hold => ?_
    cases k with
    | writer => exact absurd (hwriter _ _ hk hold).1 hfull
    | reader n => exact Or.inr (hk ▸ trivial)
  · refine h.hold hl rfl rfl trivial fun p k hk hp hold => ?_
    cases k with
    | writer => exact Or.inl (hwriter _ _ hk hold)
    | reader n => exact Or.inr (hk ▸ trivial)

theorem Covered.readLoop (hl : s.lock = some q) {n : Nat}
    (hpc : (s.proc q).pc = .readLoop n) : Covered c (Pipe.readLoop s q n) := by
  have hkeep : ∀ p k, k.chan = c → (s.proc p).Asleep k →
      k.Waits s.pipe ∨ (s.proc q).pc.WillWake c → k.Waits s.pipe := by
    intro p k hk hp hold
    rw [hpc] at hold
    exact hold.resolve_right id
  rw [Pipe.readLoop]
  split_ifs
  all_goals
    exact h.hold hl rfl rfl trivial fun p k hk hp hold => Or.inl (hkeep p k hk hp hold)

theorem Covered.readCopy (hl : s.lock = some q) {n : Nat}
    {out : List UInt8} (hpc : (s.proc q).pc = .readCopy n out) :
    Covered c (Pipe.readCopy s q n out) := by
  rw [Pipe.readCopy]
  split_ifs with hmore
  · refine h.hold hl rfl rfl trivial fun p k hk hp hold => ?_
    cases k with
    | writer =>
      subst hk
      exact Or.inr trivial
    | reader m =>
      subst hk
      rw [hpc] at hold
      have hempty := (hold.resolve_right id).1
      rw [hmore.2] at hempty
      exact absurd hempty (by simp)
  · refine h.hold hl rfl rfl trivial fun p k hk hp hold => ?_
    cases k with
    | writer =>
      subst hk
      exact Or.inr trivial
    | reader m =>
      subst hk
      rw [hpc] at hold
      exact Or.inl (hold.resolve_right id)

theorem Covered.closeSet (hl : s.lock = some q) {w : Bool}
    (hpc : (s.proc q).pc = .closeSet w) (ht : stepProc s q = some t) : Covered c t := by
  simp only [stepProc, hpc] at ht
  cases w
  all_goals
    cases ht
    refine h.hold hl rfl rfl trivial fun p k hk hp hold => ?_
    rw [hpc] at hold
    have hw := hold.resolve_right id
    cases k <;> subst hk <;> first | exact Or.inl hw | exact Or.inr trivial

theorem Covered.stepProc (hinv : Inv s)
    (hsafe : c = .nread → ReturnSafe s (.proc q)) (ht : stepProc s q = some t) : Covered c t := by
  have hstep := ht
  have hl : (s.proc q).pc.HoldsLock → s.lock = some q := (hinv.lock q).mpr
  rw [Pipe.stepProc] at ht
  split at ht
  all_goals rename_i hpc
  all_goals rw [hpc] at hl
  · simp at ht
  · exact h.acquire ht trivial
  · cases ht
    exact h.writeLoop (hl trivial) hpc hsafe
  · refine h.wakeup hinv (hl trivial) ht trivial fun hc => ?_
    cases c <;> simp_all [Pc.WillWake]
  · refine h.wakeup hinv (hl trivial) ht trivial fun hc => ?_
    cases c <;> simp_all [Pc.WillWake]
  · cases ht
    exact h.release (hl trivial) (by simp [hpc, Pc.WillWake]) rfl rfl (by simp [Proc.Asleep])
  · exact h.acquire ht trivial
  · cases ht
    exact h.readLoop (hl trivial) hpc
  · cases ht
    exact h.readCopy (hl trivial) hpc
  · refine h.wakeup hinv (hl trivial) ht trivial fun hc => ?_
    cases c <;> simp_all [Pc.WillWake]
  · cases ht
    exact h.release (hl trivial) (by simp [hpc, Pc.WillWake]) rfl rfl (by simp [Proc.Asleep])
  · exact h.acquire ht trivial
  · exact h.closeSet (hl trivial) hpc hstep
  · exact h.closeSet (hl trivial) hpc hstep
  · refine h.wakeup hinv (hl trivial) ht trivial fun hc => ?_
    cases c <;> simp_all [Pc.WillWake]
  · refine h.wakeup hinv (hl trivial) ht trivial fun hc => ?_
    cases c <;> simp_all [Pc.WillWake]
  · cases ht
    exact h.release (hl trivial) (by simp [hpc, Pc.WillWake]) rfl rfl (by simp [Proc.Asleep])
  · exact h.sleep hinv hpc ht

theorem Covered.enter {pc : Pc} (hns : ∀ k ph, pc ≠ .sleep k ph)
    (ht : s.enter q pc = some t) : Covered c t := by
  rw [Sys.enter] at ht
  split at ht <;> cases ht
  rename_i hpc
  refine h.frame rfl rfl (Or.inl rfl) (fun hw => ?_) fun k _ hx => ?_
  · rw [hpc] at hw
    exact absurd hw id
  · rcases hx with hx | ⟨hx, -⟩
    · exact absurd hx (hns k .mark)
    · exact absurd hx (hns k .switched)

theorem Covered.kill (ht : kill s q = some t) : Covered c t := by
  rw [Pipe.kill] at ht
  split at ht <;> cases ht
  refine h.frame rfl rfl (Or.inl rfl) id fun k _ hx => Or.inr ?_
  refine hx.imp_right (And.imp_right fun hst => ?_)
  dsimp only at hst
  split at hst
  · assumption
  · exact hst

/-- **Every step keeps sleepers covered**, the early return of `pipewrite` only if no reader
sleeps. -/
theorem Covered.step {a : Action} (hinv : Inv s)
    (hsafe : c = .nread → ReturnSafe s a) (ht : step s a = some t) : Covered c t := by
  cases a with
  | pipewrite q addr | piperead q n | pipeclose q w => exact h.enter (by simp) ht
  | proc q => exact h.stepProc hinv hsafe ht
  | kill q => exact h.kill ht

omit h

theorem covered_pipealloc (c : Chan) : Covered c pipealloc := by
  intro p k _ hp
  simp [Proc.Asleep, pipealloc, Proc.fresh] at hp

theorem Covered.waits (h : Covered c s) (hinv : Inv s) (hl : s.lock = none) {p : Nat}
    (hst : (s.proc p).state = .sleeping) (hchan : (s.proc p).chan = some c) :
    ∃ k : Sleeper, k.chan = c ∧ k.Waits s.pipe := by
  obtain ⟨k, hk⟩ := (hinv.sleeps p).1 hst
  have hkc : k.chan = c := by
    have := (hinv.sleeps p).2 k hk
    rw [hchan, Option.some.injEq] at this
    exact this.symm
  refine ⟨k, hkc, (h p k hkc (Or.inr ⟨hk, hst⟩)).resolve_right ?_⟩
  rintro ⟨q, hq, -⟩
  rw [hl] at hq
  exact absurd hq (by simp)

/-- **Who sleeps on a pipe.** In every state of every run in which `p->lock` and `ptable.lock`
are free, a process sleeps in `pipewrite` only if the pipe is full and the read end open; and a
process sleeps in `piperead` only if the pipe is empty and the write end open, provided that no
`pipewrite` of the run returned early over a sleeping reader. -/
theorem no_lost_wakeup (as : List Action) (s : Sys) (hr : run step pipealloc as = some s)
    (hl : s.lock = none) (_ht : s.ptable = none) (p : Nat) (hp : (s.proc p).state = .sleeping) :
    (RunMeets step ReturnSafe pipealloc as → (s.proc p).chan = some .nread →
      s.pipe.empty = true ∧ s.pipe.writeopen = true) ∧
    ((s.proc p).chan = some .nwrite → s.pipe.full = true ∧ s.pipe.readopen = true) := by
  constructor
  · intro hc hchan
    have hinv : Inv s ∧ Covered .nread s :=
      hc.invariant (I := fun s => Inv s ∧ Covered .nread s) (fun s a t h hsafe ht => ⟨h.1.step ht, h.2.step h.1 (fun _ => hsafe) ht⟩)
        ⟨.pipealloc, covered_pipealloc _⟩ hr
    obtain ⟨k, hk, hw⟩ := hinv.2.waits hinv.1 hl hp hchan
    cases k with
    | writer => simp [Sleeper.chan] at hk
    | reader n => exact hw
  · intro hchan
    have hinv : Inv s ∧ Covered .nwrite s :=
      run_invariant (I := fun s => Inv s ∧ Covered .nwrite s) (fun s a t h ht => ⟨h.1.step ht, h.2.step h.1 (fun e => by simp at e) ht⟩)
        ⟨.pipealloc, covered_pipealloc _⟩ hr
    obtain ⟨k, hk, hw⟩ := hinv.2.waits hinv.1 hl hp hchan
    cases k with
    | writer => exact hw
    | reader n => simp [Sleeper.chan] at hk

/-- A reader sleeps, is woken by a writer, reads its byte and sleeps again. -/
def sleepAgainRun : List Action :=
  .piperead 1 1 :: List.replicate 5 (.proc 1) ++
    .pipewrite 2 [7] :: List.replicate 5 (.proc 2) ++ List.replicate 8 (.proc 1) ++
    .piperead 1 1 :: List.replicate 5 (.proc 1)

theorem no_lost_wakeup_sleepAgain :
    ∃ s, run step pipealloc sleepAgainRun = some s ∧ (s.proc 1).state = .sleeping ∧
      s.pipe.empty = true ∧ s.pipe.writeopen = true := by
  have hres : (run step pipealloc sleepAgainRun).map
      (fun s => (s.lock, s.ptable, (s.proc 1).state, (s.proc 1).chan)) =
        some (none, none, .sleeping, some .nread) := by decide +kernel
  obtain ⟨s, hr, hs⟩ := Option.map_eq_some_iff.mp hres
  simp only [Prod.mk.injEq] at hs
  obtain ⟨hl, ht, hst, hchan⟩ := hs
  have hsafe : RunMeets step ReturnSafe pipealloc sleepAgainRun :=
    RunMeets.mono (fun s a (h : (!earlyReturn s a) = true) he => by simp [he] at h)
      (RunMeets.of_meets (c := fun s a => !earlyReturn s a) (by decide +kernel))
  exact ⟨s, hr, hst, (no_lost_wakeup sleepAgainRun s hr hl ht 1 hst).1 hsafe hchan⟩

/-- A reader sleeps on the empty pipe; a writer that is killed during `pipewrite` fills the
pipe and returns `-1`. -/
def killedWriterRun : List Action :=
  .piperead 1 1 :: List.replicate 5 (.proc 1) ++
    [.pipewrite 2 (List.replicate (pipeSize + 1) 7), .proc 2, .kill 2] ++
    List.replicate (pipeSize + 2) (.proc 2)

/-- The reader goes on sleeping, with both locks free and bytes in the pipe. -/
theorem lost_wakeup :
    ∃ s, run step pipealloc killedWriterRun = some s ∧ s.lock = none ∧ s.ptable = none ∧
      (s.proc 1).state = .sleeping ∧ (s.proc 1).chan = some .nread ∧
      s.pipe.empty = false := by
  have hres : (run step pipealloc killedWriterRun).map
      (fun s => (s.lock, s.ptable, (s.proc 1).state, (s.proc 1).chan, s.pipe.empty)) =
        some (none, none, .sleeping, some .nread, false) := by decide +kernel
  obtain ⟨s, hr, hs⟩ := Option.map_eq_some_iff.mp hres
  simp only [Prod.mk.injEq] at hs
  exact ⟨s, hr, hs⟩

end Xv6.Pipe
