import Xv6.Log.Books

/-!
# Crash atomicity

A crash at any step, also during a recovery, loses no committed transaction and exposes no
uncommitted one.

The checks of `log_write` are made before `log.lock` is acquired, so the header may grow to one
block more than the log area has room for. A commit of such a transaction does not come far: its
blocks take up every buffer, and `write_log` needs one for the log.
-/

namespace Xv6.Log

open Transition
open Function (update update_self update_of_ne)

variable {g : Geom} {base D : Disk} {s s' : LogState} {tail : Nat}

/-- A transaction is being assembled over the contents `D`: nothing of it is on the home
blocks or in the header on disk. -/
structure Assembling (g : Geom) (D : Disk) (s : LogState) : Prop where
  clear : decodeHead (s.disk g.start) = []
  home : ∀ b, ¬ g.InLog b → s.disk b = D b
  blocks : ∀ b ∈ s.lh, ¬ g.InLog b ∧ b < 2 ^ 32
  logged : ∀ w ∈ s.current, w.block ∈ s.lh
  cached : ∀ b, ¬ g.InLog b → s.locked b = false → s.cache b = applyWrites D s.current b

def Copied (g : Geom) (s : LogState) (tail : Nat) : Prop :=
  ∀ i b, i < tail → s.lh[i]? = some b →
    s.disk (g.start + i + 1) = s.cache b ∧ s.cache (g.start + i + 1) = s.cache b

/-- A committed transaction, already part of `D`, is being copied home. -/
structure Installing (g : Geom) (D : Disk) (s : LogState) (tail : Nat) : Prop where
  header : s.lh = decodeHead (s.disk g.start)
  holds : Holds g D s.disk s.lh
  installed : Installed g D s.disk s.lh tail
  cachedHome : ∀ b, ¬ g.InLog b → s.cache b = D b
  cachedLog : ∀ i b, s.lh[i]? = some b → s.cache (g.start + i + 1) = D b
  empty : s.current = []

/-- The invariant while the machine is up, by the state of the commit. -/
def CommitInv (g : Geom) (D : Disk) (s : LogState) : Prop :=
  match s.commit with
  | none => Assembling g D s
  | some (.writeLog tail) => Assembling g D s ∧ Copied g s tail
  | some (.install tail) => Installing g D s tail
  | some .finish => Assembling g D s

/-- The invariant of the disk and of memory, by what the machine is doing. -/
def PhaseInv (g : Geom) (D : Disk) (s : LogState) : Prop :=
  match s.status with
  | .recovering .readHead => s.cache = s.disk ∧ Recoverable g D s.disk
  | .recovering (.install tail) => s.cache = s.disk ∧ Recoverable g D s.disk ∧
      s.lh = decodeHead (s.disk g.start) ∧ Installed g D s.disk s.lh tail
  | .up => CommitInv g D s
  | .panicked _ => Recoverable g D s.disk

/-- The invariant of the machine started on the disk `base`. -/
structure Inv (g : Geom) (base : Disk) (s : LogState) : Prop where
  size : nbuf ≤ g.size
  books : Books g s
  phase : PhaseInv g (contentsAfter base s.durable) s

theorem Assembling.recoverable (hs : 0 < g.size) (h : Assembling g D s) :
    Recoverable g D s.disk := by
  rw [Recoverable, h.clear]
  exact ⟨hs, by simp, by simp, fun b hb _ => h.home b hb⟩

theorem Installing.recoverable (h : Installing g D s tail) : Recoverable g D s.disk := by
  rw [Recoverable, ← h.header]
  exact h.holds

theorem Inv.size_pos (h : Inv g base s) : 0 < g.size :=
  Nat.lt_of_lt_of_le (by decide) h.size

/-- Whatever the machine is doing, its disk is recoverable. -/
theorem Inv.recoverable (h : Inv g base s) :
    Recoverable g (contentsAfter base s.durable) s.disk := by
  have hp := h.phase
  rw [PhaseInv] at hp
  split at hp
  · exact hp.2
  · exact hp.2.1
  · rw [CommitInv] at hp
    split at hp
    · exact hp.recoverable h.size_pos
    · exact hp.1.recoverable h.size_pos
    · exact Installing.recoverable hp
    · exact hp.recoverable h.size_pos
  · exact hp

theorem Assembling.congr (h : Assembling g D s) (hdisk : s'.disk = s.disk) (hlh : s'.lh = s.lh)
    (hcur : s'.current = s.current) (hlock : s'.locked = s.locked) (hcache : s'.cache = s.cache) :
    Assembling g D s' := by
  refine ⟨?_, ?_, ?_, ?_, ?_⟩
  · rw [hdisk]; exact h.clear
  · rw [hdisk]; exact h.home
  · rw [hlh]; exact h.blocks
  · rw [hlh, hcur]; exact h.logged
  · rw [hlock, hcache, hcur]; exact h.cached

theorem PhaseInv.of_up (hs : s.status = .up) (h : CommitInv g D s) : PhaseInv g D s := by
  rw [PhaseInv, hs]
  exact h

theorem PhaseInv.of_assembling (hs : s.status = .up) (hc : s.commit = none)
    (h : Assembling g D s) : PhaseInv g D s := by
  rw [PhaseInv, hs, CommitInv, hc]
  exact h

theorem PhaseInv.assembling (h : PhaseInv g D s) (hs : s.status = .up) (hc : s.commit = none) :
    Assembling g D s := by
  rwa [PhaseInv, hs, CommitInv, hc] at h

variable {o : Nat}

theorem Inv.beginOp (h : Inv g base s) (hs : s.status = .up)
    (ht : beginOp s o = some s') : Inv g base s' := by
  have hbooks := h.books.beginOp hs ht
  rw [Log.beginOp] at ht
  split at ht <;> cases ht
  rename_i hcond
  have hnone : s.commit = none := by
    have hc := h.books.committing
    rw [hcond.2.1] at hc
    simpa using hc.symm
  exact ⟨h.size, hbooks, .of_assembling hs hnone
    ((h.phase.assembling hs hnone).congr rfl rfl rfl rfl rfl)⟩

variable {b : Nat}

theorem Inv.logWriteCheck (h : Inv g base s) (hs : s.status = .up) {data : Block}
    (ht : logWriteCheck g s o b data = some s') : Inv g base s' := by
  have hbooks := h.books.logWriteCheck hs ht
  rw [Log.logWriteCheck] at ht
  split_ifs at ht with hcond hbig hout <;> cases ht
  · exact ⟨h.size, hbooks, h.recoverable⟩
  · exact ⟨h.size, hbooks, h.recoverable⟩
  · have hact : (s.op o).Active := by rw [hcond.1]; trivial
    have hnone := (h.books.no_commit hact).1
    have ha := h.phase.assembling hs hnone
    refine ⟨h.size, hbooks, .of_assembling hs hnone ?_⟩
    refine ⟨ha.clear, ha.home, ha.blocks, ha.logged, ?_⟩
    intro c hc hl
    have hcb : c ≠ b := fun e => by simp [e] at hl
    simp only [update_of_ne hcb] at hl ⊢
    exact ha.cached c hc hl

theorem Inv.logWriteInsert (h : Inv g base s) (hs : s.status = .up)
    (ht : logWriteInsert s o = some s') : Inv g base s' := by
  have hbooks := h.books.logWriteInsert hs ht
  rw [Log.logWriteInsert] at ht
  split at ht <;> cases ht
  rename_i b ho
  have hact : (s.op o).Active := by rw [ho]; trivial
  have hnone := (h.books.no_commit hact).1
  have ha := h.phase.assembling hs hnone
  obtain ⟨hin, hlt, -⟩ := h.books.ops.checked o b ho
  have hmem : ∀ c, c ∈ (if b ∈ s.lh then s.lh else s.lh ++ [b]) ↔ c ∈ s.lh ∨ c = b := by
    intro c
    split
    · exact ⟨Or.inl, fun hc => hc.elim id fun e => e ▸ (by assumption)⟩
    · simp
  refine ⟨h.size, hbooks, .of_assembling hs hnone ⟨ha.clear, ha.home, ?_, ?_, ?_⟩⟩
  · intro c hc
    rcases (hmem c).mp hc with hc | rfl
    · exact ha.blocks c hc
    · exact ⟨hin, hlt⟩
  · intro w hw
    rcases List.mem_append.mp hw with hw | hw
    · exact (hmem _).mpr (Or.inl (ha.logged w hw))
    · rw [List.mem_singleton.mp hw]
      exact (hmem _).mpr (Or.inr rfl)
  · intro c hc hl
    dsimp only at hl ⊢
    rw [applyWrites_concat]
    by_cases hcb : c = b
    · subst hcb
      simp
    · rw [update_of_ne hcb] at hl ⊢
      exact ha.cached c hc hl

theorem Inv.endOp (h : Inv g base s) (hs : s.status = .up)
    (ht : endOp s o = some s') : Inv g base s' := by
  have hbooks := h.books.endOp hs ht
  rw [Log.endOp] at ht
  split at ht
  · rename_i ho
    have hact : (s.op o).Active := by rw [ho]; trivial
    obtain ⟨hnone, hm⟩ := h.books.no_commit hact
    have ha := h.phase.assembling hs hnone
    simp only [hm, Bool.false_eq_true, if_false] at ht
    split at ht <;> cases ht
    · refine ⟨h.size, hbooks, .of_up hs ?_⟩
      rw [CommitInv]
      by_cases hl : 0 < s.lh.length
      · simp only [hl, if_true]
        exact ⟨ha.congr rfl rfl rfl rfl rfl, fun i b hi => absurd hi (Nat.not_lt_zero i)⟩
      · simp only [hl, if_false]
        exact ha.congr rfl rfl rfl rfl rfl
    · exact ⟨h.size, hbooks, .of_assembling hs hnone (ha.congr rfl rfl rfl rfl rfl)⟩
  · simp at ht

theorem update_home {d : Disk} {c : Nat} {v : Block} (hb : g.InLog b) (hc : ¬ g.InLog c) :
    update d b v c = d c := by
  have hne : c ≠ b := fun e => hc (e ▸ hb)
  exact update_of_ne hne _ _

theorem Assembling.writeLog (ha : Assembling g D s) (hroom : s.lh.length < g.size)
    {tail : Nat} (hcopy : Copied g s tail) (hb : s.lh[tail]? = some b) (pc : Option CommitPc) :
    Assembling g D { s.bwrite (g.start + tail + 1) (s.cache b) with commit := pc } ∧
      Copied g { s.bwrite (g.start + tail + 1) (s.cache b) with commit := pc } (tail + 1) := by
  obtain ⟨htail, -⟩ := List.getElem?_eq_some_iff.mp hb
  have hto : g.InLog (g.start + tail + 1) := Geom.inLog_logBlock (by omega)
  have hstart : g.start ≠ g.start + tail + 1 := by omega
  refine ⟨⟨?_, ?_, ha.blocks, ha.logged, ?_⟩, ?_⟩
  · simp only [LogState.bwrite, update_of_ne hstart]
    exact ha.clear
  · intro c hc
    simp only [LogState.bwrite, update_home hto hc]
    exact ha.home c hc
  · intro c hc hl
    simp only [LogState.bwrite, update_home hto hc]
    exact ha.cached c hc hl
  · intro i c hi hc
    have hchome : ¬ g.InLog c := (ha.blocks c (List.mem_of_getElem? hc)).1
    simp only [LogState.bwrite, update_home hto hchome] at hc ⊢
    by_cases hit : i = tail
    · subst hit
      rw [hb, Option.some.injEq] at hc
      simp [hc]
    · have hne : g.start + i + 1 ≠ g.start + tail + 1 := by omega
      rw [update_of_ne hne, update_of_ne hne]
      exact hcopy i c (by omega) hc

/-- The commit point: once the header is on disk, the transaction is part of the contents. -/
theorem Assembling.writeHead (ha : Assembling g D s) (hroom : s.lh.length < g.size)
    (hsmall : s.lh.length < nbuf) (hlock : ∀ b, s.locked b = false) (hcopy : Copied g s s.lh.length) (pc : Option CommitPc) (dur : List (List Write)) :
    Installing g (applyWrites D s.current)
      { s.writeHead g with commit := pc, durable := dur, current := [] } 0 := by
  have hstart : g.InLog g.start := Geom.inLog_start (by omega)
  have hcache : ∀ b, ¬ g.InLog b → s.cache b = applyWrites D s.current b :=
    fun b hb => ha.cached b hb (hlock b)
  have hlog : ∀ i b, s.lh[i]? = some b → s.disk (g.start + i + 1) = applyWrites D s.current b ∧
      s.cache (g.start + i + 1) = applyWrites D s.current b := by
    intro i b hb
    have hi := (List.getElem?_eq_some_iff.mp hb).1
    have hhome := (ha.blocks b (List.mem_of_getElem? hb)).1
    obtain ⟨h₁, h₂⟩ := hcopy i b hi hb
    exact ⟨h₁.trans (hcache b hhome), h₂.trans (hcache b hhome)⟩
  have hholds : Holds g (applyWrites D s.current) (s.writeHead g).disk s.lh := by
    refine ⟨hroom, fun b hb => (ha.blocks b hb).1, ?_, ?_⟩
    · intro i b hb
      have hne : g.start + i + 1 ≠ g.start := by omega
      simp only [LogState.writeHead, LogState.bwrite, update_of_ne hne]
      exact (hlog i b hb).1
    · intro b hb hn
      simp only [LogState.writeHead, LogState.bwrite, update_home hstart hb]
      rw [ha.home b hb, applyWrites_of_not_mem]
      intro w hw e
      exact hn (e ▸ ha.logged w hw)
  refine ⟨?_, hholds, hholds.installed_zero, ?_, ?_, rfl⟩
  · simp only [LogState.writeHead, LogState.bwrite, update_self]
    refine (decodeHead_encodeHead _ ?_ fun b hb => (ha.blocks b hb).2).symm
    exact Nat.lt_trans hsmall (by decide)
  · intro b hb
    simp only [LogState.writeHead, LogState.bwrite, update_home hstart hb]
    exact hcache b hb
  · intro i b hb
    have hne : g.start + i + 1 ≠ g.start := by omega
    simp only [LogState.writeHead, LogState.bwrite, update_of_ne hne]
    exact (hlog i b hb).2

theorem Installing.install (hi : Installing g D s tail) (hb : s.lh[tail]? = some b)
    (pc : Option CommitPc) :
    Installing g D { s.bwrite b (s.cache (g.start + tail + 1)) with commit := pc } (tail + 1) := by
  have hmem := List.mem_of_getElem? hb
  have hhome := hi.holds.home b hmem
  have hroom := hi.holds.room
  have hval : s.cache (g.start + tail + 1) = s.disk (g.start + tail + 1) :=
    (hi.cachedLog tail b hb).trans (hi.holds.logged tail b hb).symm
  have hstart : g.InLog g.start := Geom.inLog_start (by omega)
  rw [hval]
  refine ⟨?_, hi.holds.install hb, hi.installed.succ hi.holds hb, ?_, ?_, hi.empty⟩
  · simp only [LogState.bwrite, hi.holds.install_inLog hb hstart]
    exact hi.header
  · intro c hc
    simp only [LogState.bwrite]
    by_cases hcb : c = b
    · subst hcb
      rw [update_self]
      exact hi.holds.logged tail c hb
    · rw [update_of_ne hcb]
      exact hi.cachedHome c hc
  · intro i c hc
    have hil := (List.getElem?_eq_some_iff.mp hc).1
    have hlb : g.InLog (g.start + i + 1) := Geom.inLog_logBlock (by simp only [LogState.bwrite] at hil; omega)
    have hne : g.start + i + 1 ≠ b := fun e => hhome (e ▸ hlb)
    simp only [LogState.bwrite, update_of_ne hne]
    exact hi.cachedLog i c hc

/-- Once every block is home, clearing the header makes room for the next transaction. -/
theorem Installing.clear (hi : Installing g D s tail) (hb : s.lh[tail]? = none)
    (pc : Option CommitPc) :
    Assembling g D { LogState.writeHead g { s with lh := [] } with commit := pc } := by
  have hroom := hi.holds.room
  have hstart : g.InLog g.start := Geom.inLog_start (by omega)
  have hdone : s.lh.drop tail = [] := List.drop_eq_nil_of_le (List.getElem?_eq_none_iff.mp hb)
  refine ⟨?_, ?_, by simp [LogState.writeHead, LogState.bwrite], ?_, ?_⟩
  · simp only [LogState.writeHead, LogState.bwrite, update_self]
    exact decodeHead_encodeHead_nil _
  · intro b hb
    simp only [LogState.writeHead, LogState.bwrite, update_home hstart hb]
    exact hi.installed b hb (by simp [hdone])
  · simp [LogState.writeHead, LogState.bwrite, hi.empty]
  · intro b hb _
    simp only [LogState.writeHead, LogState.bwrite, update_home hstart hb, hi.empty]
    exact hi.cachedHome b hb

theorem Inv.commitStep (h : Inv g base s) (hs : s.status = .up)
    (ht : commitStep g s = some s') : Inv g base s' := by
  have hbooks := h.books.commitStep hs ht
  have hp := h.phase
  rw [PhaseInv, hs, CommitInv] at hp
  rw [Log.commitStep] at ht
  split at ht
  · -- `write_log`, then the header
    rename_i tail hpc
    simp only [hpc] at hp
    obtain ⟨ha, hcopy⟩ := hp
    split at ht
    · cases ht
      exact ⟨h.size, hbooks, h.recoverable⟩
    rename_i hfull
    have hsmall : s.lh.length < nbuf := Nat.lt_of_not_le hfull
    have hroom : s.lh.length < g.size := Nat.lt_of_lt_of_le hsmall h.size
    split at ht <;> cases ht
    · rename_i b hb
      exact ⟨h.size, hbooks, .of_up hs (ha.writeLog hroom hcopy hb _)⟩
    · rename_i hb
      have hall : Copied g s s.lh.length := fun i c hi hc =>
        hcopy i c (Nat.lt_of_lt_of_le hi (List.getElem?_eq_none_iff.mp hb)) hc
      have hinst := ha.writeHead hroom hsmall (h.books.ops_zero (by simp [hpc])).not_locked hall
        (some (.install 0)) (s.durable ++ [s.current])
      rw [← contentsAfter_concat] at hinst
      exact ⟨h.size, hbooks, .of_up hs hinst⟩
  · -- `install_trans`, then clearing the header
    rename_i tail hpc
    simp only [hpc] at hp
    split at ht <;> cases ht
    · rename_i b hb
      exact ⟨h.size, hbooks, .of_up hs (Installing.install hp hb _)⟩
    · rename_i hb
      exact ⟨h.size, hbooks, .of_up hs (Installing.clear hp hb _)⟩
  · -- back in `end_op`
    rename_i hpc
    simp only [hpc] at hp
    cases ht
    exact ⟨h.size, hbooks, .of_assembling hs rfl (hp.congr rfl rfl rfl rfl rfl)⟩
  · simp at ht

theorem Inv.crash (h : Inv g base s) : Inv g base (crash s) :=
  ⟨h.size, h.books.crash, rfl, h.recoverable⟩

/-- Recovery copies one entry home: the disk stays recoverable, by the same header. -/
theorem Recoverable.install {d : Disk} {lh : List Nat} (hrec : Recoverable g D d)
    (hlh : lh = decodeHead (d g.start)) (hi : Installed g D d lh tail) (hb : lh[tail]? = some b) :
    Recoverable g D (update d b (d (g.start + tail + 1))) ∧
      lh = decodeHead (update d b (d (g.start + tail + 1)) g.start) ∧
      Installed g D (update d b (d (g.start + tail + 1))) lh (tail + 1) := by
  have hholds : Holds g D d lh := hlh ▸ hrec
  have hroom := hholds.room
  have hhead : update d b (d (g.start + tail + 1)) g.start = d g.start :=
    hholds.install_inLog hb (Geom.inLog_start (by omega)) _
  refine ⟨?_, by rw [hhead]; exact hlh, hi.succ hholds hb⟩
  rw [Recoverable, hhead, ← hlh]
  exact hholds.install hb

/-- The end of recovery: all home blocks are up to date and the header is clear. -/
theorem assembling_of_recovered (hc : s.cache = s.disk) (hrec : Recoverable g D s.disk)
    (hi : Installed g D s.disk s.lh tail) (hb : s.lh[tail]? = none) (hcur : s.current = []) (st : Status) :
    Assembling g D { LogState.writeHead g { s with lh := [] } with status := st } := by
  have hroom := hrec.room
  have hstart : g.InLog g.start := Geom.inLog_start (by omega)
  have hdone : s.lh.drop tail = [] := List.drop_eq_nil_of_le (List.getElem?_eq_none_iff.mp hb)
  have hhome : ∀ b, ¬ g.InLog b → s.disk b = D b := fun b hb => hi b hb (by simp [hdone])
  simp only [LogState.writeHead, LogState.bwrite, hc]
  refine ⟨?_, ?_, by simp, by simp [hcur], ?_⟩
  · simp
  · intro b hb
    simp only [update_home hstart hb]
    exact hhome b hb
  · intro b hb _
    simp only [update_home hstart hb, hcur]
    exact hhome b hb

theorem Inv.recoverStep (h : Inv g base s) {pc : RecoverPc} (hs : s.status = .recovering pc) :
    Inv g base (recoverStep g s pc) := by
  have hbooks := h.books.recoverStep hs
  obtain ⟨hnone, -, hcur⟩ := h.books.quiet pc hs
  have hp := h.phase
  cases pc with
  | readHead =>
    rw [PhaseInv, hs] at hp
    obtain ⟨hc, hrec⟩ := hp
    have hlh : (Log.recoverStep g s .readHead).lh = decodeHead (s.disk g.start) := by
      simp [Log.recoverStep, hc]
    exact ⟨h.size, hbooks, hc, hrec, hlh, hlh ▸ Holds.installed_zero hrec⟩
  | install tail =>
    rw [PhaseInv, hs] at hp
    obtain ⟨hc, hrec, hlh, hi⟩ := hp
    rw [Log.recoverStep] at hbooks ⊢
    split at hbooks
    · rename_i b hb
      have hstep := hrec.install hlh hi hb
      refine ⟨h.size, hbooks, ?_⟩
      simp only [PhaseInv, LogState.bwrite, hc, true_and]
      exact hstep
    · rename_i hb
      exact ⟨h.size, hbooks, .of_assembling rfl hnone
        (assembling_of_recovered hc hrec hi hb hcur .up)⟩

/-- **Every step keeps the invariant.** -/
theorem Inv.step (h : Inv g base s) (a : Action) (ht : step g s a = some s') : Inv g base s' := by
  obtain ⟨rfl, rfl⟩ | ⟨hs, hup⟩ | ⟨pc, hs, rfl, rfl⟩ := step_cases ht
  · exact h.crash
  · obtain ⟨o, rfl, hu⟩ | ⟨o, b, data, rfl, hu⟩ | ⟨o, rfl, hu⟩ | ⟨o, rfl, hu⟩ | ⟨rfl, hu⟩ := hup
    · exact h.beginOp hs hu
    · exact h.logWriteCheck hs hu
    · exact h.logWriteInsert hs hu
    · exact h.endOp hs hu
    · exact h.commitStep hs hu
  · exact h.recoverStep hs

theorem Inv.boot (hsize : nbuf ≤ g.size) (hclean : decodeHead (base g.start) = []) :
    Inv g base (boot base) := by
  have hrec : Recoverable g base base := by
    rw [Recoverable, hclean]
    exact ⟨Nat.lt_of_lt_of_le (by decide) hsize, by simp, by simp, fun b _ _ => rfl⟩
  exact ⟨hsize, .boot g base, rfl, hrec⟩

/-- Recovering the disk of `s` leaves every home block as the committed transactions left it,
and each operation is in one of these transactions with all its writes or in none. -/
def CrashAtomic (g : Geom) (base : Disk) (s : LogState) : Prop :=
  (∀ b, ¬ g.InLog b → recoverFromLog g s.disk b = contentsAfter base s.durable b) ∧
  ∀ o, (∀ t ∈ s.durable, ∀ w ∈ t, w.op ≠ o) ∨
    ∃ t ∈ s.durable, t.filter (·.op = o) = s.opWrites o

/-- Committed transactions stay committed, whatever happens. -/
theorem durable_prefix_step {a : Action} (ht : step g s a = some s') :
    s.durable <+: s'.durable := by
  obtain ⟨-, rfl⟩ | ⟨-, hup⟩ | ⟨pc, -, -, rfl⟩ := step_cases ht
  · exact List.prefix_rfl
  · obtain ⟨o, -, hu⟩ | ⟨o, b, data, -, hu⟩ | ⟨o, -, hu⟩ | ⟨o, -, hu⟩ | ⟨-, hu⟩ := hup
    · rw [beginOp] at hu
      split at hu <;> cases hu
      exact List.prefix_rfl
    · rw [logWriteCheck] at hu
      split_ifs at hu <;> cases hu <;> exact List.prefix_rfl
    · rw [logWriteInsert] at hu
      split at hu <;> cases hu
      exact List.prefix_rfl
    · rw [endOp] at hu
      dsimp only at hu
      split_ifs at hu <;> cases hu <;> exact List.prefix_rfl
    · rw [commitStep] at hu
      repeat' split at hu
      all_goals cases hu
      all_goals first | exact List.prefix_append _ _ | exact List.prefix_rfl
  · cases pc with
    | readHead => exact List.prefix_rfl
    | install tail =>
      rw [recoverStep]
      split <;> exact List.prefix_rfl

theorem durable_prefix_run {as : List Action} (hr : run (Log.step g) s as = some s') :
    s.durable <+: s'.durable :=
  run_invariant (I := fun t => s.durable <+: t.durable)
    (fun _ _ _ h ht => h.trans (durable_prefix_step ht)) List.prefix_rfl hr

/-- The steps of a recovery that is not interrupted compute `recoverFromLog`: from entry
`tail` on they copy what is left and clear the header. -/
theorem recover_run_install (tail : Nat) (hs : s.status = .recovering (.install tail))
    (hc : s.cache = s.disk) :
    ∃ t, run (step g) s (List.replicate (s.lh.length - tail + 1) .recoverStep) = some t ∧
      t.status = .up ∧
      t.disk = update (installTrans g tail (s.lh.drop tail) s.disk) g.start
        (encodeHead (installTrans g tail (s.lh.drop tail) s.disk g.start) []) := by
  -- induction on the entries that are left
  generalize hn : s.lh.length - tail = n
  induction n generalizing s tail with
  | zero =>
    have hnone : s.lh[tail]? = none := List.getElem?_eq_none (by omega)
    have hdrop : s.lh.drop tail = [] := List.drop_eq_nil_of_le (by omega)
    refine ⟨recoverStep g s (.install tail), ?_, ?_, ?_⟩
    · simp [run, Log.step, hs]
    · simp [recoverStep, hnone]
    · simp [recoverStep, hnone, hdrop, installTrans, LogState.writeHead, LogState.bwrite, hc]
  | succ n ih =>
    have ht : tail < s.lh.length := by omega
    have hsome : s.lh[tail]? = some s.lh[tail] := List.getElem?_eq_getElem ht
    have hstep : recoverStep g s (.install tail) =
        { s.bwrite s.lh[tail] (s.cache (g.start + tail + 1)) with
          status := .recovering (.install (tail + 1)) } := by
      simp [recoverStep, hsome]
    obtain ⟨t, hrun, hup, hdisk⟩ := ih (s := recoverStep g s (.install tail)) (tail + 1)
      (by rw [hstep]) (by simp [hstep, LogState.bwrite, hc])
      (by simp only [hstep, LogState.bwrite]; omega)
    refine ⟨t, ?_, hup, ?_⟩
    · rw [List.replicate_succ, run_cons]
      simpa [Log.step, hs] using hrun
    · rw [hdisk, hstep, List.drop_eq_getElem_cons ht]
      simp [installTrans, LogState.bwrite, hc]

/-- A restarted machine that is left alone recovers its disk and comes up. -/
theorem recover_run (s : LogState) :
    ∃ t, run (step g) (crash s)
        (List.replicate ((decodeHead (s.disk g.start)).length + 2) .recoverStep) = some t ∧
      t.status = .up ∧ t.disk = recoverFromLog g s.disk := by
  have hlh : (recoverStep g (crash s) .readHead).lh = decodeHead (s.disk g.start) := by
    simp [recoverStep, crash]
  obtain ⟨t, hrun, hup, hdisk⟩ := recover_run_install (g := g)
    (s := recoverStep g (crash s) .readHead) 0 (by simp [recoverStep])
    (by simp [recoverStep, crash])
  refine ⟨t, ?_, hup, ?_⟩
  · rw [List.replicate_succ, run_cons]
    rw [hlh, Nat.sub_zero] at hrun
    simpa [Log.step, crash] using hrun
  · rw [hdisk, hlh, List.drop_zero]
    rfl

/-- **Crash atomicity.** The machine can crash at any point: the recovery that follows comes to
an end and yields exactly the transactions whose header was written, whole, and whatever is
committed at one point of the run is still there later. The log area is at least as large as
`mkfs` makes it. -/
theorem crash_atomic (g : Geom) (base : Disk) (hsize : logSize ≤ g.size)
    (hclean : decodeHead (base g.start) = []) (as bs : List Action) (s s' : LogState)
    (has : run (step g) (boot base) as = some s) (hbs : run (step g) s bs = some s') :
    CrashAtomic g base s' ∧ s.durable <+: s'.durable ∧
      ∃ n t, run (step g) (crash s') (List.replicate n .recoverStep) = some t ∧
        t.status = .up ∧ t.disk = recoverFromLog g s'.disk := by
  have hr : run (Log.step g) (Log.boot base) (as ++ bs) = some s' := by
    rw [run_append, has]
    exact hbs
  have hinv : Inv g base s' :=
    run_invariant (fun t a t' h ht => h.step a ht) (Inv.boot hsize hclean) hr
  exact ⟨⟨fun b hb => hinv.recoverable.recover hb, hinv.books.history.all_or_none⟩,
    durable_prefix_run hbs, _, recover_run s'⟩

def mkfsGeom : Geom where
  start := 2
  size := logSize

def zeroDisk : Disk := fun _ _ => 0

def onesBlock : Block := fun _ => 1

/-- One operation that writes a block and commits, on a freshly made disk. -/
def oneOpRun : List Action :=
  [.recoverStep, .recoverStep, .beginOp 1, .logWriteCheck 1 100 onesBlock, .logWriteInsert 1,
    .endOp 1, .commitStep, .commitStep, .crash, .recoverStep]

/-- The crash comes after the header was written: recovery installs the block. -/
theorem crash_atomic_oneOp :
    ((run (step mkfsGeom) (boot zeroDisk) oneOpRun).map fun s =>
      (s.durable.length, recoverFromLog mkfsGeom s.disk 100 0)) = some (1, 1) ∧
    ∀ s, run (step mkfsGeom) (boot zeroDisk) oneOpRun = some s →
      CrashAtomic mkfsGeom zeroDisk s := by
  refine ⟨by decide +kernel, fun s hr => ?_⟩
  exact (crash_atomic mkfsGeom zeroDisk (by decide) (by decide) oneOpRun [] s s hr rfl).1

/-- **A commit runs alone.** In every run `outstanding` is the number of operations that are
active, and while the log commits there is none, and no buffer is locked. -/
theorem commit_alone (g : Geom) (base : Disk) (as : List Action) (s : LogState)
    (hr : run (step g) (boot base) as = some s) :
    (∃ R : Finset Nat, (∀ o, o ∈ R ↔ (s.op o).Active) ∧ R.card = s.outstanding) ∧
      (s.committing = true → (∀ o, ¬ (s.op o).Active) ∧ ∀ b, s.locked b = false) := by
  have h : Books g s := run_invariant (fun t a t' h ht => h.step ht) (Books.boot g base) hr
  refine ⟨h.ops.count, fun hc => ?_⟩
  have h0 := h.ops_zero (by simpa [h.committing, Option.isSome_iff_ne_none] using hc)
  exact ⟨h0.not_active, h0.not_locked⟩

theorem commit_alone_oneOp : ∃ s, run (step mkfsGeom) (boot zeroDisk) (oneOpRun.take 6) =
    some s ∧ s.committing = true ∧ ∀ o, ¬ (s.op o).Active := by
  have h : ((run (step mkfsGeom) (boot zeroDisk) (oneOpRun.take 6)).map (·.committing)) =
      some true := rfl
  obtain ⟨s, hs, hc⟩ := Option.map_eq_some_iff.mp h
  exact ⟨s, hs, hc, ((commit_alone _ _ _ s hs).2 hc).1⟩

def writes (o b n : Nat) : List Action :=
  (List.range n).flatMap fun i => [.logWriteCheck o (b + i) onesBlock, .logWriteInsert o]

end Xv6.Log
