import Xv6.Sched.Children

/-!
# No lost wakeup in `wait`

A process that sleeps in `wait` has no zombie child: between its search of the table and its marking
the lock is not given back, and after that a child becomes a zombie, or `initproc` gets a zombie
child, only in `exit`, which wakes the parent.
-/

namespace Xv6.Sched

open Transition
open Function (update update_self update_of_ne)

variable {s t : State} {a : Action} {c p q r i np : Nat} {k : Pc} {F : Family Int32}
  {sz pgdir kstack cwd ticks : Nat}

def State.Dozes (s : State) (p : Nat) : Prop :=
  (s.proc p).state = .sleeping ∧ (s.pc p).core = .waitTidy

def Pc.exiting : Pc → Bool
  | .exitPass | .exitMark => true
  | _ => false

def Pc.scanned : Pc → Option Nat
  | .waitScan i _ => some i
  | .waitMark => some nproc
  | _ => none

/-- A process comes here only from the points of `exit` and `wait` under the lock. -/
def Pc.late : Pc → Bool
  | .exitPass | .exitMark | .waitScan (_ + 1) _ | .waitMark => true
  | _ => false

/-- Who sleeps in `wait`, and who searches the table for it. -/
structure Watch (s : State) : Prop where
  /-- `exit` and `wait` are not interrupted under the lock -/
  within : ∀ p, (s.pc p).core.late → (s.pc p).core = s.pc p
  chan : ∀ p, s.Dozes p → (s.proc p).chan = some (.proc p)
  zombie : ∀ p, s.Dozes p → ∀ q, (s.proc q).parent = some p → (s.proc q).state ≠ .zombie
  /-- a process whose child exits has been woken -/
  exits : ∀ c q, (s.cpu c).stack = some q → (s.pc q).exiting →
    ∀ p, (s.proc q).parent = some p → ¬ s.Dozes p
  scan : ∀ c p n, (s.cpu c).stack = some p → (s.pc p).scanned = some n →
    ∀ q, q < n → (s.proc q).parent = some p → (s.proc q).state ≠ .zombie

theorem Pc.late_of_exiting (h : k.exiting) : k.core.late := by
  cases k <;> simp_all [exiting, late, core]

variable {n : Nat}

theorem Pc.late_of_scanned (h : k.scanned = some (n + 1)) : k.core.late := by
  cases k <;> simp_all [scanned, late, core]

theorem Pc.holdsLock_of_late (h : k.late) : k.holdsLock := by
  cases k <;> simp_all [late, holdsLock]

theorem Pc.holdsLock_of_exiting (h : k.exiting) : k.holdsLock := by
  cases k <;> simp_all [exiting, holdsLock]

theorem Pc.holdsLock_of_scanned (h : k.scanned = some n) : k.holdsLock := by
  cases k <;> simp_all [scanned, holdsLock]

theorem Watch.keep (h : Watch s) (hwithin : ∀ q, (t.pc q).core.late → (t.pc q).core = t.pc q)
    (hdoze : ∀ q, t.Dozes q → s.Dozes q ∧ (t.proc q).chan = (s.proc q).chan)
    (hzombie : ∀ q, (t.proc q).state = .zombie → (s.proc q).state = .zombie)
    (hparent : ∀ q p, (t.proc q).parent = some p → (s.proc q).parent = some p ∨
      (t.proc q).state ≠ .zombie ∧ ¬ t.Dozes p)
    (hexits : ∀ c q, (t.cpu c).stack = some q → (t.pc q).exiting →
      (s.cpu c).stack = some q ∧ (s.pc q).exiting ∨
        ∀ p, (t.proc q).parent = some p → ¬ t.Dozes p)
    (hscan : ∀ c p n, (t.cpu c).stack = some p → (t.pc p).scanned = some n →
      (s.cpu c).stack = some p ∧ (s.pc p).scanned = some n ∨
        ∀ q, q < n → (t.proc q).parent = some p → (t.proc q).state ≠ .zombie) : Watch t where
  within := hwithin
  chan p hp := by
    obtain ⟨hp', hchan⟩ := hdoze p hp
    rw [hchan, h.chan p hp']
  zombie p hp q hq hz := by
    rcases hparent q p hq with e | ⟨hne, -⟩
    · exact h.zombie p (hdoze p hp).1 q e (hzombie q hz)
    · exact hne hz
  exits c q hq he p hp hd := by
    rcases hexits c q hq he with ⟨hq', he'⟩ | hno
    · rcases hparent q p hp with e | ⟨-, hne⟩
      · exact h.exits c q hq' he' p e (hdoze p hd).1
      · exact hne hd
    · exact hno p hp hd
  scan c p n hp hn q hq hqp hz := by
    rcases hscan c p n hp hn with ⟨hp', hn'⟩ | hno
    · rcases hparent q p hqp with e | ⟨hne, -⟩
      · exact h.scan c p n hp' hn' q hq e (hzombie q hz)
      · exact hne hz
    · exact hno q hq hqp hz

theorem Watch.within_move (h : Watch s) (hm : Moves s t p k) (hin : k.core.late → k.core = k) :
    ∀ q, (t.pc q).core.late → (t.pc q).core = t.pc q :=
  hm.all (P := fun _ k => k.core.late → k.core = k) hin fun q _ => h.within q

/-- A step of process `p` that goes on at `k`, awake or not in `wait`. It can wake others, and it
can become the parent of a process that is no zombie. -/
theorem Watch.goto (h : Watch s) (hm : Moves s t p k)
    (hin : k.core.late → k.core = k) (hself : (t.proc p).state ≠ .sleeping ∨ k.core ≠ .waitTidy)
    (hsleep : ∀ q, q ≠ p → (t.proc q).state = .sleeping →
      (s.proc q).state = .sleeping ∧ (t.proc q).chan = (s.proc q).chan)
    (hzombie : ∀ q, (t.proc q).state = .zombie → (s.proc q).state = .zombie)
    (hparent : ∀ q p', (t.proc q).parent = some p' → (s.proc q).parent = some p' ∨
      (t.proc q).state ≠ .zombie ∧ p' = p)
    (hexits : k.exiting → ∀ p', (t.proc p).parent = some p' → ¬ t.Dozes p')
    (hscan : ∀ n, k.scanned = some n → ∀ q, q < n → (t.proc q).parent = some p →
      (t.proc q).state ≠ .zombie) : Watch t := by
  have hawake : ¬ t.Dozes p := by
    rintro ⟨hst, hcore⟩
    rw [hm.self] at hcore
    exact hself.elim (· hst) (· hcore)
  refine h.keep (h.within_move hm hin) (fun q hq => ?_) hzombie (fun q p' hq => ?_)
    (fun c q hq he => ?_) fun c q n hq hn => ?_
  · have hqp : q ≠ p := by
      rintro rfl
      exact hawake hq
    obtain ⟨hst, hchan⟩ := hsleep q hqp hq.1
    exact ⟨⟨hst, by rw [← hm.other hqp]; exact hq.2⟩, hchan⟩
  · refine (hparent q p' hq).imp_right fun ⟨hz, hp'⟩ => ⟨hz, ?_⟩
    rw [hp']
    exact hawake
  · rw [hm.cpu] at hq
    by_cases hqp : q = p
    · subst hqp
      rw [hm.self] at he
      exact Or.inr (hexits he)
    · rw [hm.other hqp] at he
      exact Or.inl ⟨hq, he⟩
  · rw [hm.cpu] at hq
    by_cases hqp : q = p
    · subst hqp
      rw [hm.self] at hn
      exact Or.inr (hscan n hn)
    · rw [hm.other hqp] at hn
      exact Or.inl ⟨hq, hn⟩

/-- A step that moves processes between the table and the cpus. Whoever comes to a cpu is in the
middle of neither `exit` nor `wait`. -/
theorem Watch.admin (h : Watch s) (ha : Admin s t) : Watch t := by
  have hcame : ∀ d q, (t.cpu d).stack = some q → (t.pc q).exiting ∨ (t.pc q).scanned ≠ none →
      (s.cpu d).stack = some q ∧ t.pc q = s.pc q := by
    intro d q hq hk
    refine (ha.came d q hq).resolve_right fun hr => ?_
    cases hpc : t.pc q <;> simp_all [Pc.resumes, Pc.exiting, Pc.scanned]
  refine h.keep (fun q hl => ?_) (fun q hq => ?_) (fun q => (ha.kin q).zombie.mp)
    (fun q p' hq => Or.inl ?_) (fun d q hq he => Or.inl ?_) fun d q n hq hn => Or.inl ?_
  · rw [ha.core] at hl ⊢
    have hw := h.within q hl
    rw [ha.bare q hw, hw]
  · obtain ⟨hst, hchan⟩ := ha.sleeping q hq.1
    exact ⟨⟨hst, by rw [← ha.core]; exact hq.2⟩, hchan⟩
  · rwa [← (ha.kin q).parent]
  · obtain ⟨hq', e⟩ := hcame d q hq (Or.inl he)
    exact ⟨hq', e ▸ he⟩
  · obtain ⟨hq', e⟩ := hcame d q hq (Or.inr (by simp [hn]))
    exact ⟨hq', e ▸ hn⟩

/-- What a step does to a slot that shows in nobody's `wait`. -/
structure Calm (x y : Proc) : Prop where
  sleeping : y.state = .sleeping → x.state = .sleeping ∧ y.chan = x.chan
  zombie : y.state = .zombie → x.state = .zombie
  parent : y.parent = x.parent

theorem Calm.refl (x : Proc) : Calm x x := ⟨fun h => ⟨h, rfl⟩, id, rfl⟩

variable {x : Proc}

theorem Calm.of_live {y : Proc} (hy : y.state ≠ .sleeping ∧ y.state ≠ .zombie)
    (hparent : y.parent = x.parent) : Calm x y :=
  ⟨fun e => absurd e hy.1, fun e => absurd e hy.2, hparent⟩

theorem Calm.set (h : Calm (s.proc i) x) (q : Nat) : Calm (s.proc q) (update s.proc i x q) := by
  by_cases hqi : q = i
  · subst hqi
    rwa [update_self]
  · rw [update_of_ne hqi]
    exact .refl _

theorem Calm.of_woken {y : Proc}
    (h : y.state = x.state ∨ x.state = .sleeping ∧ y.state = .runnable) (hchan : y.chan = x.chan)
    (hparent : y.parent = x.parent) : Calm x y := by
  refine ⟨fun hy => ⟨?_, hchan⟩, fun hy => ?_, hparent⟩ <;> rcases h with e | ⟨-, e⟩
  · rw [← e, hy]
  · simp [e] at hy
  · rw [← e, hy]
  · simp [e] at hy

theorem Calm.wakeup1 (chan : Option Chan) (proc : Nat → Proc) (q : Nat) :
    Calm (proc q) (Sched.wakeup1 chan proc q) := by
  refine .of_woken (wakeup1_state chan proc q) ?_ ?_ <;> rw [wakeup1_eq]

theorem Calm.kill (pid : Int32) (proc : Nat → Proc) (q : Nat) :
    Calm (proc q) ((Sched.kill pid proc).2 q) := by
  refine .of_woken (kill_state pid proc q) ?_ (kill_kin pid proc q).parent
  rcases kill_cases pid proc with ⟨i, -, -, -, hk⟩ | ⟨-, hk⟩
  · rw [hk]
    by_cases hqi : q = i
    · subst hqi
      simp only [update_self]
      rfl
    · simp only [update_of_ne hqi]
  · rw [hk]

theorem Watch.quiet (h : Watch s) (hrun : (s.proc p).state = .running) (hm : Moves s t p k)
    (hcalm : ∀ q, Calm (s.proc q) (t.proc q))
    (hk : k.core.late = false) : Watch t := by
  have hself : (t.proc p).state ≠ .sleeping := fun e => by
    simpa [hrun] using (hcalm p).sleeping e
  refine h.goto hm (fun hl => ?_) (Or.inl hself) (fun q _ => (hcalm q).sleeping)
    (fun q => (hcalm q).zombie) (fun q p' hq => Or.inl ?_) (fun he => ?_) fun n hn q hq => ?_
  · rw [hk] at hl
    cases hl
  · rwa [← (hcalm q).parent]
  · rw [Pc.late_of_exiting he] at hk
    cases hk
  · cases n with
    | zero => cases hq
    | succ n =>
      rw [Pc.late_of_scanned hn] at hk
      cases hk

theorem Placed.only (h : Placed s) (hp : (s.cpu c).stack = some p) (hl : (s.pc p).holdsLock)
    {d : Nat} (hq : (s.cpu d).stack = some q) (hlq : (s.pc q).holdsLock) : q = p := by
  obtain rfl := h.holds_unique ((holds_of_stack hq).mpr hlq) ((holds_of_stack hp).mpr hl)
  rw [hp, Option.some.injEq] at hq
  exact hq.symm

variable (h : Watch s)

include h

theorem Watch.exitWake (hrun : (s.proc p).state = .running) (hm : Moves s t p .exitPass)
    (hproc : t.proc = Sched.wakeup1 ((s.proc p).parent.map .proc) s.proc) : Watch t := by
  have hcalm : ∀ q, Calm (s.proc q) (t.proc q) := fun q => by
    rw [hproc]
    exact .wakeup1 _ _ q
  refine h.goto hm (fun _ => rfl) (Or.inr (by simp [Pc.core])) (fun q _ => (hcalm q).sleeping)
    (fun q => (hcalm q).zombie) (fun q p' hq => Or.inl ?_) (fun _ p' hp' hd => ?_) nofun
  · rwa [← (hcalm q).parent]
  · rw [(hcalm p).parent] at hp'
    have hsl := (hcalm p').sleeping hd.1
    have hne : p' ≠ p := by
      rintro rfl
      simp [hrun] at hsl
    have hcore := hd.2
    rw [hm.other hne] at hcore
    -- the parent sleeps on its own slot, so it has been woken
    have hchan := h.chan p' ⟨hsl.1, hcore⟩
    have hst := hd.1
    rw [hproc, wakeup1_eq, hp'] at hst
    simp [wokenState, hsl.1, hchan] at hst

/-- A step of the holder of the lock, during which nobody else exits or searches the table. -/
theorem Watch.of_lock (hs : Placed s) (hp : (s.cpu c).stack = some p) (hl : (s.pc p).holdsLock)
    (hm : Moves s t p k) (hin : k.core.late → k.core = k) (hk : k.scanned = none)
    (hchan : ∀ q, t.Dozes q → (t.proc q).chan = some (.proc q))
    (hzombie : ∀ p', t.Dozes p' → ∀ q, (t.proc q).parent = some p' → (t.proc q).state ≠ .zombie)
    (hexits : k.exiting → ∀ p', (t.proc p).parent = some p' → ¬ t.Dozes p') : Watch t := by
  refine ⟨h.within_move hm hin, hchan, hzombie, fun d q hq he => ?_, fun d q n hq hn => ?_⟩
  · rw [hm.cpu] at hq
    by_cases hqp : q = p
    · subst hqp
      rw [hm.self] at he
      exact hexits he
    · rw [hm.other hqp] at he
      exact absurd (hs.only hp hl hq (Pc.holdsLock_of_exiting he)) hqp
  · rw [hm.cpu] at hq
    by_cases hqp : q = p
    · rw [hqp, hm.self, hk] at hn
      cases hn
    · rw [hm.other hqp] at hn
      exact absurd (hs.only hp hl hq (Pc.holdsLock_of_scanned hn)) hqp

theorem Watch.exitPass (hs : Placed s) (hF : Relates s F) (htree : F.Tree 0)
    (hp : (s.cpu c).stack = some p) (hpc : s.pc p = .exitPass) (hm : Moves s t p .exitMark)
    (hproc : t.proc = passChildren p s.initproc s.proc) : Watch t := by
  rw [passChildren_eq] at hproc
  have hchan : ∀ q, (t.proc q).chan = (s.proc q).chan := fun q => by
    rw [hproc]
    rfl
  have hzombie : ∀ q, (t.proc q).state = .zombie ↔ (s.proc q).state = .zombie := fun q => by
    rw [hproc]
    exact passed_state_zombie
  have hdoze : ∀ q, t.Dozes q → s.Dozes q := by
    intro q hq
    have hqp : q ≠ p := by
      rintro rfl
      have hcore := hq.2
      rw [hm.self] at hcore
      cases hcore
    refine ⟨?_, by rw [← hm.other hqp]; exact hq.2⟩
    have hst := hq.1
    rw [hproc] at hst
    rcases passed_state_cases s.proc p s.initproc nproc q with e | ⟨e, -, -⟩
    · exact e.symm.trans hst
    · exact e
  have hparent : ∀ q p', (t.proc q).parent = some p' → (s.proc q).parent = some p' ∨
      p' = s.initproc ∧ q < nproc ∧ (s.proc q).parent = some p := by
    intro q p' hq
    rw [hproc, passed] at hq
    simp only at hq
    split at hq
    · next hc => exact Or.inr ⟨(Option.some.inj hq).symm, hc⟩
    · exact Or.inl hq
  refine h.of_lock hs hp (by rw [hpc]; rfl) hm (fun _ => rfl) rfl (fun q hq => ?_)
    (fun p' hp' q hq hz => ?_) fun _ p' hp' hd => ?_
  · rw [hchan, h.chan q (hdoze q hq)]
  · rcases hparent q p' hq with e | ⟨rfl, hlt, e⟩
    · exact h.zombie p' (hdoze p' hp') q e ((hzombie q).mp hz)
    · -- a zombie was passed on, so `initproc` has been woken
      have hzc : zombieChild s.proc p nproc := ⟨q, hlt, e, (hzombie q).mp hz⟩
      have hold := hdoze _ hp'
      have hst := hp'.1
      rw [hproc, passed] at hst
      simp only [if_pos hzc, wokenState, hold.1, h.chan _ hold] at hst
      simp at hst
  · rcases hparent p p' hp' with e | ⟨-, -, e⟩
    · exact h.exits c p hp (by rw [hpc]; rfl) p' e (hdoze p' hd)
    · -- nobody is their own parent
      refine htree.parent_ne p ⟨(s.proc p).pid, (s.proc p).parent, .alive⟩ ?_ e
      exact hF.alive hs hp (by rw [hpc]; rfl)

theorem Watch.mark (hs : Placed s) (hp : (s.cpu c).stack = some p) (hl : (s.pc p).holdsLock)
    (hm : Moves s t p (.sched k)) (hlate : k.core.late = false)
    (hproc : t.proc = update s.proc p x) (hxpar : x.parent = (s.proc p).parent)
    (hz : x.state = .zombie → ∀ p', (s.proc p).parent = some p' → ¬ s.Dozes p')
    (hd : x.state = .sleeping → k.core = .waitTidy → x.chan = some (.proc p) ∧
      ∀ q, (s.proc q).parent = some p → (s.proc q).state ≠ .zombie) : Watch t := by
  have hself : t.proc p = x := by rw [hproc, update_self]
  have hother : ∀ q, q ≠ p → t.proc q = s.proc q := fun q hq => by rw [hproc, update_of_ne hq]
  have hdoze : ∀ q, q ≠ p → t.Dozes q → s.Dozes q := by
    intro q hqp hq
    rwa [State.Dozes, hother q hqp, hm.other hqp] at hq
  have hdself : t.Dozes p → x.state = .sleeping ∧ k.core = .waitTidy := by
    rw [State.Dozes, hself, hm.self]
    exact id
  refine h.of_lock hs hp hl hm (fun e => ?_) rfl (fun q hq => ?_) (fun p' hp' q hq hzq => ?_) nofun
  · rw [Pc.core, hlate] at e
    cases e
  · by_cases hqp : q = p
    · subst hqp
      rw [hself]
      exact (hd (hdself hq).1 (hdself hq).2).1
    · rw [hother q hqp, h.chan q (hdoze q hqp hq)]
  · by_cases hqp : q = p
    · subst hqp
      rw [hself] at hzq hq
      have hne : p' ≠ q := by
        rintro rfl
        cases (hdself hp').1.symm.trans hzq
      exact hz hzq p' (hxpar ▸ hq) (hdoze p' hne hp')
    · rw [hother q hqp] at hzq hq
      by_cases hpp : p' = p
      · subst hpp
        exact (hd (hdself hp').1 (hdself hp').2).2 q hq hzq
      · exact h.zombie p' (hdoze p' hpp hp') q hq hzq

theorem Watch.scanNext (hp : (s.cpu c).stack = some p) (hn : (s.pc p).scanned = some n)
    (hmv : Moves s t p k) (hproc : t.proc = s.proc) (hrun : (s.proc p).state = .running) (hk : k.core = k)
    {m : Nat} (hm : k.scanned = some m)
    (hnext : ∀ q, n ≤ q → q < m → (s.proc q).parent = some p → (s.proc q).state ≠ .zombie) :
    Watch t := by
  refine h.goto hmv (fun _ => hk) (Or.inl ?_) (fun q _ hq => ?_) (fun q hq => ?_)
    (fun q p' hq => ?_) (fun he => ?_) fun m' hm' q hq => ?_
  · simp [hproc, hrun]
  · rw [hproc] at hq ⊢
    exact ⟨hq, rfl⟩
  · rwa [hproc] at hq
  · rw [hproc] at hq
    exact Or.inl hq
  · cases k <;> simp_all [Pc.exiting, Pc.scanned]
  · rw [hm, Option.some.injEq] at hm'
    subst hm'
    rw [hproc]
    by_cases hqn : q < n
    · exact h.scan c p n hp hn q hqn
    · exact hnext q (by omega) hq

/-- A process that takes the lock, gives it back or switches is not in the middle of `exit` or
`wait`. -/
theorem Watch.not_late (hpc : (s.pc p).core ≠ s.pc p) : (s.pc p).core.late = false := by
  by_contra hl
  exact hpc (h.within p (by simpa using hl))

theorem Watch.frame (hs : Placed s) (hnp : (s.proc np).state = .embryo) :
    Watch (s.goto np (.switched (.release .user))) := by
  have hstack : ∀ c q, (s.cpu c).stack = some q →
      (s.goto np (.switched (.release .user))).pc q = s.pc q := by
    intro c q hq
    refine update_of_ne ?_ _ _
    rintro rfl
    exact (hs.made hq).2 hnp
  refine h.keep (h.within_move ⟨rfl, rfl, rfl⟩ nofun) (fun q hq => ⟨⟨hq.1, ?_⟩, rfl⟩) (fun q => id)
    (fun q p' hq => Or.inl hq) (fun c q hq he => Or.inl ⟨hq, ?_⟩)
    fun c q n hq hn => Or.inl ⟨hq, ?_⟩
  · have hqn : q ≠ np := by
      rintro rfl
      have hst : (s.proc q).state = .sleeping := hq.1
      simp [hnp] at hst
    have hcore : (update s.pc np (.switched (.release .user)) q).core = _ := hq.2
    rwa [update_of_ne hqn] at hcore
  · rwa [← hstack c q hq]
  · rwa [← hstack c q hq]

theorem Watch.kin (hrun : (s.proc p).state = .running) (hm : Moves s t p k)
    (hproc : t.proc = update s.proc i x) (hi : i ≠ p)
    (hx : x.state ≠ .sleeping ∧ x.state ≠ .zombie) (hxpar : x.parent = none ∨ x.parent = some p)
    (hk : k.core.late = false) (hne : k.exiting = false ∧ k.scanned = none) : Watch t := by
  have hself : t.proc i = x := by rw [hproc, update_self]
  have hother : ∀ q, q ≠ i → t.proc q = s.proc q :=
    fun q hq => by rw [hproc, update_of_ne hq]
  refine h.goto hm (fun e => by simp [hk] at e) (Or.inl ?_) (fun q _ hq => ?_)
    (fun q hq => ?_) (fun q p' hq => ?_) (fun e => by simp [hne.1] at e)
    fun n e => by simp [hne.2] at e
  · simp [hother p hi.symm, hrun]
  · by_cases hqi : q = i
    · rw [hqi, hself] at hq
      exact absurd hq hx.1
    · rw [hother q hqi] at hq ⊢
      exact ⟨hq, rfl⟩
  · by_cases hqi : q = i
    · rw [hqi, hself] at hq
      exact absurd hq hx.2
    · rwa [hother q hqi] at hq
  · by_cases hqi : q = i
    · subst hqi
      rw [hself] at hq ⊢
      rcases hxpar with e | e <;> rw [e] at hq <;> cases hq
      exact Or.inr ⟨hx.2, rfl⟩
    · rw [hother q hqi] at hq
      exact Or.inl hq

theorem procStep_watch (hs : Placed s) (hF : Relates s F) (htree : F.Tree 0)
    (hp : (s.cpu c).stack = some p) (ht : procStep s c p r = some t) : Watch t := by
  have hst := hs.state c p hp
  have hlate := h.not_late (p := p)
  have hrefl : ∀ q, Calm (s.proc q) (s.proc q) := fun q => .refl _
  cases hpc : s.pc p <;> simp only [procStep, hpc, reduceCtorEq] at ht <;> rw [hpc] at hst hlate
  case sched k =>
    cases ht
    exact h.admin (sched_admin hs hp hpc)
  -- every other step finds the process running
  all_goals have hrun : (s.proc p).state = .running := hst
  case acquire k =>
    split at ht <;> cases ht
    exact h.quiet hrun ⟨rfl, rfl, rfl⟩ hrefl (hlate (Pc.core_ne k k).1)
  all_goals cases ht
  case release k =>
    exact h.quiet hrun ⟨rfl, rfl, rfl⟩ hrefl (hlate (Pc.core_ne k k).2.1)
  case allocScan i =>
    rw [allocScan]
    split_ifs with hi hs'
    · exact h.quiet hrun ⟨rfl, rfl, rfl⟩ (Calm.set (.of_live (by simp) rfl)) rfl
    · exact h.quiet hrun ⟨rfl, rfl, rfl⟩ (Calm.set ⟨fun e => ⟨e, rfl⟩, id, rfl⟩) rfl
    · exact h.quiet hrun ⟨rfl, rfl, rfl⟩ hrefl rfl
  case allocStack np =>
    rw [allocStack]
    split_ifs with hr
    · exact h.quiet hrun ⟨rfl, rfl, rfl⟩ (Calm.set (.of_live (by simp) rfl)) rfl
    · have hnp : (s.pc p).child = some np := by rw [hpc]; rfl
      exact (h.frame hs (hs.child p np hnp)).quiet (p := p) hrun ⟨rfl, rfl, rfl⟩
        (Calm.set ⟨fun e => ⟨e, rfl⟩, id, rfl⟩) rfl
  case forkCopy np =>
    rw [forkCopy]
    split_ifs with hr
    · exact h.quiet hrun ⟨rfl, rfl, rfl⟩ (Calm.set (.of_live (by simp) rfl)) rfl
    · exact h.quiet hrun ⟨rfl, rfl, rfl⟩ (Calm.set ⟨fun e => ⟨e, rfl⟩, id, rfl⟩) rfl
  case forkFill np =>
    have hnp : (s.pc p).child = some np := by rw [hpc]; rfl
    have hemb := hs.child p np hnp
    exact h.kin hrun ⟨rfl, rfl, rfl⟩ rfl (hs.ne_child hp hnp).symm (by simp [hemb]) (Or.inr rfl)
      rfl ⟨rfl, rfl⟩
  case forkPublish np =>
    exact h.quiet hrun ⟨rfl, rfl, rfl⟩ (Calm.set (.of_live (by simp) rfl)) rfl
  case exitWake =>
    exact h.exitWake hrun ⟨rfl, rfl, rfl⟩ rfl
  case exitPass =>
    exact h.exitPass hs hF htree hp hpc ⟨rfl, rfl, rfl⟩ rfl
  case exitMark =>
    exact h.mark hs hp (by rw [hpc]; rfl) ⟨rfl, rfl, rfl⟩ rfl rfl rfl
      (fun _ => h.exits c p hp (by rw [hpc]; rfl)) (by simp)
  case waitScan i havekids =>
    have hn : (s.pc p).scanned = some i := by rw [hpc]; rfl
    rw [waitScan]
    split_ifs with hi hpar hz
    · refine h.scanNext hp hn ⟨rfl, rfl, rfl⟩ rfl hrun rfl rfl fun q hq hq' hqp => ?_
      obtain rfl : q = i := by omega
      exact absurd hqp hpar
    · have hne : i ≠ p := by
        rintro rfl
        simp [hrun] at hz
      exact h.kin hrun ⟨rfl, rfl, rfl⟩ rfl hne (by simp [Proc.reap]) (Or.inl rfl) rfl ⟨rfl, rfl⟩
    · refine h.scanNext hp hn ⟨rfl, rfl, rfl⟩ rfl hrun rfl rfl fun q hq hq' _ => ?_
      obtain rfl : q = i := by omega
      exact hz
    · exact h.quiet hrun ⟨rfl, rfl, rfl⟩ hrefl rfl
    · exact h.scanNext hp hn ⟨rfl, rfl, rfl⟩ rfl hrun rfl rfl fun q hq hq' => by omega
  case waitMark =>
    refine h.mark hs hp (by rw [hpc]; rfl) ⟨rfl, rfl, rfl⟩ rfl rfl rfl (by simp)
      fun _ _ => ⟨rfl, fun q hq hz => ?_⟩
    -- the search has covered the whole table
    exact h.scan c p nproc hp (by rw [hpc]; rfl) q (hF.lt_nproc (by simp [hz])) hq hz
  case waitTidy | sleepTidy =>
    exact h.quiet hrun ⟨rfl, rfl, rfl⟩ (Calm.set ⟨fun e => by simp [hrun] at e, id, rfl⟩) rfl
  case yieldMark k =>
    exact h.quiet hrun ⟨rfl, rfl, rfl⟩ (Calm.set (.of_live (by simp) rfl)) (hlate (Pc.core_ne k k).2.2.2.1)
  case sleepMark chan =>
    exact h.mark hs hp (by rw [hpc]; rfl) ⟨rfl, rfl, rfl⟩ rfl rfl rfl (by simp) (by simp [Pc.core])
  case wakeup1 chan =>
    exact h.quiet hrun ⟨rfl, rfl, rfl⟩ (Calm.wakeup1 _ _) rfl
  case killScan pid =>
    exact h.quiet hrun ⟨rfl, rfl, rfl⟩ (Calm.kill _ _) rfl
  case niceScan pid priority i =>
    split_ifs <;> exact h.quiet hrun ⟨rfl, rfl, rfl⟩ hrefl rfl
  case niceWrite pid priority i =>
    exact h.quiet hrun ⟨rfl, rfl, rfl⟩ (Calm.set ⟨fun e => ⟨e, rfl⟩, id, rfl⟩) rfl

theorem enter_watch (hrun : (s.proc p).state = .running) {f : Call}
    (ht : enter s p f = some t) : Watch t := by
  have hrefl : ∀ q, Calm (s.proc q) (s.proc q) := fun q => .refl _
  cases f with
  | exit =>
    rw [enter] at ht
    split_ifs at ht
    cases ht
    exact h.quiet hrun ⟨rfl, rfl, rfl⟩ (Calm.set ⟨fun e => ⟨e, rfl⟩, id, rfl⟩) rfl
  | sleep chan =>
    cases chan <;> cases ht
    exact h.quiet hrun ⟨rfl, rfl, rfl⟩ hrefl rfl
  | fork | wait | wakeup chan | kill pid | nice pid priority =>
    cases ht
    exact h.quiet hrun ⟨rfl, rfl, rfl⟩ hrefl rfl

/-- **Every step keeps watch.** -/
theorem Watch.step (hs : Placed s) (hF : Relates s F) (htree : F.Tree 0)
    (ht : step s a = some t) : Watch t := by
  cases a with
  | sched c => exact h.admin (schedStep_admin hs ht)
  | proc c r =>
    obtain ⟨p, hp, ht⟩ := Option.bind_eq_some_iff.mp ht
    exact procStep_watch h hs hF htree hp ht
  | call c f =>
    obtain ⟨p, hp, ht⟩ := Option.bind_eq_some_iff.mp ht
    split_ifs at ht with hpc
    exact enter_watch h (by rw [hs.state c p hp, hpc]; rfl) ht
  | tick c =>
    obtain ⟨p, hp, ht⟩ := Option.bind_eq_some_iff.mp ht
    split_ifs at ht with hl
    cases ht
    have hrun : (s.proc p).state = .running := by
      rw [hs.state c p hp]
      by_contra hne
      exact hl (Pc.holdsLock_of_state hne)
    refine h.quiet hrun ⟨rfl, rfl, rfl⟩ (fun q => .refl _) ?_
    change (s.pc p).core.late = false
    by_contra hlate
    have hlate : (s.pc p).core.late := by simpa using hlate
    rw [h.within p hlate] at hlate
    exact hl (Pc.holdsLock_of_late hlate)
  | intr c chan =>
    rw [Sched.step] at ht
    split_ifs at ht
    cases ht
    exact h.admin (intr_admin _)

omit h

theorem boot_watch : Watch (boot sz pgdir kstack cwd ticks) := by
  have hcore : ∀ p, ((boot sz pgdir kstack cwd ticks).pc p).core ≠ .waitTidy ∧
      ((boot sz pgdir kstack cwd ticks).pc p).core.late = false := by
    intro p
    simp only [boot]
    split <;> simp [Pc.core, Pc.late]
  refine ⟨fun p hp => ?_, fun p hp => ?_, fun p hp => ?_, fun c q hq => ?_, fun c p n hp => ?_⟩
  · simp [(hcore p).2] at hp
  · exact absurd hp.2 (hcore p).1
  · exact absurd hp.2 (hcore p).1
  · cases hq
  · cases hp

theorem watch {as : List Action} (hr : run step (boot sz pgdir kstack cwd ticks) as = some s) :
    Watch s := by
  have hinv : (Placed s ∧ ∃ F, Relates s F ∧ F.Tree 0) ∧ Watch s := by
    refine run_invariant (I := fun s => (Placed s ∧ ∃ F, Relates s F ∧ F.Tree 0) ∧ Watch s)
      ?_ ?_ hr
    · rintro s a t ⟨⟨hs, F, hF, htree⟩, h⟩ ht
      refine ⟨⟨hs.step ht, ?_⟩, h.step hs hF htree ht⟩
      obtain ⟨G, hG, hstep, -⟩ := hF.step hs ht
      rcases hstep with rfl | hstep
      · exact ⟨G, hG, htree⟩
      · rw [hF.initproc] at hstep
        exact ⟨G, hG, htree.step hstep⟩
    · exact ⟨⟨boot_placed, bootFamily, boot_relates, bootFamily_inv.tree⟩, boot_watch⟩
  exact hinv.2

end Xv6.Sched
