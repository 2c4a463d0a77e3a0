import Xv6.Lib.Transition
import Mathlib.Logic.Function.Basic

/-!
# Interrupt nesting

`pushcli` and `popcli` of `spinlock.c`, the spin locks, and the switches of `sched` and `scheduler`,
on one CPU. A thread that switches away holds `ptable.lock` only, so the next one finds the `ncli`
that it left; `intena` it puts back itself.
-/

namespace Xv6.Spinlock

open Function (update update_self update_of_ne)

/-- The panics, and the loop of `acquire` for a lock that another CPU holds. -/
inductive Stop
  | mycpu
  | acquire
  | release
  | popcliInterruptible
  | popcli
  | schedPtableLock
  | schedLocks
  | schedInterruptible
  | spins
  deriving DecidableEq

/-- `struct spinlock`; `cpu` says whether `lk->cpu` is this CPU. -/
structure Lock where
  locked : Bool
  cpu : Bool

/-- This CPU, with `FL_IF` of `eflags`, and the locks. -/
structure Cpu (κ : Type) where
  interrupts : Bool
  ncli : Int
  intena : Bool
  lock : κ → Lock

variable {κ ι : Type} {c : Cpu κ} {lk ptable : κ}

/-- `pushcli` has called `cli` when it calls `mycpu`. -/
def pushcli (c : Cpu κ) : Cpu κ :=
  { c with
    interrupts := false
    intena := if c.ncli = 0 then c.interrupts else c.intena
    ncli := c.ncli + 1 }

def popcli (c : Cpu κ) : Except Stop (Cpu κ) :=
  if c.interrupts then .error .popcliInterruptible
  else
    let c := { c with ncli := c.ncli - 1 }
    if c.ncli < 0 then .error .popcli
    else if c.ncli = 0 ∧ c.intena then .ok { c with interrupts := true }
    else .ok c

def holding (lk : κ) (c : Cpu κ) : Except Stop (Bool × Cpu κ) :=
  let c := pushcli c
  let r := (c.lock lk).locked && (c.lock lk).cpu
  (popcli c).map fun c => (r, c)

def myproc (c : Cpu κ) : Except Stop (Cpu κ) := popcli (pushcli c)

/-- `sched` up to `swtch` -/
def sched (ptable : κ) (c : Cpu κ) : Except Stop (Cpu κ) := do
  let (r, c) ← holding ptable (← myproc c)
  if !r then .error .schedPtableLock
  else if c.interrupts then .error .mycpu
  else if c.ncli ≠ 1 then .error .schedLocks
  else if c.interrupts then .error .schedInterruptible
  else return c

/-- `sched` after `swtch`, with its local variable -/
def resume (intena : Bool) (c : Cpu κ) : Except Stop (Cpu κ) :=
  if c.interrupts then .error .mycpu else .ok { c with intena := intena }

theorem popcli_eq (hoff : c.interrupts = false) (hpos : 0 < c.ncli) : popcli c =
    .ok { c with ncli := c.ncli - 1, interrupts := decide (c.ncli = 1) && c.intena } := by
  have hnonneg : ¬ c.ncli - 1 < 0 := by omega
  have hzero : c.ncli - 1 = 0 ↔ c.ncli = 1 := by omega
  simp only [popcli, hoff, Bool.false_eq_true, if_false, if_neg hnonneg, hzero]
  split
  · next h => simp [h]
  · next h =>
    have hkeep : (decide (c.ncli = 1) && c.intena) = false := by simpa using h
    rw [hkeep]

theorem popcli_pushcli (hoff : c.interrupts = false) (hpos : 0 < c.ncli) :
    popcli (pushcli c) = .ok c := by
  have hne : c.ncli ≠ 0 := by omega
  have hone : c.ncli + 1 ≠ 1 := by omega
  rw [popcli_eq rfl (show 0 < c.ncli + 1 by omega)]
  cases c
  simp_all [pushcli]

theorem holding_eq (hoff : c.interrupts = false) (hpos : 0 < c.ncli) (lk : κ) :
    holding lk c = .ok ((c.lock lk).locked && (c.lock lk).cpu, c) := by
  rw [holding, popcli_pushcli hoff hpos]
  rfl

theorem sched_eq (hoff : c.interrupts = false) (hone : c.ncli = 1)
    (hptable : c.lock ptable = ⟨true, true⟩) : sched ptable c = .ok c := by
  have hpos : 0 < c.ncli := by omega
  rw [sched, myproc, popcli_pushcli hoff hpos]
  change (holding ptable c >>= _) = _
  rw [holding_eq hoff hpos, hptable]
  change (if c.interrupts then _ else if c.ncli ≠ 1 then _ else if c.interrupts then _ else _) = _
  rw [hoff, hone]
  rfl

variable [DecidableEq κ]

def acquire (lk : κ) (c : Cpu κ) : Except Stop (Cpu κ) := do
  let (r, c) ← holding lk (pushcli c)
  if r then .error .acquire
  else if (c.lock lk).locked then .error .spins
  else return { c with lock := update c.lock lk ⟨true, true⟩ }

def release (lk : κ) (c : Cpu κ) : Except Stop (Cpu κ) := do
  let (r, c) ← holding lk c
  if !r then .error .release
  else popcli { c with lock := update c.lock lk ⟨false, false⟩ }

theorem acquire_eq (hnonneg : 0 ≤ c.ncli) (lk : κ) : acquire lk c =
    if (c.lock lk).locked && (c.lock lk).cpu then .error .acquire
    else if (c.lock lk).locked then .error .spins
    else .ok { pushcli c with lock := update c.lock lk ⟨true, true⟩ } := by
  rw [acquire, holding_eq rfl (show 0 < c.ncli + 1 by omega)]
  rfl

theorem release_eq (hoff : c.interrupts = false) (hpos : 0 < c.ncli)
    (hlk : c.lock lk = ⟨true, true⟩) :
    release lk c = popcli { c with lock := update c.lock lk ⟨false, false⟩ } := by
  rw [release, holding_eq hoff hpos, hlk]
  rfl

/-- `nest` has `none` for each `pushcli` and a lock for each `acquire` that is not undone. A thread
without an `intena` begins in `forkret`. No step reads `before`: the interrupt flag before the
outermost `pushcli`, if that was the thread's own. -/
structure Thread (κ : Type) where
  nest : List (Option κ)
  intena : Option Bool
  before : Option Bool

/-- The CPU, the thread that runs on it, and the others; thread `none` is the scheduler. -/
structure State (κ ι : Type) where
  cpu : Cpu κ
  running : Option ι
  current : Thread κ
  away : Option ι → Thread κ

def Thread.enter (t : Thread κ) (x : Option κ) (interrupts : Bool) : Thread κ :=
  { t with
    nest := x :: t.nest
    before := if t.nest = [] then some interrupts else t.before }

def Thread.leave (t : Thread κ) (x : Option κ) : Thread κ := { t with nest := t.nest.erase x }

def State.goto (s : State κ ι) (t : Thread κ) (c : Cpu κ) : State κ ι :=
  { s with cpu := c, current := t }

/-- The CPU enters `scheduler`; the threads are new. -/
def boot (ptable : κ) (interrupts intena : Bool) : State κ ι where
  cpu := ⟨interrupts, 0, intena, fun _ => ⟨false, false⟩⟩
  running := none
  current := ⟨[], none, none⟩
  away _ := ⟨[some ptable], none, none⟩

/-- The lock is free, or held once. -/
def Lock.Counts (l : Lock) (n : Nat) : Prop :=
  l = ⟨true, true⟩ ∧ n = 1 ∨ l = ⟨false, false⟩ ∧ n = 0

/-- `ncli` and the locks are those of the running thread; `intena` is too, and the `intena` of the
others is in `sched`. -/
structure Inv (ptable : κ) (s : State κ ι) : Prop where
  depth : s.cpu.ncli = s.current.nest.length
  off : s.current.nest ≠ [] → s.cpu.interrupts = false
  lock : ∀ lk, (s.cpu.lock lk).Counts (s.current.nest.count (some lk))
  intena : ∀ p b, s.running = some p → s.current.nest ≠ [] → s.current.before = some b →
    s.cpu.intena = b
  away : ∀ y, y ≠ s.running → (s.away y).nest = [some ptable]
  saved : ∀ p b, some p ≠ s.running → (s.away (some p)).before = some b →
    (s.away (some p)).intena = some b

theorem boot_inv (ptable : κ) (interrupts intena : Bool) :
    Inv ptable (boot ptable interrupts intena : State κ ι) :=
  ⟨rfl, fun h => absurd rfl h, fun _ => .inr ⟨rfl, rfl⟩, nofun, fun _ _ => rfl, nofun⟩

variable {s t : State κ ι} {x : Thread κ} (h : Inv ptable s)

include h

theorem Inv.enter (y : Option κ) (hdepth : c.ncli = s.cpu.ncli + 1) (hoff : c.interrupts = false)
    (hintena : c.intena = (pushcli s.cpu).intena)
    (hlock : ∀ lk, (c.lock lk).Counts ((y :: s.current.nest).count (some lk))) :
    Inv ptable (s.goto (s.current.enter y s.cpu.interrupts) c) := by
  refine ⟨?_, fun _ => hoff, hlock, fun p b hp _ hb => ?_, h.away, h.saved⟩
  · rw [State.goto, hdepth, h.depth]
    rfl
  · change (if s.current.nest = [] then _ else _) = some b at hb
    change c.intena = b
    rw [hintena, pushcli, h.depth]
    by_cases hnil : s.current.nest = []
    · rw [if_pos hnil, Option.some_inj] at hb
      rw [hnil, ← hb]
      rfl
    · rw [if_neg hnil] at hb
      rw [if_neg (by simpa using hnil), h.intena p b hp hnil hb]

theorem Inv.leave {y : Option κ} (hy : y ∈ s.current.nest) {l : κ → Lock}
    (hlock : ∀ lk, (l lk).Counts ((s.current.nest.erase y).count (some lk))) :
    ∃ c, popcli { s.cpu with lock := l } = .ok c ∧
      Inv ptable (s.goto (s.current.leave y) c) ∧
      ∀ p b, s.running = some p → (s.current.leave y).nest = [] → s.current.before = some b →
        c.interrupts = b := by
  have hne : s.current.nest ≠ [] := List.ne_nil_of_mem hy
  have hlen : (s.current.leave y).nest.length = _ := List.length_erase_of_mem hy
  have hpos := List.length_pos_of_mem hy
  have hdepth := h.depth
  refine ⟨_, popcli_eq (h.off hne) (show 0 < s.cpu.ncli by omega), ⟨?_, fun hne' => ?_, hlock,
    fun p b hp _ => h.intena p b hp hne, h.away, h.saved⟩, fun p b hp hnil hb => ?_⟩
  · change s.cpu.ncli - 1 = ((s.current.leave y).nest.length : Int)
    omega
  · have hpos' : 0 < (s.current.leave y).nest.length := List.length_pos_of_ne_nil hne'
    have hone : s.cpu.ncli ≠ 1 := by omega
    simp [State.goto, hone]
  · rw [hnil, List.length_nil] at hlen
    have hone : s.cpu.ncli = 1 := by omega
    simp [hone, h.intena p b hp hne hb]

theorem Inv.lock_update {v : Lock} {nest : List (Option κ)} (hv : v.Counts (nest.count (some lk)))
    (hne : ∀ lk' ≠ lk, nest.count (some lk') = s.current.nest.count (some lk')) (lk' : κ) :
    (update s.cpu.lock lk v lk').Counts (nest.count (some lk')) := by
  by_cases heq : lk' = lk
  · rwa [heq, update_self]
  · rw [update_of_ne heq, hne lk' heq]
    exact h.lock lk'

omit h

variable [DecidableEq ι]

/-- `swtch`: the running thread is left as `t`, and `y` runs. -/
def State.swtch (s : State κ ι) (t : Thread κ) (y : Option ι) (c : Cpu κ) : State κ ι :=
  ⟨c, y, s.away y, update s.away s.running t⟩

/-- What the running thread does next. Outside all nestings it may change the interrupt flag. -/
inductive Action (κ ι : Type)
  | eflags (interrupts : Bool)
  | pushcli
  | popcli
  | acquire (lk : κ)
  | release (lk : κ)
  | sched
  | swtch (p : ι)

/-- One step of the running thread; there is none where it would give back what it does not have,
or switch with other locks than `ptable.lock`. -/
def step (ptable : κ) (s : State κ ι) : Action κ ι → Option (Except Stop (State κ ι))
  | .eflags b =>
    if s.current.nest = [] then some (.ok { s with cpu := { s.cpu with interrupts := b } }) else none
  | .pushcli => some (.ok (s.goto (s.current.enter none s.cpu.interrupts) (pushcli s.cpu)))
  | .popcli =>
    if none ∈ s.current.nest then some ((popcli s.cpu).map (s.goto (s.current.leave none)))
    else none
  | .acquire lk => some ((acquire lk s.cpu).map
      (s.goto (s.current.enter (some lk) s.cpu.interrupts)))
  | .release lk =>
    if some lk ∈ s.current.nest then
      some ((release lk s.cpu).map (s.goto (s.current.leave (some lk))))
    else none
  | .sched =>
    if s.running ≠ none ∧ s.current.nest = [some ptable] then
      some ((sched ptable s.cpu).map fun c =>
        s.swtch { s.current with intena := some c.intena } none c)
    else none
  | .swtch p =>
    if s.running = none ∧ s.current.nest = [some ptable] then
      match (s.away (some p)).intena with
      | some b => some ((resume b s.cpu).map (s.swtch s.current (some p)))
      | none => some (.ok (s.swtch s.current (some p) s.cpu))
    else none

/-- A run ends where the kernel stops. -/
def next (ptable : κ) (s : State κ ι) (a : Action κ ι) : Option (State κ ι) :=
  (step ptable s a).bind Except.toOption

include h

/-- A thread that holds `ptable.lock` only switches to another one. -/
theorem Inv.swtch (hnest : s.current.nest = [some ptable]) (hx : x.nest = s.current.nest)
    {y : Option ι} (hy : y ≠ s.running) {b : Bool}
    (hintena : ∀ p b', y = some p → (s.away y).before = some b' → b = b')
    (hsaved : ∀ p b, s.running = some p → x.before = some b → x.intena = some b) :
    Inv ptable (s.swtch x y { s.cpu with intena := b }) := by
  have hy' : (s.swtch x y { s.cpu with intena := b }).current.nest = s.current.nest :=
    (h.away y hy).trans hnest.symm
  refine ⟨?_, ?_, ?_, fun p b' hp _ => hintena p b' hp, fun z _ => ?_, fun p b' _ => ?_⟩
  · rw [hy']
    exact h.depth
  · rw [hy']
    exact h.off
  · rw [hy']
    exact h.lock
  · change (update s.away s.running x z).nest = _
    by_cases hzs : z = s.running
    · rw [hzs, update_self, hx, hnest]
    · rw [update_of_ne hzs, h.away z hzs]
  · change (update s.away s.running x (some p)).before = _ →
      (update s.away s.running x (some p)).intena = _
    by_cases hps : some p = s.running
    · rw [hps, update_self]
      exact hsaved p b' hps.symm
    · rw [update_of_ne hps]
      exact h.saved p b' hps

/-- A step stops in `acquire` for a lock that the thread has, or it keeps the invariant. If it
undoes the last nesting of a thread then the interrupt flag is what it was. -/
theorem Inv.step {a : Action κ ι} {r : Except Stop (State κ ι)} (hr : step ptable s a = some r) :
    r = .error .acquire ∨ ∃ t, r = .ok t ∧ Inv ptable t ∧ ∀ p b, s.running = some p →
      t.running = some p → s.current.nest ≠ [] → t.current.nest = [] →
        s.current.before = some b → t.cpu.interrupts = b := by
  have hdepth := h.depth
  cases a <;> simp only [Spinlock.step] at hr
  case eflags b =>
    split at hr <;> cases hr
    next hnil =>
    exact .inr ⟨_, rfl, ⟨hdepth, fun hne => absurd hnil hne, h.lock, h.intena, h.away, h.saved⟩,
      fun _ _ _ _ hne => absurd hnil hne⟩
  case pushcli =>
    cases hr
    refine .inr ⟨_, rfl, h.enter none rfl rfl rfl fun lk => ?_, nofun⟩
    rw [List.count_cons_of_ne (by simp)]
    exact h.lock lk
  case popcli =>
    split at hr <;> cases hr
    next hy =>
    obtain ⟨c, hc, hinv, hlast⟩ := h.leave hy (l := s.cpu.lock) fun lk => by
      rw [List.count_erase_of_ne (by simp)]
      exact h.lock lk
    rw [hc]
    exact .inr ⟨_, rfl, hinv, fun p b hp _ _ => hlast p b hp⟩
  case acquire lk =>
    cases hr
    rw [acquire_eq (by omega)]
    rcases h.lock lk with ⟨hl, -⟩ | ⟨hl, hcount⟩ <;> rw [hl]
    · exact .inl rfl
    · refine .inr ⟨_, rfl, h.enter (some lk) rfl rfl rfl (h.lock_update (.inl ⟨rfl, ?_⟩)
        fun lk' hne => List.count_cons_of_ne (by simpa using Ne.symm hne)), nofun⟩
      rw [List.count_cons_self, hcount]
  case release lk =>
    split at hr <;> cases hr
    next hy =>
    have hpos := List.length_pos_of_mem hy
    rcases h.lock lk with ⟨hl, hone⟩ | ⟨-, hzero⟩
    · obtain ⟨c, hc, hinv, hlast⟩ := h.leave hy (h.lock_update (.inr ⟨rfl, by
        rw [List.count_erase_self, hone]⟩) fun lk' hne => List.count_erase_of_ne (by simpa using hne))
      rw [release_eq (h.off (List.ne_nil_of_mem hy)) (by omega) hl, hc]
      exact .inr ⟨_, rfl, hinv, fun p b hp _ _ => hlast p b hp⟩
    · exact absurd hy (List.count_eq_zero.mp hzero)
  case sched =>
    split at hr <;> cases hr
    next hs =>
    have hne : s.current.nest ≠ [] := by simp [hs.2]
    rcases h.lock ptable with ⟨hl, -⟩ | ⟨-, hzero⟩
    · rw [sched_eq (h.off hne) (by rw [hdepth, hs.2]; rfl) hl]
      exact .inr ⟨_, rfl, h.swtch (x := { s.current with intena := some s.cpu.intena }) hs.2 rfl
        (Ne.symm hs.1) nofun fun p b hp hb => congrArg some (h.intena p b hp hne hb),
        fun _ _ _ => nofun⟩
    · simp [hs.2] at hzero
  case swtch p =>
    split at hr
    · next hs =>
      have hp : some p ≠ s.running := by simp [hs.1]
      have hrest {b : Bool} (hb : ∀ b', (s.away (some p)).intena = some b' → b = b') :
          Inv ptable (s.swtch s.current (some p) { s.cpu with intena := b }) :=
        h.swtch hs.2 rfl hp (fun _ b' _ hb' => hb b' (h.saved p b' hp hb')) fun q b hq => by
          simp [hs.1] at hq
      split at hr <;> cases hr
      · next b hb =>
        have hresume : resume b s.cpu = .ok { s.cpu with intena := b } :=
          if_neg (by simp [h.off, hs.2])
        rw [hresume]
        exact .inr ⟨_, rfl, hrest fun b' hb' => Option.some.inj (hb.symm.trans hb'), by simp [hs.1]⟩
      · next hb =>
        exact .inr ⟨_, rfl, hrest (b := s.cpu.intena) fun b' hb' => by simp [hb] at hb',
          by simp [hs.1]⟩
    · cases hr

omit h

/-- **Interrupts nest.** -/
theorem interrupts_nest (ptable : κ) (interrupts intena : Bool) (as : List (Action κ ι))
    (s : State κ ι) (hrun : Transition.run (next ptable) (boot ptable interrupts intena) as = some s) :
    (0 < s.cpu.ncli → s.cpu.interrupts = false) ∧ ∀ a r, step ptable s a = some r →
      (∀ e, r = .error e → e = .acquire) ∧ ∀ t p b, r = .ok t → s.running = some p →
        t.running = some p → s.current.nest ≠ [] → t.current.nest = [] →
          s.current.before = some b → t.cpu.interrupts = b := by
  have h : Inv ptable s := by
    refine Transition.run_invariant (I := Inv ptable) (fun s a t h ht => ?_) (boot_inv ..) hrun
    obtain ⟨r, hr, hrt⟩ := Option.bind_eq_some_iff.mp ht
    rcases h.step hr with rfl | ⟨t', rfl, hinv, -⟩ <;> cases hrt
    exact hinv
  refine ⟨fun hpos => h.off fun hnil => ?_, fun a r hr => ?_⟩
  · have := h.depth
    rw [hnil, List.length_nil] at this
    omega
  · rcases h.step hr with rfl | ⟨t', rfl, -, hlast⟩
    · exact ⟨fun e he => (Except.error.inj he).symm, nofun⟩
    · refine ⟨nofun, fun t p b ht hp => ?_⟩
      cases ht
      exact hlast p b hp

/-- Thread 0 is switched to, locks and unlocks with interrupts on, and switches away and back. -/
def nestRun : List (Action Bool Nat) :=
  [.eflags true, .acquire true, .swtch 0, .release true, .eflags true, .pushcli, .acquire true,
    .popcli, .sched, .release true, .eflags true, .acquire true, .swtch 0]

theorem interrupts_nest_resumed : ∃ s, Transition.run (next true) (boot true false false) nestRun =
    some s ∧ s.current.before = some true ∧ ∀ r, step true s (.release true) = some r →
      ∀ t, r = .ok t → t.cpu.interrupts = true :=
  ⟨_, rfl, rfl, fun r hr t ht => ((interrupts_nest true false false nestRun _ rfl).2 _ r hr).2 t 0
    true ht rfl (by cases hr; cases ht; rfl) (by decide) (by cases hr; cases ht; rfl) rfl⟩

end Xv6.Spinlock
