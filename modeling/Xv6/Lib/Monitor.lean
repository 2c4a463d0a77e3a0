import Xv6.Lib.Lock
import Xv6.Lib.Transition

/-!
# Sleeping under a lock

A monitor is shared data with a lock, and programs that run under the lock or outside it. Under the
lock a program can change the data, go to sleep and wake others up. To sleep is to take the queue
lock, to give the lock back and to mark oneself; to wake is to take the queue lock and to clear the
marks of a channel. A kill can also wake a sleeper.

`Client` is a monitor's code. A sleeper waits rightly while its `blocked` condition holds. For this,
whoever makes the condition false under the lock has a wakeup of the channel ahead before it gives
the lock back (`Client.Sound`).
-/

namespace Monitor

open Function (update update_self update_of_ne update_eq_self)

/-- What code outside the lock does next: go on, or take the lock. -/
inductive OutStep (D O I : Type*)
  | move (d : D) (o : O)
  | enter (i : I)

/-- What code under the lock does next: go on, give the lock back, wake a channel, or sleep. -/
inductive InStep (D O I C : Type*)
  | move (d : D) (i : I)
  | leave (d : D) (o : O)
  | wake (c : C) (d : D) (i : I)
  | sleep (i : I)

/-- The code of a monitor with data `D`: the program points `O` outside the lock and `I` under it,
and the inputs `R` of the steps. The code may ask which process runs it. A process that sleeps goes
on at a point under the lock, and that point says on which channel it sleeps. -/
structure Client (ι D O I C R : Type*) where
  outside : ι → O → D → R → Option (OutStep D O I)
  inside : ι → I → D → R → Option (InStep D O I C)
  chan : I → C

inductive Pc (ι O I C : Type*)
  | out (o : O)
  /-- take the lock -/
  | enter (i : I)
  | crit (i : I)
  /-- sleep: take the queue lock -/
  | sleepTake (i : I)
  /-- sleep: give the lock back -/
  | sleepGive (i : I)
  /-- sleep: mark oneself and give the queue lock back -/
  | sleepMark (i : I)
  | asleep (i : I)
  /-- awake, but not running yet -/
  | ready (i : I)
  /-- running again, with the queue lock -/
  | resume (i : I)
  /-- wake: take the queue lock -/
  | wakeTake (c : C) (i : I)
  | wake (c : C) (i : I)
  /-- wake: give the queue lock back -/
  | wakeGive (i : I)
  /-- kill: take the queue lock -/
  | killTake (q : ι) (o : O)
  | kill (q : ι) (o : O)
  /-- kill: give the queue lock back -/
  | killGive (o : O)
  deriving DecidableEq

structure State (ι D O I C : Type*) where
  data : D
  lock : Option ι
  qlock : Option ι
  pc : ι → Pc ι O I C

inductive Action (ι R : Type*)
  | run (p : ι) (r : R)
  | kill (p q : ι)

variable {ι D O I C R : Type*}

def Action.actor : Action ι R → ι
  | .run p _ | .kill p _ => p

def Pc.HoldsLock : Pc ι O I C → Prop
  | .crit _ | .sleepTake _ | .sleepGive _ | .wakeTake _ _ | .wake _ _ | .wakeGive _ => True
  | _ => False

def Pc.HoldsQueue : Pc ι O I C → Prop
  | .sleepGive _ | .sleepMark _ | .resume _ | .wake _ _ | .wakeGive _ | .kill _ _
  | .killGive _ => True
  | _ => False

/-- Where the process is, or goes on, in the code. -/
def Pc.point : Pc ι O I C → O ⊕ I
  | .out o | .killTake _ o | .kill _ o | .killGive o => .inl o
  | .enter i | .crit i | .sleepTake i | .sleepGive i | .sleepMark i | .asleep i | .ready i
  | .resume i | .wakeTake _ i | .wake _ i | .wakeGive i => .inr i

def Pc.awake : Pc ι O I C → Pc ι O I C
  | .asleep i => .ready i
  | k => k

def wakeAll [DecidableEq C] (chan : I → C) (c : C) : Pc ι O I C → Pc ι O I C
  | .asleep i => if chan i = c then .ready i else .asleep i
  | k => k

theorem Pc.awake_of_ne {k : Pc ι O I C} (h : ∀ i, k ≠ .asleep i) : k.awake = k := by
  cases k <;> first | rfl | exact absurd rfl (h _)

theorem wakeAll_of_ne [DecidableEq C] {chan : I → C} {c : C} {k : Pc ι O I C}
    (h : ∀ i, k ≠ .asleep i) : wakeAll chan c k = k := by
  cases k <;> first | rfl | exact absurd rfl (h _)

namespace State

variable [DecidableEq ι]

def goto (s : State ι D O I C) (p : ι) (k : Pc ι O I C) : State ι D O I C :=
  { s with pc := update s.pc p k }

end State

namespace Client

variable [DecidableEq ι] [DecidableEq C] (M : Client ι D O I C R)

/-- One step of process `p`; `r` is its input. -/
def stepOf (s : State ι D O I C) (p : ι) (r : R) : Option (State ι D O I C) :=
  match s.pc p with
  | .out o =>
    match M.outside p o s.data r with
    | some (.move d o') => some { s.goto p (.out o') with data := d }
    | some (.enter i) => some (s.goto p (.enter i))
    | none => none
  | .enter i => if s.lock = none then some { s.goto p (.crit i) with lock := some p } else none
  | .crit i =>
    match M.inside p i s.data r with
    | some (.move d i') => some { s.goto p (.crit i') with data := d }
    | some (.leave d o) => some { s.goto p (.out o) with data := d, lock := none }
    | some (.wake c d i') => some { s.goto p (.wakeTake c i') with data := d }
    | some (.sleep i') => some (s.goto p (.sleepTake i'))
    | none => none
  | .sleepTake i =>
    if s.qlock = none then some { s.goto p (.sleepGive i) with qlock := some p } else none
  | .sleepGive i => some { s.goto p (.sleepMark i) with lock := none }
  | .sleepMark i => some { s.goto p (.asleep i) with qlock := none }
  | .asleep _ => none
  | .ready i =>
    if s.qlock = none then some { s.goto p (.resume i) with qlock := some p } else none
  | .resume i => some { s.goto p (.enter i) with qlock := none }
  | .wakeTake c i =>
    if s.qlock = none then some { s.goto p (.wake c i) with qlock := some p } else none
  | .wake c i => some ({ s with pc := fun q => wakeAll M.chan c (s.pc q) }.goto p (.wakeGive i))
  | .wakeGive i => some { s.goto p (.crit i) with qlock := none }
  | .killTake q o =>
    if s.qlock = none then some { s.goto p (.kill q o) with qlock := some p } else none
  | .kill q o => some ((s.goto q (s.pc q).awake).goto p (.killGive o))
  | .killGive o => some { s.goto p (.out o) with qlock := none }

def step (s : State ι D O I C) : Action ι R → Option (State ι D O I C)
  | .run p r => M.stepOf s p r
  | .kill p q =>
    match s.pc p with
    | .out o => some (s.goto p (.killTake q o))
    | _ => none

variable {M} in
theorem pc_of_step {s t : State ι D O I C} {a : Action ι R} {p : ι} (ha : a.actor ≠ p)
    (hp : ∀ i, s.pc p ≠ .asleep i) (ht : M.step s a = some t) : t.pc p = s.pc p := by
  have hother : ∀ {q k}, q ≠ p → update s.pc q k p = s.pc p := fun hq =>
    update_of_ne (Ne.symm hq) _ _
  cases a with
  | kill q q' =>
    rw [step] at ht
    split at ht <;> cases ht
    exact hother ha
  | run q r =>
    change q ≠ p at ha
    cases hq : s.pc q <;> simp only [step, stepOf, hq, reduceCtorEq] at ht
    case wake c i =>
      cases ht
      exact (update_of_ne (Ne.symm ha) _ _).trans (wakeAll_of_ne hp)
    case kill q' o =>
      cases ht
      refine (update_of_ne (Ne.symm ha) _ _).trans ?_
      by_cases hpq : p = q'
      · subst hpq
        exact (update_self _ _ _).trans (Pc.awake_of_ne hp)
      · exact update_of_ne hpq _ _
    all_goals
      first
      | cases ht; exact hother ha
      | split at ht <;> cases ht <;> exact hother ha

/-- The obligations of a monitor's code. `blocked i` is the condition under which a process may
sleep at `i`, `owes i c` says that code at `i` has a wakeup of `c` ahead, and `J` is an invariant
of the data and of where the processes are. -/
structure Sound (blocked : I → D → Prop) (owes : I → C → Prop)
    (J : D → (ι → O ⊕ I) → Prop) : Prop where
  out_move : ∀ {d d' f p o o' r}, J d f → f p = .inl o →
    M.outside p o d r = some (.move d' o') → J d' (update f p (.inl o')) ∧
      ∀ q j, q ≠ p → f q = .inr j → blocked j d → blocked j d'
  out_enter : ∀ {d f p o i r}, J d f → f p = .inl o → M.outside p o d r = some (.enter i) →
    J d (update f p (.inr i))
  in_move : ∀ {d d' f p i i' r}, J d f → f p = .inr i → M.inside p i d r = some (.move d' i') →
    J d' (update f p (.inr i')) ∧ ∀ q j, q ≠ p → f q = .inr j →
      blocked j d ∨ owes i (M.chan j) → blocked j d' ∨ owes i' (M.chan j)
  in_leave : ∀ {d d' f p i o r}, J d f → f p = .inr i → M.inside p i d r = some (.leave d' o) →
    J d' (update f p (.inl o)) ∧ ∀ q j, q ≠ p → f q = .inr j →
      blocked j d ∨ owes i (M.chan j) → blocked j d'
  in_wake : ∀ {d d' f p i c i' r}, J d f → f p = .inr i →
    M.inside p i d r = some (.wake c d' i') → J d' (update f p (.inr i')) ∧
      ∀ q j, q ≠ p → f q = .inr j → M.chan j ≠ c → blocked j d ∨ owes i (M.chan j) →
        blocked j d' ∨ owes i' (M.chan j)
  in_sleep : ∀ {d f p i i' r}, J d f → f p = .inr i → M.inside p i d r = some (.sleep i') →
    J d (update f p (.inr i')) ∧ blocked i' d ∧
      ∀ q j, q ≠ p → f q = .inr j → owes i (M.chan j) → blocked j d

end Client

def Pc.Waiting : Pc ι O I C → I → Prop
  | .sleepTake i, j | .sleepGive i, j | .sleepMark i, j | .asleep i, j => i = j
  | _, _ => False

/-- The process has a wakeup of `c` ahead of it under the lock. -/
def Pc.Owing (owes : I → C → Prop) : Pc ι O I C → C → Prop
  | .crit i, c | .wakeGive i, c => owes i c
  | .wakeTake c' i, c | .wake c' i, c => c' = c ∨ owes i c
  | _, _ => False

/-- Sleepers are covered: they wait rightly, or the holder of the lock will wake them. -/
structure Covered (chan : I → C) (blocked : I → D → Prop) (owes : I → C → Prop)
    (J : D → (ι → O ⊕ I) → Prop) (s : State ι D O I C) : Prop where
  lock : Lock.Held s.lock s.pc Pc.HoldsLock
  qlock : Lock.Held s.qlock s.pc Pc.HoldsQueue
  inv : J s.data fun p => (s.pc p).point
  cover : ∀ p i, (s.pc p).Waiting i →
    blocked i s.data ∨ ∃ q, (s.pc q).Owing owes (chan i)

section

variable {chan : I → C} {blocked : I → D → Prop} {owes : I → C → Prop}
  {J : D → (ι → O ⊕ I) → Prop} {s t : State ι D O I C} {p : ι} {k : Pc ι O I C}

theorem Pc.Owing.holdsLock {c : C} (h : k.Owing owes c) : k.HoldsLock := by
  cases k <;> first | exact h.elim | trivial

theorem Pc.Waiting.not_owing {i : I} (h : k.Waiting i) (c : C) : ¬ k.Owing owes c := by
  cases k <;> first | exact h.elim | exact id

theorem Pc.Waiting.point {i : I} (h : k.Waiting i) : k.point = .inr i := by
  cases k <;> first | exact h.elim | exact congrArg Sum.inr h

variable [DecidableEq ι]

theorem Covered.set (h : Covered chan blocked owes J s) (hpc : t.pc = update s.pc p k)
    (hlock : Lock.Held t.lock (update s.pc p k) Pc.HoldsLock)
    (hqlock : Lock.Held t.qlock (update s.pc p k) Pc.HoldsQueue)
    (hinv : J t.data (update (fun q => (s.pc q).point) p k.point))
    (hself : ∀ i, k.Waiting i → blocked i t.data ∨ (s.pc p).Waiting i ∧ t.data = s.data)
    (hothers : ∀ q i, q ≠ p → (s.pc q).Waiting i →
      blocked i s.data ∨ (s.pc p).Owing owes (chan i) →
        blocked i t.data ∨ k.Owing owes (chan i)) : Covered chan blocked owes J t := by
  have hpt : (fun q => (t.pc q).point) =
      update (fun q => (s.pc q).point) p k.point := by
    rw [hpc]
    exact Function.comp_update Pc.point s.pc p k
  refine ⟨by rw [hpc]; exact hlock, by rw [hpc]; exact hqlock, by rw [hpt]; exact hinv, ?_⟩
  -- an obligation of another process stays
  have hstay : ∀ q i, q ≠ p → (s.pc q).Owing owes (chan i) →
      ∃ q, (t.pc q).Owing owes (chan i) := by
    intro q i hqp hq
    refine ⟨q, ?_⟩
    rwa [hpc, update_of_ne hqp]
  have hpself : t.pc p = k := by rw [hpc, update_self]
  intro q i hq
  by_cases hqp : q = p
  · subst hqp
    rw [hpself] at hq
    rcases hself i hq with hb | ⟨hw, hdata⟩
    · exact Or.inl hb
    · rcases h.cover q i hw with hb | ⟨q', hq'⟩
      · exact Or.inl (hdata ▸ hb)
      · refine Or.inr (hstay q' i ?_ hq')
        rintro rfl
        exact hw.not_owing _ hq'
  · rw [hpc, update_of_ne hqp] at hq
    have hmine : blocked i s.data ∨ (s.pc p).Owing owes (chan i) →
        blocked i t.data ∨ ∃ q, (t.pc q).Owing owes (chan i) := fun hh =>
      (hothers q i hqp hq hh).imp_right fun hk => ⟨p, hpself ▸ hk⟩
    rcases h.cover q i hq with hb | ⟨q', hq'⟩
    · exact hmine (Or.inl hb)
    · by_cases hq'p : q' = p
      · exact hmine (Or.inr (hq'p ▸ hq'))
      · exact Or.inr (hstay q' i hq'p hq')

theorem Covered.inv_update (h : Covered chan blocked owes J s) (hpt : k.point = (s.pc p).point) :
    J s.data (update (fun q => (s.pc q).point) p k.point) := by
  rw [hpt]
  have hself : update (fun q => (s.pc q).point) p (s.pc p).point =
      fun q => (s.pc q).point := update_eq_self p _
  rw [hself]
  exact h.inv

/-- Two program points that mean the same to the code. -/
structure Pc.Same (owes : I → C → Prop) (k k' : Pc ι O I C) : Prop where
  lock : k'.HoldsLock ↔ k.HoldsLock
  point : k'.point = k.point
  waiting : ∀ i, k'.Waiting i → k.Waiting i
  owing : ∀ c, k.Owing owes c → k'.Owing owes c

/-- A step of process `p` between program points that mean the same to the code, except for the
queue lock. -/
theorem Covered.admin (h : Covered chan blocked owes J s) (hk : (s.pc p).Same owes k) {l : Option ι}
    (hqlock : Lock.Held l (update s.pc p k) Pc.HoldsQueue) :
    Covered chan blocked owes J { s.goto p k with qlock := l } :=
  h.set rfl (h.lock.keep p hk.lock) hqlock (h.inv_update hk.point)
    (fun i hi => Or.inr ⟨hk.waiting i hi, rfl⟩) fun _ i _ _ hh => hh.imp_right (hk.owing (chan i))

omit [DecidableEq ι] in
theorem Covered.awaken (h : Covered chan blocked owes J s) (pc : ι → Pc ι O I C)
    (hpc : ∀ q, pc q = s.pc q ∨ pc q = (s.pc q).awake) :
    Covered chan blocked owes J { s with pc := pc } := by
  -- nothing but sleeping changes
  have hsame : ∀ q, ((pc q).HoldsLock ↔ (s.pc q).HoldsLock) ∧
      ((pc q).HoldsQueue ↔ (s.pc q).HoldsQueue) ∧ (pc q).point = (s.pc q).point ∧
      (∀ c, (s.pc q).Owing owes c → (pc q).Owing owes c) ∧
      ∀ i, (pc q).Waiting i → (s.pc q).Waiting i := by
    intro q
    rcases hpc q with e | e
    · rw [e]
      exact ⟨Iff.rfl, Iff.rfl, rfl, fun _ => id, fun _ => id⟩
    · rw [e]
      cases s.pc q <;> exact ⟨Iff.rfl, Iff.rfl, rfl, fun _ => id, fun _ hw => by trivial⟩
  refine ⟨h.lock.congr fun q => (hsame q).1, h.qlock.congr fun q => (hsame q).2.1, ?_, ?_⟩
  · have hpt : (fun q => (pc q).point) = fun q => (s.pc q).point :=
      funext fun q => (hsame q).2.2.1
    rw [hpt]
    exact h.inv
  · intro q i hq
    refine (h.cover q i ((hsame q).2.2.2.2 i hq)).imp_right ?_
    rintro ⟨q', hq'⟩
    exact ⟨q', (hsame q').2.2.2.1 _ hq'⟩

theorem Covered.wake [DecidableEq C] {c : C} {i : I} (h : Covered chan blocked owes J s)
    (hpc : s.pc p = .wake c i) : Covered chan blocked owes J
      ({ s with pc := fun q => wakeAll chan c (s.pc q) }.goto p (.wakeGive i)) := by
  have hu := h.awaken (fun q => wakeAll chan c (s.pc q)) fun q => by
    cases s.pc q <;> first | exact Or.inl rfl | skip
    next j =>
      rw [wakeAll]
      split
      · exact Or.inr rfl
      · exact Or.inl rfl
  have hup : wakeAll chan c (s.pc p) = .wake c i := by rw [hpc]; rfl
  refine hu.set rfl (hu.lock.keep p ?_) (hu.qlock.keep p ?_) (hu.inv_update ?_) nofun
    fun q j hqp hq hh => ?_ <;> simp only [hup] at *
  · exact Iff.rfl
  · exact Iff.rfl
  · rfl
  · rcases hh with hb | rfl | ho
    · exact Or.inl hb
    · -- whoever sleeps on the channel and is not marked yet would hold one of the locks
      have hL : (s.pc p).HoldsLock := by rw [hpc]; trivial
      have hQ : (s.pc p).HoldsQueue := by rw [hpc]; trivial
      cases hq' : s.pc q <;> simp only [hq', wakeAll] at hq <;> try exact hq.elim
      · exact absurd (h.lock.unique (by rw [hq']; trivial) hL) hqp
      · exact absurd (h.lock.unique (by rw [hq']; trivial) hL) hqp
      · exact absurd (h.qlock.unique (by rw [hq']; trivial) hQ) hqp
      · split at hq
        · exact hq.elim
        · next hne => exact absurd (congrArg chan hq) hne
    · exact Or.inr ho

theorem kill_self {q : ι} {o : O} (hpc : s.pc p = .kill q o) :
    update s.pc q (s.pc q).awake p = .kill q o := by
  by_cases hpq : p = q
  · subst hpq
    rw [update_self, hpc]
    rfl
  · rw [update_of_ne hpq, hpc]

theorem Covered.kill {q : ι} {o : O} (h : Covered chan blocked owes J s)
    (hpc : s.pc p = .kill q o) :
    Covered chan blocked owes J ((s.goto q (s.pc q).awake).goto p (.killGive o)) := by
  have hu := h.awaken (update s.pc q (s.pc q).awake) fun q' => by
    by_cases hqq : q' = q
    · subst hqq
      rw [update_self]
      exact Or.inr rfl
    · rw [update_of_ne hqq]
      exact Or.inl rfl
  refine hu.admin ?_ (hu.qlock.keep p ?_) <;> simp only [kill_self hpc]
  · exact ⟨Iff.rfl, rfl, fun _ => id, fun _ => id⟩
  · exact Iff.rfl

end

namespace Client

variable [DecidableEq ι] [DecidableEq C] {M : Client ι D O I C R} {blocked : I → D → Prop}
  {owes : I → C → Prop} {J : D → (ι → O ⊕ I) → Prop} {s t : State ι D O I C} {p : ι} {r : R}

theorem Sound.stepOf_out (hM : M.Sound blocked owes J) (h : Covered M.chan blocked owes J s) {o : O}
    (hpc : s.pc p = .out o) (ht : M.stepOf s p r = some t) : Covered M.chan blocked owes J t := by
  have hpo : (s.pc p).point = .inl o := by rw [hpc]; rfl
  have hL : ∀ {k : Pc ι O I C}, ¬ k.HoldsLock →
      Lock.Held s.lock (update s.pc p k) Pc.HoldsLock := fun hk =>
    h.lock.keep p (by rw [hpc]; exact iff_of_false hk id)
  have hQ : ∀ {k : Pc ι O I C}, ¬ k.HoldsQueue →
      Lock.Held s.qlock (update s.pc p k) Pc.HoldsQueue := fun hk =>
    h.qlock.keep p (by rw [hpc]; exact iff_of_false hk id)
  have howing : ∀ c, ¬ (s.pc p).Owing owes c := fun c hc => by rwa [hpc] at hc
  simp only [Client.stepOf, hpc] at ht
  split at ht
  · next d o' hout =>
    cases ht
    obtain ⟨hJ, hkeep⟩ := hM.out_move h.inv hpo hout
    exact h.set rfl (hL id) (hQ id) hJ nofun fun q i hqp hq hh =>
      Or.inl (hkeep q i hqp hq.point (hh.resolve_right (howing _)))
  · next i hout =>
    cases ht
    exact h.set rfl (hL id) (hQ id) (hM.out_enter h.inv hpo hout) nofun
      fun q i hqp hq hh => Or.inl (hh.resolve_right (howing _))
  · cases ht

theorem Sound.stepOf_crit (hM : M.Sound blocked owes J) (h : Covered M.chan blocked owes J s) {i : I}
    (hpc : s.pc p = .crit i) (ht : M.stepOf s p r = some t) : Covered M.chan blocked owes J t := by
  have hpi : (s.pc p).point = .inr i := by rw [hpc]; rfl
  have hL : ∀ {k : Pc ι O I C}, k.HoldsLock →
      Lock.Held s.lock (update s.pc p k) Pc.HoldsLock := fun hk =>
    h.lock.keep p (by rw [hpc]; exact iff_of_true hk trivial)
  have hQ : ∀ {k : Pc ι O I C}, ¬ k.HoldsQueue →
      Lock.Held s.qlock (update s.pc p k) Pc.HoldsQueue := fun hk =>
    h.qlock.keep p (by rw [hpc]; exact iff_of_false hk id)
  have howing : ∀ c, (s.pc p).Owing owes c → owes i c := fun c hc => by rwa [hpc] at hc
  simp only [Client.stepOf, hpc] at ht
  split at ht
  · next d i' hin =>
    cases ht
    obtain ⟨hJ, hkeep⟩ := hM.in_move h.inv hpi hin
    exact h.set rfl (hL trivial) (hQ id) hJ nofun fun q j hqp hq hh =>
      hkeep q j hqp hq.point (hh.imp_right (howing _))
  · next d o hin =>
    cases ht
    obtain ⟨hJ, hkeep⟩ := hM.in_leave h.inv hpi hin
    exact h.set rfl (h.lock.release p (by rw [hpc]; trivial) id) (hQ id) hJ nofun
      fun q j hqp hq hh => Or.inl (hkeep q j hqp hq.point (hh.imp_right (howing _)))
  · next c d i' hin =>
    cases ht
    obtain ⟨hJ, hkeep⟩ := hM.in_wake h.inv hpi hin
    refine h.set rfl (hL trivial) (hQ id) hJ nofun fun q j hqp hq hh => ?_
    by_cases hc : M.chan j = c
    · exact Or.inr (Or.inl hc.symm)
    · exact (hkeep q j hqp hq.point hc (hh.imp_right (howing _))).imp_right Or.inr
  · next i' hin =>
    cases ht
    obtain ⟨hJ, hb, hkeep⟩ := hM.in_sleep h.inv hpi hin
    refine h.set rfl (hL trivial) (hQ id) hJ (fun j hj => ?_) fun q j hqp hq hh => ?_
    · cases hj
      exact Or.inl hb
    · exact Or.inl (hh.elim id fun ho => hkeep q j hqp hq.point (howing _ ho))
  · cases ht

theorem Sound.stepOf (hM : M.Sound blocked owes J) (h : Covered M.chan blocked owes J s)
    (ht : M.stepOf s p r = some t) : Covered M.chan blocked owes J t := by
  cases hpc : s.pc p
  case out o => exact hM.stepOf_out h hpc ht
  case crit i => exact hM.stepOf_crit h hpc ht
  all_goals simp only [Client.stepOf, hpc, reduceCtorEq] at ht
  case enter i =>
    split at ht <;> cases ht
    next hl =>
    refine h.set rfl (h.lock.acquire hl p trivial) (h.qlock.keep p ?_) (h.inv_update ?_) nofun
      fun q j _ _ hh => Or.inl (hh.resolve_right ?_) <;> rw [hpc]
    · exact Iff.rfl
    · rfl
    · exact id
  case sleepTake | ready | wakeTake | killTake =>
    split at ht <;> cases ht
    next hl =>
    refine h.admin ?_ (h.qlock.acquire hl p trivial)
    rw [hpc]
    exact ⟨Iff.rfl, rfl, fun _ => id, fun _ => id⟩
  case sleepMark | resume | wakeGive | killGive =>
    cases ht
    refine h.admin ?_ (h.qlock.release p (by rw [hpc]; trivial) id)
    rw [hpc]
    exact ⟨Iff.rfl, rfl, fun _ => id, fun _ => id⟩
  case sleepGive i =>
    cases ht
    refine h.set rfl (h.lock.release p (by rw [hpc]; trivial) id) (h.qlock.keep p ?_)
      (h.inv_update ?_) (fun j hj => Or.inr ⟨?_, rfl⟩) fun q j _ _ hh =>
        Or.inl (hh.resolve_right ?_) <;> rw [hpc]
    · exact Iff.rfl
    · rfl
    · exact hj
    · exact id
  case wake c i =>
    cases ht
    exact h.wake hpc
  case kill q o =>
    cases ht
    exact h.kill hpc

/-- **Every action keeps the sleepers covered.** -/
theorem Sound.step (hM : M.Sound blocked owes J) {a : Action ι R}
    (h : Covered M.chan blocked owes J s) (ht : M.step s a = some t) :
    Covered M.chan blocked owes J t := by
  cases a with
  | run p r => exact hM.stepOf h ht
  | kill p q =>
    rw [Client.step] at ht
    split at ht
    · next o hpc =>
      cases ht
      refine h.admin ?_ (h.qlock.keep p ?_) <;> rw [hpc]
      · exact ⟨Iff.rfl, rfl, fun _ => id, fun _ => id⟩
      · exact Iff.rfl
    · cases ht

def start (d : D) (o : ι → O) : State ι D O I C where
  data := d
  lock := none
  qlock := none
  pc := fun p => .out (o p)

theorem Sound.covered (hM : M.Sound blocked owes J) {d : D} {o : ι → O}
    (hJ : J d fun p => .inl (o p)) {as : List (Action ι R)}
    (hr : Transition.run M.step (start d o) as = some s) : Covered M.chan blocked owes J s := by
  refine Transition.run_invariant (fun s a t h ht => hM.step h ht) ?_ hr
  exact ⟨fun p => ⟨nofun, False.elim⟩, fun p => ⟨nofun, False.elim⟩, hJ, fun p i hw => hw.elim⟩

/-- **No lost wakeup.** While the lock is free, a process that sleeps waits rightly. -/
theorem Sound.blocked_of_asleep (hM : M.Sound blocked owes J) {d : D} {o : ι → O}
    (hJ : J d fun p => .inl (o p)) {as : List (Action ι R)}
    (hr : Transition.run M.step (start d o) as = some s) (hl : s.lock = none) {i : I}
    (hp : s.pc p = .asleep i) : blocked i s.data := by
  have h := hM.covered hJ hr
  have hw : (s.pc p).Waiting i := by rw [hp]; rfl
  refine (h.cover p i hw).resolve_right ?_
  rintro ⟨q, hq⟩
  exact h.lock.not_of_none hl q hq.holdsLock

end Client

end Monitor
