import Xv6.Lib.Monitor

/-!
# Invariants under a lock

An invariant of a monitor's data and of where its processes are can rely on the lock; `Client.Keeps`
lists what the code has to show then. A process that has decided to sleep counts as waiting.
-/

namespace Monitor

open Function (update update_self update_of_ne update_eq_self)

inductive Place (O I : Type*)
  | out (o : O)
  | wait (i : I)
  | hold (i : I)
  deriving DecidableEq

variable {ι D O I C R : Type*}

def Place.Holds : Place O I → Prop
  | .hold _ => True
  | _ => False

def Pc.place : Pc ι O I C → Place O I
  | .out o | .killTake _ o | .kill _ o | .killGive o => .out o
  | .enter i | .sleepTake i | .sleepGive i | .sleepMark i | .asleep i | .ready i
  | .resume i => .wait i
  | .crit i | .wakeTake _ i | .wake _ i | .wakeGive i => .hold i

theorem Pc.place_holds {k : Pc ι O I C} (h : k.place.Holds) : k.HoldsLock := by
  cases k <;> trivial

theorem Pc.place_awake (k : Pc ι O I C) : k.awake.place = k.place := by
  cases k <;> rfl

theorem wakeAll_place [DecidableEq C] (chan : I → C) (c : C) (k : Pc ι O I C) :
    (wakeAll chan c k).place = k.place := by
  cases k <;> try rfl
  rw [wakeAll]
  split <;> rfl

theorem wakeAll_holdsLock [DecidableEq C] (chan : I → C) (c : C) (k : Pc ι O I C) :
    (wakeAll chan c k).HoldsLock ↔ k.HoldsLock := by
  cases k <;> try rfl
  rw [wakeAll]
  split <;> rfl

theorem Pc.awake_holdsLock (k : Pc ι O I C) : k.awake.HoldsLock ↔ k.HoldsLock := by
  cases k <;> rfl

theorem awake_update [DecidableEq ι] {α : Sort*} (g : Pc ι O I C → α) {f : ι → Pc ι O I C} {q : ι}
    (hg : g (f q).awake = g (f q)) (p : ι) : g (update f q (f q).awake p) = g (f p) := by
  by_cases hpq : p = q
  · rw [hpq, update_self, hg]
  · rw [update_of_ne hpq]

/-- The obligations of a monitor's code that keeps `J`. -/
structure Client.Keeps [DecidableEq ι] (M : Client ι D O I C R)
    (J : D → (ι → Place O I) → Prop) : Prop where
  out_move : ∀ {d d' f p o o' r}, J d f → f p = .out o →
    M.outside p o d r = some (.move d' o') → J d' (update f p (.out o'))
  out_enter : ∀ {d f p o i r}, J d f → f p = .out o → M.outside p o d r = some (.enter i) →
    J d (update f p (.wait i))
  enter : ∀ {d f p i}, J d f → f p = .wait i → (∀ q, ¬ (f q).Holds) →
    J d (update f p (.hold i))
  in_move : ∀ {d d' f p i i' r}, J d f → f p = .hold i → (∀ q, q ≠ p → ¬ (f q).Holds) →
    M.inside p i d r = some (.move d' i') → J d' (update f p (.hold i'))
  in_leave : ∀ {d d' f p i o r}, J d f → f p = .hold i → (∀ q, q ≠ p → ¬ (f q).Holds) →
    M.inside p i d r = some (.leave d' o) → J d' (update f p (.out o))
  in_wake : ∀ {d d' f p i c i' r}, J d f → f p = .hold i → (∀ q, q ≠ p → ¬ (f q).Holds) →
    M.inside p i d r = some (.wake c d' i') → J d' (update f p (.hold i'))
  in_sleep : ∀ {d f p i i' r}, J d f → f p = .hold i → (∀ q, q ≠ p → ¬ (f q).Holds) →
    M.inside p i d r = some (.sleep i') → J d (update f p (.wait i'))

/-- The invariant, and who holds the lock. -/
structure Kept (J : D → (ι → Place O I) → Prop) (s : State ι D O I C) : Prop where
  lock : Lock.Held s.lock s.pc Pc.HoldsLock
  inv : J s.data fun p => (s.pc p).place

section

variable [DecidableEq ι] {J : D → (ι → Place O I) → Prop} {s t : State ι D O I C} {p : ι}
  {k : Pc ι O I C}

theorem Kept.set (hpc : t.pc = update s.pc p k)
    (hlock : Lock.Held t.lock (update s.pc p k) Pc.HoldsLock)
    (hinv : J t.data (update (fun q => (s.pc q).place) p k.place)) : Kept J t := by
  have hplace : (fun q => (t.pc q).place) =
      update (fun q => (s.pc q).place) p k.place := by
    rw [hpc]
    exact Function.comp_update Pc.place s.pc p k
  exact ⟨by rw [hpc]; exact hlock, by rw [hplace]; exact hinv⟩

theorem Kept.admin (h : Kept J s) (hdata : t.data = s.data) (hpc : t.pc = update s.pc p k)
    (hlock : Lock.Held t.lock (update s.pc p k) Pc.HoldsLock)
    (hplace : k.place = (s.pc p).place) : Kept J t := by
  refine Kept.set hpc hlock ?_
  have hself : update (fun q => (s.pc q).place) p (s.pc p).place =
      fun q => (s.pc q).place := update_eq_self p _
  rw [hdata, hplace, hself]
  exact h.inv

omit [DecidableEq ι] in
theorem Kept.awaken (h : Kept J s) (pc : ι → Pc ι O I C)
    (hlock : ∀ q, (pc q).HoldsLock ↔ (s.pc q).HoldsLock)
    (hplace : ∀ q, (pc q).place = (s.pc q).place) : Kept J { s with pc := pc } := by
  refine ⟨h.lock.congr hlock, ?_⟩
  have hpc : (fun q => (pc q).place) = fun q => (s.pc q).place := funext hplace
  rw [hpc]
  exact h.inv

omit [DecidableEq ι] in
theorem Kept.alone (h : Kept J s) (hp : (s.pc p).HoldsLock) :
    ∀ q, q ≠ p → ¬ ((s.pc q).place).Holds :=
  fun _ hqp hq => hqp (h.lock.unique (Pc.place_holds hq) hp)

end

namespace Client

variable [DecidableEq ι] [DecidableEq C] {M : Client ι D O I C R}
  {J : D → (ι → Place O I) → Prop} {s t : State ι D O I C} {p : ι} {r : R}

theorem Keeps.stepOf (hM : M.Keeps J) (h : Kept J s) (ht : M.stepOf s p r = some t) : Kept J t := by
  -- the lock of a step that neither takes nor gives it
  have hkeep : ∀ {k : Pc ι O I C}, (k.HoldsLock ↔ (s.pc p).HoldsLock) →
      Lock.Held s.lock (update s.pc p k) Pc.HoldsLock := fun hk => h.lock.keep p hk
  cases hpc : s.pc p <;> simp only [Client.stepOf, hpc, reduceCtorEq] at ht <;>
    rw [hpc] at hkeep
  case out o =>
    have hpo : (s.pc p).place = .out o := by rw [hpc]; rfl
    split at ht
    · next d o' hout =>
      cases ht
      exact Kept.set rfl (hkeep Iff.rfl) (hM.out_move h.inv hpo hout)
    · next i hout =>
      cases ht
      exact Kept.set rfl (hkeep Iff.rfl) (hM.out_enter h.inv hpo hout)
    · cases ht
  case enter i =>
    split at ht <;> cases ht
    next hl =>
    have hnone : ∀ q, ¬ ((s.pc q).place).Holds := fun q hq =>
      h.lock.not_of_none hl q (Pc.place_holds hq)
    refine Kept.set rfl (h.lock.acquire hl p trivial) ?_
    exact hM.enter h.inv (by rw [hpc]; rfl) hnone
  case crit i =>
    have hpi : (s.pc p).place = .hold i := by rw [hpc]; rfl
    have hmine : (s.pc p).HoldsLock := by rw [hpc]; trivial
    have halone := h.alone hmine
    split at ht
    · next d i' hin =>
      cases ht
      exact Kept.set rfl (hkeep Iff.rfl) (hM.in_move h.inv hpi halone hin)
    · next d o hin =>
      cases ht
      exact Kept.set rfl (h.lock.release p hmine id) (hM.in_leave h.inv hpi halone hin)
    · next c d i' hin =>
      cases ht
      exact Kept.set rfl (hkeep Iff.rfl) (hM.in_wake h.inv hpi halone hin)
    · next i' hin =>
      cases ht
      exact Kept.set rfl (hkeep Iff.rfl) (hM.in_sleep h.inv hpi halone hin)
    · cases ht
  case sleepGive i =>
    cases ht
    exact h.admin rfl rfl (h.lock.release p (by rw [hpc]; trivial) id) (by rw [hpc]; rfl)
  case wake c i =>
    cases ht
    have hu := h.awaken (fun q => wakeAll M.chan c (s.pc q))
      (fun q => wakeAll_holdsLock M.chan c (s.pc q)) fun q => wakeAll_place M.chan c (s.pc q)
    have hup : wakeAll M.chan c (s.pc p) = .wake c i := by rw [hpc]; rfl
    refine hu.admin rfl rfl (hu.lock.keep p ?_) ?_ <;> simp only [hup]
    · rfl
    · rfl
  case kill q o =>
    cases ht
    have hu := h.awaken (update s.pc q (s.pc q).awake)
      (fun q' => iff_of_eq (awake_update Pc.HoldsLock (propext (Pc.awake_holdsLock _)) q'))
      (awake_update Pc.place (Pc.place_awake _))
    refine hu.admin rfl rfl (hu.lock.keep p ?_) ?_ <;> simp only [kill_self hpc]
    · rfl
    · rfl
  all_goals
    first
    | (cases ht; exact h.admin rfl rfl (hkeep Iff.rfl) (by rw [hpc]; rfl))
    | (split at ht <;> cases ht; exact h.admin rfl rfl (hkeep Iff.rfl) (by rw [hpc]; rfl))

theorem Keeps.step (hM : M.Keeps J) {a : Action ι R} (h : Kept J s) (ht : M.step s a = some t) :
    Kept J t := by
  cases a with
  | run p r => exact hM.stepOf h ht
  | kill p q =>
    rw [Client.step] at ht
    split at ht
    · next o hpc =>
      cases ht
      refine h.admin rfl rfl (h.lock.keep p ?_) ?_ <;> rw [hpc]
      · rfl
      · rfl
    · cases ht

/-- **Every run keeps the invariant.** -/
theorem Keeps.run (hM : M.Keeps J) {d : D} {o : ι → O} (hJ : J d fun p => .out (o p))
    {as : List (Action ι R)} (hr : Transition.run M.step (start d o) as = some s) :
    J s.data fun p => (s.pc p).place := by
  have h : Kept J s :=
    Transition.run_invariant (fun s a t h ht => hM.step h ht)
      ⟨fun _ => iff_of_false (by rintro ⟨⟩) id, hJ⟩ hr
  exact h.inv

end Client

end Monitor
