import Xv6.Sched.Defs

namespace Xv6.Sched

variable {proc : Nat → Proc} {chan : Option Chan} {cur init q : Nat} {pid : Int32}

theorem dispatch_cpu (s : State) (c i : Nat) : (dispatch s c i).cpu =
    Function.update s.cpu c ⟨some i, some i, .back i, (s.proc i).priority⟩ := by
  rw [dispatch]
  split <;> rfl

theorem dispatch_events (s : State) (c i : Nat) : (dispatch s c i).events =
    s.events ++ [.dispatch c i (s.proc i).priority] := by
  rw [dispatch]
  split <;> rfl

theorem dispatch_proc (s : State) (c i : Nat) : (dispatch s c i).proc =
    Function.update s.proc i { s.proc i with state := .running } := by
  rw [dispatch]
  split <;> rfl

def wokenState (chan : Option Chan) (x : Proc) : ProcState :=
  if x.state = .sleeping ∧ x.chan = chan then .runnable else x.state

theorem wakeup1_eq (chan : Option Chan) (proc : Nat → Proc) (q : Nat) :
    wakeup1 chan proc q = { proc q with state := wokenState chan (proc q) } := by
  rw [wakeup1, wokenState]
  split <;> rfl

theorem wokenState_cases (chan : Option Chan) (x : Proc) :
    wokenState chan x = x.state ∨
      x.state = .sleeping ∧ x.chan = chan ∧ wokenState chan x = .runnable := by
  rw [wokenState]
  split
  · next h => exact Or.inr ⟨h.1, h.2, rfl⟩
  · exact Or.inl rfl

/-- Some of the first `n` slots is a zombie child of `cur`. -/
def zombieChild (proc : Nat → Proc) (cur n : Nat) : Prop :=
  ∃ z, z < n ∧ (proc z).parent = some cur ∧ (proc z).state = .zombie

open Classical in
/-- A slot after the first `n` rounds of the loop of `exit`. -/
noncomputable def passed (proc : Nat → Proc) (cur init n q : Nat) : Proc :=
  { proc q with
    parent := if q < n ∧ (proc q).parent = some cur then some init else (proc q).parent
    state := if zombieChild proc cur n then wokenState (some (.proc init)) (proc q)
      else (proc q).state }

theorem zombieChild_succ {n : Nat} : zombieChild proc cur (n + 1) ↔
    zombieChild proc cur n ∨ (proc n).parent = some cur ∧ (proc n).state = .zombie := by
  constructor
  · rintro ⟨z, hz, h⟩
    by_cases hzn : z = n
    · exact Or.inr (hzn ▸ h)
    · exact Or.inl ⟨z, by omega, h⟩
  · rintro (⟨z, hz, h⟩ | h)
    · exact ⟨z, by omega, h⟩
    · exact ⟨n, by omega, h⟩

theorem passed_state_cases (proc : Nat → Proc) (cur init n q : Nat) :
    (passed proc cur init n q).state = (proc q).state ∨
      (proc q).state = .sleeping ∧ (proc q).chan = some (.proc init) ∧
        (passed proc cur init n q).state = .runnable := by
  rw [passed]
  split
  · exact wokenState_cases _ _
  · exact Or.inl rfl

theorem passed_state_zombie {n : Nat} : (passed proc cur init n q).state = .zombie ↔
    (proc q).state = .zombie := by
  rcases passed_state_cases proc cur init n q with h | ⟨h₁, -, h₂⟩
  · rw [h]
  · simp [h₁, h₂]

theorem passChild_eq (cur init : Nat) (proc : Nat → Proc) (n q : Nat) :
    passChild cur init proc n q = { proc q with
      parent := if q = n ∧ (proc n).parent = some cur then some init else (proc q).parent
      state := if (proc n).parent = some cur ∧ (proc n).state = .zombie then
        wokenState (some (.proc init)) (proc q) else (proc q).state } := by
  rw [passChild]
  by_cases hcur : (proc n).parent = some cur
  · by_cases hz : (proc n).state = .zombie
    · by_cases hq : q = n
      · subst hq
        simp [hcur, hz, wakeup1_eq, wokenState]
      · simp [hcur, hz, hq, wakeup1_eq, wokenState]
    · by_cases hq : q = n
      · subst hq
        simp [hcur, hz]
      · simp [hcur, hz, hq]
  · simp [hcur]

theorem wokenState_wokenState {x : Proc} :
    wokenState chan { x with state := wokenState chan x } = wokenState chan x := by
  rcases wokenState_cases chan x with h | ⟨-, -, h⟩
  · rw [h]
    exact h
  · rw [h]
    rfl

theorem passChild_passed (proc : Nat → Proc) (cur init n : Nat) :
    passChild cur init (passed proc cur init n) n = passed proc cur init (n + 1) := by
  classical
  have hparent : (passed proc cur init n n).parent = (proc n).parent := by
    simp [passed]
  funext q
  simp only [passChild_eq, hparent, passed_state_zombie]
  have hpar : (if q = n ∧ (proc n).parent = some cur then some init
      else (passed proc cur init n q).parent) = (passed proc cur init (n + 1) q).parent := by
    simp only [passed]
    by_cases hq : q = n
    · subst hq
      simp
    · have : q < n + 1 ↔ q < n := by omega
      simp [hq, this]
  have hst : (if (proc n).parent = some cur ∧ (proc n).state = .zombie then
      wokenState (some (.proc init)) (passed proc cur init n q)
      else (passed proc cur init n q).state) = (passed proc cur init (n + 1) q).state := by
    have hwoken : ∀ x : Proc, ∀ par st, wokenState (some (.proc init))
        { x with parent := par, state := st } =
          wokenState (some (.proc init)) { x with state := st } := fun _ _ _ => rfl
    simp only [passed, zombieChild_succ, hwoken]
    by_cases hz : (proc n).parent = some cur ∧ (proc n).state = .zombie
    · by_cases hold : zombieChild proc cur n
      · simp [hz, hold, wokenState_wokenState]
      · simp [hz, hold]
    · simp [hz]
  rw [hpar, hst]
  rfl

/-- **The table after `exit` has passed its children to `initproc`.** -/
theorem passChildren_eq (cur init : Nat) (proc : Nat → Proc) :
    passChildren cur init proc = passed proc cur init nproc := by
  have hloop : ∀ n, (List.range n).foldl (passChild cur init) proc =
      passed proc cur init n := by
    intro n
    induction n with
    | zero =>
      funext q
      simp [passed, zombieChild]
    | succ n ih =>
      rw [List.range_succ, List.foldl_append, ih]
      exact passChild_passed proc cur init n
  unfold passChildren
  exact hloop nproc

def Proc.kill (x : Proc) : Proc :=
  { x with killed := true, state := if x.state = .sleeping then .runnable else x.state }

theorem kill_cases (pid : Int32) (proc : Nat → Proc) :
    (∃ q, q < nproc ∧ (proc q).pid = pid ∧ (∀ j, j < q → (proc j).pid ≠ pid) ∧
      kill pid proc = (0, Function.update proc q (proc q).kill)) ∨
    (∀ q, q < nproc → (proc q).pid ≠ pid) ∧ kill pid proc = (-1, proc) := by
  rw [kill]
  cases h : findFrom (fun q => decide ((proc q).pid = pid)) 0 nproc with
  | some q =>
    obtain ⟨hq, -, hlt, hfirst⟩ := findFrom_eq_some.mp h
    refine Or.inl ⟨q, by omega, by simpa using hq, fun j hj => ?_, rfl⟩
    simpa using hfirst j (Nat.zero_le j) hj
  | none =>
    refine Or.inr ⟨fun q hq => ?_, rfl⟩
    simpa using findFrom_eq_none.mp h q (Nat.zero_le q) (by omega)

end Xv6.Sched
