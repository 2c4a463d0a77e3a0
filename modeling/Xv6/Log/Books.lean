import Xv6.Log.Recovery
import Mathlib.Data.Finset.Card

/-!
# The books of the log

What holds of every run of the log, whatever the size of transactions: `Ops` counts the active
operations and says who holds which buffer, `History` says where the recorded writes of an operation
are, and `Books` adds the state of the commit.
-/

namespace Xv6.Log

open Transition
open Function (update update_self update_of_ne)

variable {g : Geom} {s s' : LogState}

def OpState.Active : OpState → Prop
  | .running => True
  | .checked _ => True
  | _ => False

/-- Bookkeeping of the operations: `n` of them are active, and each locked buffer is locked
by exactly one operation inside `log_write`. -/
structure Ops (g : Geom) (op : Nat → OpState) (locked : Nat → Bool) (n : Nat) : Prop where
  checked : ∀ o b, op o = .checked b → ¬ g.InLog b ∧ b < 2 ^ 32 ∧ locked b = true
  owner : ∀ b, locked b = true → ∃ o, op o = .checked b
  unique : ∀ o o' b, op o = .checked b → op o' = .checked b → o = o'
  count : ∃ R : Finset Nat, (∀ o, o ∈ R ↔ (op o).Active) ∧ R.card = n

/-- Bookkeeping of the recorded history: the writes of an operation are all in the
transaction being assembled, or all in one committed transaction, or lost together. -/
structure History (op : Nat → OpState) (current : List Write) (durable : List (List Write))
    (opWrites : Nat → List Write) : Prop where
  fresh : ∀ o, op o = .fresh → opWrites o = [] ∧ (∀ w ∈ current, w.op ≠ o) ∧
    ∀ t ∈ durable, ∀ w ∈ t, w.op ≠ o
  pending : ∀ o, ((op o).Active ∨ ∃ w ∈ current, w.op = o) →
    opWrites o = current.filter (·.op = o) ∧ ∀ t ∈ durable, ∀ w ∈ t, w.op ≠ o
  committed : ∀ t ∈ durable, ∀ w ∈ t, t.filter (·.op = w.op) = opWrites w.op ∧
    op w.op = .ended

/-- The books of the machine: operations, recorded writes, and that a commit runs only when
no operation is active. -/
structure Books (g : Geom) (s : LogState) : Prop where
  ops : Ops g s.op s.locked s.outstanding
  history : History s.op s.current s.durable s.opWrites
  committing : s.committing = s.commit.isSome
  idle : s.commit ≠ none → s.outstanding = 0
  quiet : ∀ pc, s.status = .recovering pc → s.commit = none ∧ s.outstanding = 0 ∧ s.current = []

section Facts

variable {op : Nat → OpState} {locked : Nat → Bool} {n : Nat}

theorem Ops.not_active (h : Ops g op locked 0) (o : Nat) : ¬ (op o).Active := by
  obtain ⟨R, hR, hcard⟩ := h.count
  have hR0 : R = ∅ := Finset.card_eq_zero.mp hcard
  intro ho
  have hmem := (hR o).mpr ho
  simp [hR0] at hmem

theorem Ops.not_locked (h : Ops g op locked 0) (b : Nat) : locked b = false := by
  by_contra hb
  obtain ⟨o, ho⟩ := h.owner b (by simpa using hb)
  exact h.not_active o (by rw [ho]; trivial)

variable {o : Nat} {x : OpState}

/-- An operation outside `log_write` changes to another such state: the buffer locks are
untouched, and only the count needs to be done again. -/
theorem Ops.set_op (h : Ops g op locked n) {m : Nat} (hx : ∀ b, x ≠ .checked b)
    (hold : ∀ b, op o ≠ .checked b)
    (hcount : ∀ R : Finset Nat, (∀ p, p ∈ R ↔ (op p).Active) → R.card = n →
      ∃ R' : Finset Nat, (∀ p, p ∈ R' ↔ (update op o x p).Active) ∧ R'.card = m) :
    Ops g (update op o x) locked m := by
  have hne : ∀ p b, update op o x p = .checked b → op p = .checked b := by
    intro p b hp
    by_cases hpo : p = o
    · subst hpo
      rw [update_self] at hp
      exact absurd hp (hx b)
    · rwa [update_of_ne hpo] at hp
  refine ⟨fun p b hp => h.checked p b (hne p b hp), ?_, ?_, ?_⟩
  · intro b hb
    obtain ⟨p, hp⟩ := h.owner b hb
    have hpo : p ≠ o := fun e => hold b (e ▸ hp)
    exact ⟨p, (update_of_ne hpo _ _).trans hp⟩
  · intro p q b hp hq
    exact h.unique p q b (hne p b hp) (hne q b hq)
  · obtain ⟨R, hR, hcard⟩ := h.count
    exact hcount R hR hcard

theorem Ops.beginOp (h : Ops g op locked n) (ho : op o = .fresh) :
    Ops g (update op o .running) locked (n + 1) := by
  apply h.set_op (by simp) (by simp [ho])
  intro R hR hcard
  have hmem : o ∉ R := by
    rw [hR, ho]
    exact id
  refine ⟨insert o R, ?_, by rw [Finset.card_insert_of_notMem hmem, hcard]⟩
  intro p
  by_cases hpo : p = o
  · subst hpo
    simp [OpState.Active]
  · rw [update_of_ne hpo, ← hR p]
    simp [hpo]

theorem Ops.endOp (h : Ops g op locked n) (ho : op o = .running) :
    Ops g (update op o .ended) locked (n - 1) := by
  apply h.set_op (by simp) (by simp [ho])
  intro R hR hcard
  have hmem : o ∈ R := by
    rw [hR, ho]
    trivial
  refine ⟨R.erase o, ?_, by rw [Finset.card_erase_of_mem hmem, hcard]⟩
  intro p
  by_cases hpo : p = o
  · subst hpo
    simp [OpState.Active]
  · rw [update_of_ne hpo, ← hR p]
    simp [hpo]

theorem active_update {p : Nat} (hx : x.Active) (ho : (op o).Active) :
    (update op o x p).Active ↔ (op p).Active := by
  by_cases hpo : p = o
  · subst hpo
    rw [update_self]
    exact ⟨fun _ => ho, fun _ => hx⟩
  · rw [update_of_ne hpo]

theorem Ops.check (h : Ops g op locked n) {b : Nat} (ho : op o = .running)
    (hb : locked b = false) (hlt : b < 2 ^ 32) (hin : ¬ g.InLog b) :
    Ops g (update op o (.checked b)) (update locked b true) n := by
  have hfree : ∀ p, op p ≠ .checked b := by
    intro p hp
    have := (h.checked p b hp).2.2
    simp [hb] at this
  refine ⟨?_, ?_, ?_, ?_⟩
  · intro p c hp
    by_cases hpo : p = o
    · rw [hpo, update_self, OpState.checked.injEq] at hp
      subst hp
      exact ⟨hin, hlt, update_self ..⟩
    · rw [update_of_ne hpo] at hp
      have hne : c ≠ b := fun e => hfree p (e ▸ hp)
      obtain ⟨h₁, h₂, h₃⟩ := h.checked p c hp
      exact ⟨h₁, h₂, (update_of_ne hne _ _).trans h₃⟩
  · intro c hc
    by_cases hcb : c = b
    · exact ⟨o, by simp [hcb]⟩
    · rw [update_of_ne hcb] at hc
      obtain ⟨p, hp⟩ := h.owner c hc
      have hpo : p ≠ o := fun e => by simp [← e, hp] at ho
      exact ⟨p, (update_of_ne hpo _ _).trans hp⟩
  · intro p q c hp hq
    by_cases hpo : p = o <;> by_cases hqo : q = o
    · rw [hpo, hqo]
    · rw [hpo, update_self, OpState.checked.injEq] at hp
      rw [update_of_ne hqo, ← hp] at hq
      exact absurd hq (hfree q)
    · rw [hqo, update_self, OpState.checked.injEq] at hq
      rw [update_of_ne hpo, ← hq] at hp
      exact absurd hp (hfree p)
    · rw [update_of_ne hpo] at hp
      rw [update_of_ne hqo] at hq
      exact h.unique p q c hp hq
  · obtain ⟨R, hR, hcard⟩ := h.count
    exact ⟨R, fun p => (hR p).trans
      (active_update (x := .checked b) trivial (by rw [ho]; trivial)).symm, hcard⟩

theorem Ops.insert (h : Ops g op locked n) {b : Nat} (ho : op o = .checked b) :
    Ops g (update op o .running) (update locked b false) n := by
  have hold : ∀ p c, update op o .running p = .checked c → p ≠ o ∧ op p = .checked c := by
    intro p c hp
    by_cases hpo : p = o
    · simp [hpo] at hp
    · exact ⟨hpo, by rwa [update_of_ne hpo] at hp⟩
  refine ⟨?_, ?_, ?_, ?_⟩
  · intro p c hp
    obtain ⟨hpo, hp⟩ := hold p c hp
    have hne : c ≠ b := fun e => hpo (h.unique p o b (e ▸ hp) ho)
    obtain ⟨h₁, h₂, h₃⟩ := h.checked p c hp
    exact ⟨h₁, h₂, (update_of_ne hne _ _).trans h₃⟩
  · intro c hc
    by_cases hcb : c = b
    · simp [hcb] at hc
    · rw [update_of_ne hcb] at hc
      obtain ⟨p, hp⟩ := h.owner c hc
      have hpo : p ≠ o := by
        intro e
        rw [e, ho, OpState.checked.injEq] at hp
        exact hcb hp.symm
      exact ⟨p, (update_of_ne hpo _ _).trans hp⟩
  · intro p q c hp hq
    exact h.unique p q c (hold p c hp).2 (hold q c hq).2
  · obtain ⟨R, hR, hcard⟩ := h.count
    exact ⟨R, fun p => (hR p).trans
      (active_update (x := .running) trivial (by rw [ho]; trivial)).symm, hcard⟩

theorem ops_crash (op : Nat → OpState) :
    Ops g (fun o => if op o = .fresh then .fresh else .ended) (fun _ => false) 0 := by
  have hne : ∀ o b, (if op o = .fresh then OpState.fresh else .ended) ≠ .checked b := by
    intro o b
    split <;> simp
  refine ⟨fun o b h => absurd h (hne o b), by simp, fun o _ b h => absurd h (hne o b), ∅, ?_, rfl⟩
  intro o
  split <;> simp [OpState.Active]

variable {current : List Write} {durable : List (List Write)} {opWrites : Nat → List Write}

section

variable (h : History op current durable opWrites)

include h

theorem History.beginOp
    (ho : op o = .fresh) : History (update op o .running) current durable opWrites := by
  obtain ⟨hw, hcur, hdur⟩ := h.fresh o ho
  refine ⟨?_, ?_, ?_⟩
  · intro p hp
    have hpo : p ≠ o := fun e => by simp [e] at hp
    exact h.fresh p (by rwa [update_of_ne hpo] at hp)
  · intro p hp
    by_cases hpo : p = o
    · subst hpo
      refine ⟨?_, hdur⟩
      rw [hw, eq_comm, List.filter_eq_nil_iff]
      intro w hmem
      simpa using hcur w hmem
    · rw [update_of_ne hpo] at hp
      exact h.pending p hp
  · intro t ht w hmem
    have hpo : w.op ≠ o := hdur t ht w hmem
    rw [update_of_ne hpo]
    exact h.committed t ht w hmem

/-- An active operation stays active, or ends: its recorded writes stay where they are. -/
theorem History.set_op (ho : (op o).Active) (hx : x ≠ .fresh) :
    History (update op o x) current durable opWrites := by
  refine ⟨?_, ?_, ?_⟩
  · intro p hp
    have hpo : p ≠ o := fun e => by simp [e, hx] at hp
    exact h.fresh p (by rwa [update_of_ne hpo] at hp)
  · intro p hp
    by_cases hpo : p = o
    · exact h.pending p (Or.inl (hpo ▸ ho))
    · rw [update_of_ne hpo] at hp
      exact h.pending p hp
  · intro t ht w hmem
    have hend := (h.committed t ht w hmem).2
    have hpo : w.op ≠ o := by
      intro e
      rw [e] at hend
      rw [hend] at ho
      exact ho
    rw [update_of_ne hpo]
    exact h.committed t ht w hmem

/-- `log_write` adds one write to its operation and to the current transaction. -/
theorem History.write {w : Write} (ho : (op w.op).Active) :
    History op (current ++ [w]) durable
      (update opWrites w.op (opWrites w.op ++ [w])) := by
  obtain ⟨hw, hdur⟩ := h.pending w.op (Or.inl ho)
  refine ⟨?_, ?_, ?_⟩
  · intro p hp
    have hpo : p ≠ w.op := fun e => by simp [← e, hp, OpState.Active] at ho
    obtain ⟨h₁, h₂, h₃⟩ := h.fresh p hp
    refine ⟨(update_of_ne hpo _ _).trans h₁, ?_, h₃⟩
    intro v hv
    rcases List.mem_append.mp hv with hv | hv
    · exact h₂ v hv
    · rw [List.mem_singleton.mp hv]
      exact hpo.symm
  · intro p hp
    by_cases hpo : p = w.op
    · subst hpo
      refine ⟨?_, hdur⟩
      rw [update_self, List.filter_append, hw]
      simp
    · have hp' : (op p).Active ∨ ∃ v ∈ current, v.op = p := by
        rcases hp with hp | ⟨v, hv, hvp⟩
        · exact Or.inl hp
        · rcases List.mem_append.mp hv with hv | hv
          · exact Or.inr ⟨v, hv, hvp⟩
          · rw [List.mem_singleton.mp hv] at hvp
            exact absurd hvp.symm hpo
      obtain ⟨h₁, h₂⟩ := h.pending p hp'
      refine ⟨?_, h₂⟩
      rw [update_of_ne hpo, h₁, List.filter_append]
      simp [Ne.symm hpo]
  · intro t ht v hv
    have hpo : v.op ≠ w.op := hdur t ht v hv
    rw [update_of_ne hpo]
    exact h.committed t ht v hv

/-- At the commit point the current transaction joins the committed ones. -/
theorem History.commit
    (hidle : ∀ o, ¬ (op o).Active) : History op [] (durable ++ [current]) opWrites := by
  have hend : ∀ w ∈ current, op w.op = .ended := by
    intro w hw
    have hfresh : op w.op ≠ .fresh := fun e => (h.fresh w.op e).2.1 w hw rfl
    have hact := hidle w.op
    cases ho : op w.op <;> simp_all [OpState.Active]
  refine ⟨?_, ?_, ?_⟩
  · intro o ho
    obtain ⟨h₁, h₂, h₃⟩ := h.fresh o ho
    refine ⟨h₁, by simp, ?_⟩
    intro t ht w hw
    rcases List.mem_append.mp ht with ht | ht
    · exact h₃ t ht w hw
    · exact h₂ w (List.mem_singleton.mp ht ▸ hw)
  · rintro o (ho | ⟨w, hw, -⟩)
    · exact absurd ho (hidle o)
    · simp at hw
  · intro t ht w hw
    rcases List.mem_append.mp ht with ht | ht
    · exact h.committed t ht w hw
    · rw [List.mem_singleton] at ht
      subst ht
      exact ⟨(h.pending w.op (Or.inr ⟨w, hw, rfl⟩)).1.symm, hend w hw⟩

theorem History.crash :
    History (fun o => if op o = .fresh then .fresh else .ended) [] durable opWrites := by
  refine ⟨?_, ?_, ?_⟩
  · intro o ho
    have ho' : op o = .fresh := by
      by_contra hne
      simp [hne] at ho
    obtain ⟨h₁, _, h₃⟩ := h.fresh o ho'
    exact ⟨h₁, by simp, h₃⟩
  · rintro o (ho | ⟨w, hw, -⟩)
    · split at ho <;> exact absurd ho id
    · simp at hw
  · intro t ht w hw
    obtain ⟨h₁, h₂⟩ := h.committed t ht w hw
    exact ⟨h₁, by simp [h₂]⟩

/-- Every operation is wholly in one committed transaction, or in none. -/
theorem History.all_or_none (o : Nat) :
    (∀ t ∈ durable, ∀ w ∈ t, w.op ≠ o) ∨
      ∃ t ∈ durable, t.filter (·.op = o) = opWrites o := by
  by_cases hex : ∃ t ∈ durable, ∃ w ∈ t, w.op = o
  · obtain ⟨t, ht, w, hw, rfl⟩ := hex
    exact Or.inr ⟨t, ht, (h.committed t ht w hw).1⟩
  · push Not at hex
    exact Or.inl hex

end

end Facts

theorem step_cases {a : Action} (ht : step g s a = some s') :
    (a = .crash ∧ s' = crash s) ∨
    (s.status = .up ∧
      ((∃ o, a = .beginOp o ∧ beginOp s o = some s') ∨
        (∃ o b data, a = .logWriteCheck o b data ∧ logWriteCheck g s o b data = some s') ∨
        (∃ o, a = .logWriteInsert o ∧ logWriteInsert s o = some s') ∨
        (∃ o, a = .endOp o ∧ endOp s o = some s') ∨
        (a = .commitStep ∧ commitStep g s = some s'))) ∨
    ∃ pc, s.status = .recovering pc ∧ a = .recoverStep ∧ s' = recoverStep g s pc := by
  unfold step at ht
  split at ht
  · exact Or.inl ⟨rfl, by simpa using ht.symm⟩
  · exact Or.inr (Or.inl ⟨by assumption, Or.inl ⟨_, rfl, ht⟩⟩)
  · exact Or.inr (Or.inl ⟨by assumption, Or.inr (Or.inl ⟨_, _, _, rfl, ht⟩)⟩)
  · exact Or.inr (Or.inl ⟨by assumption, Or.inr (Or.inr (Or.inl ⟨_, rfl, ht⟩))⟩)
  · exact Or.inr (Or.inl ⟨by assumption, Or.inr (Or.inr (Or.inr (Or.inl ⟨_, rfl, ht⟩)))⟩)
  · exact Or.inr (Or.inl ⟨by assumption, Or.inr (Or.inr (Or.inr (Or.inr ⟨rfl, ht⟩)))⟩)
  · exact Or.inr (Or.inr ⟨_, by assumption, rfl, by simpa using ht.symm⟩)
  · simp at ht

section

variable (h : Books g s)

include h

theorem Books.no_commit {o : Nat} (ho : (s.op o).Active) :
    s.commit = none ∧ s.committing = false := by
  have hnone : s.commit = none := by
    by_contra hc
    exact (h.idle hc ▸ h.ops).not_active o ho
  exact ⟨hnone, by rw [h.committing, hnone]; rfl⟩

/-- While a commit runs, no operation is active and no buffer is locked. -/
theorem Books.ops_zero (hc : s.commit ≠ none) : Ops g s.op s.locked 0 :=
  h.idle hc ▸ h.ops

theorem Books.beginOp (hs : s.status = .up) {o : Nat}
    (ht : beginOp s o = some s') : Books g s' := by
  rw [Log.beginOp] at ht
  split at ht
  · rename_i hcond
    cases ht
    have hnone : s.commit = none := by
      have hc := h.committing
      rw [hcond.2.1] at hc
      simpa using hc.symm
    exact ⟨h.ops.beginOp hcond.1, h.history.beginOp hcond.1, h.committing,
      fun hc => absurd hnone hc, fun pc hpc => by simp [hs] at hpc⟩
  · simp at ht

theorem Books.logWriteCheck (hs : s.status = .up) {o b : Nat} {data : Block}
    (ht : logWriteCheck g s o b data = some s') : Books g s' := by
  rw [Log.logWriteCheck] at ht
  split_ifs at ht with hcond hbig hout <;> cases ht
  · exact ⟨h.ops, h.history, h.committing, h.idle, by simp⟩
  · exact ⟨h.ops, h.history, h.committing, h.idle, by simp⟩
  · obtain ⟨ho, hb, hlt, hin⟩ := hcond
    exact ⟨h.ops.check ho hb hlt hin, h.history.set_op (by rw [ho]; trivial) (by simp),
      h.committing, h.idle, fun pc hpc => by simp [hs] at hpc⟩

theorem Books.logWriteInsert (hs : s.status = .up) {o : Nat}
    (ht : logWriteInsert s o = some s') : Books g s' := by
  rw [Log.logWriteInsert] at ht
  split at ht <;> cases ht
  rename_i b ho
  have hact : (s.op o).Active := by rw [ho]; trivial
  have hw := h.history.write (w := ⟨o, b, s.cache b⟩) hact
  exact ⟨h.ops.insert ho, hw.set_op hact (by simp), h.committing, h.idle,
    fun pc hpc => by simp [hs] at hpc⟩

theorem Books.endOp (hs : s.status = .up) {o : Nat} (ht : endOp s o = some s') : Books g s' := by
  rw [Log.endOp] at ht
  split at ht
  · rename_i ho
    have hact : (s.op o).Active := by rw [ho]; trivial
    obtain ⟨hnone, hm⟩ := h.no_commit hact
    have hh := h.history.set_op (x := .ended) hact (by simp)
    simp only [hm, Bool.false_eq_true, if_false] at ht
    split at ht <;> cases ht
    · rename_i h0
      exact ⟨h.ops.endOp ho, hh, rfl, fun _ => h0, fun pc hpc => by simp [hs] at hpc⟩
    · exact ⟨h.ops.endOp ho, hh, by simp [hnone], fun hc => absurd hnone hc,
        fun pc hpc => by simp [hs] at hpc⟩
  · simp at ht

theorem Books.commitStep (hs : s.status = .up) (ht : commitStep g s = some s') : Books g s' := by
  have hup : ∀ pc, s.status ≠ .recovering pc := by simp [hs]
  rw [Log.commitStep] at ht
  split at ht
  · rename_i tail hpc
    have h0 := h.idle (by simp [hpc])
    have hm := h.committing.trans (by rw [hpc]; rfl : s.commit.isSome = true)
    split at ht
    · cases ht
      exact ⟨h.ops, h.history, h.committing, h.idle, by simp⟩
    split at ht <;> cases ht
    · exact ⟨h.ops, h.history, hm, fun _ => h0, fun pc hp => absurd hp (hup pc)⟩
    · exact ⟨h.ops, h.history.commit (h0 ▸ h.ops).not_active, hm, fun _ => h0,
        fun pc hp => absurd hp (hup pc)⟩
  · rename_i tail hpc
    have h0 := h.idle (by simp [hpc])
    have hm := h.committing.trans (by rw [hpc]; rfl : s.commit.isSome = true)
    split at ht <;> cases ht
    · exact ⟨h.ops, h.history, hm, fun _ => h0, fun pc hp => absurd hp (hup pc)⟩
    · exact ⟨h.ops, h.history, hm, fun _ => h0, fun pc hp => absurd hp (hup pc)⟩
  · cases ht
    exact ⟨h.ops, h.history, rfl, by simp, fun pc hp => absurd hp (hup pc)⟩
  · simp at ht

theorem Books.crash : Books g (crash s) :=
  ⟨ops_crash s.op, h.history.crash, rfl, by simp [Log.crash], fun _ _ => ⟨rfl, rfl, rfl⟩⟩

theorem Books.recoverStep {pc : RecoverPc} (hs : s.status = .recovering pc) :
    Books g (recoverStep g s pc) := by
  obtain ⟨hc, h0, hcur⟩ := h.quiet pc hs
  have hq : ∀ t : LogState, t.op = s.op → t.locked = s.locked → t.outstanding = s.outstanding →
      t.current = s.current → t.durable = s.durable → t.opWrites = s.opWrites →
      t.committing = s.committing → t.commit = s.commit → Books g t := by
    intro t h₁ h₂ h₃ h₄ h₅ h₆ h₇ h₈
    refine ⟨?_, ?_, by rw [h₇, h₈]; exact h.committing, by rw [h₈, h₃]; exact h.idle, ?_⟩
    · rw [h₁, h₂, h₃]; exact h.ops
    · rw [h₁, h₄, h₅, h₆]; exact h.history
    · intro _ _
      rw [h₈, h₃, h₄]
      exact ⟨hc, h0, hcur⟩
  cases pc with
  | readHead => exact hq _ rfl rfl rfl rfl rfl rfl rfl rfl
  | install tail =>
    rw [Log.recoverStep]
    split <;> exact hq _ rfl rfl rfl rfl rfl rfl rfl rfl

/-- **Every step keeps the books.** -/
theorem Books.step {a : Action} (ht : step g s a = some s') : Books g s' := by
  obtain ⟨-, rfl⟩ | ⟨hs, hup⟩ | ⟨pc, hs, -, rfl⟩ := step_cases ht
  · exact h.crash
  · obtain ⟨o, -, hu⟩ | ⟨o, b, data, -, hu⟩ | ⟨o, -, hu⟩ | ⟨o, -, hu⟩ | ⟨-, hu⟩ := hup
    · exact h.beginOp hs hu
    · exact h.logWriteCheck hs hu
    · exact h.logWriteInsert hs hu
    · exact h.endOp hs hu
    · exact h.commitStep hs hu
  · exact h.recoverStep hs

end

theorem Books.boot (g : Geom) (base : Disk) : Books g (boot base) := by
  have hops : Ops g (Log.boot base).op (Log.boot base).locked (Log.boot base).outstanding :=
    ops_crash fun _ => .fresh
  refine ⟨hops, ?_, rfl, by simp [Log.boot], fun _ _ => ⟨rfl, rfl, rfl⟩⟩
  exact ⟨by simp [Log.boot], by simp [Log.boot, OpState.Active], by simp [Log.boot]⟩

end Xv6.Log
