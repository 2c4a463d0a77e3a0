import Xv6.Log.CrashAtomic
import Mathlib.Algebra.BigOperators.Group.Finset.Basic
import Mathlib.Algebra.Order.BigOperators.Group.Finset

/-!
# Log reservation

`begin_op` admits an operation only if the log could still take `MAXOPBLOCKS` blocks of every
admitted operation. But the log that `mkfs` lays out has `LOGSIZE` blocks with its header, and
`log_write` refuses a write as soon as the header holds one block less, even a write to a block that
is already there.
-/

namespace Xv6.Log

open Transition

variable {g : Geom} {s s' : LogState}

@[simp] def tooBig : String := "too big a transaction"

def blocksOf (ws : List Write) : Finset Nat := (ws.map (·.block)).toFinset

/-- The operation that calls `log_write` has passed it at most `MAXOPBLOCKS` distinct blocks,
this one included. -/
def opBounded (s : LogState) : Action → Bool
  | .logWriteCheck o b _ => (insert b (blocksOf (s.opWrites o))).card ≤ maxOpBlocks
  | _ => true

/-- `log_write` is called in a transaction with fewer than `LOGSIZE - 1` distinct blocks. -/
def logHasRoom (s : LogState) : Action → Bool
  | .logWriteCheck _ _ _ => (blocksOf s.current).card < logSize - 1
  | _ => true

theorem blocksOf_concat (ws : List Write) (w : Write) :
    blocksOf (ws ++ [w]) = insert w.block (blocksOf ws) := by
  ext b
  simp [blocksOf]

variable {ws : List Write} {b : Nat}

theorem mem_blocksOf : b ∈ blocksOf ws ↔ ∃ w ∈ ws, w.block = b := by
  simp [blocksOf]

theorem blocksOf_filter_subset (ws : List Write) (o : Nat) :
    blocksOf (ws.filter (·.op = o)) ⊆ blocksOf ws := by
  intro b hb
  obtain ⟨w, hw, hwb⟩ := mem_blocksOf.mp hb
  exact mem_blocksOf.mpr ⟨w, List.mem_of_mem_filter hw, hwb⟩

/-- The header has exactly the blocks of the writes, without repetition. -/
def Lists (lh : List Nat) (ws : List Write) : Prop := lh.Nodup ∧ lh.toFinset = blocksOf ws

variable {lh : List Nat}

theorem Lists.length (h : Lists lh ws) : lh.length = (blocksOf ws).card := by
  rw [← h.2, List.toFinset_card_of_nodup h.1]

theorem Lists.mem (h : Lists lh ws) : b ∈ lh ↔ b ∈ blocksOf ws := by
  rw [← h.2, List.mem_toFinset]

/-- Absorption: one more write, and its block if it is new. -/
theorem Lists.insert (h : Lists lh ws) (w : Write) :
    Lists (if w.block ∈ lh then lh else lh ++ [w.block]) (ws ++ [w]) := by
  rw [Lists, blocksOf_concat]
  split
  · rename_i hb
    exact ⟨h.1, by rw [h.2, Finset.insert_eq_of_mem (h.mem.mp hb)]⟩
  · rename_i hb
    refine ⟨List.nodup_append.mpr ⟨h.1, by simp, ?_⟩, ?_⟩
    · intro c hc d hd e
      rw [List.mem_singleton] at hd
      exact hb (hd ▸ e ▸ hc)
    · ext c
      simp [← h.2]

/-- The header and the transaction agree while operations can run. -/
def Synced (s : LogState) : Prop :=
  s.status = .up → match s.commit with
    | none => Lists s.lh s.current
    | some (.writeLog _) => True
    | some (.install _) => s.current = []
    | some .finish => s.lh = [] ∧ s.current = []

theorem lists_nil : Lists [] [] := ⟨List.nodup_nil, rfl⟩

theorem Lists.eq_nil (h : Lists [] ws) : ws = [] := by
  have h0 : blocksOf ws = ∅ := h.2.symm
  cases ws with
  | nil => rfl
  | cons w ws =>
    have hw : w.block ∈ blocksOf (w :: ws) := mem_blocksOf.mpr ⟨w, List.mem_cons_self, rfl⟩
    simp [h0] at hw

variable {a : Action}

theorem Synced.step (hb : Books g s) (h : Synced s) (ht : step g s a = some s') : Synced s' := by
  obtain ⟨-, rfl⟩ | ⟨hs, hup⟩ | ⟨pc, hs, -, rfl⟩ := step_cases ht
  · intro hst
    simp [crash] at hst
  · replace h := h hs
    obtain ⟨o, -, hu⟩ | ⟨o, b, data, -, hu⟩ | ⟨o, -, hu⟩ | ⟨o, -, hu⟩ | ⟨-, hu⟩ := hup
    · rw [beginOp] at hu
      split at hu <;> cases hu
      exact fun _ => h
    · rw [logWriteCheck] at hu
      split_ifs at hu <;> cases hu
      · exact fun hst => by simp at hst
      · exact fun hst => by simp at hst
      · exact fun _ => h
    · rw [logWriteInsert] at hu
      split at hu <;> cases hu
      rename_i b ho
      have hnone := (hb.no_commit (o := o) (by rw [ho]; trivial)).1
      rw [hnone] at h
      intro _
      simp only [hnone]
      exact Lists.insert h ⟨o, b, s.cache b⟩
    · rw [endOp] at hu
      split at hu
      · rename_i ho
        obtain ⟨hnone, hm⟩ := hb.no_commit (o := o) (by rw [ho]; trivial)
        rw [hnone] at h
        simp only [hm, Bool.false_eq_true, if_false] at hu
        split at hu <;> cases hu
        · intro _
          by_cases hl : 0 < s.lh.length
          · simp [hl]
          · have hlh : s.lh = [] := by simpa using hl
            have hcur : s.current = [] := Lists.eq_nil (hlh ▸ h)
            simp [hlh, hcur]
        · intro _
          simpa only [hnone] using h
      · simp at hu
    · rw [commitStep] at hu
      split at hu
      · split_ifs at hu
        · cases hu
          exact fun hst => by simp at hst
        split at hu <;> cases hu
        · exact fun _ => trivial
        · exact fun _ => rfl
      · rename_i hpc
        rw [hpc] at h
        split at hu <;> cases hu
        · exact fun _ => h
        · exact fun _ => ⟨rfl, h⟩
      · rename_i hpc
        rw [hpc] at h
        cases hu
        intro _
        simp only [h.1, h.2]
        exact lists_nil
      · simp at hu
  · obtain ⟨hnone, -, hcur⟩ := hb.quiet pc hs
    cases pc with
    | readHead => exact fun hst => by simp [recoverStep] at hst
    | install tail =>
      rw [recoverStep]
      split
      · exact fun hst => by simp at hst
      · intro _
        simp only [LogState.writeHead, LogState.bwrite, hnone, hcur]
        exact lists_nil

def allowance (ow : Nat → List Write) (o : Nat) : Nat := maxOpBlocks - (blocksOf (ow o)).card

/-- The header and the allowances of the active operations fit in `LOGSIZE` blocks. -/
structure Budget (s : LogState) : Prop where
  within : s.status = .up → s.commit = none →
    ∃ R : Finset Nat, (∀ o, o ∈ R ↔ (s.op o).Active) ∧ R.card = s.outstanding ∧
      s.lh.length + ∑ o ∈ R, allowance s.opWrites o ≤ logSize
  checked : ∀ o b, s.op o = .checked b →
    (insert b (blocksOf (s.opWrites o))).card ≤ maxOpBlocks

theorem budget_empty (hb : Ops g s.op s.locked s.outstanding) (h0 : s.outstanding = 0)
    (hlh : s.lh = []) : ∃ R : Finset Nat, (∀ o, o ∈ R ↔ (s.op o).Active) ∧
      R.card = s.outstanding ∧ s.lh.length + ∑ o ∈ R, allowance s.opWrites o ≤ logSize := by
  obtain ⟨R, hR, hcard⟩ := hb.count
  have hR0 : R = ∅ := Finset.card_eq_zero.mp (hcard.trans h0)
  exact ⟨R, hR, hcard, by simp [hlh, hR0]⟩

variable {o : Nat}

/-- `begin_op` reserves `MAXOPBLOCKS` blocks for the operation it admits. -/
theorem Budget.beginOp (hb : Books g s) (h : Budget s) (hs : s.status = .up)
    (ht : beginOp s o = some s') : Budget s' := by
  have hbooks := hb.beginOp hs ht
  rw [Log.beginOp] at ht
  split at ht <;> cases ht
  rename_i hcond
  refine ⟨fun _ _ => ?_, ?_⟩
  · obtain ⟨R, hR, hcard⟩ := hbooks.ops.count
    refine ⟨R, hR, hcard, ?_⟩
    have hsum : ∑ p ∈ R, allowance s.opWrites p ≤ R.card * maxOpBlocks :=
      Finset.sum_le_card_nsmul R _ _ fun p _ => Nat.sub_le _ _
    rw [hcard] at hsum
    exact (Nat.add_le_add_left hsum _).trans hcond.2.2
  · intro p b hp
    have hpo : p ≠ o := fun e => by simp [e] at hp
    exact h.checked p b (by simpa [Function.update_of_ne hpo] using hp)

theorem Budget.logWriteCheck (h : Budget s) {data : Block}
    (hbound : opBounded s (.logWriteCheck o b data) = true)
    (ht : logWriteCheck g s o b data = some s') : Budget s' := by
  rw [Log.logWriteCheck] at ht
  split_ifs at ht with hcond hbig hout <;> cases ht
  · exact ⟨fun hst => by simp at hst, h.checked⟩
  · exact ⟨fun hst => by simp at hst, h.checked⟩
  · refine ⟨fun hst hc => ?_, ?_⟩
    · obtain ⟨R, hR, hcard, hsum⟩ := h.within hst hc
      refine ⟨R, fun p => (hR p).trans (active_update (x := .checked b) trivial ?_).symm, hcard,
        hsum⟩
      rw [hcond.1]
      trivial
    · intro p c hp
      by_cases hpo : p = o
      · subst hpo
        have hbc : b = c := by simpa using hp
        subst hbc
        exact of_decide_eq_true hbound
      · exact h.checked p c (by simpa [Function.update_of_ne hpo] using hp)

/-- A new block in the header is paid for by the allowance of the operation that logs it. -/
theorem Budget.logWriteInsert (hb : Books g s) (hsync : Synced s) (h : Budget s)
    (hs : s.status = .up) (ht : logWriteInsert s o = some s') : Budget s' := by
  rw [Log.logWriteInsert] at ht
  split at ht <;> cases ht
  rename_i b ho
  have hact : (s.op o).Active := by rw [ho]; trivial
  have hnone := (hb.no_commit hact).1
  have hlist : Lists s.lh s.current := by
    have := hsync hs
    rwa [hnone] at this
  have hsub : blocksOf (s.opWrites o) ⊆ blocksOf s.current := by
    rw [(hb.history.pending o (Or.inl hact)).1]
    exact blocksOf_filter_subset _ _
  refine ⟨fun _ _ => ?_, ?_⟩
  · obtain ⟨R, hR, hcard, hsum⟩ := h.within hs hnone
    refine ⟨R, fun p => (hR p).trans (active_update (x := .running) trivial hact).symm, hcard, ?_⟩
    have hoR : o ∈ R := (hR o).mpr hact
    have hrest : ∑ p ∈ R.erase o, allowance
          (Function.update s.opWrites o (s.opWrites o ++ [⟨o, b, s.cache b⟩])) p =
        ∑ p ∈ R.erase o, allowance s.opWrites p := by
      refine Finset.sum_congr rfl fun p hp => ?_
      rw [allowance, Function.update_of_ne (Finset.ne_of_mem_erase hp), ← allowance]
    have hmax := h.checked o b ho
    rw [← Finset.add_sum_erase R _ hoR] at hsum ⊢
    rw [hrest]
    simp only [allowance, Function.update_self, blocksOf_concat] at hsum ⊢
    by_cases hlh : b ∈ s.lh
    · -- absorbed: the header stays, the allowance can only shrink
      have hle := Finset.card_le_card (Finset.subset_insert b (blocksOf (s.opWrites o)))
      simp only [hlh, if_true]
      omega
    · have hnew : b ∉ blocksOf (s.opWrites o) := fun hmem => hlh (hlist.mem.mpr (hsub hmem))
      rw [Finset.card_insert_of_notMem hnew] at hmax ⊢
      simp only [hlh, if_false, List.length_append, List.length_singleton]
      omega
  · intro p c hp
    have hpo : p ≠ o := fun e => by simp [e] at hp
    simp only [Function.update_of_ne hpo] at hp ⊢
    exact h.checked p c hp

theorem Budget.endOp (hb : Books g s) (h : Budget s) (hs : s.status = .up)
    (ht : endOp s o = some s') : Budget s' := by
  have hchk : ∀ p b, Function.update s.op o .ended p = .checked b →
      (insert b (blocksOf (s.opWrites p))).card ≤ maxOpBlocks := by
    intro p b hp
    have hpo : p ≠ o := fun e => by simp [e] at hp
    exact h.checked p b (by rwa [Function.update_of_ne hpo] at hp)
  rw [Log.endOp] at ht
  split at ht
  · rename_i ho
    have hact : (s.op o).Active := by rw [ho]; trivial
    obtain ⟨hnone, hm⟩ := hb.no_commit hact
    simp only [hm, Bool.false_eq_true, if_false] at ht
    split at ht <;> cases ht
    · exact ⟨fun _ hc => by simp at hc, hchk⟩
    · refine ⟨fun _ _ => ?_, hchk⟩
      obtain ⟨R, hR, hcard, hsum⟩ := h.within hs hnone
      have hoR : o ∈ R := (hR o).mpr hact
      refine ⟨R.erase o, ?_, by rw [Finset.card_erase_of_mem hoR, hcard], ?_⟩
      · intro p
        by_cases hpo : p = o
        · subst hpo
          simp [OpState.Active]
        · simp [← hR p, hpo]
      · rw [← Finset.add_sum_erase R _ hoR] at hsum
        dsimp only
        omega
  · simp at ht

theorem Budget.commitStep (hb : Books g s) (hsync : Synced s) (h : Budget s)
    (hs : s.status = .up) (ht : commitStep g s = some s') : Budget s' := by
  have hbooks := hb.commitStep hs ht
  rw [Log.commitStep] at ht
  split at ht
  · split_ifs at ht
    · cases ht
      exact ⟨fun hst => by simp at hst, h.checked⟩
    split at ht <;> cases ht
    · exact ⟨fun _ hc => by simp at hc, h.checked⟩
    · exact ⟨fun _ hc => by simp at hc, h.checked⟩
  · split at ht <;> cases ht
    · exact ⟨fun _ hc => by simp at hc, h.checked⟩
    · exact ⟨fun _ hc => by simp at hc, h.checked⟩
  · rename_i hpc
    have hfin := hsync hs
    rw [hpc] at hfin
    have h0 := hb.idle (by simp [hpc])
    cases ht
    exact ⟨fun _ _ => budget_empty hbooks.ops h0 hfin.1, h.checked⟩
  · simp at ht

/-- **Admitted operations keep within `LOGSIZE`**, if each keeps within `MAXOPBLOCKS`. -/
theorem Budget.step (hb : Books g s) (hsync : Synced s) (h : Budget s)
    (hbound : opBounded s a = true) (ht : step g s a = some s') : Budget s' := by
  have hbooks := hb.step ht
  obtain ⟨-, rfl⟩ | ⟨hs, hup⟩ | ⟨pc, hs, -, rfl⟩ := step_cases ht
  · refine ⟨fun hst => by simp [crash] at hst, fun o b ho => ?_⟩
    simp only [crash] at ho
    split at ho <;> simp at ho
  · obtain ⟨o, -, hu⟩ | ⟨o, b, data, rfl, hu⟩ | ⟨o, -, hu⟩ | ⟨o, -, hu⟩ | ⟨-, hu⟩ := hup
    · exact h.beginOp hb hs hu
    · exact h.logWriteCheck hbound hu
    · exact h.logWriteInsert hb hsync hs hu
    · exact h.endOp hb hs hu
    · exact h.commitStep hb hsync hs hu
  · obtain ⟨-, h0, -⟩ := hb.quiet pc hs
    cases pc with
    | readHead => exact ⟨fun hst => by simp [recoverStep] at hst, h.checked⟩
    | install tail =>
      rw [recoverStep] at hbooks ⊢
      split at hbooks
      · exact ⟨fun hst => by simp at hst, h.checked⟩
      · exact ⟨fun _ _ => budget_empty hbooks.ops h0 rfl, h.checked⟩

/-- The invariant of runs whose operations are bounded. -/
structure ResInv (g : Geom) (s : LogState) : Prop where
  books : Books g s
  synced : Synced s
  budget : Budget s

theorem ResInv.step (h : ResInv g s) (hbound : opBounded s a = true)
    (ht : step g s a = some s') : ResInv g s' :=
  ⟨h.books.step ht, h.synced.step h.books ht, h.budget.step h.books h.synced hbound ht⟩

theorem ResInv.boot (g : Geom) (base : Disk) : ResInv g (boot base) :=
  ⟨.boot g base, fun hst => by simp [Log.boot] at hst,
    ⟨fun hst => by simp [Log.boot] at hst, by simp [Log.boot]⟩⟩

/-- A step reaches the panic exactly when it is a `log_write` without room. -/
theorem panic_step_iff (hsize : g.size = logSize) (hb : Books g s)
    (hsync : Synced s) (ht : step g s a = some s') :
    s'.status ≠ .panicked tooBig ↔ logHasRoom s a = true := by
  obtain ⟨rfl, rfl⟩ | ⟨hup, hu⟩ | ⟨pc, -, rfl, rfl⟩ := step_cases ht
  · simp [crash, logHasRoom]
  · obtain ⟨o, rfl, hu⟩ | ⟨o, b, data, rfl, hu⟩ | ⟨o, rfl, hu⟩ | ⟨o, rfl, hu⟩ | ⟨rfl, hu⟩ := hu
    · rw [beginOp] at hu
      split at hu <;> cases hu
      simp [logHasRoom, hup]
    · have hlen : s.op o = .running → s.lh.length = (blocksOf s.current).card := by
        intro ho
        have hnone := (hb.no_commit (o := o) (by rw [ho]; trivial)).1
        have hlist := hsync hup
        rw [hnone] at hlist
        exact Lists.length hlist
      rw [logWriteCheck] at hu
      split_ifs at hu with hcond hbig hout <;> cases hu
      · have hl := hlen hcond.1
        simp only [tooBig, ne_eq, not_true_eq_false, logHasRoom, decide_eq_true_eq, false_iff]
        omega
      · have hl := hlen hcond.1
        simp only [logHasRoom, decide_eq_true_eq]
        exact ⟨fun _ => by omega, fun _ => by simp⟩
      · have hl := hlen hcond.1
        simp only [hup, logHasRoom, decide_eq_true_eq]
        exact ⟨fun _ => by omega, fun _ => by simp⟩
    · rw [logWriteInsert] at hu
      split at hu <;> cases hu
      simp [logHasRoom, hup]
    · rw [endOp] at hu
      dsimp only at hu
      split_ifs at hu <;> cases hu <;> simp [logHasRoom, hup]
    · rw [commitStep] at hu
      repeat' split at hu
      all_goals cases hu
      all_goals simp [logHasRoom, hup, LogState.writeHead, LogState.bwrite]
  · cases pc with
    | readHead => simp [recoverStep, logHasRoom]
    | install tail =>
      rw [recoverStep]
      split <;> simp [logHasRoom]

def NeverPanics (g : Geom) (s : LogState) (as : List Action) : Prop :=
  ∀ as' t, as' <+: as → run (step g) s as' = some t → t.status ≠ .panicked tooBig

theorem neverPanics_cons {as : List Action} {t : LogState}
    (hs : s.status ≠ .panicked tooBig) (ht : step g s a = some t) :
    NeverPanics g s (a :: as) ↔ NeverPanics g t as := by
  constructor
  · intro h as' u hpre hu
    exact h (a :: as') u ((List.prefix_cons_inj a).mpr hpre) (run_cons_eq_some.mpr ⟨t, ht, hu⟩)
  · intro h as' u hpre hu
    cases as' with
    | nil =>
      rw [run_nil, Option.some.injEq] at hu
      exact hu ▸ hs
    | cons b bs =>
      obtain ⟨rfl, hbs⟩ := List.cons_prefix_cons.mp hpre
      obtain ⟨t', ht', hrun⟩ := run_cons_eq_some.mp hu
      rw [ht, Option.some.injEq] at ht'
      exact h bs u hbs (ht' ▸ hrun)

theorem neverPanics_iff (hsize : g.size = logSize) {as : List Action} (h : ResInv g s)
    (hs : s.status ≠ .panicked tooBig) (hr : run (step g) s as = some s')
    (hbound : RunMeets (step g) (fun t a => opBounded t a = true) s as) :
    NeverPanics g s as ↔ RunMeets (step g) (fun t a => logHasRoom t a = true) s as := by
  induction as generalizing s with
  | nil =>
    refine ⟨fun _ => trivial, fun _ as' t hpre ht => ?_⟩
    rw [List.prefix_nil.mp hpre, run_nil, Option.some.injEq] at ht
    exact ht ▸ hs
  | cons a as ih =>
    obtain ⟨t, ht, hrest⟩ := run_cons_eq_some.mp hr
    have hiff := panic_step_iff hsize h.books h.synced ht
    have hbt := hbound.2 t ht
    rw [neverPanics_cons hs ht]
    constructor
    · intro hnp
      have hst : t.status ≠ .panicked tooBig := hnp [] t (List.nil_prefix) rfl
      refine ⟨hiff.mp hst, fun u hu => ?_⟩
      rw [ht, Option.some.injEq] at hu
      subst hu
      exact (ih (h.step hbound.1 ht) hst hrest hbt).mp hnp
    · rintro ⟨hroom, hmeets⟩
      have hst := hiff.mpr hroom
      exact (ih (h.step hbound.1 ht) hst hrest hbt).mpr (hmeets t ht)

/-- **When a bounded run reaches the panic.** For operations of at most `MAXOPBLOCKS` distinct
blocks on a log of `LOGSIZE` blocks, transactions never have more than `LOGSIZE` distinct
blocks, and `log_write` never panics exactly if it is never called in a transaction that has
`LOGSIZE - 1` of them. -/
theorem log_reservation (g : Geom) (hsize : g.size = logSize) (base : Disk) (as : List Action)
    (s : LogState) (hr : run (step g) (boot base) as = some s)
    (hbound : RunMeets (step g) (fun t a => opBounded t a = true) (boot base) as) :
    (NeverPanics g (boot base) as ↔
      RunMeets (step g) (fun t a => logHasRoom t a = true) (boot base) as) ∧
    (s.status = .up → s.commit = none → (blocksOf s.current).card ≤ logSize) := by
  refine ⟨neverPanics_iff hsize (.boot g base) (by simp [boot]) hr hbound, fun hst hc => ?_⟩
  have hinv : ResInv g s :=
    hbound.invariant (fun t a t' h hb ht => h.step hb ht) (.boot g base) hr
  obtain ⟨R, -, -, hsum⟩ := hinv.budget.within hst hc
  have hlist := hinv.synced hst
  rw [hc] at hlist
  rw [← Lists.length hlist]
  exact (Nat.le_add_right _ _).trans hsum

theorem log_reservation_oneOp : NeverPanics mkfsGeom (boot zeroDisk) oneOpRun := by
  obtain ⟨s, hr⟩ : ∃ s, run (step mkfsGeom) (boot zeroDisk) oneOpRun = some s :=
    Option.isSome_iff_exists.mp (by decide +kernel)
  exact (log_reservation mkfsGeom rfl zeroDisk oneOpRun s hr
    (RunMeets.of_meets (by decide +kernel))).1.mpr (RunMeets.of_meets (by decide +kernel))

/-- Three operations of ten blocks each, as many as `begin_op` admits. -/
def fullRun : List Action :=
  [.recoverStep, .recoverStep, .beginOp 1, .beginOp 2, .beginOp 3] ++
    writes 1 100 10 ++ writes 2 110 10 ++ writes 3 120 9 ++ [.logWriteCheck 3 129 onesBlock]

/-- The thirtieth block of three bounded operations is one too many. -/
theorem log_reservation_fails :
    RunMeets (step mkfsGeom) (fun t a => opBounded t a = true) (boot zeroDisk) fullRun ∧
      ∃ s, run (step mkfsGeom) (boot zeroDisk) fullRun = some s ∧ s.status = .panicked tooBig := by
  refine ⟨RunMeets.of_meets (by decide +kernel), ?_⟩
  have hres : (run (step mkfsGeom) (boot zeroDisk) fullRun).map (·.status) =
      some (.panicked tooBig) := by decide +kernel
  exact Option.map_eq_some_iff.mp hres

end Xv6.Log
