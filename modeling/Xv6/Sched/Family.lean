import Mathlib.Data.List.Basic
import Mathlib.Logic.Function.Basic

/-!
# Families of processes

What `fork`, `exit` and `wait` are for: a table of members, each with an identifier, a parent and a
stage of life. A member that exits first passes its children to the initial member; a parent that
waits takes a dead child out of the table. Who descends from whom does not depend on the
identifiers.
-/

namespace Xv6.Sched

inductive Stage
  | embryo
  | alive
  | zombie
  deriving DecidableEq

/-- A member; `parent` is a place in the table. -/
structure Member (π : Type*) where
  pid : π
  parent : Option Nat
  stage : Stage

inductive Note (π : Type*)
  | fork (creator child : π)
  | exit (pid : π)
  | wait (waiter child : π)

def Note.subject {π : Type*} : Note π → π
  | .fork _ x | .exit x | .wait _ x => x

/-- The table, with the member that has passed its children on and not exited yet. -/
structure Family (π : Type*) where
  slot : Nat → Option (Member π)
  used : List π
  leaving : Option Nat
  log : List (Note π)

namespace Family

variable {π : Type*} {F G : Family π} {init : Nat} {x₀ : π}

def set (F : Family π) (q : Nat) (m : Option (Member π)) : Family π :=
  { F with slot := Function.update F.slot q m }

def note (F : Family π) (e : Note π) : Family π := { F with log := F.log ++ [e] }

@[simp] theorem set_used (q : Nat) (m : Option (Member π)) : (F.set q m).used = F.used := rfl

@[simp] theorem set_leaving (q : Nat) (m : Option (Member π)) :
    (F.set q m).leaving = F.leaving := rfl

@[simp] theorem set_log (q : Nat) (m : Option (Member π)) : (F.set q m).log = F.log := rfl

@[simp] theorem note_slot (e : Note π) : (F.note e).slot = F.slot := rfl

@[simp] theorem note_used (e : Note π) : (F.note e).used = F.used := rfl

@[simp] theorem note_leaving (e : Note π) : (F.note e).leaving = F.leaving := rfl

@[simp] theorem mem_note_log {e e' : Note π} : e' ∈ (F.note e).log ↔ e' ∈ F.log ∨ e' = e := by
  simp [note]

variable {q : Nat} {n : Member π}

theorem set_eq_some {r : Nat} {o : Option (Member π)} :
    (F.set q o).slot r = some n ↔ r = q ∧ o = some n ∨ r ≠ q ∧ F.slot r = some n := by
  simp only [set, Function.update_apply]
  split <;> simp_all

/-- The children of `p` become children of `init`. -/
def adopt (init p : Nat) (m : Member π) : Member π :=
  { m with parent := if m.parent = some p then some init else m.parent }

/-- What can happen in a family with the initial member `init`. -/
inductive Step (init : Nat) (F : Family π) : Family π → Prop
  | alloc {q : Nat} {x : π} (hq : F.slot q = none) :
      Step init F { F.set q (some ⟨x, none, .embryo⟩) with used := x :: F.used }
  | drop {q : Nat} {m : Member π} (hq : F.slot q = some m) (hm : m.stage = .embryo) :
      Step init F (F.set q none)
  | fill {p q : Nat} {m n : Member π} (hq : F.slot q = some m) (hm : m.stage = .embryo)
      (hp : F.slot p = some n) (hn : n.stage = .alive) (hl : F.leaving ≠ some p) :
      Step init F (F.set q (some { m with parent := some p }))
  | publish {p q : Nat} {m n : Member π} (hq : F.slot q = some m) (hm : m.stage = .embryo)
      (hmp : m.parent = some p) (hp : F.slot p = some n) :
      Step init F ((F.set q (some { m with stage := .alive })).note (.fork n.pid m.pid))
  | pass {p : Nat} {n : Member π} (hp : F.slot p = some n) (hn : n.stage = .alive)
      (hi : p ≠ init) (hl : F.leaving = none) :
      Step init F { F with
        slot := fun q => (F.slot q).map (adopt init p)
        leaving := some p }
  | exit {p : Nat} {n : Member π} (hp : F.slot p = some n) (hl : F.leaving = some p) :
      Step init F ({ F.set p (some { n with stage := .zombie }) with
        leaving := none }.note (.exit n.pid))
  | reap {p q : Nat} {n m : Member π} (hp : F.slot p = some n) (hn : n.stage = .alive)
      (hq : F.slot q = some m) (hm : m.stage = .zombie) (hmp : m.parent = some p)
      (hl : F.leaving = none) : Step init F ((F.set q none).note (.wait n.pid m.pid))

/-- Every `wait` in the history returns a child that has exited and was not returned before, to
its creator or, once the creator has exited, to the initial member. -/
def Waits (x₀ : π) (log : List (Note π)) : Prop :=
  ∀ before w x after, log = before ++ .wait w x :: after →
    .exit x ∈ before ∧ (∀ v, .wait v x ∉ before) ∧
      ∀ y, .fork y x ∈ log → w = y ∨ w = x₀ ∧ .exit y ∈ before

theorem append_singleton_eq {α : Type*} {l before after : List α} {e e' : α}
    (h : l ++ [e] = before ++ e' :: after) :
    (l = before ∧ e = e' ∧ after = []) ∨
      ∃ after', after = after' ++ [e] ∧ l = before ++ e' :: after' := by
  rcases List.eq_nil_or_concat after with rfl | ⟨after', e'', rfl⟩
  · obtain ⟨rfl, he⟩ := List.append_inj' h rfl
    exact Or.inl ⟨rfl, by simpa using he, rfl⟩
  · rw [List.concat_eq_append, ← List.cons_append, ← List.append_assoc] at h
    obtain ⟨hl, he⟩ := List.append_inj' h rfl
    rw [List.singleton_inj] at he
    exact Or.inr ⟨after', by rw [List.concat_eq_append, he], hl⟩

variable {log : List (Note π)}

theorem Waits.exit (h : Waits x₀ log) (x : π) : Waits x₀ (log ++ [.exit x]) := by
  intro before w y after heq
  rcases append_singleton_eq heq with ⟨-, he, -⟩ | ⟨after', -, hlog⟩
  · cases he
  · obtain ⟨hex, hno, hby⟩ := h before w y after' hlog
    refine ⟨hex, hno, fun z hz => hby z ?_⟩
    simpa using hz

variable {x : π}

theorem Waits.fork (h : Waits x₀ log) (y : π)
    (hno : ∀ w, .wait w x ∉ log) : Waits x₀ (log ++ [.fork y x]) := by
  intro before w z after heq
  rcases append_singleton_eq heq with ⟨-, he, -⟩ | ⟨after', -, hlog⟩
  · cases he
  · obtain ⟨hex, hnot, hby⟩ := h before w z after' hlog
    refine ⟨hex, hnot, fun v hv => hby v ?_⟩
    rw [List.mem_append, List.mem_singleton] at hv
    refine hv.resolve_right fun e => ?_
    cases e
    exact hno w (by rw [hlog]; simp)

theorem Waits.wait (h : Waits x₀ log) {w : π} (hex : .exit x ∈ log)
    (hno : ∀ v, .wait v x ∉ log) (hby : ∀ y, .fork y x ∈ log → w = y ∨ w = x₀ ∧ .exit y ∈ log) :
    Waits x₀ (log ++ [.wait w x]) := by
  intro before w' z after heq
  have hfork : ∀ y, .fork y z ∈ log ++ [Note.wait w x] → .fork y z ∈ log := fun y hy => by
    simpa using hy
  rcases append_singleton_eq heq with ⟨rfl, he, -⟩ | ⟨after', -, hlog⟩
  · cases he
    exact ⟨hex, hno, fun y hy => hby y (hfork y hy)⟩
  · obtain ⟨hex', hno', hby'⟩ := h before w' z after' hlog
    exact ⟨hex', hno', fun y hy => hby' y (hfork y hy)⟩

/-- The parent of `m` is the member `y`, or the initial one when `y` is leaving or has left. -/
def MadeBy (F : Family π) (init : Nat) (m : Member π) (y : π) : Prop :=
  (∃ p n, m.parent = some p ∧ F.slot p = some n ∧ n.pid = y) ∨
  m.parent = some init ∧ (.exit y ∈ F.log ∨
    ∃ p n, F.leaving = some p ∧ F.slot p = some n ∧ n.pid = y)

/-- The invariant of the table. -/
structure Tree (init : Nat) (F : Family π) : Prop where
  initial : ∃ m, F.slot init = some m ∧ m.stage = .alive ∧ m.parent = none
  leaving : ∀ p, F.leaving = some p → p ≠ init ∧ ∃ m, F.slot p = some m ∧ m.stage = .alive
  /-- a parent is alive and stays until its children are passed on -/
  parent : ∀ q m p, F.slot q = some m → m.parent = some p →
    F.leaving ≠ some p ∧ ∃ n, F.slot p = some n ∧ n.stage = .alive
  parent_ne : ∀ q m, F.slot q = some m → m.parent ≠ some q
  orphan : ∀ q m, F.slot q = some m → m.parent = none → m.stage = .embryo ∨ q = init

/-- The invariant of the histories; `x₀` is the identifier of the initial member. -/
structure Inv (init : Nat) (x₀ : π) (F : Family π) : Prop where
  tree : F.Tree init
  distinct : ∀ p q m n, F.slot p = some m → F.slot q = some n → m.pid = n.pid → p = q
  used : ∀ q m, F.slot q = some m → m.pid ∈ F.used
  pid_initial : ∀ m, F.slot init = some m → m.pid = x₀
  known : ∀ e ∈ F.log, e.subject ∈ F.used
  unborn : ∀ q m y, F.slot q = some m → m.stage = .embryo → .fork y m.pid ∉ F.log
  creator : ∀ q m y, F.slot q = some m → .fork y m.pid ∈ F.log → F.MadeBy init m y
  gone : ∀ q m w, F.slot q = some m → .wait w m.pid ∉ F.log
  dead : ∀ q m, F.slot q = some m → m.stage = .zombie → .exit m.pid ∈ F.log
  kept : ∀ x, .exit x ∈ F.log → (∃ w, .wait w x ∈ F.log) ∨
    ∃ q m, F.slot q = some m ∧ m.stage = .zombie ∧ m.pid = x
  waits : Waits x₀ F.log

theorem Tree.step (h : F.Tree init) (hs : Step init F G) : G.Tree init := by
  have h₁ := h.initial
  have h₂ := h.leaving
  have h₃ := h.parent
  have h₄ := h.parent_ne
  have h₅ := h.orphan
  cases hs with
  | pass hp hn hi hl =>
    constructor <;> simp only [Option.map_eq_some_iff, adopt] <;> grind
  | alloc | drop | fill | publish | exit | reap =>
    constructor <;>
      simp only [set_eq_some, set_leaving, note_slot, note_leaving] <;> grind

variable {m : Member π}

/-- A step that leaves the living members alone does not change who made whom. -/
theorem Inv.madeBy (h : Inv init x₀ F) {y : π} (hq : F.slot q = some m) (hy : .fork y m.pid ∈ F.log)
    (hkeep : ∀ p n, F.slot p = some n → n.stage = .alive → G.slot p = some n)
    (hl : G.leaving = F.leaving) (hlog : F.log ⊆ G.log) : G.MadeBy init m y := by
  rcases h.creator q m y hq hy with ⟨p, n, hp, hn, hny⟩ | ⟨hinit, hex | ⟨p, n, hp, hn, hny⟩⟩
  · obtain ⟨-, n', hn', halive⟩ := h.tree.parent q m p hq hp
    rw [hn, Option.some.injEq] at hn'
    exact Or.inl ⟨p, n, hp, hkeep p n hn (hn' ▸ halive), hny⟩
  · exact Or.inr ⟨hinit, Or.inl (hlog hex)⟩
  · obtain ⟨-, n', hn', halive⟩ := h.tree.leaving p hp
    rw [hn, Option.some.injEq] at hn'
    exact Or.inr ⟨hinit, Or.inr ⟨p, n, hl ▸ hp, hkeep p n hn (hn' ▸ halive), hny⟩⟩

theorem set_keep {o : Option (Member π)} (hq : ∀ m, F.slot q = some m → m.stage ≠ .alive)
    (p : Nat) (n : Member π) (hp : F.slot p = some n) (hn : n.stage = .alive) :
    (F.set q o).slot p = some n := by
  refine set_eq_some.mpr (Or.inr ⟨?_, hp⟩)
  rintro rfl
  exact hq n hp hn

variable (h : Inv init x₀ F)

include h

/-- Who made whom and who waited for whom depend on the step; the rest is kept by every step. -/
theorem Inv.of_step (hs : Step init F G) (hfresh : ∀ x, G.used = x :: F.used → x ∉ F.used)
    (hcreator : ∀ q m y, G.slot q = some m → .fork y m.pid ∈ G.log → G.MadeBy init m y)
    (hwaits : Waits x₀ G.log) : Inv init x₀ G := by
  have hnew : ∀ x, G.used = x :: F.used → ∀ e ∈ F.log, e.subject ≠ x :=
    fun x hx e he hex => hfresh x hx (hex ▸ h.known e he)
  refine
    { tree := h.tree.step hs, creator := hcreator, waits := hwaits, distinct := ?_, used := ?_,
      pid_initial := ?_, known := ?_, unborn := ?_, gone := ?_, dead := ?_, kept := ?_ }
  all_goals clear hcreator hwaits
  · cases hs <;> simp only [set_eq_some, note_slot, Option.map_eq_some_iff, adopt] <;>
      grind [h.distinct, h.used]
  · cases hs <;> simp only [set_eq_some, set_used, note_slot, note_used, Option.map_eq_some_iff,
      adopt] <;> grind [h.used]
  · cases hs <;> simp only [set_eq_some, note_slot, Option.map_eq_some_iff, adopt] <;>
      grind [h.pid_initial, h.tree.initial]
  · cases hs <;> simp only [set_log, set_used, note_used, mem_note_log] <;>
      grind [h.known, h.used, Note.subject]
  · cases hs <;> simp only [set_eq_some, set_log, note_slot, mem_note_log,
      Option.map_eq_some_iff, adopt] <;> grind [h.unborn, h.distinct, Note.subject]
  · cases hs <;> simp only [set_eq_some, set_log, note_slot, mem_note_log,
      Option.map_eq_some_iff, adopt] <;> grind [h.gone, h.distinct, Note.subject]
  · cases hs <;> simp only [set_eq_some, set_log, note_slot, mem_note_log,
      Option.map_eq_some_iff, adopt] <;> grind [h.dead]
  · cases hs <;> simp only [set_eq_some, set_log, note_slot, mem_note_log,
      Option.map_eq_some_iff, adopt] <;> grind [h.kept]

theorem Inv.waits_step (hs : Step init F G) : Waits x₀ G.log := by
  cases hs with
  | alloc | drop | fill | pass => exact h.waits
  | publish hq => exact h.waits.fork _ fun w => h.gone _ _ w hq
  | exit => exact h.waits.exit _
  | reap hp hn hq hm hmp hl =>
    -- the parent is the creator, or the initial member and the creator has exited
    refine h.waits.wait (h.dead _ _ hq hm) (fun v => h.gone _ _ v hq) fun y hy => ?_
    rcases h.creator _ _ y hq hy with ⟨p', n', hp', hn', hy'⟩ | ⟨hinit, hex | ⟨p', n', hl', -⟩⟩
    · rw [hmp, Option.some.injEq] at hp'
      subst hp'
      rw [hp, Option.some.injEq] at hn'
      exact Or.inl (hn' ▸ hy')
    · rw [hmp, Option.some.injEq] at hinit
      subst hinit
      exact Or.inr ⟨h.pid_initial _ hp, hex⟩
    · rw [hl] at hl'
      cases hl'

theorem Inv.creator_pass {p : Nat} (hi : p ≠ init) (hl : F.leaving = none) {r : Nat} {y : π}
    (hr : F.slot r = some m) (hy : .fork y m.pid ∈ F.log) :
    MadeBy { F with slot := fun q => (F.slot q).map (adopt init p), leaving := some p } init
      (adopt init p m) y := by
  rcases h.creator r m y hr hy with ⟨p', n', hp', hn', hny⟩ | ⟨hinit, hex | ⟨p', n', hl', -⟩⟩
  · by_cases hpp : p' = p
    · subst hpp
      exact Or.inr ⟨if_pos hp', Or.inr ⟨p', adopt init p' n', rfl, by simp [hn'], hny⟩⟩
    · refine Or.inl ⟨p', adopt init p n', ?_, by simp [hn'], hny⟩
      rw [adopt, if_neg (by simpa [hp'] using hpp), hp']
  · refine Or.inr ⟨?_, Or.inl hex⟩
    rw [adopt, if_neg (by simpa [hinit] using hi.symm), hinit]
  · rw [hl] at hl'
    cases hl'

theorem Inv.creator_exit {p : Nat} (hp : F.slot p = some n) (hl : F.leaving = some p) {r : Nat}
    {y : π} (hr : F.slot r = some m) (hy : .fork y m.pid ∈ F.log) :
    MadeBy ({ F.set p (some { n with stage := .zombie }) with leaving := none }.note (.exit n.pid))
      init m y := by
  rcases h.creator r m y hr hy with
    ⟨p', n', hp', hn', hny⟩ | ⟨hinit, hex | ⟨p', n', hl', hn', hny⟩⟩
  · refine Or.inl ⟨p', n', hp', set_eq_some.mpr (Or.inr ⟨?_, hn'⟩), hny⟩
    rintro rfl
    exact (h.tree.parent r m p' hr hp').1 hl
  · exact Or.inr ⟨hinit, Or.inl (mem_note_log.mpr (Or.inl hex))⟩
  · rw [hl, Option.some.injEq] at hl'
    subst hl'
    rw [hp, Option.some.injEq] at hn'
    subst hn'
    exact Or.inr ⟨hinit, Or.inl (mem_note_log.mpr (Or.inr (hny ▸ rfl)))⟩

theorem Inv.creator_step (hs : Step init F G) (hfresh : ∀ x, G.used = x :: F.used → x ∉ F.used)
    {r : Nat} {m' : Member π} {y : π} (hr : G.slot r = some m') (hy : .fork y m'.pid ∈ G.log) :
    G.MadeBy init m' y := by
  cases hs with
  | alloc hq =>
    rcases set_eq_some.mp hr with ⟨-, hm'⟩ | ⟨-, hr⟩
    · cases hm'
      exact absurd (h.known _ hy) (hfresh _ rfl)
    · exact h.madeBy hr hy (set_keep (by simp [hq])) rfl (List.Subset.refl _)
  | drop hq hm =>
    rcases set_eq_some.mp hr with ⟨-, hm'⟩ | ⟨-, hr⟩
    · cases hm'
    · exact h.madeBy hr hy (set_keep (by simp [hq, hm])) rfl (List.Subset.refl _)
  | fill hq hm =>
    rcases set_eq_some.mp hr with ⟨rfl, hm'⟩ | ⟨-, hr⟩
    · cases hm'
      exact (h.unborn r _ y hq hm hy).elim
    · exact h.madeBy hr hy (set_keep (by simp [hq, hm])) rfl (List.Subset.refl _)
  | @publish p q m n hq hm hmp hp =>
    have hkeep := set_keep (F := F) (o := some { m with stage := .alive }) (q := q)
      (by simp [hq, hm])
    rcases set_eq_some.mp hr with ⟨rfl, hm'⟩ | ⟨hrq, hr⟩ <;>
      rcases mem_note_log.mp hy with hy | hy
    · cases hm'
      exact absurd hy (h.unborn r m y hq hm)
    · obtain ⟨-, n', hn', halive⟩ := h.tree.parent r m p hq hmp
      rw [hp, Option.some.injEq] at hn'
      cases hm'
      cases hy
      exact Or.inl ⟨p, n, hmp, hkeep p n hp (hn' ▸ halive), rfl⟩
    · exact h.madeBy hr hy hkeep rfl (List.subset_append_left _ _)
    · rw [Note.fork.injEq] at hy
      exact absurd (h.distinct r q m' m hr hq hy.2) hrq
  | pass hp hn hi hl =>
    obtain ⟨m, hm, rfl⟩ := Option.map_eq_some_iff.mp hr
    exact h.creator_pass hi hl hm hy
  | @exit p n hp hl =>
    have hlog : .fork y m'.pid ∈ F.log := (mem_note_log.mp hy).resolve_right nofun
    -- the member that exits keeps its parent
    rcases set_eq_some.mp hr with ⟨rfl, hm'⟩ | ⟨-, hr⟩
    · cases hm'
      exact h.creator_exit (m := n) hp hl hp hlog
    · exact h.creator_exit hp hl hr hlog
  | reap hp hn hq hm =>
    rcases set_eq_some.mp hr with ⟨-, hm'⟩ | ⟨-, hr⟩
    · cases hm'
    · exact h.madeBy hr ((mem_note_log.mp hy).resolve_right nofun)
        (set_keep (by simp [hq, hm])) rfl (List.subset_append_left _ _)

/-- **Every step that uses a new identifier keeps the histories right.** -/
theorem Inv.step (hs : Step init F G)
    (hfresh : ∀ x, G.used = x :: F.used → x ∉ F.used) : Inv init x₀ G :=
  h.of_step hs hfresh (fun _ _ _ => h.creator_step hs hfresh) (h.waits_step hs)

end Family

end Xv6.Sched
