import Mathlib.Algebra.Ring.Nat
import Xv6.Sched.Cpus
import Xv6.Sched.Family

/-!
# Every child is reaped once

The process table refines the families of `Sched.Family`: the slots in use are the members, and the
steps of `fork`, `exit` and `wait` that matter are steps of the family.
-/

namespace Xv6.Sched

open Transition
open Function (update update_self update_of_ne update_apply)

variable {s t : State} {a : Action} {c p q r i np : Nat} {k : Pc} {F G : Family Int32}
  {sz pgdir kstack cwd ticks : Nat}

def ProcState.stage : ProcState → Option Stage
  | .unused => none
  | .embryo => some .embryo
  | .zombie => some .zombie
  | .sleeping | .runnable | .running => some .alive

def Proc.member (x : Proc) : Option (Member Int32) :=
  x.state.stage.map fun stage => ⟨x.pid, x.parent, stage⟩

def Event.created : Event → Option Int32
  | .alloc pid => some pid
  | _ => none

/-- What an event means for the family. -/
def Event.note : Event → Option (Note Int32)
  | .fork creator child => some (.fork creator child)
  | .exit pid => some (.exit pid)
  | .wait waiter child => some (.wait waiter child)
  | _ => none

def State.creations (s : State) : Nat := (s.events.filterMap Event.created).length

/-- What a process at this point does in the family. -/
inductive Role
  | none
  /-- makes a child whose parent is not filled in yet -/
  | makes (np : Nat)
  /-- is about to make its child ready -/
  | filled (np : Nat)
  /-- exits -/
  | exits
  /-- has passed on its children -/
  | leaves
  deriving DecidableEq

def Pc.role (k : Pc) : Role :=
  match k.core with
  | .allocStack np | .forkCopy np | .forkFill np => .makes np
  | .forkPublish np => .filled np
  | .exitWake | .exitPass => .exits
  | .exitMark => .leaves
  | _ => .none

/-- The family of a state. -/
structure Relates (s : State) (F : Family Int32) : Prop where
  initproc : s.initproc = 0
  slot : ∀ q, F.slot q = (s.proc q).member
  used : F.used = (s.events.filterMap Event.created).reverse ++ [1]
  log : F.log = s.events.filterMap Event.note
  leaving : ∀ p, F.leaving = some p ↔ (s.pc p).role = .leaves
  /-- a process that leaves is on a cpu, with the lock -/
  marks : ∀ p, (s.pc p).role = .leaves → s.pc p = .exitMark ∧ ∃ c, (s.cpu c).stack = some p
  bound : ∀ q, nproc ≤ q → (s.proc q).state = .unused
  spare : ∀ q, (s.proc q).state = .unused → (s.proc q).parent = none
  makes : ∀ p np, (s.pc p).role = .makes np → (s.proc np).parent = none
  filled : ∀ p np, (s.pc p).role = .filled np → (s.proc np).parent = some p
  exits : ∀ p, (s.pc p).role = .exits ∨ (s.pc p).role = .leaves → p ≠ s.initproc
  nextpid : s.nextpid = Int32.ofNat (F.used.length + 1)
  numbered : ∀ x ∈ F.used, ∃ n, 0 < n ∧ n ≤ F.used.length ∧ x = Int32.ofNat n

/-- The fields of a slot that the family sees. -/
structure SameKin (x y : Proc) : Prop where
  pid : y.pid = x.pid
  parent : y.parent = x.parent
  stage : y.state.stage = x.state.stage

theorem SameKin.refl (x : Proc) : SameKin x x := ⟨rfl, rfl, rfl⟩

variable {x y : Proc} {n : Nat}

theorem SameKin.member (h : SameKin x y) : y.member = x.member := by
  rw [Proc.member, Proc.member, h.pid, h.parent, h.stage]

theorem ProcState.stage_eq_none {st : ProcState} : st.stage = none ↔ st = .unused := by
  cases st <;> simp [stage]

theorem SameKin.unused (h : SameKin x y) : y.state = .unused ↔ x.state = .unused := by
  rw [← ProcState.stage_eq_none, h.stage, ProcState.stage_eq_none]

theorem SameKin.zombie (h : SameKin x y) : y.state = .zombie ↔ x.state = .zombie := by
  have hstage : ∀ st : ProcState, st = .zombie ↔ st.stage = some .zombie := by
    rintro (_ | _ | _ | _ | _ | _) <;> simp [ProcState.stage]
  rw [hstage, h.stage, ← hstage]

theorem SameKin.set (h : SameKin (s.proc i) x) (q : Nat) :
    SameKin (s.proc q) (update s.proc i x q) := by
  by_cases hqi : q = i
  · subst hqi
    rwa [update_self]
  · rw [update_of_ne hqi]
    exact .refl _

/-- What is left of a program point is none of the points that take a lock, give it back or
switch. -/
theorem Pc.core_ne (k m : Pc) : k.core ≠ .acquire m ∧ k.core ≠ .release m ∧ k.core ≠ .sched m ∧
    k.core ≠ .yieldMark m ∧ k.core ≠ .switched m := by
  induction k <;> simp_all [core]

theorem stage_of_woken (h : y.state = x.state ∨ x.state = .sleeping ∧ y.state = .runnable) :
    y.state.stage = x.state.stage := by
  rcases h with h | ⟨h, h'⟩
  · rw [h]
  · rw [h, h']
    rfl

theorem wakeup1_kin (chan : Option Chan) (proc : Nat → Proc) (q : Nat) :
    SameKin (proc q) (wakeup1 chan proc q) := by
  refine ⟨?_, ?_, stage_of_woken (wakeup1_state chan proc q)⟩ <;> rw [wakeup1_eq]

theorem kill_kin (pid : Int32) (proc : Nat → Proc) (q : Nat) :
    SameKin (proc q) ((kill pid proc).2 q) := by
  have hstage := stage_of_woken (kill_state pid proc q)
  rcases kill_cases pid proc with ⟨i, -, -, -, hk⟩ | ⟨-, hk⟩
  · rw [hk] at hstage ⊢
    by_cases hqi : q = i
    · subst hqi
      refine ⟨?_, ?_, hstage⟩ <;> simp only [update_self] <;> rfl
    · refine ⟨?_, ?_, hstage⟩ <;> simp only [update_of_ne hqi]
  · rw [hk]
    exact .refl _

/-- The histories of a state and of its family. -/
structure Told (s : State) (F : Family Int32) : Prop where
  used : F.used = (s.events.filterMap Event.created).reverse ++ [1]
  log : F.log = s.events.filterMap Event.note
  nextpid : s.nextpid = Int32.ofNat (F.used.length + 1)
  numbered : ∀ x ∈ F.used, ∃ n, 0 < n ∧ n ≤ F.used.length ∧ x = Int32.ofNat n

theorem Relates.told (h : Relates s F) {es : List Event} (hevents : t.events = s.events ++ es)
    (hnext : t.nextpid = s.nextpid) (hcreated : es.filterMap Event.created = [])
    (hused : G.used = F.used) (hlog : G.log = F.log ++ es.filterMap Event.note) : Told t G where
  used := by rw [hused, h.used, hevents, List.filterMap_append, hcreated, List.append_nil]
  log := by rw [hlog, h.log, hevents, List.filterMap_append]
  nextpid := by rw [hnext, hused, h.nextpid]
  numbered := by
    rw [hused]
    exact h.numbered

theorem Relates.untold (h : Relates s F) (hevents : t.events = s.events)
    (hnext : t.nextpid = s.nextpid) (hused : G.used = F.used) (hlog : G.log = F.log) : Told t G :=
  h.told ((List.append_nil _).symm ▸ hevents) hnext List.filterMap_nil hused
    (by rw [hlog, List.filterMap_nil, List.append_nil])

theorem Relates.keep (h : Relates s F) (hkin : ∀ q, SameKin (s.proc q) (t.proc q))
    (hinit : t.initproc = s.initproc) (htold : Told t F)
    (hrole : ∀ p, (t.pc p).role = (s.pc p).role ∨ (s.pc p).role ≠ .leaves ∧
      ((t.pc p).role = .none ∨ (t.pc p).role = .exits ∧ p ≠ s.initproc))
    (hmarks : ∀ p c, s.pc p = .exitMark → (s.cpu c).stack = some p →
      t.pc p = .exitMark ∧ (t.cpu c).stack = some p) : Relates t F := by
  -- the other roles were there before
  have hback : ∀ p role, role ≠ .none → role ≠ .exits → (t.pc p).role = role →
      (s.pc p).role = role := by
    intro p role hnone hexits hp
    rcases hrole p with e | ⟨-, e | ⟨e, -⟩⟩
    · exact e.symm.trans hp
    · exact absurd (hp.symm.trans e) hnone
    · exact absurd (hp.symm.trans e) hexits
  refine { htold with
    initproc := hinit.trans h.initproc
    slot := fun q => by rw [h.slot, (hkin q).member]
    leaving := fun p => (h.leaving p).trans ⟨fun e => ?_, hback p _ nofun nofun⟩
    marks := fun p hp => ?_
    bound := fun q hq => (hkin q).unused.mpr (h.bound q hq)
    spare := fun q hq => ?_
    makes := fun p np hp => ?_
    filled := fun p np hp => ?_
    exits := fun p hp => ?_ }
  · rcases hrole p with e' | ⟨hne, -⟩
    · exact e'.trans e
    · exact absurd e hne
  · obtain ⟨hpc, c, hc⟩ := h.marks p (hback p _ nofun nofun hp)
    obtain ⟨hpc', hc'⟩ := hmarks p c hpc hc
    exact ⟨hpc', c, hc'⟩
  · rw [(hkin q).parent]
    exact h.spare q ((hkin q).unused.mp hq)
  · rw [(hkin np).parent]
    exact h.makes p np (hback p _ nofun nofun hp)
  · rw [(hkin np).parent]
    exact h.filled p np (hback p _ nofun nofun hp)
  · rw [hinit]
    rcases hrole p with e | ⟨-, e | ⟨-, hne⟩⟩
    · exact h.exits p (e ▸ hp)
    · simp [e] at hp
    · exact hne

theorem Relates.goto (h : Relates s F) (hpc : s.pc p ≠ .exitMark)
    (hkin : ∀ q, SameKin (s.proc q) (t.proc q)) (hm : Moves s t p k) (htold : Told t F)
    (hrole : k.role = (s.pc p).role ∨ k.role = .none ∨ k.role = .exits ∧ p ≠ s.initproc) :
    Relates t F := by
  have hne : (s.pc p).role ≠ .leaves := fun e => hpc (h.marks p e).1
  refine h.keep hkin hm.initproc htold (hm.all (P := fun q k => k.role = (s.pc q).role ∨
    (s.pc q).role ≠ .leaves ∧ (k.role = .none ∨ k.role = .exits ∧ q ≠ s.initproc))
    (hrole.imp_right fun e => ⟨hne, e⟩) fun q _ => Or.inl rfl) fun q c hq hc => ?_
  · have hqp : q ≠ p := by
      rintro rfl
      exact hpc hq
    rw [hm.other hqp, hm.cpu]
    exact ⟨hq, hc⟩

/-- A step that moves processes between the table and the cpus, or wakes them up. -/
structure Admin (s t : State) : Prop where
  kin : ∀ q, SameKin (s.proc q) (t.proc q)
  sleeping : ∀ q, (t.proc q).state = .sleeping →
    (s.proc q).state = .sleeping ∧ (t.proc q).chan = (s.proc q).chan
  core : ∀ q, (t.pc q).core = (s.pc q).core
  /-- only program points of `sched` and `swtch` change -/
  bare : ∀ q, (s.pc q).core = s.pc q → t.pc q = s.pc q
  stays : ∀ d q, (s.cpu d).stack = some q → (s.pc q).core = s.pc q → (t.cpu d).stack = some q
  came : ∀ d q, (t.cpu d).stack = some q → (s.cpu d).stack = some q ∧ t.pc q = s.pc q ∨
    (t.pc q).resumes
  initproc : t.initproc = s.initproc
  nextpid : t.nextpid = s.nextpid
  events : ∃ es, t.events = s.events ++ es ∧ es.filterMap Event.created = [] ∧
    es.filterMap Event.note = []

theorem Relates.admin (h : Relates s F) (ha : Admin s t) : Relates t F := by
  obtain ⟨es, hevents, hcreated, hnotes⟩ := ha.events
  refine h.keep ha.kin ha.initproc
    (h.told hevents ha.nextpid hcreated rfl (by rw [hnotes, List.append_nil]))
    (fun q => Or.inl ?_) fun q d hq hd => ?_
  · rw [Pc.role, Pc.role, ha.core]
  · have hbare : (s.pc q).core = s.pc q := by rw [hq]; rfl
    exact ⟨(ha.bare q hbare).trans hq, ha.stays d q hd hbare⟩

theorem sched_admin (hs : Placed s) (hp : (s.cpu c).stack = some p) (hpc : s.pc p = .sched k) :
    Admin s (((s.setProc p { s.proc p with ticksScheduled := n }).setCpu c
      { s.cpu c with stack := none }).goto p (.switched k)) := by
  have hbare : (s.pc p).core ≠ s.pc p := by
    rw [hpc]
    exact (Pc.core_ne k k).2.2.1
  have hother : ∀ q, q ≠ p → update s.pc p (.switched k) q = s.pc q :=
    fun q hq => update_of_ne hq _ _
  refine
    { kin := SameKin.set ⟨rfl, rfl, rfl⟩
      sleeping := fun q hq => ?_
      core := fun q => ?_
      bare := fun q hq => hother q fun e => hbare (e ▸ hq)
      stays := fun d q hd hq => ?_
      came := fun d q hq => Or.inl ?_
      initproc := rfl
      nextpid := rfl
      events := ⟨[], (List.append_nil _).symm, rfl, rfl⟩ }
  · change (update s.proc p _ q).state = _ at hq
    change _ ∧ (update s.proc p _ q).chan = _
    by_cases hqp : q = p
    · subst hqp
      rw [update_self] at hq ⊢
      exact ⟨hq, rfl⟩
    · rw [update_of_ne hqp] at hq ⊢
      exact ⟨hq, rfl⟩
  · change (update s.pc p _ q).core = _
    by_cases hqp : q = p
    · rw [hqp, update_self, hpc]
      rfl
    · rw [hother q hqp]
  · have hdc : d ≠ c := by
      rintro rfl
      rw [hp, Option.some.injEq] at hd
      exact hbare (hd ▸ hq)
    exact (congrArg Cpu.stack (update_of_ne hdc _ _)).trans hd
  · change (update s.cpu c _ d).stack = _ at hq
    by_cases hdc : d = c
    · rw [hdc, update_self] at hq
      cases hq
    · rw [update_of_ne hdc] at hq
      refine ⟨hq, hother q ?_⟩
      rintro rfl
      exact hdc (hs.inj d c q hq hp)

theorem schedStep_admin (hs : Placed s) (ht : schedStep s c = some t) : Admin s t := by
  obtain ⟨hc, hstep⟩ := schedStep_inv ht
  have hstays : ∀ {d q : Nat} (x : Cpu), (s.cpu d).stack = some q →
      (update s.cpu c x d).stack = some q := by
    intro d q x hd
    rwa [update_of_ne]
    rintro rfl
    rw [hc] at hd
    cases hd
  have hloop : ∀ {t : State} {x : Cpu}, t.cpu = update s.cpu c x → x.stack = none →
      t.proc = s.proc → t.pc = s.pc → t.initproc = s.initproc → t.nextpid = s.nextpid →
      t.events = s.events → Admin s t := by
    intro t x hcpu hx hproc hpc hinit hnext hevents
    refine
      { kin := fun q => by rw [hproc]; exact .refl _
        sleeping := fun q hq => ⟨hproc ▸ hq, by rw [hproc]⟩
        core := fun q => by rw [hpc]
        bare := fun q _ => by rw [hpc]
        stays := fun d q hd _ => by rw [hcpu]; exact hstays x hd
        came := fun d q hq => Or.inl ⟨?_, by rw [hpc]⟩
        initproc := hinit
        nextpid := hnext
        events := ⟨[], by rw [hevents, List.append_nil], rfl, rfl⟩ }
    rw [hcpu] at hq
    by_cases hdc : d = c
    · rw [hdc, update_self, hx] at hq
      cases hq
    · rwa [update_of_ne hdc] at hq
  cases hstep with
  | take | skip | leave | back => exact hloop rfl hc rfl rfl rfl rfl rfl
  | @switch i hpc hi hrun =>
    obtain ⟨k, hsw, -, hk⟩ := hs.resumes i (hs.off_of_scan hc hpc hrun) (Or.inl hrun)
    have hpcs : (dispatch s c i).pc = update s.pc i k := by
      rw [dispatch, hsw]
      rfl
    have hother : ∀ q, q ≠ i → (dispatch s c i).pc q = s.pc q := fun q hq => by
      rw [hpcs, update_of_ne hq]
    have hkin : SameKin (s.proc i) { s.proc i with state := .running } :=
      ⟨rfl, rfl, by rw [hrun]; rfl⟩
    refine
      { kin := fun q => by rw [dispatch_proc]; exact hkin.set q
        sleeping := fun q => ?_
        core := fun q => ?_
        bare := fun q hq => hother q ?_
        stays := fun d q hd _ => by rw [dispatch_cpu]; exact hstays _ hd
        came := fun d q hq => ?_
        initproc := by rw [dispatch, hsw]; rfl
        nextpid := by rw [dispatch, hsw]; rfl
        events := ⟨_, dispatch_events s c i, rfl, rfl⟩ }
    · rw [dispatch_proc]
      by_cases hqi : q = i
      · rw [hqi, update_self]
        exact ProcState.noConfusion
      · rw [update_of_ne hqi]
        exact fun hq => ⟨hq, rfl⟩
    · by_cases hqi : q = i
      · rw [hqi, hpcs, update_self, hsw]
        rfl
      · rw [hother q hqi]
    · rintro rfl
      rw [hsw] at hq
      exact (Pc.core_ne k k).2.2.2.2 hq
    · by_cases hqi : q = i
      · rw [hpcs, hqi, update_self]
        exact Or.inr hk
      · refine Or.inl ⟨?_, hother q hqi⟩
        rw [dispatch_cpu] at hq
        by_cases hdc : d = c
        · rw [hdc, update_self] at hq
          exact absurd (Option.some.inj hq).symm hqi
        · rwa [update_of_ne hdc] at hq

theorem intr_admin (chan : Option Chan) : Admin s { s with proc := wakeup1 chan s.proc } where
  kin := wakeup1_kin chan s.proc
  sleeping q hq := by
    have hst : (wakeup1 chan s.proc q).state = .sleeping := hq
    have hchan : (wakeup1 chan s.proc q).chan = (s.proc q).chan := by rw [wakeup1_eq]
    rcases wakeup1_state chan s.proc q with e | ⟨-, e⟩
    · exact ⟨e.symm.trans hst, hchan⟩
    · cases e.symm.trans hst
  core _ := rfl
  bare _ _ := rfl
  stays _ _ hd _ := hd
  came _ _ hq := Or.inl ⟨hq, rfl⟩
  initproc := rfl
  nextpid := rfl
  events := ⟨[], (List.append_nil _).symm, rfl, rfl⟩

theorem Pc.child_of_makes (h : k.role = .makes np) : k.child = some np := by
  rw [role] at h
  rw [child]
  split at h <;> simp_all

theorem Pc.child_of_filled (h : k.role = .filled np) : k.child = some np := by
  rw [role] at h
  rw [child]
  split at h <;> simp_all

section

variable (h : Relates s F)

include h

theorem Relates.leaving_none (hs : Placed s) (hp : (s.cpu c).stack = some p)
    (hl : (s.pc p).holdsLock) (hpc : s.pc p ≠ .exitMark) : F.leaving = none := by
  cases hF : F.leaving with
  | none => rfl
  | some q =>
    obtain ⟨hq, d, hd⟩ := h.marks q ((h.leaving q).mp hF)
    have hdc := hs.holds_unique ((holds_of_stack hd).mpr (by rw [hq]; rfl))
      ((holds_of_stack hp).mpr hl)
    subst hdc
    rw [hp, Option.some.injEq] at hd
    exact absurd (hd ▸ hq) hpc

theorem Relates.alive (hs : Placed s) (hp : (s.cpu c).stack = some p)
    (hrun : (s.pc p).state = .running) :
    F.slot p = some ⟨(s.proc p).pid, (s.proc p).parent, .alive⟩ := by
  rw [h.slot, Proc.member, hs.state c p hp, hrun]
  rfl

theorem Relates.embryo (hs : Placed s) (hp : (s.pc p).child = some np) :
    F.slot np = some ⟨(s.proc np).pid, (s.proc np).parent, .embryo⟩ := by
  rw [h.slot, Proc.member, hs.child p np hp]
  rfl

/-- The processes that leave, after a step of a process that neither was nor is one of them. -/
theorem Relates.others (hpc : s.pc p ≠ .exitMark) (hk : k.role ≠ .leaves)
    (hm : Moves s t p k) (q : Nat) : ((t.pc q).role = .leaves ↔ (s.pc q).role = .leaves) ∧
    ((t.pc q).role = .leaves → t.pc q = .exitMark ∧ ∃ c, (t.cpu c).stack = some q) := by
  rw [hm.cpu]
  by_cases hqp : q = p
  · subst hqp
    have hne : (s.pc q).role ≠ .leaves := fun e => hpc (h.marks q e).1
    simp [hm.self, hk, hne]
  · rw [hm.other hqp]
    exact ⟨Iff.rfl, h.marks q⟩

theorem Relates.change (hpc : s.pc p ≠ .exitMark)
    (hproc : t.proc = update s.proc i x) (hm : Moves s t p k)
    (hk : k.role ≠ .exits ∧ k.role ≠ .leaves) (hbound : x.state = .unused ∨ i < nproc)
    (hspare : x.state = .unused → x.parent = none)
    (hmakes : ∀ np, k.role = .makes np → np = i ∧ x.parent = none)
    (hfilled : ∀ np, k.role = .filled np → np = i ∧ x.parent = some p)
    (hothers : x.parent = (s.proc i).parent ∨ ∀ q, q ≠ p → (s.pc q).child ≠ some i)
    (hslot : G.slot = update F.slot i x.member) (hleaving : G.leaving = F.leaving)
    (htold : Told t G) : Relates t G := by
  have hself : t.proc i = x := by rw [hproc, update_self]
  have hother : ∀ q, q ≠ i → t.proc q = s.proc q :=
    fun q hq => by rw [hproc, update_of_ne hq]
  -- the parents of the children that other processes make
  have hparent : ∀ q m, q ≠ p → (s.pc q).child = some m →
      (t.proc m).parent = (s.proc m).parent := by
    intro q m hqp hq
    by_cases hmi : m = i
    · subst hmi
      rw [hself]
      exact hothers.resolve_right fun hno => hno q hqp hq
    · rw [hother m hmi]
  refine { htold with
    initproc := hm.initproc.trans h.initproc
    slot := fun q => ?_
    leaving := fun q => ?_
    marks := fun q => (h.others hpc hk.2 hm q).2
    bound := fun q hq => ?_
    spare := fun q hq => ?_
    makes := fun q m hq => ?_
    filled := fun q m hq => ?_
    exits := fun q hq => ?_ }
  · rw [hslot]
    by_cases hqi : q = i
    · rw [hqi, update_self, hself]
    · rw [update_of_ne hqi, hother q hqi, h.slot]
  · rw [hleaving, (h.others hpc hk.2 hm q).1]
    exact h.leaving q
  · by_cases hqi : q = i
    · subst hqi
      rw [hself]
      exact hbound.resolve_right (by omega)
    · rw [hother q hqi]
      exact h.bound q hq
  · by_cases hqi : q = i
    · subst hqi
      rw [hself] at hq ⊢
      exact hspare hq
    · rw [hother q hqi] at hq ⊢
      exact h.spare q hq
  · by_cases hqp : q = p
    · subst hqp
      rw [hm.self] at hq
      obtain ⟨rfl, hx⟩ := hmakes m hq
      rw [hself, hx]
    · rw [hm.other hqp] at hq
      rw [hparent q m hqp (Pc.child_of_makes hq)]
      exact h.makes q m hq
  · by_cases hqp : q = p
    · subst hqp
      rw [hm.self] at hq
      obtain ⟨rfl, hx⟩ := hfilled m hq
      rw [hself, hx]
    · rw [hm.other hqp] at hq
      rw [hparent q m hqp (Pc.child_of_filled hq)]
      exact h.filled q m hq
  · rw [hm.initproc]
    by_cases hqp : q = p
    · subst hqp
      rw [hm.self] at hq
      exact (hq.elim hk.1 hk.2).elim
    · rw [hm.other hqp] at hq
      exact h.exits q hq

theorem Relates.length_used : F.used.length = s.creations + 1 := by
  rw [h.used, List.length_append, List.length_reverse]
  rfl

theorem Relates.fresh (hfew : s.creations + 1 < 2 ^ 31) : s.nextpid ∉ F.used := by
  intro hmem
  obtain ⟨n, h0, hn, hx⟩ := h.numbered _ hmem
  have hlen := h.length_used
  rw [h.nextpid] at hx
  have hbits := congrArg (fun x => x.toBitVec.toNat) hx
  simp only [Int32.toBitVec_ofNat', BitVec.toNat_ofNat] at hbits
  omega

end

/-- The family takes a step with the machine, or none; the only identifier that it can use is the
next pid. -/
def Follows (s : State) (F : Family Int32) (t : State) : Prop :=
  ∃ G, Relates t G ∧ (G = F ∨ F.Step s.initproc G) ∧
    (G.used = F.used ∨ G.used = s.nextpid :: F.used)

section

variable (h : Relates s F)

include h

theorem Relates.lt_nproc (hi : (s.proc i).state ≠ .unused) : i < nproc := by
  by_contra hge
  exact hi (h.bound i (Nat.le_of_not_lt hge))

theorem Relates.alloc (hpc : s.pc p ≠ .exitMark) (hi : i < nproc)
    (hs : (s.proc i).state = .unused) (hproc : t.proc = update s.proc i x)
    (hx : x.state = .embryo) (hxpid : x.pid = s.nextpid) (hxpar : x.parent = (s.proc i).parent)
    (hm : Moves s t p (.release (.allocStack i))) (hnext : t.nextpid = s.nextpid + 1)
    (hevents : t.events = s.events ++ [.alloc s.nextpid]) : Follows s F t := by
  have hspare := h.spare i hs
  have hslot : F.slot i = none := by
    rw [h.slot, Proc.member, hs]
    rfl
  refine ⟨_, ?_, Or.inr (.alloc hslot), Or.inr rfl⟩
  refine h.change hpc hproc hm (by simp [Pc.role, Pc.core]) (Or.inr hi)
    (by simp [hx]) (fun np hnp => ?_) nofun (Or.inl hxpar) ?_ rfl ⟨?_, ?_, ?_, fun y hy => ?_⟩
  · cases hnp
    exact ⟨rfl, hxpar.trans hspare⟩
  · rw [Proc.member, hx, hxpid, hxpar, hspare]
    rfl
  · rw [hevents, List.filterMap_append, List.reverse_append, h.used]
    rfl
  · rw [hevents, List.filterMap_append]
    exact h.log.trans (List.append_nil _).symm
  · rw [hnext, h.nextpid]
    exact (Int32.ofNat_add _ 1).symm
  · rcases List.mem_cons.mp hy with rfl | hy
    · exact ⟨F.used.length + 1, by omega, le_refl _, h.nextpid⟩
    · obtain ⟨n, h0, hn, rfl⟩ := h.numbered y hy
      exact ⟨n, h0, Nat.le_succ_of_le hn, rfl⟩

theorem Relates.drop (hs : Placed s) (hpc : s.pc p ≠ .exitMark)
    (hnp : (s.pc p).role = .makes np) (hproc : t.proc = update s.proc np x)
    (hx : x.state = .unused) (hxpar : x.parent = (s.proc np).parent) (hm : Moves s t p .user)
    (hnext : t.nextpid = s.nextpid) (hevents : t.events = s.events) : Follows s F t := by
  refine ⟨_, ?_, Or.inr (.drop (h.embryo hs (Pc.child_of_makes hnp)) rfl), Or.inl rfl⟩
  refine h.change hpc hproc hm (by simp [Pc.role, Pc.core]) (Or.inl hx)
    (fun _ => hxpar.trans (h.makes p np hnp)) nofun nofun (Or.inl hxpar) ?_ rfl
    (h.untold hevents hnext rfl rfl)
  rw [Proc.member, hx]
  rfl

theorem Relates.fill (hs : Placed s) (hp : (s.cpu c).stack = some p)
    (hpc : s.pc p ≠ .exitMark) (hrun : (s.pc p).state = .running)
    (hnp : (s.pc p).role = .makes np) (hproc : t.proc = update s.proc np x)
    (hx : x.state = (s.proc np).state) (hxpid : x.pid = (s.proc np).pid)
    (hxpar : x.parent = some p) (hm : Moves s t p (.acquire (.forkPublish np)))
    (hnext : t.nextpid = s.nextpid) (hevents : t.events = s.events) : Follows s F t := by
  have hc := Pc.child_of_makes hnp
  have hemb := hs.child p np hc
  have hl : F.leaving ≠ some p := fun e => hpc (h.marks p ((h.leaving p).mp e)).1
  refine ⟨_, ?_, Or.inr (.fill (h.embryo hs hc) rfl (h.alive hs hp hrun) rfl hl),
    Or.inl rfl⟩
  refine h.change hpc hproc hm (by simp [Pc.role, Pc.core])
    (Or.inr (h.lt_nproc (by simp [hemb]))) (by simp [hx, hemb]) nofun (fun m hm => ?_)
    (Or.inr fun q hqp hq => hqp (hs.child_inj q p np hq hc)) ?_ rfl
    (h.untold hevents hnext rfl rfl)
  · cases hm
    exact ⟨rfl, hxpar⟩
  · rw [Proc.member, hx, hxpid, hxpar, hemb]
    rfl

theorem Relates.publish (hs : Placed s) (hp : (s.cpu c).stack = some p)
    (hpc : s.pc p ≠ .exitMark) (hrun : (s.pc p).state = .running)
    (hnp : (s.pc p).role = .filled np) (hproc : t.proc = update s.proc np x)
    (hx : x.state = .runnable) (hxpid : x.pid = (s.proc np).pid)
    (hxpar : x.parent = (s.proc np).parent) (hm : Moves s t p (.release .user))
    (hnext : t.nextpid = s.nextpid)
    (hevents : t.events = s.events ++ [.fork (s.proc p).pid (s.proc np).pid]) : Follows s F t := by
  have hc := Pc.child_of_filled hnp
  refine ⟨_, ?_, Or.inr (.publish (h.embryo hs hc) rfl (h.filled p np hnp) (h.alive hs hp hrun)),
    Or.inl rfl⟩
  refine h.change hpc hproc hm (by simp [Pc.role, Pc.core])
    (Or.inr (h.lt_nproc (by simp [hs.child p np hc]))) (by simp [hx]) nofun nofun
    (Or.inl hxpar) ?_ rfl (h.told hevents hnext rfl rfl rfl)
  rw [Proc.member, hx, hxpid, hxpar]
  rfl

theorem Relates.reap (hs : Placed s) (hp : (s.cpu c).stack = some p)
    (hpc : s.pc p ≠ .exitMark) (hrun : (s.pc p).state = .running) (hlock : (s.pc p).holdsLock)
    (hz : (s.proc i).state = .zombie) (hpar : (s.proc i).parent = some p)
    (hproc : t.proc = update s.proc i x) (hx : x.state = .unused)
    (hxpar : x.parent = none) (hm : Moves s t p (.release .user))
    (hnext : t.nextpid = s.nextpid)
    (hevents : t.events = s.events ++ [.wait (s.proc p).pid (s.proc i).pid]) : Follows s F t := by
  have hslot : F.slot i = some ⟨(s.proc i).pid, (s.proc i).parent, .zombie⟩ := by
    rw [h.slot, Proc.member, hz]
    rfl
  refine ⟨_, ?_, Or.inr (.reap (h.alive hs hp hrun) rfl hslot rfl hpar
    (h.leaving_none hs hp hlock hpc)), Or.inl rfl⟩
  refine h.change hpc hproc hm (by simp [Pc.role, Pc.core]) (Or.inl hx)
    (fun _ => hxpar) nofun nofun (Or.inr fun q _ hq => ?_) ?_ rfl
    (h.told hevents hnext rfl rfl rfl)
  · rw [hs.child q i hq] at hz
    cases hz
  · rw [Proc.member, hx]
    rfl

theorem Relates.pass (hs : Placed s) (hp : (s.cpu c).stack = some p)
    (hpc : s.pc p = .exitPass) (hproc : t.proc = passChildren p s.initproc s.proc)
    (hm : Moves s t p .exitMark) (hnext : t.nextpid = s.nextpid)
    (hevents : t.events = s.events) : Follows s F t := by
  have hne : p ≠ s.initproc := h.exits p (Or.inl (by rw [hpc]; rfl))
  have hl : F.leaving = none := h.leaving_none hs hp (by rw [hpc]; rfl) (by rw [hpc]; nofun)
  have hstay : ∀ q, q ≠ p → (s.pc q).role ≠ .leaves := by
    intro q _ hq
    have := (h.leaving q).mpr hq
    rw [hl] at this
    cases this
  have hstage : ∀ q, (t.proc q).state.stage = (s.proc q).state.stage := by
    intro q
    rw [hproc]
    exact stage_of_woken (passChildren_state p s.initproc s.proc q)
  have hunused : ∀ q, (t.proc q).state = .unused ↔ (s.proc q).state = .unused := by
    intro q
    rw [← ProcState.stage_eq_none, hstage, ProcState.stage_eq_none]
  -- slots beyond the table have no parent, so the bound of the loop does not matter
  have hparent : ∀ q, (t.proc q).parent =
      if (s.proc q).parent = some p then some s.initproc else (s.proc q).parent := by
    intro q
    rw [hproc, passChildren_eq]
    by_cases hq : q < nproc
    · simp only [passed, hq, true_and]
    · have hnone := h.spare q (h.bound q (by omega))
      simp [passed, hnone]
  have hpid : ∀ q, (t.proc q).pid = (s.proc q).pid := by
    intro q
    rw [hproc, passChildren_eq, passed]
  -- a process with any other role is another one
  have hback : ∀ q role, role ≠ .leaves → (t.pc q).role = role → q ≠ p ∧ (s.pc q).role = role := by
    intro q role hrole hq
    have hqp : q ≠ p := by
      rintro rfl
      rw [hm.self] at hq
      exact hrole hq.symm
    rw [hm.other hqp] at hq
    exact ⟨hqp, hq⟩
  have htold : Told t { F with
      slot := fun q => (F.slot q).map (Family.adopt s.initproc p), leaving := some p } :=
    h.untold hevents hnext rfl rfl
  refine ⟨_, { htold with
    initproc := hm.initproc.trans h.initproc
    slot := fun q => ?_
    leaving := fun q => ?_
    marks := fun q hq => ?_
    bound := fun q hq => (hunused q).mpr (h.bound q hq)
    spare := fun q hq => ?_
    makes := fun q m hq => ?_
    filled := fun q m hq => ?_
    exits := fun q hq => ?_ },
    Or.inr (.pass (h.alive hs hp (by rw [hpc]; rfl)) rfl hne hl), Or.inl rfl⟩
  · change (F.slot q).map _ = _
    rw [h.slot, Proc.member, Proc.member, hstage, hpid, hparent, Option.map_map]
    rfl
  · by_cases hqp : q = p
    · subst hqp
      rw [hm.self]
      exact iff_of_true rfl rfl
    · rw [hm.other hqp]
      refine iff_of_false (fun e => hqp ?_) (hstay q hqp)
      simpa using e.symm
  · by_cases hqp : q = p
    · subst hqp
      exact ⟨hm.self, c, by rw [hm.cpu, hp]⟩
    · rw [hm.other hqp] at hq
      exact absurd hq (hstay q hqp)
  · rw [hparent, h.spare q ((hunused q).mp hq)]
    rfl
  · rw [hparent, h.makes q m (hback q _ (by simp) hq).2]
    rfl
  · obtain ⟨hqp, hq⟩ := hback q _ (by simp) hq
    rw [hparent, h.filled q m hq]
    exact if_neg (by simpa using hqp)
  · rw [hm.initproc]
    by_cases hqp : q = p
    · exact hqp ▸ hne
    · rw [hm.other hqp] at hq
      exact h.exits q hq

theorem Relates.exit (hs : Placed s) (hp : (s.cpu c).stack = some p)
    (hpc : s.pc p = .exitMark) (hproc : t.proc = update s.proc p x)
    (hx : x.state = .zombie) (hxpid : x.pid = (s.proc p).pid)
    (hxpar : x.parent = (s.proc p).parent) (hm : Moves s t p (.sched .exited))
    (hnext : t.nextpid = s.nextpid)
    (hevents : t.events = s.events ++ [.exit (s.proc p).pid]) : Follows s F t := by
  have hleaves : (s.pc p).role = .leaves := by rw [hpc]; rfl
  have hl := (h.leaving p).mpr hleaves
  have hself : t.proc p = x := by rw [hproc, update_self]
  have hother : ∀ q, q ≠ p → t.proc q = s.proc q :=
    fun q hq => by rw [hproc, update_of_ne hq]
  have hparent : ∀ q, (t.proc q).parent = (s.proc q).parent := by
    intro q
    by_cases hqp : q = p
    · rw [hqp, hself, hxpar]
    · rw [hother q hqp]
  -- the process that exits was the only one to leave
  have hback : ∀ q role, role ≠ .none → (t.pc q).role = role →
      (s.pc q).role = role ∧ role ≠ .leaves := by
    intro q role hne hq
    have hqp : q ≠ p := by
      rintro rfl
      rw [hm.self] at hq
      exact hne hq.symm
    rw [hm.other hqp] at hq
    refine ⟨hq, fun e => hqp ?_⟩
    have := (h.leaving q).mpr (hq.trans e)
    rw [hl, Option.some.injEq] at this
    exact this.symm
  have htold : Told t (Family.note { F.set p (some ⟨(s.proc p).pid, (s.proc p).parent, .zombie⟩) with
      leaving := none } (.exit (s.proc p).pid)) := h.told hevents hnext rfl rfl rfl
  refine ⟨_, { htold with
    initproc := hm.initproc.trans h.initproc
    slot := fun q => ?_
    leaving := fun q => ⟨nofun, fun hq => absurd rfl (hback q _ (by simp) hq).2⟩
    marks := fun q hq => absurd rfl (hback q _ (by simp) hq).2
    bound := fun q hq => ?_
    spare := fun q hq => ?_
    makes := fun q m hq => ?_
    filled := fun q m hq => ?_
    exits := fun q hq => ?_ }, Or.inr (.exit (h.alive hs hp (by rw [hpc]; rfl)) hl), Or.inl rfl⟩
  · by_cases hqp : q = p
    · subst hqp
      rw [hself, Proc.member, hx, hxpid, hxpar]
      exact update_self _ _ _
    · rw [hother q hqp, ← h.slot]
      exact update_of_ne hqp _ _
  · have hqp : q ≠ p := by
      rintro rfl
      exact (hs.made hp).1 (h.bound q hq)
    rw [hother q hqp]
    exact h.bound q hq
  · have hqp : q ≠ p := by
      rintro rfl
      rw [hself, hx] at hq
      cases hq
    rw [hother q hqp] at hq ⊢
    exact h.spare q hq
  · rw [hparent]
    exact h.makes q m (hback q _ (by simp) hq).1
  · rw [hparent]
    exact h.filled q m (hback q _ (by simp) hq).1
  · rw [hm.initproc]
    rcases hq with hq | hq
    · exact h.exits q (Or.inl (hback q _ (by simp) hq).1)
    · exact absurd rfl (hback q _ (by simp) hq).2

/-- **Every step is a step of the family, or none.** -/
theorem procStep_relates (hs : Placed s) (hp : (s.cpu c).stack = some p)
    (ht : procStep s c p r = some t) : Follows s F t := by
  have hst := hs.state c p hp
  -- most steps do not show
  have hquiet : ∀ {t : State} {k' : Pc}, s.pc p ≠ .exitMark →
      (∀ q, SameKin (s.proc q) (t.proc q)) → Moves s t p k' → t.nextpid = s.nextpid →
      t.events = s.events → (k'.role = (s.pc p).role ∨ k'.role = .none) → Follows s F t :=
    fun hpc hkin hm hnext hevents hrole => ⟨F, h.goto hpc hkin hm
      (h.untold hevents hnext rfl rfl) (hrole.imp_right Or.inl), Or.inl rfl, Or.inl rfl⟩
  have hsame : ∀ q, SameKin (s.proc q) (s.proc q) := fun q => .refl _
  cases hpc : s.pc p <;> simp only [procStep, hpc, reduceCtorEq] at ht <;>
    rw [hpc] at hst hquiet
  all_goals simp only [ne_eq, reduceCtorEq, not_false_eq_true, forall_const] at hquiet
  case acquire k =>
    split at ht <;> cases ht
    exact hquiet hsame ⟨rfl, rfl, rfl⟩ rfl rfl (Or.inl rfl)
  all_goals cases ht
  case release k =>
    exact hquiet hsame ⟨rfl, rfl, rfl⟩ rfl rfl (Or.inl rfl)
  case sched k =>
    exact ⟨F, h.admin (sched_admin hs hp hpc), Or.inl rfl, Or.inl rfl⟩
  case allocScan i =>
    rw [allocScan]
    split_ifs with hi hs'
    · exact h.alloc (by simp [hpc]) hi hs' rfl rfl rfl rfl ⟨rfl, rfl, rfl⟩ rfl rfl
    · exact hquiet (SameKin.set ⟨rfl, rfl, rfl⟩) ⟨rfl, rfl, rfl⟩ rfl rfl (Or.inr rfl)
    · exact hquiet hsame ⟨rfl, rfl, rfl⟩ rfl rfl (Or.inr rfl)
  case allocStack np =>
    have hnp : (s.pc p).role = .makes np := by rw [hpc]; rfl
    rw [allocStack]
    split_ifs with hr
    · exact h.drop hs (by simp [hpc]) hnp rfl rfl rfl ⟨rfl, rfl, rfl⟩ rfl rfl
    · have hc := Pc.child_of_makes hnp
      have hne := hs.ne_child hp hc
      have hpcs : ∀ q, q ≠ np → q ≠ p → update (update s.pc np
          (.switched (.release .user))) p (.forkCopy np) q = s.pc q := fun q h₁ h₂ => by
        rw [update_of_ne h₂, update_of_ne h₁]
      refine ⟨F, h.keep (SameKin.set ⟨rfl, rfl, rfl⟩) rfl (h.untold rfl rfl rfl rfl)
        (fun q => ?_) fun q d hq hd => ?_, Or.inl rfl, Or.inl rfl⟩
      · change (update (update s.pc np _) p _ q).role = _ ∨ _ ∧
          ((update (update s.pc np _) p _ q).role = _ ∨ _)
        by_cases hqp : q = p
        · rw [hqp, update_self, hpc]
          exact Or.inl rfl
        · by_cases hqn : q = np
          · subst hqn
            rw [update_of_ne hqp, update_self]
            refine Or.inr ⟨fun e => ?_, Or.inl rfl⟩
            obtain ⟨-, d, hd⟩ := h.marks q e
            exact hs.ne_child hd hc rfl
          · rw [hpcs q hqn hqp]
            exact Or.inl rfl
      · refine ⟨(hpcs q (hs.ne_child hd hc) ?_).trans hq, hd⟩
        rintro rfl
        rw [hpc] at hq
        cases hq
  case forkCopy np =>
    have hnp : (s.pc p).role = .makes np := by rw [hpc]; rfl
    rw [forkCopy]
    split_ifs with hr
    · exact h.drop hs (by simp [hpc]) hnp rfl rfl rfl ⟨rfl, rfl, rfl⟩ rfl rfl
    · exact hquiet (SameKin.set ⟨rfl, rfl, rfl⟩) ⟨rfl, rfl, rfl⟩ rfl rfl (Or.inl rfl)
  case forkFill np =>
    exact h.fill hs hp (by simp [hpc]) (by rw [hpc]; rfl) (by rw [hpc]; rfl) rfl rfl rfl rfl
      ⟨rfl, rfl, rfl⟩ rfl rfl
  case forkPublish np =>
    exact h.publish hs hp (by simp [hpc]) (by rw [hpc]; rfl) (by rw [hpc]; rfl) rfl rfl rfl rfl
      ⟨rfl, rfl, rfl⟩ rfl rfl
  case exitWake =>
    exact hquiet (wakeup1_kin _ _) ⟨rfl, rfl, rfl⟩ rfl rfl (Or.inl rfl)
  case exitPass =>
    exact h.pass hs hp hpc rfl ⟨rfl, rfl, rfl⟩ rfl rfl
  case exitMark =>
    exact h.exit hs hp hpc rfl rfl rfl rfl ⟨rfl, rfl, rfl⟩ rfl rfl
  case waitScan i havekids =>
    rw [waitScan]
    split_ifs with hi hpar hz
    · exact hquiet hsame ⟨rfl, rfl, rfl⟩ rfl rfl (Or.inr rfl)
    · exact h.reap hs hp (by simp [hpc]) (by rw [hpc]; rfl) (by rw [hpc]; rfl) hz
        (not_not.mp hpar) rfl rfl rfl ⟨rfl, rfl, rfl⟩ rfl rfl
    all_goals exact hquiet hsame ⟨rfl, rfl, rfl⟩ rfl rfl (Or.inr rfl)
  case waitMark | sleepMark chan =>
    refine hquiet (SameKin.set ⟨rfl, rfl, ?_⟩) ⟨rfl, rfl, rfl⟩ rfl rfl (Or.inr rfl)
    rw [hst]
    rfl
  case waitTidy | sleepTidy | niceWrite pid priority i =>
    exact hquiet (SameKin.set ⟨rfl, rfl, rfl⟩) ⟨rfl, rfl, rfl⟩ rfl rfl (Or.inr rfl)
  case yieldMark k =>
    refine hquiet (SameKin.set ⟨rfl, rfl, ?_⟩) ⟨rfl, rfl, rfl⟩ rfl rfl (Or.inl rfl)
    rw [hst]
    rfl
  case wakeup1 chan =>
    exact hquiet (wakeup1_kin _ _) ⟨rfl, rfl, rfl⟩ rfl rfl (Or.inr rfl)
  case killScan pid =>
    exact ⟨F, h.goto (by simp [hpc]) (kill_kin pid s.proc) ⟨rfl, rfl, rfl⟩
      (h.told rfl rfl rfl rfl (List.append_nil _).symm) (Or.inr (Or.inl rfl)), Or.inl rfl, Or.inl rfl⟩
  case niceScan pid priority i =>
    split_ifs <;> exact hquiet hsame ⟨rfl, rfl, rfl⟩ rfl rfl (Or.inr rfl)

theorem enter_relates (hpc : s.pc p = .user) {f : Call}
    (ht : enter s p f = some t) : Relates t F := by
  have hpc' : s.pc p ≠ .exitMark := by
    rw [hpc]
    nofun
  cases f with
  | exit =>
    rw [enter] at ht
    split_ifs at ht with hinit
    cases ht
    exact h.goto hpc' (SameKin.set ⟨rfl, rfl, rfl⟩) ⟨rfl, rfl, rfl⟩ (h.untold rfl rfl rfl rfl)
      (Or.inr (Or.inr ⟨rfl, hinit⟩))
  | sleep chan =>
    cases chan <;> cases ht
    exact h.goto hpc' (fun q => .refl _) ⟨rfl, rfl, rfl⟩ (h.untold rfl rfl rfl rfl)
      (Or.inr (Or.inl rfl))
  | fork | wait | wakeup chan | kill pid | nice pid priority =>
    cases ht
    exact h.goto hpc' (fun q => .refl _) ⟨rfl, rfl, rfl⟩ (h.untold rfl rfl rfl rfl)
      (Or.inr (Or.inl rfl))

/-- **Every step of the machine is a step of the family, or none.** -/
theorem Relates.step (hs : Placed s) (ht : step s a = some t) : Follows s F t := by
  cases a with
  | sched c => exact ⟨F, h.admin (schedStep_admin hs ht), Or.inl rfl, Or.inl rfl⟩
  | proc c r =>
    obtain ⟨p, hp, ht⟩ := Option.bind_eq_some_iff.mp ht
    exact procStep_relates h hs hp ht
  | call c f =>
    obtain ⟨p, hp, ht⟩ := Option.bind_eq_some_iff.mp ht
    split_ifs at ht with hpc
    exact ⟨F, enter_relates h hpc ht, Or.inl rfl, Or.inl rfl⟩
  | tick c =>
    obtain ⟨p, hp, ht⟩ := Option.bind_eq_some_iff.mp ht
    split_ifs at ht with hl
    cases ht
    refine ⟨F, h.goto (fun e => hl ?_) (fun q => .refl _) ⟨rfl, rfl, rfl⟩
      (h.untold rfl rfl rfl rfl) (Or.inl rfl), Or.inl rfl, Or.inl rfl⟩
    rw [e]
    rfl
  | intr c chan =>
    rw [Sched.step] at ht
    split_ifs at ht
    cases ht
    exact ⟨F, h.admin (intr_admin _), Or.inl rfl, Or.inl rfl⟩

end

def bootFamily : Family Int32 where
  slot := update (fun _ => none) 0 (some ⟨1, none, .alive⟩)
  used := [1]
  leaving := none
  log := []

theorem boot_relates : Relates (boot sz pgdir kstack cwd ticks) bootFamily := by
  have hrole : ∀ p, ((boot sz pgdir kstack cwd ticks).pc p).role = .none := by
    intro p
    simp only [boot]
    split <;> rfl
  refine
    { initproc := rfl
      slot := fun q => ?_
      used := rfl
      log := rfl
      leaving := fun p => ?_
      marks := fun p hp => ?_
      bound := fun q hq => ?_
      spare := fun q _ => ?_
      makes := fun p np hp => ?_
      filled := fun p np hp => ?_
      exits := fun p hp => ?_
      nextpid := rfl
      numbered := fun x hx => ⟨1, by simp, by simp [bootFamily], ?_⟩ }
  · rw [boot_proc]
    simp only [bootFamily, update_apply]
    split <;> rfl
  · simp [hrole, bootFamily]
  · rw [hrole] at hp
    cases hp
  · rw [boot_proc, if_neg (by simp only [nproc] at hq; omega)]
    rfl
  · rw [boot_proc]
    split <;> rfl
  · rw [hrole] at hp
    cases hp
  · rw [hrole] at hp
    cases hp
  · simp [hrole] at hp
  · simpa [bootFamily] using hx

theorem bootFamily_inv : bootFamily.Inv 0 1 := by
  have hslot : ∀ q m, bootFamily.slot q = some m → q = 0 ∧ m = ⟨1, none, .alive⟩ := by
    intro q m hq
    simp only [bootFamily, update_apply] at hq
    split at hq
    · next h0 => exact ⟨h0, by simpa using hq.symm⟩
    · cases hq
  have htree : bootFamily.Tree 0 :=
    { initial := ⟨⟨1, none, .alive⟩, rfl, rfl, rfl⟩
      leaving := nofun
      parent := fun q m p hq hp => by simp [(hslot q m hq).2] at hp
      parent_ne := fun q m hq => by simp [(hslot q m hq).2]
      orphan := fun q m hq _ => Or.inr (hslot q m hq).1 }
  exact
    { tree := htree
      distinct := fun p q m n hp hq _ => (hslot p m hp).1.trans (hslot q n hq).1.symm
      used := fun q m hq => by simp [(hslot q m hq).2, bootFamily]
      pid_initial := fun m hm => by rw [(hslot 0 m hm).2]
      known := nofun
      unborn := nofun
      creator := nofun
      gone := nofun
      dead := fun q m hq hm => by simp [(hslot q m hq).2] at hm
      kept := nofun
      waits := fun before w x after h => by simp [bootFamily] at h }

/-- The family of every state of a run. Its histories are right as long as few processes are
created. -/
theorem family {as : List Action} (hr : run step (boot sz pgdir kstack cwd ticks) as = some s) :
    ∃ F, Relates s F ∧ F.Tree 0 ∧ (s.creations < 2 ^ 31 → F.Inv 0 1) := by
  have hinv : Placed s ∧ ∃ F, Relates s F ∧ F.Tree 0 ∧ (s.creations < 2 ^ 31 → F.Inv 0 1) := by
    refine run_invariant (I := fun s => Placed s ∧
      ∃ F, Relates s F ∧ F.Tree 0 ∧ (s.creations < 2 ^ 31 → F.Inv 0 1)) ?_ ?_ hr
    · rintro s a t ⟨hs, F, h, htree, hinv⟩ ht
      refine ⟨hs.step ht, ?_⟩
      obtain ⟨G, hG, hstep, hused⟩ := h.step hs ht
      -- what few processes are after the step, they were before it
      have hle : s.creations ≤ t.creations := ((step_events ht).filterMap _).length_le
      rcases hstep with rfl | hstep
      · exact ⟨G, hG, htree, fun hfew => hinv (Nat.lt_of_le_of_lt hle hfew)⟩
      · rw [h.initproc] at hstep
        refine ⟨G, hG, htree.step hstep, fun hfew =>
          (hinv (Nat.lt_of_le_of_lt hle hfew)).step hstep fun x hx => ?_⟩
        rcases hused with e | e
        · exact absurd (congrArg List.length (hx.symm.trans e)) (by simp)
        · have hlen := congrArg List.length e
          rw [hG.length_used, List.length_cons, h.length_used] at hlen
          obtain rfl : x = s.nextpid := by
            have := hx.symm.trans e
            simpa using this
          exact h.fresh (by omega)
    · exact ⟨boot_placed, bootFamily, boot_relates, bootFamily_inv.tree, fun _ => bootFamily_inv⟩
  exact hinv.2

theorem Relates.member (h : Relates s F) (hq : (s.proc q).state ≠ .unused) :
    ∃ stage, (s.proc q).state.stage = some stage ∧
      F.slot q = some ⟨(s.proc q).pid, (s.proc q).parent, stage⟩ := by
  rw [h.slot, Proc.member]
  cases hstage : (s.proc q).state.stage with
  | none => exact absurd (ProcState.stage_eq_none.mp hstage) hq
  | some stage => exact ⟨stage, rfl, rfl⟩

theorem Relates.of_slot {m : Member Int32} (h : Relates s F) (hq : F.slot q = some m) :
    (s.proc q).state.stage = some m.stage ∧ (s.proc q).pid = m.pid := by
  rw [h.slot, Proc.member, Option.map_eq_some_iff] at hq
  obtain ⟨stage, hstage, rfl⟩ := hq
  exact ⟨hstage, rfl⟩

variable {events : List Event}

theorem mem_notes {e : Event} {n : Note Int32} (hn : e.note = some n)
    (hinj : ∀ e', e'.note = some n → e' = e) : n ∈ events.filterMap Event.note ↔ e ∈ events := by
  rw [List.mem_filterMap]
  constructor
  · rintro ⟨e', he', hn'⟩
    exact hinj e' hn' ▸ he'
  · intro he
    exact ⟨e, he, hn⟩

theorem exit_mem_notes {x : Int32} : .exit x ∈ events.filterMap Event.note ↔ .exit x ∈ events :=
  mem_notes rfl fun e' he' => by cases e' <;> simp_all [Event.note]

theorem fork_mem_notes {x y : Int32} :
    .fork y x ∈ events.filterMap Event.note ↔ .fork y x ∈ events :=
  mem_notes rfl fun e' he' => by cases e' <;> simp_all [Event.note]

theorem wait_mem_notes {w x : Int32} :
    .wait w x ∈ events.filterMap Event.note ↔ .wait w x ∈ events :=
  mem_notes rfl fun e' he' => by cases e' <;> simp_all [Event.note]

/-- **Every child is reaped exactly once.** In every run with fewer than 2³¹ process creations:
the pids of the slots in use are distinct; a `wait` that returns the child of a `fork` comes after
the child's `exit`, is the only one, and was called by the creator or, after the creator's `exit`,
by `initproc`; a zombie has a parent that is in use; and a process that has exited is a zombie
in the table until it is returned. -/
theorem children_reaped_once {as : List Action}
    (hr : run step (boot sz pgdir kstack cwd ticks) as = some s) (hfew : s.creations < 2 ^ 31) :
    (∀ p q, (s.proc p).state ≠ .unused → (s.proc q).state ≠ .unused →
      (s.proc p).pid = (s.proc q).pid → p = q) ∧
    (∀ creator child, .fork creator child ∈ s.events →
      ∀ before waiter after, s.events = before ++ .wait waiter child :: after →
        (∀ w, .wait w child ∉ before ∧ .wait w child ∉ after) ∧ .exit child ∈ before ∧
        (waiter = creator ∨ waiter = (s.proc s.initproc).pid ∧ .exit creator ∈ before)) ∧
    (∀ q, (s.proc q).state = .zombie →
      ∃ p, (s.proc q).parent = some p ∧ (s.proc p).state ≠ .unused) ∧
    ∀ child, .exit child ∈ s.events → (∃ w, .wait w child ∈ s.events) ∨
      ∃ q, (s.proc q).state = .zombie ∧ (s.proc q).pid = child := by
  obtain ⟨F, h, htree, hinv⟩ := family hr
  have hinv := hinv hfew
  -- a `wait` in the history, seen by the family
  have hsplit : ∀ before w x after, s.events = before ++ .wait w x :: after →
      F.log = before.filterMap Event.note ++ .wait w x :: after.filterMap Event.note := by
    intro before w x after he
    rw [h.log, he, List.filterMap_append]
    rfl
  refine ⟨fun p q hp hq hpid => ?_, fun creator child hfork before w after he => ?_,
    fun q hq => ?_, fun x hx => ?_⟩
  · obtain ⟨_, -, hmp⟩ := h.member hp
    obtain ⟨_, -, hmq⟩ := h.member hq
    exact hinv.distinct p q _ _ hmp hmq hpid
  · obtain ⟨hex, hno, hby⟩ := hinv.waits _ w child _ (hsplit before w child after he)
    obtain ⟨m, hm, -⟩ := htree.initial
    have hinit : (s.proc s.initproc).pid = 1 := by
      rw [h.initproc, (h.of_slot hm).2, hinv.pid_initial m hm]
    rw [hinit]
    refine ⟨fun v => ⟨fun hv => hno v (wait_mem_notes.mpr hv), fun hv => ?_⟩,
      exit_mem_notes.mp hex, ?_⟩
    · -- a later `wait` would find the first one before it
      obtain ⟨a₁, a₂, rfl⟩ := List.append_of_mem hv
      have he' : s.events = (before ++ .wait w child :: a₁) ++ .wait v child :: a₂ := by
        rw [he, List.append_assoc]
        rfl
      refine (hinv.waits _ v child _ (hsplit _ v child a₂ he')).2.1 w ?_
      rw [wait_mem_notes]
      simp
    · refine (hby creator ?_).imp_right fun hw => ⟨hw.1, exit_mem_notes.mp hw.2⟩
      rw [h.log]
      exact fork_mem_notes.mpr hfork
  · obtain ⟨stage, hstage, hslot⟩ := h.member (q := q) (by simp [hq])
    rw [hq] at hstage
    cases hstage
    cases hpar : (s.proc q).parent with
    | none =>
      rcases htree.orphan q _ hslot hpar with hemb | rfl
      · cases hemb
      · -- the initial process is alive
        obtain ⟨m, hm, halive, -⟩ := htree.initial
        rw [hslot, Option.some.injEq] at hm
        rw [← hm] at halive
        cases halive
    | some p =>
      obtain ⟨-, n, hn, -⟩ := htree.parent q _ p hslot hpar
      refine ⟨p, rfl, fun hun => ?_⟩
      have := (h.of_slot hn).1
      rw [hun] at this
      cases this
  · rcases hinv.kept x (h.log ▸ exit_mem_notes.mpr hx) with ⟨w, hw⟩ | ⟨q, m, hq, hz, rfl⟩
    · exact Or.inl ⟨w, wait_mem_notes.mp (h.log ▸ hw)⟩
    · obtain ⟨hstage, hpid⟩ := h.of_slot hq
      refine Or.inr ⟨q, ?_, hpid⟩
      rw [hz] at hstage
      cases hst : (s.proc q).state <;> simp_all [ProcState.stage]

/-- `initproc` forks and waits, the child exits, and `initproc` finds it. -/
def reapRun : List Action :=
  [.sched 0, .sched 0, .proc 0 0, .call 0 .fork] ++ List.replicate 10 (.proc 0 5) ++
    .call 0 .wait :: List.replicate 68 (.proc 0 0) ++ [.sched 0, .sched 0, .proc 0 0] ++
    .call 0 .exit :: List.replicate 5 (.proc 0 0) ++ List.replicate 66 (.sched 0) ++
    List.replicate 3 (.proc 0 0)

theorem children_reaped_once_run :
    ∃ s, run step (boot 4096 1 2 3 0) reapRun = some s ∧ .wait 1 2 ∈ s.events ∧
      ∀ before w after, s.events = before ++ .wait w 2 :: after → .exit 2 ∈ before := by
  have hres : ((run step (boot 4096 1 2 3 0) reapRun).map fun s =>
      decide (s.creations < 2 ^ 31 ∧ .fork 1 2 ∈ s.events ∧ .wait 1 2 ∈ s.events)) =
      some true := by
    decide +kernel
  obtain ⟨s, hs, hall⟩ := Option.map_eq_some_iff.mp hres
  obtain ⟨hfew, hfork, hwait⟩ := of_decide_eq_true hall
  exact ⟨s, hs, hwait, fun before w after he =>
    ((children_reaped_once hs hfew).2.1 1 2 hfork before w after he).2.1⟩

/-- **A parent is alive**, and every process that has been started has one, but for `initproc`. -/
theorem parents_alive {as : List Action}
    (hr : run step (boot sz pgdir kstack cwd ticks) as = some s) :
    (s.proc s.initproc).state.stage = some .alive ∧
    ∀ q, (s.proc q).state ≠ .unused → (s.proc q).state ≠ .embryo → q ≠ s.initproc →
      ∃ p, (s.proc q).parent = some p ∧ p ≠ q ∧ (s.proc p).state.stage = some .alive := by
  obtain ⟨F, h, htree, -⟩ := family hr
  rw [h.initproc]
  refine ⟨?_, fun q hused hemb hq => ?_⟩
  · obtain ⟨m, hm, halive, -⟩ := htree.initial
    rw [(h.of_slot hm).1, halive]
  · obtain ⟨stage, hstage, hslot⟩ := h.member hused
    cases hpar : (s.proc q).parent with
    | none =>
      rcases htree.orphan q _ hslot hpar with rfl | rfl
      · cases hst : (s.proc q).state <;> simp_all [ProcState.stage]
      · exact absurd rfl hq
    | some p =>
      obtain ⟨-, n, hn, halive⟩ := htree.parent q _ p hslot hpar
      refine ⟨p, rfl, ?_, by rw [(h.of_slot hn).1, halive]⟩
      rintro rfl
      exact htree.parent_ne p _ hslot hpar

theorem parents_alive_two : ∃ s, run step (boot 4096 1 2 3 0) twoCpuRun = some s ∧
    (s.proc s.initproc).state.stage = some .alive :=
  exists_twoCpuRun.imp fun _ hs => ⟨hs, (parents_alive hs).1⟩

end Xv6.Sched
