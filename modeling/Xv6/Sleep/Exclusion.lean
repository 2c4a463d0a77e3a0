import Xv6.Sleep.Sites

/-!
# Who holds a sleep lock

Any number of processes call `acquiresleep`, `releasesleep` and `holdingsleep` on one lock, and
`filelock` and `fileunlock` on files whose inode has it as its `flock`. Whoever releases the lock
has asked `holdingsleep`. Nothing in the code reads what a process remembers of its own calls.
-/

namespace Xv6.Sleep

open Monitor Transition
open Function (update update_self update_of_ne)

/-- Where a function on the lock was called from. -/
inductive Caller
  | user
  /-- `acquiresleep`, in `fsemaphore_lock` -/
  | filelock
  /-- `holdingsleep`, in `fileunlock` -/
  | fileunlock
  /-- `holdingsleep`, in `fsemaphore_unlock` -/
  | fsemaphoreUnlock
  /-- `releasesleep`, in `fsemaphore_unlock` -/
  | fsemaphoreRelease
  deriving DecidableEq

inductive UserPoint
  /-- outside these functions; what the last one returned -/
  | user (ret : Option Int)
  /-- `fsemaphore_lock` reads `ip->ref` -/
  | lockRef
  /-- `fileunlock` reads `ip->ref` -/
  | unlockRef
  /-- `fsemaphore_unlock` reads `ip->ref` -/
  | releaseRef
  | panicked
  deriving DecidableEq

/-- A process outside `lk->lk`: `held` if an `acquiresleep` of its own is not undone. -/
structure UserOut where
  held : Bool
  point : UserPoint
  deriving DecidableEq

structure UserIn where
  held : Bool
  caller : Caller
  point : LockIn
  deriving DecidableEq

/-- What a process does outside: call a function, or read `ip->ref`. The first reads of `fp->ip`
and of `ip->ref` come with the call. -/
inductive UserCall
  | acquiresleep
  | releasesleep
  | holdingsleep
  | filelock (ip : Bool) (ref : Int)
  | fileunlock (ip : Bool)
  | ref (n : Int)

def UserIn.back (i : UserIn) : LockOut → UserOut
  | .idle =>
    -- the end of `acquiresleep` or of `releasesleep`
    let held := match i.point with
      | .acquiresleep _ => true
      | _ => i.held
    match i.caller with
    | .filelock | .fsemaphoreRelease => ⟨held, .user (some 0)⟩
    | _ => ⟨held, .user none⟩
  | .returned r =>
    match i.caller with
    | .fileunlock => ⟨i.held, if r then .unlockRef else .user (some (-1))⟩
    | .fsemaphoreUnlock => ⟨i.held, if r then .releaseRef else .panicked⟩
    | _ => ⟨i.held, .user (some (if r then 1 else 0))⟩

/-- A step of the function, in the process that called it. `releasesleep` wakes the others after
it has unlocked. -/
def UserIn.next (i : UserIn) :
    InStep SleepLock LockOut LockIn Unit → InStep SleepLock UserOut UserIn Unit
  | .move d j => .move d { i with point := j }
  | .leave d o => .leave d (i.back o)
  | .wake c d j => .wake c d { i with held := false, point := j }
  | .sleep j => .sleep { i with point := j }

variable {ι : Type}

/-- The callers of `acquiresleep`, `releasesleep` and `holdingsleep`, with `filelock`,
`fileunlock`, `fsemaphore_lock` and `fsemaphore_unlock`. `releasesleep` is called only when
`holdingsleep` would say yes. -/
def users (pid : ι → Int32) : Client ι SleepLock UserOut UserIn Unit UserCall where
  outside p o d r :=
    match o.point, r with
    | .user _, .acquiresleep => some (.enter ⟨o.held, .user, .acquiresleep (pid p)⟩)
    | .user _, .releasesleep =>
      if d.locked && d.pid == pid p then some (.enter ⟨o.held, .user, .releasesleep⟩) else none
    | .user _, .holdingsleep => some (.enter ⟨o.held, .user, .holdingsleep (pid p)⟩)
    | .user _, .filelock ip ref =>
      some (.move d ⟨o.held, if ip = false ∨ ref < 1 then .user (some (-1)) else .lockRef⟩)
    | .lockRef, .ref n =>
      if n < 1 then some (.move d ⟨o.held, .panicked⟩)
      else some (.enter ⟨o.held, .filelock, .acquiresleep (pid p)⟩)
    | .user _, .fileunlock ip =>
      if ip then some (.enter ⟨o.held, .fileunlock, .holdingsleep (pid p)⟩)
      else some (.move d ⟨o.held, .user (some (-1))⟩)
    | .unlockRef, .ref n =>
      if n < 1 then some (.move d ⟨o.held, .user (some (-1))⟩)
      else some (.enter ⟨o.held, .fsemaphoreUnlock, .holdingsleep (pid p)⟩)
    | .releaseRef, .ref n =>
      if n < 1 then some (.move d ⟨o.held, .panicked⟩)
      else some (.enter ⟨o.held, .fsemaphoreRelease, .releasesleep⟩)
    | _, _ => none
  inside _ i d _ := (sleepLock.inside 0 i.point d i.point).map i.next
  chan _ := ()

def lockStart : State ι SleepLock UserOut UserIn Unit :=
  Client.start initsleeplock fun _ => ⟨false, .user none⟩

def held : UserOut ⊕ UserIn → Bool
  | .inl o => o.held
  | .inr i => i.held

/-- Process `p` is between a completed `acquiresleep` and its `releasesleep`. -/
def Between (s : State ι SleepLock UserOut UserIn Unit) (p : ι) : Prop :=
  held (s.pc p).point = true

/-- Process `p` is about to unlock, after `holdingsleep` has said yes. -/
def releases : UserOut ⊕ UserIn → Bool
  | .inl ⟨_, .releaseRef⟩ | .inr ⟨_, _, .releasesleep⟩ => true
  | _ => false

def LockIn.Of (pid : Int32) : LockIn → Prop
  | .acquiresleep x | .holdingsleep x => x = pid
  | _ => True

/-- The lock records its holder, and who is about to unlock it is its holder. -/
structure LockInv (pid : ι → Int32) (d : SleepLock) (f : ι → UserOut ⊕ UserIn) : Prop where
  holder : ∀ p, held (f p) = true ↔ d.locked = true ∧ d.pid = pid p
  releases : ∀ p, releases (f p) = true → held (f p) = true
  own : ∀ p i, f p = .inr i → i.point.Of (pid p)

section

variable [DecidableEq ι] {pid : ι → Int32} {d : SleepLock} {f : ι → UserOut ⊕ UserIn} {p : ι}
  {x : UserOut ⊕ UserIn}

theorem LockInv.keep (h : LockInv pid d f) (hheld : held x = held (f p))
    (hrel : Sleep.releases x = true → held (f p) = true)
    (hown : ∀ i, x = .inr i → i.point.Of (pid p)) : LockInv pid d (update f p x) := by
  refine ⟨fun q => ?_, fun q hq => ?_, fun q i hq => ?_⟩ <;> by_cases hqp : q = p
  · subst hqp
    rw [update_self, hheld]
    exact h.holder q
  · rw [update_of_ne hqp]
    exact h.holder q
  · subst hqp
    rw [update_self] at hq ⊢
    exact hheld.trans (hrel hq)
  · rw [update_of_ne hqp] at hq ⊢
    exact h.releases q hq
  · subst hqp
    rw [update_self] at hq
    exact hown i hq
  · rw [update_of_ne hqp] at hq
    exact h.own q i hq

theorem LockInv.lock (h : LockInv pid d f) (hpid : Function.Injective pid)
    (hfree : d.locked = false) {o : UserOut} (hheld : o.held = true)
    (hrel : Sleep.releases (.inl o) = false) : LockInv pid ⟨true, pid p⟩ (update f p (.inl o)) := by
  -- nobody has held the lock
  have hno : ∀ q, held (f q) = false := by
    intro q
    refine Bool.eq_false_iff.mpr fun hq => ?_
    have hl := ((h.holder q).mp hq).1
    rw [hfree] at hl
    cases hl
  refine ⟨fun q => ?_, fun q hq => ?_, fun q i hq => ?_⟩ <;> by_cases hqp : q = p
  · subst hqp
    rw [update_self]
    exact iff_of_true hheld ⟨rfl, rfl⟩
  · rw [update_of_ne hqp, hno q]
    exact iff_of_false nofun fun hq => hqp (hpid hq.2).symm
  · subst hqp
    rw [update_self, hrel] at hq
    cases hq
  · rw [update_of_ne hqp] at hq ⊢
    exact h.releases q hq
  · subst hqp
    rw [update_self] at hq
    cases hq
  · rw [update_of_ne hqp] at hq
    exact h.own q i hq

variable {i : UserIn}

theorem LockInv.unlock (h : LockInv pid d f) (hpid : Function.Injective pid)
    (hp : held (f p) = true) (hheld : i.held = false) (hi : i.point = .release) :
    LockInv pid ⟨false, 0⟩ (update f p (.inr i)) := by
  -- nobody else has held the lock
  have hno : ∀ q, q ≠ p → held (f q) = false := by
    intro q hqp
    refine Bool.eq_false_iff.mpr fun hq => hqp (hpid ?_)
    rw [← ((h.holder q).mp hq).2, ((h.holder p).mp hp).2]
  have hrel : Sleep.releases (.inr i) = false := by
    obtain ⟨b, c, j⟩ := i
    cases hi
    rfl
  refine ⟨fun q => ?_, fun q hq => ?_, fun q j hq => ?_⟩ <;> by_cases hqp : q = p
  · subst hqp
    rw [update_self]
    exact iff_of_false (by rw [held, hheld]; nofun) nofun
  · rw [update_of_ne hqp, hno q hqp]
    exact iff_of_false nofun nofun
  · subst hqp
    rw [update_self, hrel] at hq
    cases hq
  · rw [update_of_ne hqp] at hq ⊢
    exact h.releases q hq
  · subst hqp
    rw [update_self] at hq
    cases hq
    rw [hi]
    trivial
  · rw [update_of_ne hqp] at hq
    exact h.own q j hq

omit [DecidableEq ι] in
/-- Outside, a step leaves the lock and its holder alone. -/
theorem users_move {o o' : UserOut} {d' : SleepLock} {r : UserCall}
    (h : (users pid).outside p o d r = some (.move d' o')) :
    d' = d ∧ o'.held = o.held ∧ Sleep.releases (.inl o') = false := by
  simp only [users] at h
  split at h <;> (try split at h) <;> cases h <;> exact ⟨rfl, rfl, rfl⟩

omit [DecidableEq ι] in
/-- A process calls a function with its own pid, and unlocks only what it holds. -/
theorem users_enter {o : UserOut} {i : UserIn} {r : UserCall}
    (h : (users pid).outside p o d r = some (.enter i)) :
    i.held = o.held ∧ i.point.Of (pid p) ∧ (Sleep.releases (.inr i) = true →
      d.locked = true ∧ d.pid = pid p ∨ Sleep.releases (.inl o) = true) := by
  obtain ⟨b, pt⟩ := o
  simp only [users] at h
  split at h <;> (try split at h) <;> cases h <;> refine ⟨rfl, by trivial, fun hi => ?_⟩ <;>
    try cases hi
  · next hl => exact .inl (by simpa using hl)
  · exact .inr rfl

inductive UserStep (d : SleepLock) (i : UserIn) : InStep SleepLock UserOut UserIn Unit → Prop
  | wait (hl : d.locked = true) : UserStep d i (.sleep i)
  | lock (x : Int32) (hi : i.point = .acquiresleep x) (hfree : d.locked = false) :
      UserStep d i (.leave ⟨true, x⟩ (i.back .idle))
  | unlock (hi : i.point = .releasesleep) :
      UserStep d i (.wake () ⟨false, 0⟩ { i with held := false, point := .release })
  | unlocked (hi : i.point = .release) : UserStep d i (.leave d (i.back .idle))
  | test (x : Int32) (hi : i.point = .holdingsleep x) :
      UserStep d i (.leave d (i.back (.returned (d.locked && d.pid == x))))

omit [DecidableEq ι] in
theorem users_inside {i : UserIn} {r : UserCall} {x : InStep SleepLock UserOut UserIn Unit}
    (h : (users pid).inside p i d r = some x) : UserStep d i x := by
  obtain ⟨b, c, j⟩ := i
  cases j <;> simp only [users, sleepLock] at h
  case acquiresleep y =>
    split at h <;> cases h
    · next hl => exact .wait hl
    · next hl => exact .lock y rfl (Bool.eq_false_iff.mpr hl)
  case releasesleep =>
    cases h
    exact .unlock rfl
  case release =>
    cases h
    exact .unlocked rfl
  case holdingsleep y =>
    cases h
    exact .test y rfl

theorem UserIn.back_held {o : LockOut} (hi : ∀ x, i.point ≠ .acquiresleep x) :
    (i.back o).held = i.held := by
  obtain ⟨b, c, j⟩ := i
  cases o <;> cases c <;> cases j <;> first | rfl | exact absurd rfl (hi _)

theorem UserIn.back_acquired {x : Int32} (hi : i.point = .acquiresleep x) :
    (i.back .idle).held = true := by
  obtain ⟨b, c, j⟩ := i
  cases hi
  cases c <;> rfl

theorem UserIn.back_releases {o : LockOut}
    (h : Sleep.releases (.inl (i.back o)) = true) : o = .returned true := by
  obtain ⟨b, c, j⟩ := i
  cases o with
  | idle => cases c <;> cases h
  | returned r => cases r <;> cases c <;> first | rfl | cases h

/-- **The lock records its holder.** -/
theorem users_sound (hpid : Function.Injective pid) :
    (users pid).Sound (fun _ d => d.locked = true) (fun _ _ => False) (LockInv pid) where
  out_move := by
    intro d d' f p o o' r h hp hstep
    obtain ⟨rfl, hheld, hrel⟩ := users_move hstep
    refine ⟨h.keep (by rw [hp]; exact hheld) (fun hr => ?_) nofun, fun _ _ _ _ => id⟩
    rw [hrel] at hr
    cases hr
  out_enter := by
    intro d f p o i r h hp hstep
    obtain ⟨hheld, hof, hrel⟩ := users_enter hstep
    refine h.keep (by rw [hp]; exact hheld) (fun hr => ?_) fun j hj => ?_
    · rcases hrel hr with hl | ho
      · exact (h.holder p).mpr hl
      · exact h.releases p (by rw [hp]; exact ho)
    · cases hj
      exact hof
  in_move := by
    intro d d' f p i i' r h hp hstep
    cases users_inside hstep
  in_leave := by
    intro d d' f p i o r h hp hstep
    have hof := h.own p i hp
    cases users_inside hstep with
    | lock x hi hfree =>
      rw [hi] at hof
      cases hof
      refine ⟨h.lock hpid hfree (UserIn.back_acquired hi) ?_, fun _ _ _ _ _ => rfl⟩
      exact Bool.eq_false_iff.mpr fun hr => nomatch UserIn.back_releases hr
    | unlocked hi =>
      have hne : ∀ x, i.point ≠ .acquiresleep x := by
        rw [hi]
        nofun
      refine ⟨h.keep ?_ (fun hr => nomatch UserIn.back_releases hr) nofun,
        fun _ _ _ _ hj => hj.resolve_right id⟩
      rw [hp]
      exact UserIn.back_held hne
    | test x hi =>
      rw [hi] at hof
      cases hof
      have hne : ∀ x, i.point ≠ .acquiresleep x := by
        rw [hi]
        nofun
      refine ⟨h.keep ?_ (fun hr => ?_) nofun, fun _ _ _ _ hj => hj.resolve_right id⟩
      · rw [hp]
        exact UserIn.back_held hne
      · have hyes := UserIn.back_releases hr
        exact (h.holder p).mpr (by simpa using hyes)
  in_wake := by
    intro d d' f p i c i' r h hp hstep
    cases users_inside hstep with
    | unlock hi =>
      refine ⟨h.unlock hpid (h.releases p ?_) rfl rfl, fun q j _ _ hne => absurd rfl hne⟩
      obtain ⟨b, c, j⟩ := i
      cases hi
      rw [hp]
      rfl
  in_sleep := by
    intro d f p i i' r h hp hstep
    cases users_inside hstep with
    | wait hl =>
      refine ⟨h.keep (by rw [hp]) (fun hr => ?_) fun j hj => ?_, hl, fun _ _ _ _ => False.elim⟩
      · exact h.releases p (by rw [hp]; exact hr)
      · cases hj
        exact h.own p i hp

omit [DecidableEq ι] in
theorem lockStart_inv : LockInv pid initsleeplock fun _ => .inl ⟨false, .user none⟩ :=
  ⟨fun _ => iff_of_false nofun nofun, nofun, nofun⟩

end

section

variable [DecidableEq ι] {pid : ι → Int32} {p : ι} {s t : State ι SleepLock UserOut UserIn Unit}
  {as : List (Action ι UserCall)}

theorem lock_inv (hpid : Function.Injective pid) (hr : run (users pid).step lockStart as = some s) :
    LockInv pid s.data fun p => (s.pc p).point :=
  ((users_sound hpid).covered lockStart_inv hr).inv

def Refused (p : ι) (s : State ι SleepLock UserOut UserIn Unit) : Prop :=
  ∃ b, s.pc p = .out ⟨b, .user (some (-1))⟩

/-- Whatever the others do in between, process `p` returns -1 after at most `n` steps of its own;
each of them can be taken when the spin lock is free or its own, and none changes the lock. -/
def Refuses (pid : ι → Int32) (p : ι) : Nat → State ι SleepLock UserOut UserIn Unit → Prop
  | 0, s => Refused p s
  | n + 1, s => Refused p s ∨ ∀ bs t, (∀ a ∈ bs, a.actor ≠ p) →
      run (users pid).step s bs = some t →
        (t.lock = none ∨ t.lock = some p → ∃ a u, a.actor = p ∧ (users pid).step t a = some u) ∧
        ∀ a u, a.actor = p → (users pid).step t a = some u →
          u.data = t.data ∧ Refuses pid p n u

/-- While others act, a process that does not sleep stays where it is. -/
theorem pc_of_run {k : Pc ι UserOut UserIn Unit} (hk : ∀ i, k ≠ .asleep i) (hs : s.pc p = k)
    (hbs : ∀ a ∈ as, a.actor ≠ p) (hr : run (users pid).step s as = some t) : t.pc p = k := by
  refine (RunMeets.of_mem (C := fun _ a => a.actor ≠ p) (fun a ha _ => hbs a ha) s).invariant
    (I := fun s => s.pc p = k) (fun s a s' hs ha hstep => ?_) hs hr
  rw [Client.pc_of_step ha (by rw [hs]; exact hk) hstep, hs]

/-- A process that does not hold the lock asks `holdingsleep` in `fileunlock`. -/
def asking (pid : Int32) : UserIn := ⟨false, .fileunlock, .holdingsleep pid⟩

theorem refuses_of_crit (hpid : Function.Injective pid)
    (hr : run (users pid).step lockStart as = some s) (hs : s.pc p = .crit (asking (pid p))) :
    Refuses pid p 1 s := by
  refine .inr fun bs t hbs ht => ?_
  have hpc := pc_of_run (by simp) hs hbs ht
  have hinv : LockInv pid t.data fun p => (t.pc p).point :=
    lock_inv hpid (by rw [run_append, hr]; exact ht)
  have hno : (t.data.locked && t.data.pid == pid p) = false := by
    refine Bool.eq_false_iff.mpr fun hyes => ?_
    have hheld := (hinv.holder p).mpr (by simpa using hyes)
    simp only [hpc] at hheld
    cases hheld
  have hin : ∀ r, (users pid).inside p (asking (pid p)) t.data r =
      some (.leave t.data ⟨false, .user (some (-1))⟩) := by
    intro r
    change some (InStep.leave t.data ((asking (pid p)).back
      (.returned (t.data.locked && t.data.pid == pid p)))) = _
    rw [hno]
    rfl
  have hrun : ∀ r, (users pid).step t (.run p r) = some { t.goto p
      (.out ⟨false, .user (some (-1))⟩) with data := t.data, lock := none } := by
    intro r
    simp only [Client.step, Client.stepOf, hpc, hin r]
  refine ⟨fun _ => ⟨.run p .holdingsleep, _, rfl, hrun _⟩, ?_⟩
  rintro (⟨q, r⟩ | ⟨q, q'⟩) u hq hu <;> change q = p at hq <;> subst hq
  · rw [hrun r] at hu
    cases hu
    exact ⟨rfl, false, update_self _ _ _⟩
  · rw [Client.step, hpc] at hu
    cases hu

/-- The call of `holdingsleep` in `fileunlock` waits for the spin lock. -/
theorem refuses_of_enter (hpid : Function.Injective pid)
    (hr : run (users pid).step lockStart as = some s) (hs : s.pc p = .enter (asking (pid p))) :
    Refuses pid p 2 s := by
  refine .inr fun bs t hbs ht => ?_
  have hpc := pc_of_run (by simp) hs hbs ht
  have hrt : run (users pid).step lockStart (as ++ bs) = some t := by
    rw [run_append, hr]
    exact ht
  have hcov := (users_sound hpid).covered lockStart_inv hrt
  have hmine : t.lock ≠ some p := by
    intro hl
    have hholds := (hcov.lock p).mp hl
    rw [hpc] at hholds
    exact hholds
  have hrun : ∀ r, (users pid).step t (.run p r) = if t.lock = none then
      some { t.goto p (.crit (asking (pid p))) with lock := some p } else none := by
    intro r
    simp only [Client.step, Client.stepOf, hpc]
  refine ⟨fun hl => ⟨.run p .holdingsleep, _, rfl, (hrun _).trans (if_pos ?_)⟩, ?_⟩
  · exact hl.resolve_right hmine
  · rintro (⟨q, r⟩ | ⟨q, q'⟩) u hq hu <;> change q = p at hq <;> subst hq
    · have hru : run (users pid).step lockStart (as ++ bs ++ [.run q r]) = some u := by
        rw [run_append, hrt, Option.bind_some, run_cons, hu]
        rfl
      rw [hrun r] at hu
      split at hu <;> cases hu
      exact ⟨rfl, refuses_of_crit hpid hru (update_self _ _ _)⟩
    · rw [Client.step, hpc] at hu
      cases hu

/-- **Mutual exclusion.** Any number of processes with different pids use a sleep lock, and
only one for which `holdingsleep` is true calls `releasesleep`. At every time at most one of them
is between a completed `acquiresleep` and its `releasesleep`, and the lock has its pid. If a
process that is not calls `fileunlock`, it gets -1 after at most three steps, and none of them
changes the lock. -/
theorem sleepLock_exclusion (hpid : Function.Injective pid)
    (hr : run (users pid).step lockStart as = some s) :
    (∀ p q, Between s p → Between s q → p = q) ∧
    (∀ p, Between s p → s.data.locked = true ∧ s.data.pid = pid p) ∧
    ∀ p ret ip, s.pc p = .out ⟨false, .user ret⟩ →
      ∃ t, (users pid).step s (.run p (.fileunlock ip)) = some t ∧ t.data = s.data ∧
        Refuses pid p 2 t := by
  have hinv := lock_inv hpid hr
  refine ⟨fun p q hp hq => hpid ?_, fun p hp => (hinv.holder p).mp hp, fun p ret ip hp => ?_⟩
  · rw [← ((hinv.holder p).mp hp).2, ((hinv.holder q).mp hq).2]
  · cases ip with
    | false =>
      have hcall : (users pid).step s (.run p (.fileunlock false)) =
          some { s.goto p (.out ⟨false, .user (some (-1))⟩) with data := s.data } := by
        simp only [Client.step, Client.stepOf, hp, users]
        rfl
      exact ⟨_, hcall, rfl, .inl ⟨false, update_self _ _ _⟩⟩
    | true =>
      have hcall : (users pid).step s (.run p (.fileunlock true)) =
          some (s.goto p (.enter (asking (pid p)))) := by
        simp only [Client.step, Client.stepOf, hp, users]
        rfl
      have hrt : run (users pid).step lockStart (as ++ [.run p (.fileunlock true)]) =
          some (s.goto p (.enter (asking (pid p)))) := by
        rw [run_append, hr, Option.bind_some, run_cons, hcall]
        rfl
      exact ⟨_, hcall, rfl, refuses_of_enter hpid hrt (update_self _ _ _)⟩

end

/-- Process 0 locks; process 1 waits for the lock, is woken by a kill and waits again. -/
def filelockRun : List (Action (Fin 3) UserCall) :=
  [.run 0 (.filelock true 1), .run 0 (.ref 1), .run 0 (.ref 1), .run 0 (.ref 1)] ++
    List.replicate 6 (.run 1 .acquiresleep) ++ [.kill 2 1] ++
    List.replicate 3 (.run 2 .acquiresleep) ++ List.replicate 7 (.run 1 .acquiresleep)

theorem sleepLock_exclusion_filelock : ∃ s,
    run (users fun p : Fin 3 => Int32.ofNat (p.val + 1)).step lockStart filelockRun = some s ∧
    Between s 0 ∧ s.data.pid = 1 ∧ s.pc 1 = .asleep ⟨false, .user, .acquiresleep 2⟩ ∧
    ¬ Between s 1 ∧ ∃ t,
      (users fun p : Fin 3 => Int32.ofNat (p.val + 1)).step s (.run 2 (.fileunlock true)) =
        some t ∧ t.data = s.data ∧ Refuses (fun p : Fin 3 => Int32.ofNat (p.val + 1)) 2 2 t := by
  have hpid : Function.Injective fun p : Fin 3 => Int32.ofNat (p.val + 1) := by
    unfold Function.Injective
    decide
  have h : ((run (users fun p : Fin 3 => Int32.ofNat (p.val + 1)).step lockStart
      filelockRun).map fun s => decide (held (s.pc 0).point = true ∧
        s.pc 1 = .asleep ⟨false, .user, .acquiresleep 2⟩ ∧
        s.pc 2 = .out ⟨false, .user none⟩)) = some true := by
    decide +kernel
  obtain ⟨s, hs, h⟩ := Option.map_eq_some_iff.mp h
  obtain ⟨h₀, h₁, h₂⟩ := of_decide_eq_true h
  obtain ⟨hone, hrec, hno⟩ := sleepLock_exclusion hpid hs
  exact ⟨s, hs, h₀, (hrec 0 h₀).2, h₁, fun hb => absurd (hone 0 1 h₀ hb) (by decide),
    hno 2 none true h₂⟩

end Xv6.Sleep
