import Xv6.Lib.Monitor

/-!
# Sleeping for a time

`sys_sleep`, and the clock interrupt in `trap`, under `tickslock`. The data is the number of
interrupts so far; `ticks` is the last 32 bits of it.
-/

namespace Xv6.Sleep

open Monitor Transition
open Function (update)

inductive TickOut
  | idle
  /-- the end of a `sys_sleep(n)` that was called at `ticks0` and returns 0 -/
  | slept (ticks0 : Nat) (n : Int32)
  deriving DecidableEq

inductive TickIn
  | sysSleep (n : Int32)
  /-- `sys_sleep`: the loop -/
  | loop (ticks0 : Nat) (n : Int32)
  | trap
  /-- `trap`, after `wakeup` -/
  | release
  deriving DecidableEq

/-- What a step asks for: a call, or whether the process has been killed. -/
inductive TickAsk
  | sysSleep (n : Int32)
  | trap
  | killed (b : Bool)

/-- `ticks - ticks0 < n`, which compares unsigned numbers. -/
def early (d t : Nat) (n : Int32) : Bool := UInt32.ofNat d - UInt32.ofNat t < n.toUInt32

def clock : Client Nat Nat TickOut TickIn Unit TickAsk where
  outside _ _ _ r :=
    match r with
    | .sysSleep n => some (.enter (.sysSleep n))
    | .trap => some (.enter .trap)
    | .killed _ => none
  inside _ i d r :=
    match i, r with
    | .sysSleep n, _ => some (.move d (.loop d n))
    | .loop t n, .killed b =>
      if early d t n then if b then some (.leave d .idle) else some (.sleep (.loop t n))
      else some (.leave d (.slept t n))
    | .loop _ _, _ => none
    | .trap, _ => some (.wake () (d + 1) .release)
    | .release, _ => some (.leave d .idle)
  chan _ := ()

/-- What is known of a process when there have been `d` interrupts. -/
def Timely (d : Nat) : TickOut ⊕ TickIn → Prop
  | .inl (.slept t n) => t + n.toUInt32.toNat ≤ d
  | .inr (.loop t _) => t ≤ d
  | _ => True

def Waits (i : TickIn) (d : Nat) : Prop := ∀ t n, i = .loop t n → early d t n = true

theorem le_of_not_early {d t : Nat} {n : Int32} (ht : t ≤ d) (h : early d t n = false) :
    t + n.toUInt32.toNat ≤ d := by
  have hsub : UInt32.ofNat d - UInt32.ofNat t = UInt32.ofNat (d - t) := by
    rw [UInt32.ofNat_sub ht]
  rw [early, hsub, decide_eq_false_iff_not, UInt32.lt_iff_toNat_lt, UInt32.toNat_ofNat'] at h
  have := Nat.mod_le (d - t) (2 ^ 32)
  omega

variable {d d' : Nat} {f : Nat → TickOut ⊕ TickIn} {x : TickOut ⊕ TickIn}

theorem timely_update (h : ∀ p, Timely d (f p)) (hd : d ≤ d') (hx : Timely d' x) (p q : Nat) :
    Timely d' (update f p x q) := by
  rw [Function.update_apply]
  split
  · exact hx
  · have hq := h q
    cases hf : f q with
    | inl o => cases o <;> simp only [hf, Timely] at hq ⊢; omega
    | inr i => cases i <;> simp only [hf, Timely] at hq ⊢; omega

theorem clock_sound : clock.Sound Waits (fun _ _ => False) fun d f => ∀ p, Timely d (f p) where
  out_move := by
    intro d d' f p o o' r _ _ hstep
    cases r <;> cases hstep
  out_enter := by
    intro d f p o i r h _ hstep
    refine timely_update h (Nat.le_refl d) ?_ p
    cases r <;> cases hstep <;> trivial
  in_move := by
    intro d d' f p i i' r h _ hstep
    rcases i with n | ⟨t, n⟩ | _ | _ <;> cases r <;> simp only [clock] at hstep <;>
      try split_ifs at hstep
    all_goals cases hstep <;> exact ⟨timely_update h (Nat.le_refl d)
      (x := .inr (.loop d n)) (Nat.le_refl d) p, fun _ _ _ _ => id⟩
  in_leave := by
    intro d d' f p i o r h hp hstep
    have ho : d' = d ∧ Timely d (.inl o) := by
      have hi := h p
      rw [hp] at hi
      rcases i with _ | ⟨t, n⟩ | _ | _ <;> cases r <;> simp only [clock] at hstep <;>
        try split_ifs at hstep with he
      all_goals cases hstep <;> refine ⟨rfl, ?_⟩ <;> first
        | trivial
        | exact le_of_not_early hi (Bool.eq_false_iff.mpr he)
    rw [ho.1]
    exact ⟨timely_update h (Nat.le_refl d) ho.2 p, fun _ _ _ _ hj => hj.resolve_right id⟩
  in_wake := by
    intro d d' f p i c i' r h _ hstep
    refine ⟨?_, fun _ _ _ _ hne => absurd rfl hne⟩
    cases i <;> cases r <;> simp only [clock] at hstep <;> try split_ifs at hstep
    all_goals cases hstep <;> exact timely_update h (Nat.le_succ d) (x := .inr .release) trivial p
  in_sleep := by
    intro d f p i i' r h hp hstep
    have hi : i' = i ∧ Waits i d := by
      cases i <;> cases r <;> simp only [clock] at hstep <;> grind [Waits]
    rw [hi.1]
    exact ⟨timely_update h (Nat.le_refl d) (hp ▸ h p) p, hi.2, fun _ _ _ _ => False.elim⟩

/-- **`sys_sleep` waits for its time, and no longer.** While `tickslock` is free, the time of a
process that sleeps is not over, and a call that has returned 0 has lasted for `n` interrupts. -/
theorem sysSleep_waits {as : List (Action Nat TickAsk)} {s : State Nat Nat TickOut TickIn Unit}
    (hr : run clock.step (Client.start d fun _ => .idle) as = some s) (p t : Nat) (n : Int32) :
    (s.lock = none → s.pc p = .asleep (.loop t n) → early s.data t n = true) ∧
    (s.pc p = .out (.slept t n) → t + n.toUInt32.toNat ≤ s.data) := by
  have h0 : ∀ p : Nat, Timely d (.inl ((fun _ => TickOut.idle) p)) := fun _ => trivial
  refine ⟨fun hl hp => clock_sound.blocked_of_asleep h0 hr hl hp t n rfl, fun hp => ?_⟩
  have h : Timely s.data (s.pc p).point := (clock_sound.covered h0 hr).inv p
  rw [hp] at h
  exact h

def sleepOnce : List (Action Nat TickAsk) :=
  List.replicate 3 (.run 0 (.sysSleep 1)) ++ List.replicate 4 (.run 0 (.killed false))

theorem sysSleep_waits_once : ∃ s,
    run clock.step (Client.start 5 fun _ => .idle) sleepOnce = some s ∧
      s.pc 0 = .asleep (.loop 5 1) ∧ early s.data 5 1 = true := by
  have h : ((run clock.step (Client.start 5 fun _ => .idle) sleepOnce).map fun s =>
      decide (s.lock = none ∧ s.pc 0 = .asleep (.loop 5 1))) = some true := rfl
  obtain ⟨s, hs, h⟩ := Option.map_eq_some_iff.mp h
  obtain ⟨hl, hp⟩ := of_decide_eq_true h
  exact ⟨s, hs, hp, (sysSleep_waits hs 0 5 1).1 hl hp⟩

end Xv6.Sleep
