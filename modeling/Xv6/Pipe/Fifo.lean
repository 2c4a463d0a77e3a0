import Xv6.Pipe.Locks

namespace Xv6.Pipe

open Transition Lock
open Function (update update_self update_of_ne)

variable {s t : Sys} {q : Nat} {p : Pipe} {appended seen : List UInt8}

structure Ringed (p : Pipe) (appended seen : List UInt8) : Prop where
  nwrite : p.nwrite = UInt32.ofNat appended.length
  nread : p.nread = UInt32.ofNat seen.length
  rep : Ring.Rep pipeSize p.data appended seen.length
  order : seen <+: appended

section

variable (h : Ringed p appended seen)

include h

theorem Ringed.length_sub_lt : appended.length - seen.length < 2 ^ 32 := by
  have := h.rep.fits
  rw [pipeSize] at this
  omega

theorem Ringed.empty_iff : p.empty = true ↔ seen.length = appended.length := by
  rw [empty, decide_eq_true_eq, h.nread, h.nwrite]
  exact Ring.ofNat_eq_ofNat_iff h.rep.popped h.length_sub_lt

theorem Ringed.full_iff : p.full = true ↔ appended.length = seen.length + pipeSize := by
  rw [full, decide_eq_true_eq, h.nread, h.nwrite]
  exact Ring.ofNat_eq_add_iff h.rep.popped h.rep.fits (by decide)

theorem Ringed.append (hfull : p.full = false) (c : UInt8) :
    Ringed (p.append c) (appended ++ [c]) seen := by
  have hroom : appended.length < seen.length + pipeSize := by
    refine lt_of_le_of_ne h.rep.fits fun e => ?_
    rw [h.full_iff.mpr e] at hfull
    exact absurd hfull (by simp)
  refine ⟨?_, h.nread, ?_, h.order.trans (List.prefix_append _ _)⟩
  · rw [List.length_append, List.length_singleton, Ring.ofNat_succ, ← h.nwrite]
    rfl
  · have hslot : (p.nwrite % UInt32.ofNat pipeSize).toNat = appended.length % pipeSize := by
      rw [h.nwrite]
      exact Ring.toNat_ofNat_mod (by decide) (by decide) _
    rw [Pipe.append, hslot]
    exact h.rep.push hroom c

theorem Ringed.advance (hempty : p.empty = false) :
    Ringed p.advance appended (seen ++ [p.front]) := by
  have hne : seen.length < appended.length := by
    refine lt_of_le_of_ne h.rep.popped fun e => ?_
    rw [h.empty_iff.mpr e] at hempty
    exact absurd hempty (by simp)
  obtain ⟨hfront, hrep⟩ := h.rep.pop hne
  have hslot : p.front = appended[seen.length] := by
    rw [front, h.nread, Ring.toNat_ofNat_mod (by decide) (by decide)]
    exact hfront
  have hlen : (seen ++ [p.front]).length = seen.length + 1 := by simp
  refine ⟨h.nwrite, ?_, ?_, ?_⟩
  · rw [hlen, Ring.ofNat_succ, ← h.nread]
    rfl
  · rw [hlen]
    exact hrep
  · obtain ⟨rest, hrest⟩ := h.order
    subst hrest
    cases rest with
    | nil => simp at hne
    | cons c rest =>
      have hc : p.front = c := by simpa using hslot
      exact ⟨rest, by simp [hc]⟩

theorem Ringed.distance : (p.nwrite - p.nread).toNat = appended.length - seen.length := by
  rw [h.nread, h.nwrite]
  exact Ring.toNat_sub_ofNat h.rep.popped h.length_sub_lt

theorem Ringed.append_bytes : seen ++ p.bytes = appended := by
  have hbytes : p.bytes = Ring.contents pipeSize p.data seen.length
      (appended.length - seen.length) := by
    rw [bytes, h.distance, Ring.contents]
    refine List.map_congr_left fun k _ => ?_
    rw [h.nread, ← UInt32.ofNat_add, Ring.toNat_ofNat_mod (by decide) (by decide)]
  rw [hbytes, List.prefix_iff_eq_take.mp h.order]
  simpa [h.rep.popped] using h.rep.take_append_contents

end

/-- The bytes that a read returned: as many as its result says. -/
def Ret.bytes : Ret → List UInt8
  | .read _ out ret _ _ => out.take ret.toNat
  | .write _ _ _ => []

def bytesRead (rets : List Ret) : List UInt8 := rets.flatMap Ret.bytes

/-- `pipewrite` returns `n` only if it appended all `n` bytes; `piperead` of some bytes returns
`0` only from an empty pipe without writers. -/
def Ret.Ok : Ret → Prop
  | .write addr wrote ret => ret = addr.length → wrote = addr
  | .read n _ ret empty writeopen => ret = 0 → 0 < n → empty = true ∧ writeopen = false

def Pc.copied : Pc → List UInt8
  | .readCopy _ out | .readWake _ out | .readRelease _ out _ => out
  | _ => []

def copied (s : Sys) : List UInt8 :=
  match s.lock with
  | some q => (s.proc q).pc.copied
  | none => []

/-- A writer has appended the bytes it has passed; a reader returns what it has copied. -/
def Pc.Local (wrote : List UInt8) : Pc → Prop
  | .writeAcquire _ => wrote = []
  | .writeLoop addr i | .writeFull addr i | .sleep (.writer addr i) _ => wrote = addr.take i
  | .writeWake addr => wrote = addr
  | .writeRelease addr ret => ret = addr.length → wrote = addr
  | .readRelease _ out ret => out.take ret.toNat = out
  | _ => True

/-- The pipe is the queue between what was written and what was read. -/
structure Fifo (s : Sys) : Prop where
  ring : Ringed s.pipe s.appended (bytesRead s.rets ++ copied s)
  own : ∀ q, (s.proc q).pc.Local (s.wrote q)
  rets : ∀ e ∈ s.rets, e.Ok

/-- The lock is kept, taken or dropped by `q`. -/
def LockBy (q : Nat) (l l' : Option Nat) : Prop :=
  l' = l ∨ l = none ∧ l' = some q ∨ l = some q ∧ l' = none

variable {x : Proc}

theorem own_update (h : Fifo s) (hproc : t.proc = update s.proc q x)
    (hwrote : ∀ p, p ≠ q → t.wrote p = s.wrote p) (hx : x.pc.Local (t.wrote q)) (p : Nat) :
    (t.proc p).pc.Local (t.wrote p) := by
  by_cases hpq : p = q
  · subst hpq
    rwa [hproc, update_self]
  · rw [hproc, update_of_ne hpq, hwrote p hpq]
    exact h.own p

theorem copied_eq (hproc : t.proc = update s.proc q x)
    (hlock : LockBy q s.lock t.lock) (hsame : x.pc.copied = (s.proc q).pc.copied)
    (hnil : t.lock ≠ s.lock → x.pc.copied = []) : copied t = copied s := by
  rcases hlock with hl | ⟨hl, hl'⟩ | ⟨hl, hl'⟩
  · rw [copied, copied, hl]
    cases hs : s.lock with
    | none => rfl
    | some p =>
      dsimp only
      rw [hproc]
      by_cases hpq : p = q
      · subst hpq
        rw [update_self, hsame]
      · rw [update_of_ne hpq]
  · have := hnil (by simp [hl, hl'])
    simp [copied, hl, hl', hproc, this]
  · have := hnil (by simp [hl, hl'])
    simp [copied, hl, hl', ← hsame, this]

theorem Fifo.quiet (h : Fifo s) (hproc : t.proc = update s.proc q x)
    (hpipe : t.pipe = s.pipe) (happ : t.appended = s.appended) (hrets : t.rets = s.rets)
    (hwrote : ∀ p, p ≠ q → t.wrote p = s.wrote p) (hlock : LockBy q s.lock t.lock)
    (hsame : x.pc.copied = (s.proc q).pc.copied) (hnil : t.lock ≠ s.lock → x.pc.copied = [])
    (hx : x.pc.Local (t.wrote q)) : Fifo t := by
  refine ⟨?_, own_update h hproc hwrote hx, hrets ▸ h.rets⟩
  rw [hpipe, happ, hrets, copied_eq hproc hlock hsame hnil]
  exact h.ring

variable {pc' : Pc}

theorem Fifo.acquire (h : Fifo s) (ht : s.acquire q pc' = some t)
    (hsame : (s.proc q).pc.copied = []) (hnil : pc'.copied = []) (hx : pc'.Local (s.wrote q)) :
    Fifo t := by
  rw [Sys.acquire] at ht
  split at ht <;> cases ht
  rename_i hfree
  exact h.quiet rfl rfl rfl rfl (fun _ _ => rfl) (Or.inr (Or.inl ⟨hfree.1, rfl⟩))
    (hnil.trans hsame.symm) (fun _ => hnil) hx

theorem Fifo.hold (h : Fifo s) (hproc : t.proc = update s.proc q { s.proc q with pc := pc' })
    (hpipe : t.pipe = s.pipe) (happ : t.appended = s.appended) (hrets : t.rets = s.rets)
    (hwrote : t.wrote = s.wrote) (hlock : t.lock = s.lock)
    (hsame : pc'.copied = (s.proc q).pc.copied) (hx : pc'.Local (s.wrote q)) : Fifo t :=
  h.quiet hproc hpipe happ hrets (fun _ _ => by rw [hwrote]) (Or.inl hlock) hsame
    (fun hne => absurd hlock hne) (by rw [hwrote]; exact hx)

theorem Fifo.wakeup (h : Fifo s) {c : Chan} (ht : s.wakeup q c pc' = some t)
    (hsame : pc'.copied = (s.proc q).pc.copied) (hx : pc'.Local (s.wrote q)) : Fifo t := by
  rw [Sys.wakeup] at ht
  split at ht <;> cases ht
  have hall : Fifo { s with proc := fun p => wakeup1 c (s.proc p) } := by
    refine ⟨?_, fun p => by simpa using h.own p, h.rets⟩
    have hcop : copied { s with proc := fun p => wakeup1 c (s.proc p) } = copied s := by
      rw [copied, copied]
      cases s.lock <;> simp
    rw [hcop]
    exact h.ring
  exact hall.hold rfl rfl rfl rfl rfl rfl (by simpa using hsame) hx

theorem Fifo.ret (h : Fifo s) {e : Ret} (hl : s.lock = some q)
    (hproc : t.proc = update s.proc q { s.proc q with pc := .user })
    (hpipe : t.pipe = s.pipe) (happ : t.appended = s.appended) (hrets : t.rets = s.rets ++ [e])
    (hwrote : t.wrote = s.wrote) (hlock : t.lock = none)
    (hbytes : e.bytes = (s.proc q).pc.copied) (hok : e.Ok) : Fifo t := by
  refine ⟨?_, own_update h hproc (fun _ _ => by rw [hwrote]) trivial, ?_⟩
  · have hseen : bytesRead t.rets ++ copied t = bytesRead s.rets ++ copied s := by
      simp [hrets, bytesRead, copied, hlock, hl, hbytes]
    rw [hpipe, happ, hseen]
    exact h.ring
  · intro e' he'
    rw [hrets, List.mem_append, List.mem_singleton] at he'
    rcases he' with he' | rfl
    · exact h.rets e' he'
    · exact hok

theorem Fifo.sleep (h : Fifo s) (hinv : Inv s) {k : Sleeper} {ph : SleepPc}
    (hpc : (s.proc q).pc = .sleep k ph) (ht : Pipe.sleep s q k ph = some t) : Fifo t := by
  have hown := h.own q
  have hnil : (s.proc q).pc.copied = [] := by rw [hpc]; rfl
  rw [hpc] at hown
  have hown' : ∀ ph', (Pc.sleep k ph').Local (s.wrote q) := by
    intro ph'
    cases k <;> exact hown
  cases ph with
  | acquireTable =>
    rw [Pipe.sleep] at ht
    split at ht <;> cases ht
    exact h.hold rfl rfl rfl rfl rfl rfl hnil.symm (hown' _)
  | releaseLock =>
    cases ht
    have hl : s.lock = some q := (hinv.lock q).mpr (by simp only [hpc, Pc.HoldsLock])
    exact h.quiet rfl rfl rfl rfl (fun _ _ => rfl) (Or.inr (Or.inr ⟨hl, rfl⟩)) hnil.symm
      (fun _ => rfl) (hown' _)
  | mark | tidy =>
    cases ht
    exact h.quiet rfl rfl rfl rfl (fun _ _ => rfl) (Or.inl rfl) hnil.symm (fun _ => rfl) (hown' _)
  | switched =>
    rw [Pipe.sleep] at ht
    split at ht <;> cases ht
    exact h.quiet rfl rfl rfl rfl (fun _ _ => rfl) (Or.inl rfl) hnil.symm (fun _ => rfl) (hown' _)
  | reacquire =>
    cases k with
    | writer addr i => exact h.acquire ht hnil rfl hown
    | reader n => exact h.acquire ht hnil rfl trivial

theorem Fifo.writeLoop (h : Fifo s) {addr : List UInt8} {i : Nat}
    (hpc : (s.proc q).pc = .writeLoop addr i) : Fifo (Pipe.writeLoop s q addr i) := by
  have hown := h.own q
  have hnil : (s.proc q).pc.copied = [] := by rw [hpc]; rfl
  rw [hpc] at hown
  have hown : s.wrote q = addr.take i := hown
  rw [Pipe.writeLoop]
  split_ifs with hi hfull hret
  · refine h.hold rfl rfl rfl rfl rfl rfl hnil.symm fun hlen => ?_
    exact absurd hlen (by omega)
  · exact h.hold rfl rfl rfl rfl rfl rfl hnil.symm hown
  · refine ⟨?_, own_update h rfl (fun p hpq => ?_) ?_, h.rets⟩
    · have hcop : copied ((s.append q addr[i]).goto q (.writeLoop addr (i + 1))) = copied s :=
        copied_eq rfl (Or.inl rfl) hnil.symm fun hne => absurd rfl hne
      rw [hcop]
      exact h.ring.append (by simpa using hfull) _
    · exact update_of_ne hpq _ _
    · change update s.wrote q _ q = addr.take (i + 1)
      rw [update_self, hown, List.take_succ_eq_append_getElem hi]
  · refine h.hold rfl rfl rfl rfl rfl rfl hnil.symm ?_
    exact hown.trans (List.take_of_length_le (by omega))

theorem Fifo.readLoop (h : Fifo s) {n : Nat} (hpc : (s.proc q).pc = .readLoop n) :
    Fifo (Pipe.readLoop s q n) := by
  have hnil : (s.proc q).pc.copied = [] := by rw [hpc]; rfl
  rw [Pipe.readLoop]
  split_ifs
  · exact h.hold rfl rfl rfl rfl rfl rfl hnil.symm rfl
  · exact h.hold rfl rfl rfl rfl rfl rfl hnil.symm trivial
  · exact h.hold rfl rfl rfl rfl rfl rfl hnil.symm trivial

theorem Fifo.readCopy (h : Fifo s) (hl : s.lock = some q) {n : Nat} {out : List UInt8}
    (hpc : (s.proc q).pc = .readCopy n out) : Fifo (Pipe.readCopy s q n out) := by
  have hcop : (s.proc q).pc.copied = out := by rw [hpc]; rfl
  rw [Pipe.readCopy]
  split_ifs with hmore
  · refine ⟨?_, own_update h rfl (fun _ _ => rfl) trivial, h.rets⟩
    have hseen := h.ring.advance hmore.2
    simp only [copied, hl, hcop, List.append_assoc] at hseen
    simpa [copied, Sys.goto, hl, Pc.copied] using hseen
  · exact h.hold rfl rfl rfl rfl rfl rfl hcop.symm trivial

theorem Fifo.closeSet (h : Fifo s) {w : Bool} {p' : Pipe} (hpc : (s.proc q).pc = .closeSet w)
    (hdata : p'.data = s.pipe.data) (hnread : p'.nread = s.pipe.nread)
    (hnwrite : p'.nwrite = s.pipe.nwrite) :
    Fifo (Sys.goto { s with pipe := p' } q (.closeWake w)) := by
  refine ⟨?_, own_update h rfl (fun _ _ => rfl) trivial, h.rets⟩
  have hcop : copied (Sys.goto { s with pipe := p' } q (.closeWake w)) = copied s :=
    copied_eq rfl (Or.inl rfl) (by rw [hpc]; rfl) fun hne => absurd rfl hne
  rw [hcop]
  exact ⟨hnwrite.trans h.ring.nwrite, hnread.trans h.ring.nread, hdata ▸ h.ring.rep, h.ring.order⟩

theorem Fifo.stepProc (h : Fifo s) (hinv : Inv s) (ht : stepProc s q = some t) : Fifo t := by
  have hown := h.own q
  have hknow := hinv.knows q
  have hl : (s.proc q).pc.HoldsLock → s.lock = some q := (hinv.lock q).mpr
  rw [Pipe.stepProc] at ht
  split at ht
  all_goals rename_i hpc
  all_goals rw [hpc] at hl hown hknow
  · simp at ht
  · exact h.acquire ht (by rw [hpc]; rfl) rfl hown
  · cases ht
    exact h.writeLoop hpc
  · exact h.wakeup ht (by rw [hpc]; rfl) hown
  · exact h.wakeup ht (by rw [hpc]; rfl) fun _ => hown
  · cases ht
    exact h.ret (hl trivial) rfl rfl rfl rfl rfl rfl (by rw [hpc]; rfl) hown
  · exact h.acquire ht (by rw [hpc]; rfl) rfl trivial
  · cases ht
    exact h.readLoop hpc
  · cases ht
    exact h.readCopy (hl trivial) hpc
  · exact h.wakeup ht (by rw [hpc]; rfl) (by simp [Pc.Local])
  · cases ht
    exact h.ret (hl trivial) rfl rfl rfl rfl rfl rfl (by rw [hpc]; exact hown) hknow
  · exact h.acquire ht (by rw [hpc]; rfl) rfl trivial
  · cases ht
    exact h.closeSet hpc rfl rfl rfl
  · cases ht
    exact h.closeSet hpc rfl rfl rfl
  · exact h.wakeup ht (by rw [hpc]; rfl) trivial
  · exact h.wakeup ht (by rw [hpc]; rfl) trivial
  · cases ht
    exact h.quiet rfl rfl rfl rfl (fun _ _ => rfl) (Or.inr (Or.inr ⟨hl trivial, rfl⟩))
      (by rw [hpc]; rfl) (fun _ => rfl) trivial
  · exact h.sleep hinv hpc ht

theorem Fifo.enter (h : Fifo s) {pc : Pc} (ht : s.enter q pc = some t) (hcop : pc.copied = [])
    (hown : pc.Local []) : Fifo t := by
  rw [Sys.enter] at ht
  split at ht <;> cases ht
  rename_i hpc
  refine h.quiet rfl rfl rfl rfl (fun p hpq => update_of_ne hpq _ _) (Or.inl rfl) ?_
    (fun _ => hcop) ?_
  · rw [hpc]
    exact hcop
  · change pc.Local (update s.wrote q [] q)
    rwa [update_self]

/-- **Every step keeps the pipe a queue.** -/
theorem Fifo.step {a : Action} (h : Fifo s) (hinv : Inv s) (ht : step s a = some t) : Fifo t := by
  cases a with
  | pipewrite q addr => exact h.enter ht rfl rfl
  | piperead q n => exact h.enter ht rfl trivial
  | pipeclose q w => exact h.enter ht rfl trivial
  | proc q => exact h.stepProc hinv ht
  | kill q =>
    rw [Pipe.step, kill] at ht
    split at ht <;> cases ht
    exact h.quiet rfl rfl rfl rfl (fun _ _ => rfl) (Or.inl rfl) rfl (fun hne => absurd rfl hne)
      (h.own q)

theorem Fifo.pipealloc : Fifo pipealloc where
  ring := ⟨rfl, rfl, .empty _ _, List.prefix_refl _⟩
  own q := trivial
  rets := by simp [Pipe.pipealloc]

/-- **The pipe is a queue.** In every state of every run the counters are at most `PIPESIZE`
apart, the bytes returned by reads are a prefix of the bytes appended by writes, and while
nobody holds the lock the rest is what is in the pipe. Every `pipewrite` that returned `n` had
appended its `n` bytes, and every `piperead` of some bytes that returned `0` left an empty pipe
without writers. -/
theorem pipe_fifo (as : List Action) (s : Sys) (hr : run step pipealloc as = some s) :
    (s.pipe.nwrite - s.pipe.nread).toNat ≤ pipeSize ∧
    bytesRead s.rets <+: s.appended ∧
    (s.lock = none → bytesRead s.rets ++ s.pipe.bytes = s.appended) ∧
    ∀ e ∈ s.rets, e.Ok := by
  have hinv : Inv s ∧ Fifo s :=
    run_invariant (I := fun s => Inv s ∧ Fifo s)
      (fun s a t h ht => ⟨h.1.step ht, h.2.step h.1 ht⟩) ⟨.pipealloc, .pipealloc⟩ hr
  have hring := hinv.2.ring
  refine ⟨?_, (List.prefix_append _ _).trans hring.order, fun hl => ?_, hinv.2.rets⟩
  · rw [hring.distance]
    have := hring.rep.fits
    omega
  · have hbytes := hring.append_bytes
    simpa [copied, hl] using hbytes

def writeReadRun : List Action :=
  .pipewrite 1 [1, 2, 3] :: List.replicate 7 (.proc 1) ++
    .piperead 2 2 :: List.replicate 7 (.proc 2)

theorem pipe_fifo_writeRead :
    ∃ s, run step pipealloc writeReadRun = some s ∧ bytesRead s.rets = [1, 2] ∧
      [1, 2] ++ s.pipe.bytes = s.appended := by
  have hres : (run step pipealloc writeReadRun).map (fun s => (bytesRead s.rets, s.lock)) =
      some ([1, 2], none) := by decide +kernel
  obtain ⟨s, hr, hs⟩ := Option.map_eq_some_iff.mp hres
  rw [Prod.mk.injEq] at hs
  obtain ⟨-, -, hbytes, -⟩ := pipe_fifo writeReadRun s hr
  exact ⟨s, hr, hs.1, hs.1 ▸ hbytes hs.2⟩

end Xv6.Pipe
