import Mathlib.Data.List.Induction
import Xv6.Lib.Ring
import Xv6.Console.Defs

namespace Xv6.Console

open Transition
open List (length_append length_singleton append_assoc length_cons)

/-- The bytes that can be read, and the line that is being edited. -/
structure Line where
  queue : List UInt8
  line : List UInt8

namespace Line

def start : Line := ⟨[], []⟩

def intr (c : UInt8) (t : Line) : Line × List Nat :=
  if c = ctrlP then (t, [])
  else if c = ctrlU then ({ t with line := [] }, List.replicate t.line.length backspace)
  else if c = ctrlH ∨ c = delete then
    if t.line = [] then (t, []) else ({ t with line := t.line.dropLast }, [backspace])
  else if c ≠ 0 ∧ t.queue.length + t.line.length < inputBuf then
    let c := if c = carriage then newline else c
    let line := t.line ++ [c]
    if c = newline ∨ c = ctrlD ∨ t.queue.length + line.length = inputBuf then
      (⟨t.queue ++ line, []⟩, [c.toNat])
    else (⟨t.queue, line⟩, [c.toNat])
  else (t, [])

/-- A read of up to `n` more bytes. It stops after a newline and before a `^D`; a `^D` that it
meets first is taken out of the queue. -/
def read : (n : Nat) → (got : List UInt8) → Line → Line × Outcome
  | 0, got, t => (t, .done got)
  | n + 1, got, ⟨[], line⟩ => (⟨[], line⟩, .waits (n + 1) got)
  | n + 1, got, ⟨c :: queue, line⟩ =>
    if c = ctrlD then
      if got = [] then (⟨queue, line⟩, .done []) else (⟨c :: queue, line⟩, .done got)
    else if c = newline then (⟨queue, line⟩, .done (got ++ [c]))
    else read n (got ++ [c]) ⟨queue, line⟩

theorem read_waits {n m : Nat} {got out : List UInt8} {t : Line}
    (h : (t.read n got).2 = .waits m out) : m + out.length = n + got.length := by
  induction n generalizing got t with
  | zero => cases h
  | succ n ih =>
    obtain ⟨queue, line⟩ := t
    cases queue with
    | nil =>
      cases h
      rfl
    | cons c queue =>
      rw [read] at h
      split at h
      · split at h <;> cases h
      split at h
      · cases h
      · rw [ih h, length_append, length_singleton]
        omega

end Line

/-- The queue and the line as a buffer of the console. -/
def edit : Buffer Line := ⟨Line.intr, fun _ => Line.read⟩

namespace Input

def queue (s : Input) : List UInt8 :=
  (List.range (s.w - s.r).toNat).map fun i => s.at_ (s.r + UInt32.ofNat i)

def line (s : Input) : List UInt8 :=
  (List.range (s.e - s.w).toNat).map fun i => s.at_ (s.w + UInt32.ofNat i)

end Input

/-- The ring buffer holds the queue followed by the line; `popped` are the bytes read before. -/
structure Shows (s : Input) (t : Line) (popped : List UInt8) : Prop where
  rep : Ring.Rep inputBuf s.buf (popped ++ (t.queue ++ t.line)) popped.length
  r : s.r = UInt32.ofNat popped.length
  w : s.w = UInt32.ofNat (popped.length + t.queue.length)
  e : s.e = UInt32.ofNat (popped.length + (t.queue.length + t.line.length))
  full : t.queue.length + t.line.length = inputBuf → t.line = []
  open_ : newline ∉ t.line

namespace Shows

variable {s : Input} {t : Line} {popped : List UInt8} {c : UInt8} {q l : List UInt8}

theorem at_ofNat (s : Input) (k : Nat) : s.at_ (UInt32.ofNat k) = s.buf (k % inputBuf) := by
  rw [Input.at_, Ring.toNat_ofNat_mod (by decide) (by decide)]

theorem length_le (h : Shows s t popped) : t.queue.length + t.line.length ≤ inputBuf := by
  have := h.rep.fits
  simp only [length_append] at this
  omega

theorem toNat_sub {a b : Nat} (hab : a ≤ b) (hb : b ≤ a + inputBuf) :
    (UInt32.ofNat b - UInt32.ofNat a).toNat = b - a :=
  Ring.toNat_sub_ofNat hab (by simp only [inputBuf] at hb; omega)

theorem empty_iff (h : Shows s t popped) : s.r = s.w ↔ t.queue = [] := by
  have hle := h.length_le
  rw [h.r, h.w, Ring.ofNat_eq_ofNat_iff (by omega) (by simp only [inputBuf] at hle; omega),
    ← List.length_eq_zero_iff]
  omega

theorem noLine_iff (h : Shows s t popped) : s.e = s.w ↔ t.line = [] := by
  have hle := h.length_le
  rw [eq_comm, h.w, h.e,
    Ring.ofNat_eq_ofNat_iff (by omega) (by simp only [inputBuf] at hle; omega),
    ← List.length_eq_zero_iff]
  omega

theorem room_iff (h : Shows s t popped) :
    s.e - s.r < UInt32.ofNat inputBuf ↔ t.queue.length + t.line.length < inputBuf := by
  have hle := h.length_le
  rw [UInt32.lt_iff_toNat_lt, h.e, h.r, toNat_sub (by omega) (by omega), Nat.add_sub_cancel_left]
  rfl

theorem front (h : Shows s ⟨c :: q, l⟩ popped) : s.at_ s.r = c := by
  rw [h.r, at_ofNat, (h.rep.pop (by simp)).1]
  simp

theorem last (h : Shows s ⟨q, l ++ [c]⟩ popped) : s.at_ (s.e - 1) = c := by
  have he : s.e - 1 = UInt32.ofNat (popped.length + (q.length + l.length)) := by
    have : popped.length + (q.length + (l ++ [c]).length) =
        popped.length + (q.length + l.length) + 1 := by
      simp only [length_append, length_singleton]
      omega
    rw [h.e, this, Ring.ofNat_succ, UInt32.add_sub_cancel]
  rw [he, at_ofNat, h.rep.stored _ (by simp only [length_append, length_singleton]; omega)
    (by omega)]
  simp [List.getElem_append_right]

theorem dropLast (h : Shows s ⟨q, l ++ [c]⟩ popped) :
    Shows { s with e := s.e - 1 } ⟨q, l⟩ popped := by
  have hrep := h.rep.dropLast (by simp only [length_append, length_singleton]; omega)
  have hl : (popped ++ (q ++ (l ++ [c]))).dropLast = popped ++ (q ++ l) := by
    rw [← append_assoc, ← append_assoc, List.dropLast_concat, append_assoc]
  have hle := h.length_le
  simp only [length_append, length_singleton] at hle
  refine ⟨hl ▸ hrep, h.r, h.w, ?_, fun hfull => ?_, fun hmem => ?_⟩
  · have : popped.length + (q.length + (l ++ [c]).length) =
        popped.length + (q.length + l.length) + 1 := by
      simp only [length_append, length_singleton]
      omega
    change s.e - 1 = _
    rw [h.e, this, Ring.ofNat_succ, UInt32.add_sub_cancel]
  · simp only at hfull
    omega
  · exact h.open_ (List.mem_append_left _ hmem)

theorem push (h : Shows s t popped) (hroom : t.queue.length + t.line.length < inputBuf)
    (c : UInt8) :
    Ring.Rep inputBuf (Function.update s.buf (s.e % UInt32.ofNat inputBuf).toNat c)
      (popped ++ (t.queue ++ (t.line ++ [c]))) popped.length ∧
    s.e + 1 = UInt32.ofNat (popped.length + (t.queue.length + (t.line ++ [c]).length)) := by
  have hlen : (popped ++ (t.queue ++ t.line)).length =
      popped.length + (t.queue.length + t.line.length) := by
    simp only [length_append]
  have hslot : (s.e % UInt32.ofNat inputBuf).toNat =
      (popped ++ (t.queue ++ t.line)).length % inputBuf := by
    rw [hlen, h.e, Ring.toNat_ofNat_mod (by decide) (by decide)]
  constructor
  · have := h.rep.push (by rw [hlen]; omega) c
    rwa [← hslot, append_assoc, append_assoc] at this
  · rw [h.e, ← Ring.ofNat_succ]
    congr 1
    simp only [length_append, length_singleton]
    omega

theorem killLine (h : Shows s ⟨q, l⟩ popped) :
    ∃ s', s.killLine l.length = (s', List.replicate l.length backspace) ∧
      Shows s' ⟨q, []⟩ popped := by
  induction l using List.reverseRecOn generalizing s with
  | nil => exact ⟨s, rfl, h⟩
  | append_singleton l c ih =>
    have hne : s.e ≠ s.w := fun e => by simpa using h.noLine_iff.mp e
    have hc : s.at_ (s.e - 1) ≠ newline := by
      rw [h.last]
      exact fun e => h.open_ (by simp [e])
    obtain ⟨s', hs', h'⟩ := ih h.dropLast
    refine ⟨s', ?_, h'⟩
    rw [length_append, length_singleton, Input.killLine, if_pos ⟨hne, hc⟩, hs',
      List.replicate_succ]

theorem commit
    (hrep : Ring.Rep inputBuf s.buf (popped ++ (t.queue ++ (t.line ++ [c]))) popped.length)
    (hr : s.r = UInt32.ofNat popped.length)
    (he : s.e = UInt32.ofNat (popped.length + (t.queue.length + (t.line ++ [c]).length))) :
    Shows { s with w := s.e } ⟨t.queue ++ (t.line ++ [c]), []⟩ popped := by
  refine ⟨by rwa [List.append_nil], hr, ?_, ?_, fun _ => rfl, List.not_mem_nil⟩
  · change s.e = _
    rw [he]
    simp only [length_append]
  · change s.e = _
    rw [he]
    simp only [length_append, List.length_nil, Nat.add_zero]

/-- **A character does the same to the ring buffer and to the line.** -/
theorem intr (h : Shows s t popped) (c : UInt8) :
    (s.intr c).2 = (t.intr c).2 ∧ Shows (s.intr c).1 (t.intr c).1 popped := by
  have hle := h.length_le
  rw [Input.intr, Line.intr]
  split
  · exact ⟨rfl, h⟩
  split
  · obtain ⟨s', hs', h'⟩ := h.killLine
    have hlen : (s.e - s.w).toNat = t.line.length := by
      rw [h.e, h.w, toNat_sub (by omega) (by omega)]
      omega
    rw [hlen, hs']
    exact ⟨rfl, h'⟩
  split
  · by_cases hl : t.line = []
    · rw [if_neg (not_not.mpr (h.noLine_iff.mpr hl)), if_pos hl]
      exact ⟨rfl, h⟩
    · rw [if_pos (fun e => hl (h.noLine_iff.mp e)), if_neg hl]
      refine ⟨rfl, dropLast (c := t.line.getLast hl) ?_⟩
      rwa [List.dropLast_concat_getLast]
  by_cases hc : c ≠ 0 ∧ t.queue.length + t.line.length < inputBuf
  swap
  · rw [if_neg (fun e => hc ⟨e.1, h.room_iff.mp e.2⟩), if_neg hc]
    exact ⟨rfl, h⟩
  rw [if_pos ⟨hc.1, h.room_iff.mpr hc.2⟩, if_pos hc]
  generalize (if c = carriage then newline else c) = c
  obtain ⟨hrep, he⟩ := h.push hc.2 c
  have hfull : s.e + 1 = s.r + UInt32.ofNat inputBuf ↔
      t.queue.length + (t.line ++ [c]).length = inputBuf := by
    have hlt := hc.2
    have hlen : (t.line ++ [c]).length = t.line.length + 1 := by simp
    rw [he, h.r, Ring.ofNat_eq_add_iff (by omega) (by omega) (by decide)]
    omega
  by_cases hopen : c = newline ∨ c = ctrlD ∨ t.queue.length + (t.line ++ [c]).length = inputBuf
  · have hclose : c = newline ∨ c = ctrlD ∨ s.e + 1 = s.r + UInt32.ofNat inputBuf := by
      rwa [hfull]
    dsimp only
    rw [if_pos hclose, if_pos hopen]
    exact ⟨rfl, commit (s := { s with
      buf := Function.update s.buf (s.e % UInt32.ofNat inputBuf).toNat c, e := s.e + 1 }) hrep h.r he⟩
  · have hclose : ¬ (c = newline ∨ c = ctrlD ∨ s.e + 1 = s.r + UInt32.ofNat inputBuf) := by
      rwa [hfull]
    dsimp only
    rw [if_neg hclose, if_neg hopen]
    refine ⟨rfl, hrep, h.r, h.w, he, fun hf => absurd (Or.inr (Or.inr hf)) hopen, fun hmem => ?_⟩
    rcases List.mem_append.mp hmem with hmem | hmem
    · exact h.open_ hmem
    · exact hopen (Or.inl (List.mem_singleton.mp hmem).symm)

theorem pop (h : Shows s ⟨c :: q, l⟩ popped) :
    Shows { s with r := s.r + 1 } ⟨q, l⟩ (popped ++ [c]) := by
  have hlen : (popped ++ [c]).length = popped.length + 1 := by simp
  have hle := h.length_le
  simp only [length_cons] at hle
  refine ⟨?_, ?_, ?_, ?_, fun hfull => ?_, h.open_⟩
  · have := (h.rep.pop (by simp)).2
    rwa [hlen, append_assoc]
  · change s.r + 1 = _
    rw [h.r, hlen, Ring.ofNat_succ]
  · change s.w = _
    rw [h.w, hlen]
    simp only [length_cons]
    congr 1
    omega
  · change s.e = _
    rw [h.e, hlen]
    simp only [length_cons]
    congr 1
    omega
  · simp only at hfull
    omega

/-- **A read does the same to the ring buffer and to the queue.** The process has copied `got` of
`target` bytes. -/
theorem read {target n : Nat} {got : List UInt8} (h : Shows s t popped)
    (hn : n + got.length = target) :
    (s.read target n got).2 = (t.read n got).2 ∧
      ∃ popped', Shows (s.read target n got).1 (t.read n got).1 popped' := by
  induction n generalizing s t popped got with
  | zero => exact ⟨rfl, popped, h⟩
  | succ n ih =>
    obtain ⟨queue, line⟩ := t
    cases queue with
    | nil =>
      rw [Input.read, if_pos (h.empty_iff.mpr rfl), Line.read]
      exact ⟨rfl, popped, h⟩
    | cons c q =>
      rw [Input.read, if_neg (fun e => by simpa using h.empty_iff.mp e), Line.read, h.front]
      dsimp only
      by_cases hd : c = ctrlD
      · rw [if_pos hd, if_pos hd]
        by_cases hg : got = []
        · have hnot : ¬ n + 1 < target := by
            rw [hg, List.length_nil] at hn
            omega
          rw [if_neg hnot, if_pos hg, hg]
          exact ⟨rfl, _, h.pop⟩
        · have hlt : n + 1 < target := by
            have := List.length_pos_of_ne_nil hg
            omega
          rw [if_pos hlt, if_neg hg, UInt32.add_sub_cancel]
          exact ⟨rfl, popped, h⟩
      · rw [if_neg hd, if_neg hd]
        by_cases hnl : c = newline
        · rw [if_pos hnl, if_pos hnl]
          exact ⟨rfl, _, h.pop⟩
        · rw [if_neg hnl, if_neg hnl]
          exact ih h.pop (by simp only [length_append, length_singleton]; omega)

end Shows

/-- The two consoles have the same readers and have shown the same. -/
structure Same (x : State Input) (y : State Line) : Prop where
  buffer : ∃ popped, Shows x.buffer y.buffer popped
  asleep : x.asleep = y.asleep
  seen : x.seen = y.seen
  wanted : ∀ p rd, x.asleep p = some rd → rd.n + rd.got.length = rd.target

/-- Both consoles can take an action, with the same effect, or neither can. -/
def SameOrNone : Option (State Input) → Option (State Line) → Prop
  | some x, some y => Same x y
  | none, none => True
  | _, _ => False

variable {x : State Input} {y : State Line}

theorem Shows.consoleintr {s : Input} {t : Line} {popped : List UInt8} (h : Shows s t popped)
    (cs : List UInt8) :
    (consoleintr ring cs s).2 = (consoleintr edit cs t).2 ∧
      Shows (consoleintr ring cs s).1 (consoleintr edit cs t).1 popped := by
  rw [Console.consoleintr, Console.consoleintr]
  generalize ([] : List Nat) = echo
  induction cs generalizing s t echo with
  | nil => exact ⟨rfl, h⟩
  | cons c cs ih =>
    obtain ⟨hecho, h'⟩ := h.intr c
    rw [List.foldl_cons, List.foldl_cons]
    have hsame : (edit.intr c t).2 = (ring.intr c s).2 := hecho.symm
    dsimp only
    rw [hsame]
    exact ih h' _

theorem Same.consoleread (h : Same x y) {p : Nat} {rd : Reader}
    (hrd : rd.n + rd.got.length = rd.target)
    (killed : Bool) : Same (consoleread ring p rd killed x) (consoleread edit p rd killed y) := by
  obtain ⟨popped, hb⟩ := h.buffer
  obtain ⟨hout, hb'⟩ := hb.read hrd
  change (ring.read rd.target rd.n rd.got x.buffer).2 = _ at hout
  rw [Console.consoleread, Console.consoleread]
  -- the readers other than `p` are as before
  have hothers : ∀ new : Option Reader, (∀ rd, new = some rd → rd.n + rd.got.length = rd.target) →
      ∀ q rd, Function.update x.asleep p new q = some rd → rd.n + rd.got.length = rd.target := by
    intro new hnew q rd' hq
    by_cases hqp : q = p
    · rw [hqp, Function.update_self] at hq
      exact hnew rd' hq
    · rw [Function.update_of_ne hqp] at hq
      exact h.wanted q rd' hq
  have hout' : (edit.read rd.target rd.n rd.got y.buffer).2 =
      (ring.read rd.target rd.n rd.got x.buffer).2 := hout.symm
  rw [hout', ← h.asleep, ← h.seen]
  cases hres : (ring.read rd.target rd.n rd.got x.buffer).2 with
  | done got => exact ⟨hb', rfl, rfl, hothers none (by simp)⟩
  | waits n got =>
    dsimp only
    cases killed with
    | true => exact ⟨hb', rfl, rfl, hothers none (by simp)⟩
    | false =>
      refine ⟨hb', rfl, rfl, hothers _ fun rd' hrd' => ?_⟩
      cases hrd'
      have := Line.read_waits (hout.symm.trans hres)
      exact this.trans hrd

theorem Same.step (h : Same x y) (a : Action) : SameOrNone (step ring x a) (step edit y a) := by
  cases a with
  | intr cs =>
    obtain ⟨popped, hb⟩ := h.buffer
    obtain ⟨hecho, hb'⟩ := hb.consoleintr cs
    refine ⟨⟨popped, hb'⟩, h.asleep, ?_, h.wanted⟩
    change x.seen ++ [_] = y.seen ++ [_]
    rw [h.seen, hecho]
  | read p n killed =>
    rw [Console.step, Console.step, ← h.asleep]
    cases x.asleep p with
    | none => exact h.consoleread (Nat.add_zero _) killed
    | some rd => trivial
  | wake p killed =>
    rw [Console.step, Console.step, ← h.asleep]
    cases hp : x.asleep p with
    | none => trivial
    | some rd => exact h.consoleread (h.wanted p rd hp) killed

theorem Same.run (h : Same x y) (as : List Action) :
    SameOrNone (Transition.run (Console.step ring) x as)
      (Transition.run (Console.step edit) y as) := by
  induction as generalizing x y with
  | nil => exact h
  | cons a as ih =>
    rw [run_cons, run_cons]
    have hstep := h.step a
    cases hx : Console.step ring x a <;> cases hy : Console.step edit y a <;> rw [hx, hy] at hstep
    · trivial
    · exact hstep.elim
    · exact hstep.elim
    · exact ih hstep

end Xv6.Console
