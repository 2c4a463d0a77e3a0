import Mathlib.Logic.Function.Basic
import Xv6.Lib.Transition

/-!
# The console

`consoleintr` and `consoleread` of `console.c`. Both hold `cons.lock` throughout, but for the
`sleep` of a reader, so characters that arrive and readers that go on are the steps of the system.
The step relation is stated over any implementation of the ring buffer.
-/

namespace Xv6.Console

def inputBuf : Nat := 128

/-- `C('D')`, end of file -/
def ctrlD : UInt8 := 0x04

def ctrlH : UInt8 := 0x08

def newline : UInt8 := 0x0a

def carriage : UInt8 := 0x0d

def ctrlP : UInt8 := 0x10

def ctrlU : UInt8 := 0x15

def delete : UInt8 := 0x7f

/-- `BACKSPACE`, an argument of `consputc` that is not a character -/
def backspace : Nat := 0x100

structure Input where
  buf : Nat → UInt8
  /-- Read index -/
  r : UInt32
  /-- Write index -/
  w : UInt32
  /-- Edit index -/
  e : UInt32

inductive Outcome
  /-- It returns with the bytes it has copied. -/
  | done (got : List UInt8)
  /-- There is nothing to read, and `n` bytes are still wanted. -/
  | waits (n : Nat) (got : List UInt8)
  deriving DecidableEq

namespace Input

def start : Input := ⟨fun _ => 0, 0, 0, 0⟩

/-- `input.buf[i % INPUT_BUF]` -/
def at_ (s : Input) (i : UInt32) : UInt8 := s.buf (i % UInt32.ofNat inputBuf).toNat

/-- The loop of `C('U')`, for at most `n` rounds; the result has the arguments of `consputc`. -/
def killLine : (n : Nat) → Input → Input × List Nat
  | 0, s => (s, [])
  | n + 1, s =>
    if s.e ≠ s.w ∧ s.at_ (s.e - 1) ≠ newline then
      let (t, echo) := killLine n { s with e := s.e - 1 }
      (t, backspace :: echo)
    else (s, [])

/-- One round of `consoleintr`: character `c` has arrived. -/
def intr (c : UInt8) (s : Input) : Input × List Nat :=
  if c = ctrlP then
    -- Process listing, after the lock has been released.
    (s, [])
  else if c = ctrlU then
    -- Kill line. `e` runs down to `w`.
    killLine (s.e - s.w).toNat s
  else if c = ctrlH ∨ c = delete then
    -- Backspace
    if s.e ≠ s.w then ({ s with e := s.e - 1 }, [backspace]) else (s, [])
  else if c ≠ 0 ∧ s.e - s.r < UInt32.ofNat inputBuf then
    let c := if c = carriage then newline else c
    let t := { s with
      buf := Function.update s.buf (s.e % UInt32.ofNat inputBuf).toNat c, e := s.e + 1 }
    if c = newline ∨ c = ctrlD ∨ t.e = t.r + UInt32.ofNat inputBuf then
      ({ t with w := t.e }, [c.toNat])
    else (t, [c.toNat])
  else (s, [])

/-- The loop of `consoleread`, with `n` of `target` bytes to go. -/
def read (target : Nat) : (n : Nat) → (got : List UInt8) → Input → Input × Outcome
  | 0, got, s => (s, .done got)
  | n + 1, got, s =>
    if s.r = s.w then (s, .waits (n + 1) got)
    else
      let c := s.at_ s.r
      let t := { s with r := s.r + 1 }
      if c = ctrlD then
        -- EOF. Save ^D for next time, to make sure caller gets a 0-byte result.
        if n + 1 < target then ({ t with r := t.r - 1 }, .done got) else (t, .done got)
      else if c = newline then (t, .done (got ++ [c]))
      else read target n (got ++ [c]) t

end Input

/-- What the console needs of a buffer: a character arrives, and a process reads. -/
structure Buffer (σ : Type) where
  intr : UInt8 → σ → σ × List Nat
  read : (target n : Nat) → (got : List UInt8) → σ → σ × Outcome

def ring : Buffer Input := ⟨Input.intr, Input.read⟩

structure Reader where
  target : Nat
  n : Nat
  got : List UInt8
  deriving DecidableEq

inductive Event
  /-- the arguments of `consputc` -/
  | echo (cs : List Nat)
  /-- `consoleread` returns the bytes, or `-1` in a process that was killed. -/
  | returns (p : Nat) (bytes : Option (List UInt8))
  deriving DecidableEq

/-- The buffer, the processes that sleep in `consoleread`, and what has been seen. -/
structure State (σ : Type) where
  buffer : σ
  asleep : Nat → Option Reader
  seen : List Event

/-- What happens next. `killed` is the value of `myproc()->killed`, should the process look. -/
inductive Action
  /-- `consoleintr` with the characters that `getc` returns -/
  | intr (cs : List UInt8)
  /-- process `p` calls `consoleread(ip, dst, n)` -/
  | read (p : Nat) (n : Int) (killed : Bool)
  /-- process `p` returns from `sleep` -/
  | wake (p : Nat) (killed : Bool)

section

variable {σ : Type} (B : Buffer σ)

def consoleintr (cs : List UInt8) (b : σ) : σ × List Nat :=
  cs.foldl (fun x c => ((B.intr c x.1).1, x.2 ++ (B.intr c x.1).2)) (b, [])

/-- `consoleread` from the head of its loop to its return or to the next `sleep`. -/
def consoleread (p : Nat) (rd : Reader) (killed : Bool) (s : State σ) : State σ :=
  let x := B.read rd.target rd.n rd.got s.buffer
  match x.2 with
  | .done got => ⟨x.1, Function.update s.asleep p none, s.seen ++ [.returns p (some got)]⟩
  | .waits n got =>
    if killed then ⟨x.1, Function.update s.asleep p none, s.seen ++ [.returns p none]⟩
    else ⟨x.1, Function.update s.asleep p (some { rd with n := n, got := got }), s.seen⟩

/-- One action. A process makes one call at a time. -/
def step (s : State σ) : Action → Option (State σ)
  | .intr cs =>
    let x := consoleintr B cs s.buffer
    some { s with buffer := x.1, seen := s.seen ++ [.echo x.2] }
  | .read p n killed =>
    match s.asleep p with
    | none => some (consoleread B p ⟨n.toNat, n.toNat, []⟩ killed s)
    | some _ => none
  | .wake p killed =>
    match s.asleep p with
    | none => none
    | some rd => some (consoleread B p rd killed s)

def State.start (b : σ) : State σ := ⟨b, fun _ => none, []⟩

end

end Xv6.Console
