import Xv6.Lib.CString

/-!
# printf

`printf.c`: one engine, `s_printf`, that formats through a function which outputs a single
character, either to a file descriptor (`s_putc`) or into a buffer (`s_sputc`). The arguments are
the words that follow `fmt` on the stack; nothing says how many were passed.
-/

namespace Xv6.Printf

open CString (code codes)

/-- What a format is applied to. -/
structure Args where
  /-- the words on the stack that `ap` runs through -/
  word : Nat → UInt32
  /-- the string at an address -/
  string : UInt32 → CString

def null : CString := ⟨codes "(null)", by decide⟩

def digit (d : Nat) : UInt8 := (codes "0123456789ABCDEF").getD d 0

/-- `putFunction_t`: character `c` goes to place `index` of the `length` places at `outbuffer`. -/
abbrev PutFunction (σ : Type) :=
  (fd : Int32) → (outbuffer length index : UInt32) → (c : UInt8) → σ → σ

abbrev Write := Int32 × UInt8

def sPutc : PutFunction (List Write) :=
  fun fd _ _ _ c out => out ++ [(fd, c)]

def sSputc : PutFunction (UInt32 → UInt8) :=
  fun _ outbuffer length index c mem =>
    if index < length then Function.update mem (outbuffer + index) c else mem

def reverseDigits (base : UInt32) : (room : Nat) → (x : UInt32) → List UInt8
  | 0, _ => []
  | room + 1, x =>
    if x ≠ 0 then digit (x % base).toNat :: reverseDigits base room (x / base) else []

/-- `s_getReverseDigits`: the characters that it stores. `-xx` wraps for the least integer. -/
def sGetReverseDigits (length : Nat) (xx : Int32) (base : UInt32) (sgn : Bool) : List UInt8 :=
  let neg := sgn ∧ xx < 0
  let x := if neg then (-xx).toUInt32 else xx.toUInt32
  let out := reverseDigits base (length - 1) x
  let out := if 0 = xx ∧ out.length + 1 < length then out ++ [digit 0] else out
  if neg ∧ out.length < length then out ++ [code '-'] else out

def localBufferLength : Nat := 16

section

variable {σ : Type} (putcFunction : PutFunction σ) (fd : Int32)

def putDigits (outbuf length : UInt32) : (j : UInt32) → List UInt8 → σ → σ
  | _, [], s => s
  | j, c :: cs, s =>
    if j < length then putDigits outbuf length (j + 1) cs (putcFunction fd outbuf length j c s)
    else s

/-- `s_printint`: its result is the untruncated width. -/
def sPrintint (outbuf length : UInt32) (xx : Int32) (base : UInt32) (sgn : Bool) (s : σ) :
    σ × UInt32 :=
  let text := sGetReverseDigits localBufferLength xx base sgn
  (putDigits putcFunction fd outbuf length 0 text.reverse s, UInt32.ofNat text.length)

def sMin (a b : UInt32) : UInt32 := if a < b then a else b

/-- What `s_printf` has output, and the index after it. -/
structure Out (σ : Type) where
  sink : σ
  outindex : UInt32

def Out.int (outbuffer length : UInt32) (xx : Int32) (base : UInt32) (sgn : Bool) (o : Out σ) :
    Out σ :=
  let x := sPrintint putcFunction fd (outbuffer + o.outindex) (length - o.outindex) xx base sgn
    o.sink
  ⟨x.1, o.outindex + x.2⟩

def Out.put (outbuffer length : UInt32) (o : Out σ) (c : UInt8) : Out σ :=
  ⟨putcFunction fd outbuffer length o.outindex c o.sink, o.outindex + 1⟩

def Args.text (a : Args) (p : UInt32) : CString := if p = 0 then null else a.string p

/-- The body of the loop of `s_printf` after a `%`; the result has the new `ap`. -/
def convert (outbuffer length : UInt32) (a : Args) (c : UInt8) (ap : Nat) (o : Out σ) :
    Nat × Out σ :=
  let put := Out.put putcFunction fd outbuffer length
  if c = code 'd' then
    (ap + 1, Out.int putcFunction fd outbuffer length (a.word ap).toInt32 10 true o)
  else if c = code 'x' ∨ c = code 'p' then
    (ap + 1, Out.int putcFunction fd outbuffer length (a.word ap).toInt32 16 false o)
  else if c = code 's' then
    (ap + 1, (a.text (a.word ap)).bytes.foldl put o)
  else if c = code 'c' then
    (ap + 1, put o (a.word ap).toUInt8)
  else if c = code '%' then
    (ap, put o c)
  else
    -- Unknown % sequence.  Print it to draw attention.
    (ap, put (put o (code '%')) c)

/-- The loop of `s_printf`; `percent` says that `state` is `'%'`. -/
def printLoop (outbuffer length : UInt32) (a : Args) :
    (percent : Bool) → (fmt : List UInt8) → (ap : Nat) → Out σ → Out σ
  | _, [], _, o => o
  | percent, c :: fmt, ap, o =>
    if o.outindex < length then
      if percent then
        let x := convert putcFunction fd outbuffer length a c ap o
        printLoop outbuffer length a false fmt x.1 x.2
      else if c = code '%' then printLoop outbuffer length a true fmt ap o
      else printLoop outbuffer length a false fmt ap
        (Out.put putcFunction fd outbuffer length o c)
    else o

def sPrintf (outbuffer : UInt32) (n : Int32) (fmt : CString) (a : Args) (s : σ) : σ × UInt32 :=
  -- leave room for nul termination
  let length := (n - 1).toUInt32
  let o := printLoop putcFunction fd outbuffer length a false fmt.bytes 0 ⟨s, 0⟩
  (o.sink, sMin length o.outindex)

end

def snprintf (mem : UInt32 → UInt8) (outbuffer : UInt32) (n : Int32) (fmt : CString) (a : Args) :
    (UInt32 → UInt8) × UInt32 :=
  let x := sPrintf sSputc (-1) outbuffer n fmt a mem
  if x.2 < n.toUInt32 then (Function.update x.1 (outbuffer + x.2) 0, x.2) else x

def veryLarge : UInt32 := (1 : UInt32) <<< 30

def printf (fd : Int32) (fmt : CString) (a : Args) : List Write :=
  (sPrintf sPutc fd 0 veryLarge.toInt32 fmt a []).1

end Xv6.Printf
