import Xv6.Printf.Agree

/-!
# cprintf and printf agree

`cprintf` of `console.c` looks one character ahead where the engine of `printf` keeps a state. The
kernel does not know `%c` and has lower case digits; else they print the same.
-/

namespace Xv6.Printf

open CString (code codes)

/-- `digits[d]` in `console.c` -/
def kdigit (d : Nat) : UInt8 := (codes "0123456789abcdef").getD d 0

/-- The loop of `printint` that fills `buf`. A word has at most 32 digits. -/
def printintLoop (base : UInt32) : (fuel : Nat) → (x : UInt32) → List UInt8
  | 0, _ => []
  | fuel + 1, x => kdigit (x % base).toNat ::
    if x / base ≠ 0 then printintLoop base fuel (x / base) else []

def printint (xx : Int32) (base : UInt32) (sign : Bool) : List UInt8 :=
  let sign := sign ∧ xx < 0
  let x := if sign then (-xx).toUInt32 else xx.toUInt32
  let buf := printintLoop base 32 x
  (if sign then buf ++ [code '-'] else buf).reverse

/-- The `switch` of `cprintf`: `argp` afterwards, and the characters passed to `consputc`. -/
def cprintfSwitch (a : Args) (c : UInt8) (argp : Nat) : Nat × List UInt8 :=
  if c = code 'd' then (argp + 1, printint (a.word argp).toInt32 10 true)
  else if c = code 'x' ∨ c = code 'p' then (argp + 1, printint (a.word argp).toInt32 16 false)
  else if c = code 's' then (argp + 1, (a.text (a.word argp)).bytes)
  else if c = code '%' then (argp, [code '%'])
  else
    -- Print unknown % sequence to draw attention.
    (argp, [code '%', c])

def cprintf (a : Args) : (fmt : List UInt8) → (argp : Nat) → Nat × List UInt8
  | [], argp => (argp, [])
  | [c], argp => (argp, if c = code '%' then [] else [c])
  | c :: d :: fmt, argp =>
    if c ≠ code '%' then
      let x := cprintf a (d :: fmt) argp
      (x.1, c :: x.2)
    else
      let y := cprintfSwitch a d argp
      let x := cprintf a fmt y.1
      (x.1, y.2 ++ x.2)

section

variable {σ : Type} (putcFunction : PutFunction σ) (fd : Int32)

/-- `ap` at the end of the loop of `s_printf`. -/
def printAp (outbuffer length : UInt32) (a : Args) :
    (percent : Bool) → (fmt : List UInt8) → (ap : Nat) → Out σ → Nat
  | _, [], ap, _ => ap
  | percent, c :: fmt, ap, o =>
    if o.outindex < length then
      if percent then
        let x := convert putcFunction fd outbuffer length a c ap o
        printAp outbuffer length a false fmt x.1 x.2
      else if c = code '%' then printAp outbuffer length a true fmt ap o
      else printAp outbuffer length a false fmt ap (Out.put putcFunction fd outbuffer length o c)
    else ap

end

def NoPercentC : List UInt8 → Prop
  | [] | [_] => True
  | c :: d :: fmt =>
    if c = code '%' then d ≠ code 'c' ∧ NoPercentC fmt else NoPercentC (d :: fmt)

/-- The text of a format; every character comes with whether it is a digit of `%x` or `%p`. -/
def marked (a : Args) : (fmt : List UInt8) → (ap : Nat) → List (Bool × UInt8)
  | [], _ => []
  | [c], _ => if c = code '%' then [] else [(false, c)]
  | c :: d :: fmt, ap =>
    if c = code '%' then
      (conversion a d ap).map (decide (d = code 'x' ∨ d = code 'p'), ·) ++
        marked a fmt (ap + takes d)
    else (false, c) :: marked a (d :: fmt) ap

/-- The digits `A` to `F` in lower case. -/
def lower (c : UInt8) : UInt8 := if code 'A' ≤ c ∧ c ≤ code 'F' then c + 32 else c

/-- What `cprintf` prints for a character of the text. -/
def lowerDigit (x : Bool × UInt8) : UInt8 := if x.1 then lower x.2 else x.2

theorem map_marked (a : Args) : (fmt : List UInt8) → (ap : Nat) →
    (marked a fmt ap).map Prod.snd = render a fmt ap
  | [], _ => rfl
  | [c], _ => by
    rw [marked, render]
    split <;> rfl
  | c :: d :: fmt, ap => by
    rw [marked, render]
    split
    · rw [List.map_append, map_marked a fmt, List.map_map]
      exact congrArg (· ++ _) (List.map_id _)
    · rw [List.map_cons, map_marked a (d :: fmt)]

theorem kdigit_eq {d : Nat} (h : d < 16) : kdigit d = lower (digit d) := by
  decide +revert

theorem lower_digit {d : Nat} (h : d < 10) : lower (digit d) = digit d := by
  decide +revert

variable {base : UInt32}

theorem numeral_eq {b : Nat} (hb : 1 < b) (n : Nat) :
    numeral b n = (if n / b = 0 then [] else numeral b (n / b)) ++ [digit (n % b)] := by
  by_cases hn : n = 0
  · subst hn
    simp [numeral]
    decide
  · rw [numeral, if_neg hn, Nat.digits_def' hb (Nat.pos_of_ne_zero hn)]
    split
    · next h0 => simp [h0]
    · next h0 => simp [numeral, h0]

theorem printintLoop_eq (h₁ : 1 < base.toNat) (h₂ : base.toNat ≤ 16) {fuel : Nat} {x : UInt32}
    (hx : x.toNat < base.toNat ^ (fuel + 1)) :
    (printintLoop base (fuel + 1) x).reverse = (numeral base.toNat x.toNat).map lower := by
  have hdigit (x : UInt32) : kdigit (x % base).toNat = lower (digit (x.toNat % base.toNat)) := by
    rw [UInt32.toNat_mod]
    exact kdigit_eq (lt_of_lt_of_le (Nat.mod_lt _ (by omega)) h₂)
  have hzero (x : UInt32) : x / base = 0 ↔ x.toNat / base.toNat = 0 := by
    rw [← UInt32.toNat_inj, UInt32.toNat_div]
    rfl
  induction fuel generalizing x with
  | zero =>
    have h0 : x.toNat / base.toNat = 0 := Nat.div_eq_of_lt (by simpa using hx)
    rw [printintLoop, numeral_eq h₁, hdigit]
    simp [(hzero x).mpr h0, h0]
  | succ fuel ih =>
    rw [printintLoop, numeral_eq h₁, hdigit]
    by_cases h0 : x.toNat / base.toNat = 0
    · simp [(hzero x).mpr h0, h0]
    · have hnext := ih (x := x / base) (by
        rw [UInt32.toNat_div]
        exact Nat.div_lt_of_lt_mul (by rwa [pow_succ'] at hx))
      rw [UInt32.toNat_div] at hnext
      rw [if_pos (mt (hzero x).mp h0), if_neg h0, List.reverse_cons, hnext, List.map_append]
      rfl

theorem printint_hex (x : UInt32) :
    printint x.toInt32 16 false = (numeral 16 x.toNat).map lower := by
  have hx : x.toNat < (16 : UInt32).toNat ^ (31 + 1) := lt_of_lt_of_le x.toNat_lt (by decide)
  have h := printintLoop_eq (by decide) (by decide) hx
  simpa [printint] using h

theorem map_lower_numeral (n : Nat) : (numeral 10 n).map lower = numeral 10 n := by
  refine List.map_congr_left (g := id) (fun c hc => ?_) |>.trans (List.map_id _)
  rw [numeral] at hc
  split at hc
  · rw [List.mem_singleton.mp hc]
    decide
  · obtain ⟨d, hd, rfl⟩ := List.mem_map.mp (List.mem_reverse.mp hc)
    exact lower_digit (Nat.digits_lt_base (by decide) hd)

theorem printint_decimal (x : Int32) : printint x 10 true = decimal x.toInt := by
  have h (y : UInt32) : (printintLoop 10 32 y).reverse = numeral 10 y.toNat := by
    have hy : y.toNat < (10 : UInt32).toNat ^ (31 + 1) := lt_of_lt_of_le y.toNat_lt (by decide)
    rw [printintLoop_eq (by decide) (by decide) hy]
    exact map_lower_numeral _
  rw [decimal, natAbs_toInt, printint]
  simp only [true_and, lt_zero_iff]
  split
  · next hneg => simp [h]
  · next hneg => simp [h]

theorem cprintfSwitch_eq (a : Args) {c : UInt8} (hc : c ≠ code 'c') (argp : Nat) :
    cprintfSwitch a c argp = (argp + takes c,
      ((conversion a c argp).map (decide (c = code 'x' ∨ c = code 'p'), ·)).map lowerDigit) := by
  rw [cprintfSwitch, conversion, List.map_map]
  by_cases hx : c = code 'x' ∨ c = code 'p'
  · have hd : c ≠ code 'd' ∧ takes c = 1 := by rcases hx with rfl | rfl <;> decide
    rw [if_neg hd.1, if_neg hd.1, if_pos hx, if_pos hx, hd.2, printint_hex, decide_eq_true hx]
    rfl
  · have hplain (cs : List UInt8) : cs.map (lowerDigit ∘ (false, ·)) = cs := List.map_id cs
    rw [decide_eq_false hx, hplain, if_neg hx, if_neg hx, if_neg hc]
    split_ifs with hd hs hp
    · rw [printint_decimal, hd]
      rfl
    · rw [hs]
      rfl
    · rw [hp]
      rfl
    · simp [takes]
      tauto

theorem cprintf_eq (a : Args) : (fmt : List UInt8) → (argp : Nat) → NoPercentC fmt →
    (cprintf a fmt argp).2 = (marked a fmt argp).map lowerDigit
  | [], _, _ => rfl
  | [c], _, _ => by
    rw [cprintf, marked]
    split <;> rfl
  | c :: d :: fmt, argp, hc => by
    rw [cprintf, marked]
    rw [NoPercentC] at hc
    by_cases he : c = code '%'
    · rw [if_pos he] at hc
      rw [if_neg (not_not.mpr he), if_pos he, List.map_append, cprintfSwitch_eq a hc.1]
      exact congrArg (_ ++ ·) (cprintf_eq a fmt _ hc.2)
    · rw [if_neg he] at hc
      rw [if_pos he, if_neg he, List.map_cons, ← cprintf_eq a (d :: fmt) argp hc]
      rfl

theorem cprintf_cons_fst (a : Args) {c : UInt8} (hc : c ≠ code '%') (fmt : List UInt8)
    (argp : Nat) : (cprintf a (c :: fmt) argp).1 = (cprintf a fmt argp).1 := by
  cases fmt <;> simp [cprintf, hc]

namespace Sink

variable {σ : Type} {putcFunction : PutFunction σ} {fd : Int32} {outbuffer length : UInt32}
  {Rep : List UInt8 → σ → Prop}

/-- The engine takes the arguments that `cprintf` takes. -/
theorem printAp (S : Sink putcFunction fd outbuffer length Rep) {text : List UInt8} {o : Out σ}
    (h : Printed Rep text o) (a : Args) (percent : Bool) (fmt : List UInt8) (ap : Nat)
    (hc : NoPercentC (if percent then code '%' :: fmt else fmt))
    (hbound : text.length + (rest a percent fmt ap).length < length.toNat) :
    printAp putcFunction fd outbuffer length a percent fmt ap o =
      (cprintf a (if percent then code '%' :: fmt else fmt) ap).1 := by
  induction fmt generalizing percent ap text o with
  | nil => cases percent <;> rfl
  | cons c fmt ih =>
    have hlt := length.toNat_lt
    have hroom : o.outindex < length := by
      rw [UInt32.lt_iff_toNat_lt, h.index]
      omega
    rw [Printf.printAp, if_pos hroom]
    cases percent with
    | true =>
      rw [if_pos rfl] at hc
      rw [rest, List.length_append] at hbound
      obtain ⟨hap, hout⟩ := S.convert h hroom a c ap (by omega)
      rw [NoPercentC, if_pos rfl] at hc
      have hnext := ih hout false (ap + takes c) hc.2 (by rw [List.length_append, rest]; omega)
      rw [← hap] at hnext
      refine hnext.trans ?_
      rw [if_pos rfl, cprintf, if_neg (not_not.mpr rfl), cprintfSwitch_eq a hc.1, hap]
      rfl
    | false =>
      simp only [if_neg Bool.false_ne_true] at hc ⊢
      by_cases he : c = code '%'
      · subst he
        rw [rest, render_percent] at hbound
        rw [if_pos rfl]
        exact ih h true ap hc hbound
      · rw [rest, render_cons a he, List.length_cons] at hbound
        rw [if_neg he, cprintf_cons_fst a he]
        refine ih (S.out_put h c (by omega)) false ap ?_ ?_
        · cases fmt with
          | nil => trivial
          | cons d fmt => simpa [NoPercentC, he] using hc
        · rw [List.length_append, rest, List.length_singleton]
          omega

end Sink

/-- **The kernel and the user library agree.** For a format without `%c` and a text that `printf`
does not cut, both print one text, except that the digits of `%x` and `%p` are in lower case on
the console, and both take the same arguments. -/
theorem cprintf_printf_agree (fmt : CString) (a : Args) (hc : NoPercentC fmt.bytes)
    (hlen : (render a fmt.bytes 0).length < 2 ^ 30 - 1) (fd : Int32) :
    printf fd fmt a = ((marked a fmt.bytes 0).map Prod.snd).map (fd, ·) ∧
      (cprintf a fmt.bytes 0).2 = (marked a fmt.bytes 0).map lowerDigit ∧
      printAp sPutc fd 0 (veryLarge.toInt32 - 1).toUInt32 a false fmt.bytes 0 ⟨[], 0⟩ =
        (cprintf a fmt.bytes 0).1 := by
  refine ⟨?_, cprintf_eq a fmt.bytes 0 hc, ?_⟩
  · rw [map_marked, printf_eq fmt a hlen fd]
  · have hroom : ([] : List UInt8).length + (rest a false fmt.bytes 0).length <
        (veryLarge.toInt32 - 1).toUInt32.toNat := by
      rw [rest, show (veryLarge.toInt32 - 1).toUInt32.toNat = 2 ^ 30 - 1 by decide, List.length_nil]
      omega
    exact (sink_sPutc fd 0 _).printAp ⟨fun _ => rfl, rfl⟩ a false fmt.bytes 0 hc hroom

/-- `"%x%%%"`, with 171 for an argument. -/
def hexFmt : CString := ⟨codes "%x%%%", by decide⟩

theorem cprintf_printf_agree_hex :
    printf 1 hexFmt ⟨fun _ => 171, fun _ => null⟩ = (codes "AB%").map (1, ·) ∧
      (cprintf ⟨fun _ => 171, fun _ => null⟩ hexFmt.bytes 0).2 = codes "ab%" := by
  have hmarked : marked ⟨fun _ => 171, fun _ => null⟩ hexFmt.bytes 0 =
      [(true, code 'A'), (true, code 'B'), (false, code '%')] := by decide +kernel
  have hrender : render ⟨fun _ => 171, fun _ => null⟩ hexFmt.bytes 0 = codes "AB%" := by
    decide +kernel
  have h := cprintf_printf_agree hexFmt ⟨fun _ => 171, fun _ => null⟩ ⟨by decide, by decide, trivial⟩
    (by rw [hrender]; decide) 1
  rw [hmarked] at h
  exact ⟨h.1, h.2.1⟩

end Xv6.Printf
