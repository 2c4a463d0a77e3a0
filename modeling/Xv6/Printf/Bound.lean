import Xv6.Printf.Agree

/-!
# The bound of snprintf

A relation between two outputs that every put keeps is kept by the engine (`Agree.printLoop`). With
the memory before the call on the other side this is the bound for a buffer of at least one place.
For `n = 0` the length is -1, which the comparisons take as the largest unsigned number.
-/

namespace Xv6.Printf

open CString (code codes)
open UInt32 (le_iff_toNat_le lt_iff_toNat_lt)

/-- Every put of the engine into the `length` places at `outbuffer` keeps the relation. -/
def Agree {σ τ : Type} (p : PutFunction σ) (q : PutFunction τ) (fd : Int32)
    (outbuffer length : UInt32) (R : σ → τ → Prop) : Prop :=
  ∀ ⦃s t⦄ ⦃k : UInt32⦄ (j c), k ≤ length → R s t →
    R (p fd (outbuffer + k) (length - k) j c s) (q fd (outbuffer + k) (length - k) j c t)

/-- The outputs are related, and the indices the same. -/
structure Out.Related {σ τ : Type} (R : σ → τ → Prop) (o : Out σ) (o' : Out τ) : Prop where
  sink : R o.sink o'.sink
  index : o.outindex = o'.outindex

namespace Agree

variable {σ τ : Type} {p : PutFunction σ} {q : PutFunction τ} {fd : Int32}
  {outbuffer length : UInt32} {R : σ → τ → Prop} (hA : Agree p q fd outbuffer length R)
  {o : Out σ} {o' : Out τ}

include hA

theorem putDigits {k : UInt32} (hk : k ≤ length) {s : σ} {t : τ} (h : R s t) (j : UInt32)
    (cs : List UInt8) :
    R (Printf.putDigits p fd (outbuffer + k) (length - k) j cs s)
      (Printf.putDigits q fd (outbuffer + k) (length - k) j cs t) := by
  induction cs generalizing j s t with
  | nil => exact h
  | cons c cs ih =>
    rw [Printf.putDigits, Printf.putDigits]
    split
    · exact ih (hA j c hk h) (j + 1)
    · exact h

variable (h : Out.Related R o o')

include h

theorem put (c : UInt8) :
    Out.Related R (o.put p fd outbuffer length c) (o'.put q fd outbuffer length c) := by
  constructor
  · have hput := hA o.outindex c (UInt32.zero_le (a := length)) h.sink
    simp only [UInt32.add_zero, UInt32.sub_zero] at hput
    rw [Out.put, Out.put, ← h.index]
    exact hput
  · rw [Out.put, Out.put, h.index]

theorem puts (cs : List UInt8) :
    Out.Related R (cs.foldl (Out.put p fd outbuffer length) o)
      (cs.foldl (Out.put q fd outbuffer length) o') := by
  induction cs generalizing o o' with
  | nil => exact h
  | cons c cs ih => exact ih (hA.put h c)

theorem int (hroom : o.outindex < length) (xx : Int32) (base : UInt32) (sgn : Bool) :
    Out.Related R (o.int p fd outbuffer length xx base sgn)
      (o'.int q fd outbuffer length xx base sgn) := by
  constructor
  · simp only [Out.int, sPrintint, ← h.index]
    exact hA.putDigits (UInt32.le_of_lt hroom) h.sink 0 _
  · simp only [Out.int, sPrintint, h.index]

theorem convert (hroom : o.outindex < length) (a : Args) (c : UInt8) (ap : Nat) :
    (convert p fd outbuffer length a c ap o).1 = (convert q fd outbuffer length a c ap o').1 ∧
      Out.Related R (convert p fd outbuffer length a c ap o).2
        (convert q fd outbuffer length a c ap o').2 := by
  unfold Printf.convert
  split_ifs
  · exact ⟨rfl, hA.int h hroom _ _ _⟩
  · exact ⟨rfl, hA.int h hroom _ _ _⟩
  · exact ⟨rfl, hA.puts h _⟩
  · exact ⟨rfl, hA.put h _⟩
  · exact ⟨rfl, hA.put h _⟩
  · exact ⟨rfl, hA.put (hA.put h _) _⟩

theorem printLoop (a : Args) (percent : Bool) (fmt : List UInt8) (ap : Nat) :
    Out.Related R (printLoop p fd outbuffer length a percent fmt ap o)
      (printLoop q fd outbuffer length a percent fmt ap o') := by
  induction fmt generalizing percent ap o o' with
  | nil => exact h
  | cons c fmt ih =>
    rw [Printf.printLoop, Printf.printLoop, ← h.index]
    by_cases hroom : o.outindex < length
    · rw [if_pos hroom, if_pos hroom]
      cases percent with
      | true =>
        obtain ⟨hap, hout⟩ := hA.convert h hroom a c ap
        simp only [if_true]
        rw [← hap]
        exact ih hout false _
      | false =>
        simp only [Bool.false_eq_true, if_false]
        split
        · exact ih h true ap
        · exact ih (hA.put h c) false ap
    · rw [if_neg hroom, if_neg hroom]
      exact h

end Agree

/-- `snprintf(outbuffer, n, fmt, ...)` changes no byte at or behind `outbuffer[n]`, whatever the
memory holds, and its result is less than `n`, or 0. -/
def Bounded (outbuffer : UInt32) (n : Int32) (fmt : CString) (a : Args) : Prop :=
  ∀ mem : UInt32 → UInt8,
    (∀ k : UInt32, n.toInt ≤ k.toNat →
      (snprintf mem outbuffer n fmt a).1 (outbuffer + k) = mem (outbuffer + k)) ∧
    (snprintf mem outbuffer n fmt a).2.toInt32.toInt ≤ max (n.toInt - 1) 0

section

variable {mem : UInt32 → UInt8} {outbuffer : UInt32} {n : Int32} {fmt : CString} {a : Args}

theorem add_ne_of_lt {k l : UInt32} (h : k < l) : outbuffer + l ≠ outbuffer + k := by
  intro heq
  have hkl : l = k := by simpa using heq
  rw [hkl] at h
  exact UInt32.lt_irrefl _ h

/-- `s_sputc` stores nothing behind the `length` places. -/
theorem agree_bound (fd : Int32) (outbuffer length : UInt32) (mem : UInt32 → UInt8) :
    Agree sSputc sSputc fd outbuffer length
      (fun s _ => ∀ l, length ≤ l → s (outbuffer + l) = mem (outbuffer + l)) := by
  intro s _ k j c hk h l hl
  rw [sSputc]
  split
  · next hj =>
    have hsub := UInt32.toNat_sub_of_le _ _ hk
    rw [le_iff_toNat_le] at hk hl
    rw [lt_iff_toNat_lt, hsub] at hj
    have hlt : k + j < l := by
      rw [lt_iff_toNat_lt, UInt32.toNat_add]
      have := l.toNat_lt
      omega
    rw [UInt32.add_assoc, Function.update_of_ne (add_ne_of_lt hlt)]
    exact h l (le_iff_toNat_le.mpr hl)
  · exact h l hl

/-- What one place of the memory held before the call does not matter once it is stored to. -/
theorem agree_place (fd : Int32) (outbuffer length place : UInt32) :
    Agree sSputc sSputc fd outbuffer length (fun s t => s place = t place) := by
  intro s t k j c _ h
  rw [sSputc, sSputc]
  split
  · by_cases hp : place = outbuffer + k + j
    · rw [hp, Function.update_self, Function.update_self]
    · rw [Function.update_of_ne hp, Function.update_of_ne hp]
      exact h
  · exact h

theorem toNat_toUInt32_of_nonneg {x : Int32} (h : 0 ≤ x.toInt) :
    (x.toUInt32.toNat : Int) = x.toInt := by
  have hx := toInt_eq x
  have hlt := x.toUInt32.toNat_lt
  split at hx <;> omega

theorem toInt_sub_one {n : Int32} (hn : 0 < n.toInt) : (n - 1).toInt = n.toInt - 1 := by
  have hlt := n.toInt_lt
  have hone : (1 : Int32).toInt = 1 := by decide
  rw [Int32.toInt_sub, hone, Int.bmod_eq_of_le (by omega) (by omega)]

theorem bounded_of_pos (hn : 0 < n.toInt) : Bounded outbuffer n fmt a := by
  intro mem
  have hlen : ((n - 1).toUInt32.toNat : Int) = n.toInt - 1 := by
    rw [toNat_toUInt32_of_nonneg (by rw [toInt_sub_one hn]; omega), toInt_sub_one hn]
  have hnat : (n.toUInt32.toNat : Int) = n.toInt := toNat_toUInt32_of_nonneg hn.le
  have hstart : Out.Related
      (fun s _ => ∀ l, (n - 1).toUInt32 ≤ l → s (outbuffer + l) = mem (outbuffer + l))
      (⟨mem, 0⟩ : Out _) (⟨mem, 0⟩ : Out (UInt32 → UInt8)) := ⟨fun _ _ => rfl, rfl⟩
  have hloop := ((agree_bound (-1) outbuffer _ mem).printLoop hstart a false fmt.bytes 0).sink
  have hresult : (sPrintf sSputc (-1) outbuffer n fmt a mem).2.toNat ≤ (n - 1).toUInt32.toNat := by
    rw [sPrintf, toNat_sMin]
    exact Nat.min_le_left _ _
  rw [snprintf]
  generalize hx : sPrintf sSputc (-1) outbuffer n fmt a mem = x at hresult
  have hmem : x.1 = (printLoop sSputc (-1) outbuffer (n - 1).toUInt32 a false fmt.bytes 0
    ⟨mem, 0⟩).sink := by rw [← hx, sPrintf]
  have hcount : x.2 < n.toUInt32 := by
    rw [lt_iff_toNat_lt]
    omega
  simp only [if_pos hcount]
  have hsmall := n.toInt_lt
  have hint : x.2.toInt32.toInt = x.2.toNat := by
    rw [← toNat_toUInt32_of_nonneg]
    · rw [UInt32.toUInt32_toInt32]
    · rw [toInt_eq, UInt32.toUInt32_toInt32, if_pos (by omega)]
      omega
  refine ⟨fun k hk => ?_, by omega⟩
  have hbehind : x.2 < k := by
    rw [lt_iff_toNat_lt]
    omega
  rw [Function.update_of_ne (add_ne_of_lt hbehind), hmem]
  refine hloop k ?_
  rw [le_iff_toNat_le]
  omega

end

section

variable {fd : Int32} {outbuffer length : UInt32} {o o' : Out (UInt32 → UInt8)} {a : Args}

/-- Nothing is output yet. -/
structure Untouched (o o' : Out (UInt32 → UInt8)) : Prop where
  index : o.outindex = 0
  index' : o'.outindex = 0

theorem Untouched.put (h : Untouched o o') (hlen : 0 < length) (c : UInt8) :
    Out.Related (fun s t => s outbuffer = t outbuffer) (o.put sSputc fd outbuffer length c)
      (o'.put sSputc fd outbuffer length c) := by
  constructor
  · simp [Out.put, sSputc, h.index, h.index', hlen]
  · rw [Out.put, Out.put, h.index, h.index']

theorem Untouched.puts (h : Untouched o o') (hlen : 0 < length) {cs : List UInt8} (hcs : cs ≠ []) :
    Out.Related (fun s t => s outbuffer = t outbuffer)
      (cs.foldl (Out.put sSputc fd outbuffer length) o)
      (cs.foldl (Out.put sSputc fd outbuffer length) o') := by
  cases cs with
  | nil => exact absurd rfl hcs
  | cons c cs => exact (agree_place fd outbuffer length outbuffer).puts (h.put hlen c) cs

theorem numeral_ne_nil (base x : Nat) : numeral base x ≠ [] := by
  rw [numeral]
  split
  · simp
  · next hx => simp [Nat.digits_ne_nil_iff_ne_zero.mpr hx]

theorem sGetReverseDigits_ne_nil {base : UInt32} (hbase : 10 ≤ base.toNat) (xx : Int32)
    (sgn : Bool) : (sGetReverseDigits localBufferLength xx base sgn).reverse ≠ [] := by
  rw [sGetReverseDigits_eq hbase]
  split
  · simp
  · exact numeral_ne_nil _ _

theorem Untouched.int (h : Untouched o o') (hlen : 0 < length) {base : UInt32}
    (hbase : 10 ≤ base.toNat) (xx : Int32) (sgn : Bool) :
    Out.Related (fun s t => s outbuffer = t outbuffer)
      (o.int sSputc fd outbuffer length xx base sgn)
      (o'.int sSputc fd outbuffer length xx base sgn) := by
  constructor
  · simp only [Out.int, sPrintint, h.index, h.index', UInt32.add_zero, UInt32.sub_zero]
    cases hcs : (sGetReverseDigits localBufferLength xx base sgn).reverse with
    | nil => exact absurd hcs (sGetReverseDigits_ne_nil hbase xx sgn)
    | cons c cs =>
      have hrest := (agree_place fd outbuffer length outbuffer).putDigits (k := 0)
        (s := sSputc fd outbuffer length 0 c o.sink) (t := sSputc fd outbuffer length 0 c o'.sink)
        (UInt32.zero_le (a := length)) (by simp [sSputc, hlen]) (0 + 1) cs
      simp only [UInt32.add_zero, UInt32.sub_zero] at hrest
      rw [putDigits, putDigits, if_pos hlen, if_pos hlen]
      exact hrest
  · simp only [Out.int, sPrintint, h.index, h.index']

variable {ap : Nat}

/-- The first conversion that outputs something makes the memories agree at the start of the
buffer. -/
theorem Untouched.convert (h : Untouched o o') (hlen : 0 < length) {c : UInt8}
    (hc : conversion a c ap ≠ []) :
    (convert sSputc fd outbuffer length a c ap o).1 =
        (convert sSputc fd outbuffer length a c ap o').1 ∧
      Out.Related (fun s t => s outbuffer = t outbuffer)
        (convert sSputc fd outbuffer length a c ap o).2
        (convert sSputc fd outbuffer length a c ap o').2 := by
  unfold Printf.convert
  unfold conversion at hc
  split_ifs at hc ⊢
  · exact ⟨rfl, h.int hlen (by decide) _ _⟩
  · exact ⟨rfl, h.int hlen (by decide) _ _⟩
  · exact ⟨rfl, h.puts hlen hc⟩
  · exact ⟨rfl, h.put hlen _⟩
  · exact ⟨rfl, h.put hlen _⟩
  · exact ⟨rfl, (agree_place fd outbuffer length outbuffer).put (h.put hlen _) _⟩

/-- Only the string of a `%s` can be empty. -/
theorem convert_of_nil {c : UInt8} (hc : conversion a c ap = []) :
    convert sSputc fd outbuffer length a c ap o = (ap + takes c, o) := by
  unfold conversion at hc
  split_ifs at hc with hd hx hs
  · unfold decimal at hc
    split at hc
    · cases hc
    · exact absurd hc (numeral_ne_nil _ _)
  · exact absurd hc (numeral_ne_nil _ _)
  · rw [Printf.convert, if_neg hd, if_neg hx, if_pos hs, hc]
    simp [takes, hs]

/-- A text that is not empty makes the memories agree at the start of the buffer. -/
theorem Untouched.printLoop (h : Untouched o o') (hlen : 0 < length) {percent : Bool}
    {fmt : List UInt8} (htext : rest a percent fmt ap ≠ []) :
    Out.Related (fun s t => s outbuffer = t outbuffer)
      (printLoop sSputc fd outbuffer length a percent fmt ap o)
      (printLoop sSputc fd outbuffer length a percent fmt ap o') := by
  have hA := agree_place fd outbuffer length outbuffer
  induction fmt generalizing percent ap with
  | nil => cases percent <;> exact absurd rfl htext
  | cons c fmt ih =>
    rw [Printf.printLoop, Printf.printLoop, h.index, h.index', if_pos hlen, if_pos hlen]
    cases percent with
    | true =>
      simp only [if_true]
      by_cases hc : conversion a c ap = []
      · rw [rest, hc, List.nil_append] at htext
        rw [convert_of_nil hc, convert_of_nil hc]
        exact ih htext
      · obtain ⟨hap, hout⟩ : (Printf.convert sSputc fd outbuffer length a c ap o).1 = _ ∧ _ :=
          h.convert hlen hc
        rw [← hap]
        exact hA.printLoop hout a false fmt _
    | false =>
      simp only [Bool.false_eq_true, if_false]
      by_cases hc : c = code '%'
      · subst hc
        rw [rest, render_percent] at htext
        rw [if_pos rfl, if_pos rfl]
        exact ih htext
      · rw [if_neg hc, if_neg hc]
        exact hA.printLoop (h.put hlen c) a false fmt ap

end

section

variable {outbuffer : UInt32} {n : Int32} {fmt : CString} {a : Args}

/-- Without room the nul is not stored, and the length is the largest there is. -/
theorem snprintf_zero (mem : UInt32 → UInt8) :
    snprintf mem outbuffer 0 fmt a = sPrintf sSputc (-1) outbuffer 0 fmt a mem := by
  have hzero : (0 : Int32).toUInt32 = 0 := rfl
  rw [snprintf, hzero, if_neg (UInt32.not_lt.mpr UInt32.zero_le)]

theorem not_bounded_zero (htext : render a fmt.bytes 0 ≠ []) : ¬ Bounded outbuffer 0 fmt a := by
  intro h
  have hstart : Untouched ⟨fun _ => 0, 0⟩ ⟨fun _ => 1, 0⟩ := ⟨rfl, rfl⟩
  have htext : rest a false fmt.bytes 0 ≠ [] := htext
  have hsame : (sPrintf sSputc (-1) outbuffer 0 fmt a fun _ => 0).1 outbuffer =
      (sPrintf sSputc (-1) outbuffer 0 fmt a fun _ => 1).1 outbuffer :=
    (hstart.printLoop (by decide) htext).sink
  have hzero := (h fun _ => 0).1 0 (by decide)
  have hone := (h fun _ => 1).1 0 (by decide)
  rw [snprintf_zero, UInt32.add_zero] at hzero hone
  rw [hzero, hone] at hsame
  exact absurd hsame (by decide)

theorem bounded_zero (htext : render a fmt.bytes 0 = []) : Bounded outbuffer 0 fmt a := by
  intro mem
  obtain ⟨hmem, hcount⟩ := sPrintf_spec (sink_sSputc mem (-1) outbuffer (0 - 1 : Int32).toUInt32)
    (s := mem) rfl fmt a (by rw [htext]; decide)
  rw [htext, List.take_nil, stored_nil] at hmem
  rw [htext, List.length_nil, Nat.min_zero] at hcount
  have hret : (sPrintf sSputc (-1) outbuffer 0 fmt a mem).2 = 0 := UInt32.toNat_inj.mp hcount
  rw [snprintf_zero, hmem, hret]
  exact ⟨fun _ _ => rfl, by decide⟩

/-- **snprintf keeps to its bound, except that it stores all of a text when there is no room.** -/
theorem bounded_iff (outbuffer : UInt32) (n : Int32) (hn : 0 ≤ n) (fmt : CString) (a : Args) :
    Bounded outbuffer n fmt a ↔ 0 < n ∨ render a fmt.bytes 0 = [] := by
  rw [Int32.le_iff_toInt_le, Int32.toInt_zero] at hn
  rw [Int32.lt_iff_toInt_lt, Int32.toInt_zero]
  constructor
  · intro h
    by_contra! hnot
    have hzero : n = 0 := Int32.toInt_inj.mp (by rw [Int32.toInt_zero]; omega)
    exact not_bounded_zero hnot.2 (hzero ▸ h)
  · intro h
    by_cases hpos : 0 < n.toInt
    · exact bounded_of_pos hpos
    · have hzero : n = 0 := Int32.toInt_inj.mp (by rw [Int32.toInt_zero]; omega)
      rw [hzero]
      exact bounded_zero (h.resolve_left hpos)

end

def letter : CString := ⟨codes "a", by decide⟩

def noArgs : Args := ⟨fun _ => 0, fun _ => null⟩

/-- `snprintf(0x1000, 0, "a")` stores the character and returns 1. -/
theorem not_bounded_letter :
    (snprintf (fun _ => 0) 0x1000 0 letter noArgs).1 0x1000 = code 'a' ∧
      (snprintf (fun _ => 0) 0x1000 0 letter noArgs).2 = 1 ∧ ¬ Bounded 0x1000 0 letter noArgs :=
  ⟨by decide +kernel, by decide +kernel, not_bounded_zero (by decide +kernel)⟩

/-- The same format with room for ten bytes. -/
theorem bounded_iff_ten :
    Bounded 0x1000 10 letter noArgs ↔ (0 : Int32) < 10 ∨ render noArgs letter.bytes 0 = [] :=
  bounded_iff 0x1000 10 (by decide) letter noArgs

end Xv6.Printf
