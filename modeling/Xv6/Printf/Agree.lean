import Mathlib.Data.Nat.Digits.Defs
import Mathlib.Data.Nat.Digits.Lemmas
import Xv6.Lib.Bytes
import Xv6.Printf.Defs

/-!
# printf and snprintf agree

`render` says what a format means. `printf` writes that text, and `snprintf` stores as much of it as
there is room for. A sink (`Sink`) is a way to put characters, some of which may no longer fit; the
engine is verified once for every sink, and `s_putc` and `s_sputc` are two of them.
-/

namespace Xv6.Printf

open CString (code codes)
open List (length_append append_assoc)
open UInt32 (toNat_inj toNat_add toNat_one lt_iff_toNat_lt toNat_sub_of_le)

def numeral (base x : Nat) : List UInt8 :=
  if x = 0 then [code '0'] else ((base.digits x).map digit).reverse

def decimal (i : Int) : List UInt8 :=
  if i < 0 then code '-' :: numeral 10 i.natAbs else numeral 10 i.natAbs

def conversion (a : Args) (c : UInt8) (ap : Nat) : List UInt8 :=
  if c = code 'd' then decimal (a.word ap).toInt32.toInt
  else if c = code 'x' ∨ c = code 'p' then numeral 16 (a.word ap).toNat
  else if c = code 's' then (a.text (a.word ap)).bytes
  else if c = code 'c' then [(a.word ap).toUInt8]
  else if c = code '%' then [code '%']
  else [code '%', c]

def takes (c : UInt8) : Nat :=
  if c ∈ [code 'd', code 'x', code 'p', code 's', code 'c'] then 1 else 0

def render (a : Args) : (fmt : List UInt8) → (ap : Nat) → List UInt8
  | [], _ => []
  | [c], _ => if c = code '%' then [] else [c]
  | c :: d :: fmt, ap =>
    if c = code '%' then conversion a d ap ++ render a fmt (ap + takes d)
    else c :: render a (d :: fmt) ap

/-- The text that is still to come, in either state of the engine. -/
def rest (a : Args) (percent : Bool) (fmt : List UInt8) (ap : Nat) : List UInt8 :=
  match percent, fmt with
  | false, fmt => render a fmt ap
  | true, [] => []
  | true, c :: fmt => conversion a c ap ++ render a fmt (ap + takes c)

theorem render_percent (a : Args) (fmt : List UInt8) (ap : Nat) :
    render a (code '%' :: fmt) ap = rest a true fmt ap := by
  cases fmt <;> simp [render, rest]

theorem render_cons (a : Args) {c : UInt8} (hc : c ≠ code '%') (fmt : List UInt8) (ap : Nat) :
    render a (c :: fmt) ap = c :: render a fmt ap := by
  cases fmt <;> simp [render, hc]

variable {base : UInt32}

theorem reverseDigits_eq (hbase : 1 < base.toNat) {room : Nat} {x : UInt32}
    (hx : x.toNat < base.toNat ^ room) :
    reverseDigits base room x = (base.toNat.digits x.toNat).map digit := by
  induction room generalizing x with
  | zero =>
    have h0 : x.toNat = 0 := by simpa using hx
    simp [reverseDigits, h0]
  | succ room ih =>
    rw [reverseDigits]
    by_cases h0 : x = 0
    · simp [h0]
    · have hpos : 0 < x.toNat := by
        rcases Nat.eq_zero_or_pos x.toNat with h | h
        · exact absurd (toNat_inj.mp (by simpa using h)) h0
        · exact h
      have hdiv : (x / base).toNat < base.toNat ^ room := by
        rw [UInt32.toNat_div]
        exact Nat.div_lt_of_lt_mul (by rwa [pow_succ'] at hx)
      rw [if_pos h0, ih hdiv, Nat.digits_def' hbase hpos]
      simp

theorem toInt_eq (x : Int32) :
    x.toInt = if x.toUInt32.toNat < 2 ^ 31 then (x.toUInt32.toNat : Int)
      else x.toUInt32.toNat - 2 ^ 32 := by
  obtain ⟨hbits, hmin, hmax⟩ := Bytes.toNat_toUInt32 x
  split at hbits <;> split <;> omega

theorem lt_zero_iff (x : Int32) : x < 0 ↔ x.toInt < 0 := by
  rw [Int32.lt_iff_toInt_lt, Int32.toInt_zero]

/-- `x = -xx` is the absolute value also of the least integer. -/
theorem natAbs_toInt (x : Int32) :
    x.toInt.natAbs = if x.toInt < 0 then (-x).toUInt32.toNat else x.toUInt32.toNat := by
  have hx := toInt_eq x
  have hlt := x.toUInt32.toNat_lt
  rw [Int32.toUInt32_neg, UInt32.toNat_neg]
  simp only [UInt32.size]
  split at hx <;> split <;> omega

/-- The local buffer holds every number, with its sign. -/
theorem sGetReverseDigits_eq (hbase : 10 ≤ base.toNat) (xx : Int32) (sgn : Bool) :
    (sGetReverseDigits localBufferLength xx base sgn).reverse =
      if sgn ∧ xx < 0 then code '-' :: numeral base.toNat (-xx).toUInt32.toNat
      else numeral base.toNat xx.toUInt32.toNat := by
  -- Ten digits are enough, so that neither test of the length ever fails.
  have hlarge : (2 : Nat) ^ 32 ≤ base.toNat ^ 10 :=
    le_trans (by norm_num) (Nat.pow_le_pow_left hbase 10)
  have hdigits (x : UInt32) : reverseDigits base (localBufferLength - 1) x =
      (base.toNat.digits x.toNat).map digit :=
    reverseDigits_eq (by omega) (lt_of_lt_of_le (lt_of_lt_of_le x.toNat_lt hlarge)
      (Nat.pow_le_pow_right (by omega) (by decide)))
  have hlen (x : UInt32) : ((base.toNat.digits x.toNat).map digit).length ≤ 10 := by
    rw [List.length_map, Nat.digits_length_le_iff (by omega)]
    exact lt_of_lt_of_le x.toNat_lt hlarge
  have hzero (x : Int32) : x.toUInt32.toNat = 0 ↔ 0 = x := by
    have hx := toInt_eq x
    have hlt := x.toUInt32.toNat_lt
    rw [← Int32.toInt_inj, Int32.toInt_zero]
    split at hx <;> omega
  unfold sGetReverseDigits
  by_cases hneg : sgn = true ∧ xx < 0
  · have hne : (-xx).toUInt32.toNat ≠ 0 := by
      have habs := natAbs_toInt xx
      have hlt := (lt_zero_iff xx).mp hneg.2
      rw [if_pos hlt] at habs
      omega
    have hxx : 0 ≠ xx := by
      rintro rfl
      exact absurd hneg.2 (by decide)
    have hfits := hlen (-xx).toUInt32
    simp only [hneg, hxx, hdigits, numeral, if_true, if_false, false_and, if_neg hne, true_and]
    rw [if_pos (by unfold localBufferLength; omega)]
    simp
  · have hfits := hlen xx.toUInt32
    simp only [hneg, hdigits, numeral, if_false, false_and, hzero]
    by_cases hxx : 0 = xx
    · have hnil : (xx.toUInt32).toNat = 0 := (hzero xx).mpr hxx
      simp [hnil, hxx, localBufferLength, code, codes, digit]
    · simp [hxx]

theorem digits_decimal (x : UInt32) :
    (sGetReverseDigits localBufferLength x.toInt32 10 true).reverse =
      decimal x.toInt32.toInt := by
  rw [sGetReverseDigits_eq (by decide), decimal, natAbs_toInt]
  simp only [lt_zero_iff, true_and]
  split <;> rfl

theorem digits_hex (x : UInt32) :
    (sGetReverseDigits localBufferLength x.toInt32 16 false).reverse = numeral 16 x.toNat := by
  rw [sGetReverseDigits_eq (by decide)]
  simp

/-- A way to put characters into `length` places at `outbuffer`. `Rep text s` says that `text` has
been output to `s`, all of it or as much as fits. -/
structure Sink {σ : Type} (putcFunction : PutFunction σ) (fd : Int32) (outbuffer length : UInt32)
    (Rep : List UInt8 → σ → Prop) : Prop where
  /-- A character is put after `text`; the engine may address it from a place in between. -/
  put {text s} {k j : UInt32} (c : UInt8) : Rep text s → k.toNat + j.toNat = text.length →
    k ≤ length → Rep (text ++ [c]) (putcFunction fd (outbuffer + k) (length - k) j c s)
  /-- A character that does not fit may be left out. -/
  skip {text s} (c : UInt8) : Rep text s → length.toNat ≤ text.length → Rep (text ++ [c]) s

namespace Sink

variable {σ : Type} {putcFunction : PutFunction σ} {fd : Int32} {outbuffer length : UInt32}
  {Rep : List UInt8 → σ → Prop} (S : Sink putcFunction fd outbuffer length Rep)

include S

theorem skip_all {text : List UInt8} {s : σ} (h : Rep text s)
    (hfull : length.toNat ≤ text.length) (cs : List UInt8) : Rep (text ++ cs) s := by
  induction cs generalizing text with
  | nil => simpa using h
  | cons c cs ih =>
    have hnext := ih (S.skip c h hfull) (by rw [length_append]; omega)
    rwa [append_assoc] at hnext

theorem putDigits {k : UInt32} (hk : k ≤ length) {text : List UInt8} {j : UInt32} {s : σ}
    (h : Rep text s) (hj : k.toNat + j.toNat = text.length) {cs : List UInt8}
    (hbound : text.length + cs.length < 2 ^ 32) :
    Rep (text ++ cs)
      (Printf.putDigits putcFunction fd (outbuffer + k) (length - k) j cs s) := by
  induction cs generalizing text j s with
  | nil => simpa [Printf.putDigits] using h
  | cons c cs ih =>
    simp only [List.length_cons] at hbound
    rw [Printf.putDigits]
    split
    · have hnext : (j + 1).toNat = j.toNat + 1 := by
        rw [toNat_add, toNat_one]
        omega
      have hput := ih (S.put c h hj hk) (by rw [hnext, length_append]; simp; omega)
        (by rw [length_append]; simp; omega)
      rwa [append_assoc] at hput
    · next hlast =>
      refine S.skip_all h ?_ _
      rw [lt_iff_toNat_lt, toNat_sub_of_le _ _ hk] at hlast
      omega

end Sink

/-- `text` has been output, and the index is behind it. -/
structure Printed {σ : Type} (Rep : List UInt8 → σ → Prop) (text : List UInt8) (o : Out σ) :
    Prop where
  rep : Rep text o.sink
  index : o.outindex.toNat = text.length

namespace Sink

variable {σ : Type} {putcFunction : PutFunction σ} {fd : Int32} {outbuffer length : UInt32}
  {Rep : List UInt8 → σ → Prop} (S : Sink putcFunction fd outbuffer length Rep)
  {text : List UInt8} {o : Out σ}

include S

variable (h : Printed Rep text o)

include h

theorem out_put (c : UInt8) (hbound : text.length + 1 < 2 ^ 32) :
    Printed Rep (text ++ [c]) (o.put putcFunction fd outbuffer length c) := by
  constructor
  · have hput := S.put (k := 0) c h.rep (by simpa using h.index) (by simp)
    simpa [Out.put] using hput
  · simp only [Out.put, toNat_add, toNat_one, h.index, length_append,
      List.length_singleton]
    omega

theorem out_puts (cs : List UInt8) (hbound : text.length + cs.length < 2 ^ 32) :
    Printed Rep (text ++ cs) (cs.foldl (Out.put putcFunction fd outbuffer length) o) := by
  induction cs generalizing text o with
  | nil => simpa using h
  | cons c cs ih =>
    simp only [List.length_cons] at hbound
    have hnext := ih (S.out_put h c (by omega)) (by rw [length_append]; simp; omega)
    rwa [append_assoc] at hnext

theorem out_int (hroom : o.outindex < length) {xx : Int32} {sgn : Bool} {cs : List UInt8}
    (hcs : (sGetReverseDigits localBufferLength xx base sgn).reverse = cs)
    (hbound : text.length + cs.length < 2 ^ 32) :
    Printed Rep (text ++ cs) (o.int putcFunction fd outbuffer length xx base sgn) := by
  have hle : o.outindex ≤ length := UInt32.le_of_lt hroom
  constructor
  · have hdigits := S.putDigits hle h.rep (j := 0) (by simpa using h.index) hbound
    rw [← hcs] at hdigits ⊢
    exact hdigits
  · have hlen : cs.length = (sGetReverseDigits localBufferLength xx base sgn).length := by
      rw [← hcs, List.length_reverse]
    simp only [Out.int, sPrintint, toNat_add, h.index, length_append, ← hlen,
      UInt32.toNat_ofNat']
    omega

theorem convert (hroom : o.outindex < length) (a : Args) (c : UInt8)
    (ap : Nat) (hbound : text.length + (conversion a c ap).length < 2 ^ 32) :
    (convert putcFunction fd outbuffer length a c ap o).1 = ap + takes c ∧
      Printed Rep (text ++ conversion a c ap)
        (convert putcFunction fd outbuffer length a c ap o).2 := by
  unfold Printf.convert
  unfold conversion at hbound ⊢
  split_ifs at hbound ⊢ with hd hx hs hc hp
  · exact ⟨by simp [takes, hd], S.out_int h hroom (digits_decimal _) hbound⟩
  · exact ⟨by rcases hx with rfl | rfl <;> rfl, S.out_int h hroom (digits_hex _) hbound⟩
  · exact ⟨by simp [takes, hs], S.out_puts h _ hbound⟩
  · exact ⟨by simp [takes, hc], S.out_put h _ hbound⟩
  · subst hp
    exact ⟨rfl, S.out_put h _ hbound⟩
  · refine ⟨?_, ?_⟩
    · simp only [takes]
      simp
      tauto
    · exact S.out_puts h [code '%', c] hbound

/-- The engine outputs the text of the format. It stops early only when the rest does not fit. -/
theorem printLoop (a : Args) (percent : Bool) (fmt : List UInt8)
    (ap : Nat) (hbound : text.length + (rest a percent fmt ap).length < 2 ^ 32) :
    Rep (text ++ rest a percent fmt ap)
        (printLoop putcFunction fd outbuffer length a percent fmt ap o).sink ∧
      min length.toNat
          (printLoop putcFunction fd outbuffer length a percent fmt ap o).outindex.toNat =
        min length.toNat (text ++ rest a percent fmt ap).length := by
  induction fmt generalizing percent ap text o with
  | nil =>
    have hnil : rest a percent [] ap = [] := by cases percent <;> rfl
    rw [hnil, List.append_nil]
    exact ⟨h.rep, by rw [Printf.printLoop, h.index]⟩
  | cons c fmt ih =>
    rw [Printf.printLoop]
    split
    · next hroom =>
      cases percent with
      | true =>
        rw [rest, length_append] at hbound
        obtain ⟨hap, hout⟩ := S.convert h hroom a c ap (by omega)
        have hnext := ih hout false (ap + takes c) (by rw [length_append, rest]; omega)
        rw [rest, ← append_assoc]
        rw [← hap] at hnext ⊢
        exact hnext
      | false =>
        rw [if_neg (by decide)]
        by_cases hc : c = code '%'
        · subst hc
          rw [rest, render_percent] at hbound ⊢
          rw [if_pos rfl]
          exact ih h true ap hbound
        · rw [rest, render_cons a hc] at hbound ⊢
          rw [if_neg hc]
          have hnext := ih (S.out_put h c (by simp at hbound; omega)) false ap
            (by rw [length_append, rest]; simp at hbound ⊢; omega)
          rwa [append_assoc] at hnext
    · next hfull =>
      rw [lt_iff_toNat_lt, h.index] at hfull
      refine ⟨S.skip_all h.rep (by omega) _, ?_⟩
      rw [h.index, length_append]
      omega

end Sink

theorem sink_sPutc (fd : Int32) (outbuffer length : UInt32) :
    Sink sPutc fd outbuffer length
      (fun text out => text.length ≤ length.toNat → out = text.map (fd, ·)) where
  put c h _ _ hlen := by
    rw [length_append] at hlen
    simp [sPutc, h (by omega)]
  skip c h hfull hlen := by
    simp at hlen
    omega

def stored (mem : UInt32 → UInt8) (outbuffer : UInt32) (text : List UInt8) : UInt32 → UInt8 :=
  fun p => (text[(p - outbuffer).toNat]?).getD (mem p)

theorem stored_nil (mem : UInt32 → UInt8) (outbuffer : UInt32) : stored mem outbuffer [] = mem :=
  rfl

theorem stored_append (mem : UInt32 → UInt8) (outbuffer : UInt32) {text : List UInt8}
    {k : UInt32} (hk : k.toNat = text.length) (c : UInt8) :
    stored mem outbuffer (text ++ [c]) =
      Function.update (stored mem outbuffer text) (outbuffer + k) c := by
  funext p
  by_cases hp : p = outbuffer + k
  · subst hp
    simp [stored, UInt32.add_comm outbuffer k, hk]
  · have hne : (p - outbuffer).toNat ≠ text.length := by
      rw [← hk, Ne, toNat_inj]
      rintro rfl
      exact hp (by rw [UInt32.add_comm, UInt32.sub_add_cancel])
    rw [Function.update_of_ne hp]
    simp only [stored]
    rcases Nat.lt_or_gt_of_ne hne with hlt | hgt
    · rw [List.getElem?_append_left hlt]
    · rw [List.getElem?_eq_none (by simp; omega), List.getElem?_eq_none (by omega)]

theorem sink_sSputc (mem : UInt32 → UInt8) (fd : Int32) (outbuffer length : UInt32) :
    Sink sSputc fd outbuffer length
      (fun text mem' => mem' = stored mem outbuffer (text.take length.toNat)) where
  put {text s k j} c h hj hk := by
    subst h
    have hsub := toNat_sub_of_le _ _ hk
    have hle := UInt32.le_iff_toNat_le.mp hk
    simp only [sSputc, lt_iff_toNat_lt, hsub]
    have hlength := length.toNat_lt
    split
    · next hlt =>
      rw [List.take_of_length_le (by omega), List.take_of_length_le (by simp; omega),
        UInt32.add_assoc, stored_append (k := k + j)]
      rw [toNat_add]
      omega
    · rw [List.take_append_of_le_length (by omega)]
  skip c h hfull := by
    rw [List.take_append_of_le_length hfull]
    exact h

theorem toNat_sMin (x y : UInt32) : (sMin x y).toNat = min x.toNat y.toNat := by
  unfold sMin
  split <;> rename_i h <;> rw [lt_iff_toNat_lt] at h <;> omega

theorem sPrintf_spec {σ : Type} {putcFunction : PutFunction σ} {fd : Int32} {outbuffer : UInt32}
    {n : Int32} {Rep : List UInt8 → σ → Prop}
    (S : Sink putcFunction fd outbuffer (n - 1).toUInt32 Rep) {s : σ} (h : Rep [] s)
    (fmt : CString) (a : Args) (hbound : (render a fmt.bytes 0).length < 2 ^ 32) :
    Rep (render a fmt.bytes 0) (sPrintf putcFunction fd outbuffer n fmt a s).1 ∧
      (sPrintf putcFunction fd outbuffer n fmt a s).2.toNat =
        min (n - 1).toUInt32.toNat (render a fmt.bytes 0).length := by
  have hstart : Printed Rep [] (⟨s, 0⟩ : Out σ) := ⟨h, rfl⟩
  obtain ⟨hrep, hindex⟩ := S.printLoop hstart a false fmt.bytes 0 (by simpa [rest] using hbound)
  refine ⟨hrep, ?_⟩
  rw [List.nil_append, rest] at hindex
  rw [← hindex, sPrintf, toNat_sMin]

/-- `printf` writes the text, a character at a time and in order. -/
theorem printf_eq (fmt : CString) (a : Args)
    (hlen : (render a fmt.bytes 0).length < 2 ^ 30 - 1) (fd : Int32) :
    printf fd fmt a = (render a fmt.bytes 0).map (fd, ·) := by
  have h := sPrintf_spec (n := veryLarge.toInt32) (sink_sPutc fd 0 _) (s := [])
    (fun _ => rfl) fmt a (by omega)
  exact h.1 (by rw [show (veryLarge.toInt32 - 1).toUInt32.toNat = 2 ^ 30 - 1 by decide]; omega)

/-- `snprintf` stores as much of the text as fits, and a NUL. -/
theorem snprintf_eq (fmt : CString) (a : Args) (hlen : (render a fmt.bytes 0).length < 2 ^ 32)
    (mem : UInt32 → UInt8) (outbuffer : UInt32) {n : Int32} (hn : 1 ≤ n) :
    (snprintf mem outbuffer n fmt a).1 =
        stored mem outbuffer ((render a fmt.bytes 0).take (n.toInt.toNat - 1) ++ [0]) ∧
      (snprintf mem outbuffer n fmt a).2.toNat =
        min (n.toInt.toNat - 1) (render a fmt.bytes 0).length := by
  -- `length` is `n - 1`, and the count is less than `n`.
  have hpos : 1 ≤ n.toInt := Int32.le_iff_toInt_le.mp hn
  have hn' : n.toUInt32.toNat = n.toInt.toNat := by
    have hint := toInt_eq n
    have hlt := n.toUInt32.toNat_lt
    split at hint <;> omega
  have hlength : (n - 1).toUInt32.toNat = n.toInt.toNat - 1 := by
    have hle : (1 : Int32).toUInt32 ≤ n.toUInt32 := by
      rw [UInt32.le_iff_toNat_le, hn', show (1 : Int32).toUInt32.toNat = 1 from rfl]
      omega
    rw [Int32.toUInt32_sub, toNat_sub_of_le _ _ hle, hn']
    rfl
  obtain ⟨hmem, hcount⟩ := sPrintf_spec (sink_sSputc mem (-1) outbuffer (n - 1).toUInt32)
    (s := mem) (by simp [stored_nil]) fmt a hlen
  rw [hlength] at hmem hcount
  have hlt : (sPrintf sSputc (-1) outbuffer n fmt a mem).2 < n.toUInt32 := by
    rw [lt_iff_toNat_lt, hcount, hn']
    omega
  rw [snprintf, if_pos hlt]
  refine ⟨?_, hcount⟩
  rw [hmem, stored_append]
  rw [hcount, List.length_take]

/-- There is one text for a format and its arguments: `printf` writes it, a character at a time
and in order, and `snprintf` with a buffer of `n` bytes stores its first `n - 1` characters and a
NUL, wherever the cut falls, returns how many these are, and leaves the rest of the memory. -/
theorem printf_snprintf_agree (fmt : CString) (a : Args)
    (hlen : (render a fmt.bytes 0).length < 2 ^ 30 - 1) :
    (∀ fd : Int32, printf fd fmt a = (render a fmt.bytes 0).map (fd, ·)) ∧
      ∀ (mem : UInt32 → UInt8) (outbuffer : UInt32) (n : Int32), 1 ≤ n →
        (snprintf mem outbuffer n fmt a).1 =
            stored mem outbuffer ((render a fmt.bytes 0).take (n.toInt.toNat - 1) ++ [0]) ∧
          (snprintf mem outbuffer n fmt a).2.toNat =
            min (n.toInt.toNat - 1) (render a fmt.bytes 0).length :=
  ⟨printf_eq fmt a hlen, fun mem outbuffer _ => snprintf_eq fmt a (by omega) mem outbuffer⟩

/-- `"n=%d;"`, with `-12` for an argument. -/
def cutFmt : CString := ⟨codes "n=%d;", by decide⟩

@[inherit_doc cutFmt]
def cutArgs : Args := ⟨fun _ => (-12 : Int32).toUInt32, fun _ => null⟩

theorem printf_snprintf_agree_cut :
    printf 1 cutFmt cutArgs = (codes "n=-12;").map (1, ·) ∧
      (snprintf (fun _ => 0) 64 5 cutFmt cutArgs).1 =
        stored (fun _ => 0) 64 (codes "n=-1" ++ [0]) := by
  have hrender : render cutArgs cutFmt.bytes 0 = codes "n=-12;" := by decide +kernel
  have h := printf_snprintf_agree cutFmt cutArgs (by rw [hrender]; decide)
  rw [hrender] at h
  exact ⟨h.1 1, (h.2 (fun _ => 0) 64 5 (by decide)).1⟩

end Xv6.Printf
