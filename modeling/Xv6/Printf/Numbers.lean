import Xv6.Printf.Agree

namespace Xv6.Printf

open CString (code codes)

def atoiLoop (n : Int32) : (s : List UInt8) → Int32
  | [] => n
  | c :: s =>
    if code '0' ≤ c ∧ c ≤ code '9' then
      atoiLoop (n * 10 + Int32.ofNat c.toNat - Int32.ofNat (code '0').toNat) s
    else n

def atoi (s : CString) : Int32 := atoiLoop 0 s.bytes

/-- `"%d"`, `"%x"` and `"%p"` -/
def percentD : CString := ⟨codes "%d", by decide⟩

@[inherit_doc percentD]
def percentX : CString := ⟨codes "%x", by decide⟩

@[inherit_doc percentD]
def percentP : CString := ⟨codes "%p", by decide⟩

variable {base n : Nat}

theorem digit_eq_zero_iff {d : Nat} (h : d < 16) : digit d = code '0' ↔ d = 0 := by
  decide +revert

theorem digit_decimal {d : Nat} (h : d < 10) : (code '0' ≤ digit d ∧ digit d ≤ code '9') ∧
    (digit d).toNat = d + (code '0').toNat := by
  decide +revert

theorem numeral_head (h₁ : 1 < base) (h₂ : base ≤ 16) :
    (numeral base n).head? = some (code '0') ↔ n = 0 := by
  rw [numeral]
  split
  · next h0 => simp [h0]
  · next h0 =>
    have hne : base.digits n ≠ [] := Nat.digits_ne_nil_iff_ne_zero.mpr h0
    have hlast := Nat.getLast_digit_ne_zero base h0
    have hlt : (base.digits n).getLast hne < 16 :=
      lt_of_lt_of_le (Nat.digits_lt_base h₁ (List.getLast_mem hne)) h₂
    rw [List.head?_reverse, List.getLast?_map, List.getLast?_eq_getLast_of_ne_nil hne,
      Option.map_some, Option.some.injEq, digit_eq_zero_iff hlt]
    exact iff_of_false hlast h0

theorem notMem_numeral (h₁ : 1 < base) (h₂ : base ≤ 16) {c : UInt8} (hc : ∀ d < 16, digit d ≠ c) :
    c ∉ numeral base n := by
  rw [numeral]
  split
  · rw [List.mem_singleton]
    exact (hc 0 (by decide)).symm
  · rw [List.mem_reverse, List.mem_map]
    rintro ⟨d, hd, h0⟩
    exact hc d (lt_of_lt_of_le (Nat.digits_lt_base h₁ hd) h₂) h0

theorem decimal_nul_free (i : Int) : 0 ∉ decimal i := by
  have h : 0 ∉ numeral 10 i.natAbs := notMem_numeral (by decide) (by decide) (by decide)
  rw [decimal]
  split
  · exact List.not_mem_cons_of_ne_of_not_mem (by decide) h
  · exact h

theorem sign_iff (i : Int) : code '-' ∈ decimal i ↔ i < 0 := by
  have h : code '-' ∉ numeral 10 i.natAbs := notMem_numeral (by decide) (by decide) (by decide)
  rw [decimal]
  split
  · next hi => exact iff_of_true List.mem_cons_self hi
  · next hi => exact iff_of_false h hi

theorem atoiLoop_digit {m d : Nat} (hd : d < 10) (s : List UInt8) :
    atoiLoop (Int32.ofNat m) (digit d :: s) = atoiLoop (Int32.ofNat (10 * m + d)) s := by
  obtain ⟨hrange, hval⟩ := digit_decimal hd
  rw [atoiLoop, if_pos hrange, hval, Int32.ofNat_add, Int32.ofNat_add, Int32.ofNat_mul]
  congr 1
  rw [Int32.mul_comm, ← Int32.add_assoc, Int32.add_sub_cancel]
  rfl

theorem atoiLoop_digits (n : Nat) (s : List UInt8) :
    atoiLoop 0 (((Nat.digits 10 n).map digit).reverse ++ s) = atoiLoop (Int32.ofNat n) s := by
  induction n using Nat.strong_induction_on generalizing s with
  | _ n ih =>
    by_cases h0 : n = 0
    · subst h0
      rfl
    · have hlt : n / 10 < n := Nat.div_lt_self (Nat.pos_of_ne_zero h0) (by decide)
      rw [Nat.digits_def' (by decide) (Nat.pos_of_ne_zero h0), List.map_cons, List.reverse_cons,
        List.append_assoc, ih _ hlt]
      refine (atoiLoop_digit (Nat.mod_lt n (by decide)) s).trans ?_
      rw [Nat.div_add_mod]

theorem atoi_numeral (s : CString) (hs : s.bytes = numeral 10 n) : atoi s = Int32.ofNat n := by
  rw [atoi, hs, numeral]
  split
  · next h0 =>
    subst h0
    rfl
  · rw [← List.append_nil (List.reverse _), atoiLoop_digits]
    rfl

theorem length_reverseDigits_le (base : UInt32) (room : Nat) (x : UInt32) :
    (reverseDigits base room x).length ≤ room := by
  induction room generalizing x with
  | zero => rfl
  | succ room ih =>
    rw [reverseDigits]
    split
    · exact Nat.succ_le_succ (ih _)
    · exact Nat.zero_le _

theorem length_sGetReverseDigits_le (xx : Int32) (base : UInt32) (sgn : Bool) :
    (sGetReverseDigits localBufferLength xx base sgn).length ≤ localBufferLength := by
  have hle := length_reverseDigits_le base (localBufferLength - 1)
  simp only [sGetReverseDigits, localBufferLength] at hle ⊢
  split_ifs <;> grind

theorem print_number (a : Args) {fmt : CString} {base : UInt32} {sgn : Bool} {text : List UInt8}
    (hfmt : render a fmt.bytes 0 = text)
    (htext : (sGetReverseDigits localBufferLength (a.word 0).toInt32 base sgn).reverse = text) :
    (∀ fd, printf fd fmt a = text.map (fd, ·)) ∧
      ∀ (mem : UInt32 → UInt8) (outbuffer : UInt32) (n : Int32), 1 ≤ n →
        (snprintf mem outbuffer n fmt a).1 =
          stored mem outbuffer (text.take (n.toInt.toNat - 1) ++ [0]) := by
  have hlen := length_sGetReverseDigits_le (a.word 0).toInt32 base sgn
  rw [← List.length_reverse, htext, ← hfmt, localBufferLength] at hlen
  rw [← hfmt]
  exact ⟨printf_eq fmt a (by omega), fun mem outbuffer _ hn =>
    (snprintf_eq fmt a (by omega) mem outbuffer hn).1⟩

/-- **Numbers are printed in full and read back.** For every word `x` that is the argument:

- `%d` prints the decimal numeral of its signed value, and `%x` and `%p` the hexadecimal numeral of
  its unsigned value, all of which the local buffer holds;
- there is a sign exactly if the value is negative, and a numeral begins with a zero only if it is
  that of zero;
- `atoi` of what `%d` prints is the value, unless it is negative. -/
theorem numbers_canonical (a : Args) (x : UInt32) (hx : a.word 0 = x) :
    (∀ e ∈ [(percentD, decimal x.toInt32.toInt), (percentX, numeral 16 x.toNat),
        (percentP, numeral 16 x.toNat)],
      (∀ fd, printf fd e.1 a = e.2.map (fd, ·)) ∧
        ∀ (mem : UInt32 → UInt8) (outbuffer : UInt32) (n : Int32), 1 ≤ n →
          (snprintf mem outbuffer n e.1 a).1 =
            stored mem outbuffer (e.2.take (n.toInt.toNat - 1) ++ [0])) ∧
      (sGetReverseDigits localBufferLength x.toInt32 10 true).reverse = decimal x.toInt32.toInt ∧
      (sGetReverseDigits localBufferLength x.toInt32 16 false).reverse = numeral 16 x.toNat ∧
      (code '-' ∈ decimal x.toInt32.toInt ↔ x.toInt32.toInt < 0) ∧
      (∀ base ∈ [10, 16], ∀ n, (numeral base n).head? = some (code '0') ↔ n = 0) ∧
      (0 ≤ x.toInt32.toInt →
        atoi ⟨decimal x.toInt32.toInt, decimal_nul_free _⟩ = x.toInt32) := by
  subst hx
  refine ⟨fun e he => ?_, digits_decimal _, digits_hex _, sign_iff _, fun base hbase n => ?_,
    fun hpos => ?_⟩
  · simp only [List.mem_cons, List.not_mem_nil, or_false] at he
    rcases he with rfl | rfl | rfl
    · exact print_number a (List.append_nil _) (digits_decimal _)
    · exact print_number a (List.append_nil _) (digits_hex _)
    · exact print_number a (List.append_nil _) (digits_hex _)
  · refine numeral_head ?_ ?_ <;> revert hbase base <;> decide
  · rw [atoi_numeral _ (if_neg (not_lt.mpr hpos))]
    have hlt := (a.word 0).toInt32.toInt_lt
    rw [← Int32.toInt_inj, Int32.toInt_ofNat_of_lt (by omega), Int.natAbs_of_nonneg hpos]

theorem numbers_canonical_least :
    (snprintf (fun _ => 0) 64 16 percentD ⟨fun _ => 0x80000000, fun _ => null⟩).1 =
        stored (fun _ => 0) 64 (codes "-2147483648" ++ [0]) ∧
      atoi ⟨decimal 1729, decimal_nul_free _⟩ = 1729 := by
  have h := numbers_canonical ⟨fun _ => 0x80000000, fun _ => null⟩ 0x80000000 rfl
  have h' := numbers_canonical ⟨fun _ => 1729, fun _ => null⟩ 1729 rfl
  exact ⟨(h.1 _ List.mem_cons_self).2 _ _ _ (by decide), h'.2.2.2.2.2 (by decide)⟩

end Xv6.Printf
