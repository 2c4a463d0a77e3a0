import Mathlib.Data.List.TakeWhile
import Mathlib.Logic.Function.Basic

/-!
# C strings

A string of C is the list of the bytes before its NUL; the position behind the last byte holds the
NUL.
-/

structure CString where
  bytes : List UInt8
  nul_free : 0 ∉ bytes

namespace CString

variable {s : CString} {p : Nat} {P : UInt8 → Bool}

def code (c : Char) : UInt8 := c.toNat.toUInt8

def codes (text : String) : List UInt8 := text.toList.map code

/-- `s[p]` -/
def at_ (s : CString) (p : Nat) : UInt8 := s.bytes.getD p 0

/-- `while(s + p < es && P(s[p])) p++` -/
def scan (P : UInt8 → Bool) (s : CString) (p : Nat) : Nat :=
  if p < s.bytes.length ∧ P (s.at_ p) then scan P s (p + 1) else p
termination_by s.bytes.length - p

variable {c : UInt8} {l : List UInt8}

variable (h : s.bytes.drop p = c :: l)

include h

theorem at_of_drop : s.at_ p = c := by
  rw [at_, List.getD_eq_getElem?_getD, ← List.head?_drop, h]
  rfl

theorem drop_succ : s.bytes.drop (p + 1) = l := by
  rw [← List.drop_drop, h]
  rfl

theorem lt_of_drop : p < s.bytes.length := by
  by_contra hge
  rw [List.drop_eq_nil_of_le (by omega)] at h
  cases h

theorem mem_of_drop : c ∈ s.bytes :=
  List.mem_of_mem_drop (by rw [h]; exact List.mem_cons_self)

omit h

theorem at_eq_zero_iff : s.at_ p = 0 ↔ s.bytes.drop p = [] := by
  constructor
  · intro h
    cases hd : s.bytes.drop p with
    | nil => rfl
    | cons c l =>
      have hc : c = 0 := (at_of_drop hd).symm.trans h
      exact absurd (hc ▸ mem_of_drop hd) s.nul_free
  · intro h
    rw [at_, List.getD_eq_getElem?_getD, ← List.head?_drop, h]
    rfl

/-- The loop stops behind the longest run for which the predicate holds. -/
theorem scan_eq (P : UInt8 → Bool) (s : CString) (p : Nat) :
    scan P s p = p + ((s.bytes.drop p).takeWhile P).length := by
  fun_induction scan P s p with
  | case1 p h ih =>
    obtain ⟨hlt, hP⟩ := h
    have hd := List.drop_eq_getElem_cons hlt
    rw [at_of_drop hd] at hP
    rw [ih, drop_succ hd, hd, List.takeWhile_cons, if_pos hP, List.length_cons]
    omega
  | case2 p h =>
    cases hd : s.bytes.drop p with
    | nil => rfl
    | cons c l =>
      have hP : ¬P c = true := fun hP => h ⟨lt_of_drop hd, (at_of_drop hd).symm ▸ hP⟩
      rw [List.takeWhile_cons, if_neg hP]
      rfl

theorem drop_scan (P : UInt8 → Bool) (s : CString) (p : Nat) :
    s.bytes.drop (scan P s p) = (s.bytes.drop p).dropWhile P := by
  rw [scan_eq, ← List.drop_drop]
  generalize s.bytes.drop p = l
  calc l.drop (l.takeWhile P).length
      = (l.takeWhile P ++ l.dropWhile P).drop (l.takeWhile P).length := by
        rw [List.takeWhile_append_dropWhile]
    _ = l.dropWhile P := List.drop_left

theorem scan_le (hp : p ≤ s.bytes.length) : scan P s p ≤ s.bytes.length := by
  have hlen := (List.takeWhile_prefix (l := s.bytes.drop p) P).length_le
  rw [List.length_drop] at hlen
  rw [scan_eq]
  omega

theorem of_lt_scan {i : Nat} (hi : p ≤ i) (hlt : i < scan P s p) : P (s.at_ i) = true := by
  fun_induction scan P s p with
  | case1 p h ih =>
    rcases Nat.eq_or_lt_of_le hi with rfl | hlt'
    · exact h.2
    · exact ih hlt' hlt
  | case2 p h => omega

theorem not_scan (hlt : scan P s p < s.bytes.length) : ¬P (s.at_ (scan P s p)) = true := by
  fun_induction scan P s p with
  | case1 p h ih => exact ih hlt
  | case2 p h => exact fun hP => h ⟨hlt, hP⟩

def slice (s : CString) (q eq : Nat) : List UInt8 := (s.bytes.drop q).take (eq - q)

def Holds (mem : Nat → UInt8) (p : Nat) (text : List UInt8) : Prop :=
  0 ∉ text ∧ ∀ i ≤ text.length, mem (p + i) = text.getD i 0

end CString
