import Mathlib.Data.List.Infix
import Xv6.Lib.CString

namespace Xv6.Grep

open CString (code codes)

/-- `matchstar(c, re, text)`, where `here` is `matchhere(re, ·)`: search for c*re at beginning of
text. -/
def matchstar (c : UInt8) (here : List UInt8 → Bool) : (text : List UInt8) → Bool
  | [] => here []
  | t :: text =>
    -- a * matches zero or more instances
    here (t :: text) || (t == c || c == code '.') && matchstar c here text

/-- `matchhere`: search for re at beginning of text. -/
def matchhere : (re text : List UInt8) → Bool
  | [], _ => true
  | [c], text =>
    if c = code '$' then text.isEmpty
    else match text with
      | [] => false
      | t :: _ => c == code '.' || c == t
  | c :: d :: re, text =>
    -- a `$` in front of `*` is a character as any other
    if d = code '*' then matchstar c (fun text => matchhere re text) text
    else match text with
      | [] => false
      | t :: text => (c == code '.' || c == t) && matchhere (d :: re) text

def matchAnywhere (re : List UInt8) : (text : List UInt8) → Bool
  -- must look at empty string
  | [] => matchhere re []
  | t :: text => matchhere re (t :: text) || matchAnywhere re text

def match_ (re text : List UInt8) : Bool :=
  if re.head? = some (code '^') then matchhere re.tail text else matchAnywhere re text

/-- The text begins with something that the pattern describes: nothing, any number of times one
character, the end of the text, or one character, and then the rest of the pattern. -/
def Here : (re text : List UInt8) → Prop
  | [], _ => True
  | [c], text =>
    if c = code '$' then text = [] else ∃ t rest, text = t :: rest ∧ (c = code '.' ∨ c = t)
  | c :: d :: re, text =>
    if d = code '*' then
      ∃ pre rest, text = pre ++ rest ∧ (∀ t ∈ pre, t = c ∨ c = code '.') ∧ Here re rest
    else ∃ t rest, text = t :: rest ∧ (c = code '.' ∨ c = t) ∧ Here (d :: re) rest

/-- A pattern describes the beginning of the text, after `^`, or the beginning of a suffix. -/
def Matches (re text : List UInt8) : Prop :=
  if re.head? = some (code '^') then Here re.tail text
  else ∃ pre rest, text = pre ++ rest ∧ Here re rest

theorem matchstar_iff {c : UInt8} {here : List UInt8 → Bool} {text : List UInt8} :
    matchstar c here text = true ↔ ∃ pre rest, text = pre ++ rest ∧
      (∀ t ∈ pre, t = c ∨ c = code '.') ∧ here rest = true := by
  induction text with
  | nil =>
    rw [matchstar]
    constructor
    · intro h
      exact ⟨[], [], rfl, by simp, h⟩
    · rintro ⟨pre, rest, heq, -, h⟩
      obtain ⟨-, rfl⟩ := List.append_eq_nil_iff.mp heq.symm
      exact h
  | cons t text ih =>
    rw [matchstar, Bool.or_eq_true, Bool.and_eq_true, ih, Bool.or_eq_true, beq_iff_eq, beq_iff_eq]
    constructor
    · rintro (h | ⟨ht, pre, rest, rfl, hpre, h⟩)
      · exact ⟨[], t :: text, rfl, by simp, h⟩
      · exact ⟨t :: pre, rest, rfl, by simpa [ht] using hpre, h⟩
    · rintro ⟨pre, rest, heq, hpre, h⟩
      cases pre with
      | nil =>
        rw [List.nil_append] at heq
        exact Or.inl (heq ▸ h)
      | cons p pre =>
        obtain ⟨rfl, rfl⟩ := List.cons.inj heq
        exact Or.inr ⟨hpre t List.mem_cons_self, pre, rest, rfl,
          fun x hx => hpre x (List.mem_cons_of_mem _ hx), h⟩

theorem matchhere_iff : ∀ re text : List UInt8, matchhere re text = true ↔ Here re text
  | [], text => by simp [matchhere, Here]
  | [c], text => by
    by_cases hend : c = code '$'
    · cases text <;> simp [matchhere, Here, hend]
    · cases text <;> simp [matchhere, Here, hend]
  | c :: d :: re, text => by
    by_cases hstar : d = code '*'
    · rw [matchhere.eq_def, Here]
      simp only [if_pos hstar, matchstar_iff, matchhere_iff re]
    · cases text with
      | nil => simp [matchhere, Here, hstar]
      | cons t text => simp [matchhere, Here, hstar, matchhere_iff (d :: re)]

theorem matchAnywhere_iff {re text : List UInt8} :
    matchAnywhere re text = true ↔ ∃ pre rest, text = pre ++ rest ∧ Here re rest := by
  induction text with
  | nil =>
    rw [matchAnywhere, matchhere_iff]
    constructor
    · intro h
      exact ⟨[], [], rfl, h⟩
    · rintro ⟨pre, rest, heq, h⟩
      obtain ⟨-, rfl⟩ := List.append_eq_nil_iff.mp heq.symm
      exact h
  | cons t text ih =>
    rw [matchAnywhere, Bool.or_eq_true, matchhere_iff, ih]
    constructor
    · rintro (h | ⟨pre, rest, rfl, h⟩)
      · exact ⟨[], t :: text, rfl, h⟩
      · exact ⟨t :: pre, rest, rfl, h⟩
    · rintro ⟨pre, rest, heq, h⟩
      cases pre with
      | nil =>
        rw [List.nil_append] at heq
        exact Or.inl (heq ▸ h)
      | cons p pre =>
        obtain ⟨rfl, rfl⟩ := List.cons.inj heq
        exact Or.inr ⟨pre, rest, rfl, h⟩

theorem match_iff (re text : List UInt8) : match_ re text = true ↔ Matches re text := by
  rw [match_, Matches]
  split
  · exact matchhere_iff _ _
  · exact matchAnywhere_iff

/-- `match` on strings, which have no NUL inside: it returns 1 when, after an initial `^`, the text
begins with what the rest of the pattern describes, and without a `^` when some suffix does. -/
theorem match_correct (re text : CString) :
    match_ re.bytes text.bytes = true ↔
      if re.bytes.head? = some (code '^') then Here re.bytes.tail text.bytes
      else ∃ suffix, suffix <:+ text.bytes ∧ Here re.bytes suffix := by
  rw [match_iff, Matches]
  split
  · exact Iff.rfl
  · constructor
    · rintro ⟨pre, rest, heq, hhere⟩
      exact ⟨rest, ⟨pre, heq.symm⟩, hhere⟩
    · rintro ⟨rest, ⟨pre, heq⟩, hhere⟩
      exact ⟨pre, rest, heq.symm, hhere⟩

example : match_ (codes "^a*b.$") (codes "aabc") = true ∧
    match_ (codes "a$") (codes "ab") = false := by decide

instance (re text : List UInt8) : Decidable (Matches re text) :=
  decidable_of_iff _ (match_iff re text)

end Xv6.Grep
