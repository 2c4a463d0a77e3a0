import Xv6.Shell.Defs

/-!
# The tokens of a command

`gettoken` takes the first of the `tokens` of a string and `peek` looks at it; the position that the
parse functions pass along stands for the tokens from there on (`lex`).
-/

namespace Xv6.Shell

open CString (code codes)

inductive Op
  | read
  | write
  | append
  deriving DecidableEq

inductive Token
  | word (w : Span)
  | redir (op : Op)
  | bar
  | amp
  | semi
  | lparen
  | rparen
  deriving DecidableEq

def symbol (c : UInt8) : Option Token :=
  if c = code '<' then some (.redir .read)
  else if c = code '>' then some (.redir .write)
  else if c = code '|' then some .bar
  else if c = code '&' then some .amp
  else if c = code ';' then some .semi
  else if c = code '(' then some .lparen
  else if c = code ')' then some .rparen
  else none

/-- The tokens of a string that starts at position `pos`: whitespace is skipped, `>>` is one token,
and a word goes on as far as it can. -/
def tokens (pos : Nat) : List UInt8 → List Token
  | [] => []
  | c :: l =>
    if space c then tokens (pos + 1) l
    else if c = code '>' ∧ l.head? = some (code '>') then
      .redir .append :: tokens (pos + 2) l.tail
    else match symbol c with
      | some t => t :: tokens (pos + 1) l
      | none =>
        let n := (l.takeWhile inWord).length
        .word ⟨pos, pos + 1 + n⟩ :: tokens (pos + 1 + n) (l.drop n)
termination_by l => l.length

namespace Token

def ret : Token → UInt8
  | word _ => code 'a'
  | redir .read => code '<'
  | redir .write => code '>'
  | redir .append => code '+'
  | bar => code '|'
  | amp => code '&'
  | semi => code ';'
  | lparen => code '('
  | rparen => code ')'

/-- What `peek` sees of a token; the first byte of a word is no symbol. -/
def lead : Token → Option UInt8
  | word _ => none
  | redir .append => some (code '>')
  | t => some t.ret

end Token

def lex (s : CString) (p : Nat) : List Token := tokens p (s.bytes.drop p)

variable {c : UInt8}

theorem inWord_of_symbol (hs : ¬space c = true) (h : symbol c = none) : inWord c = true := by
  have hsym : c ∉ symbols := by
    unfold symbol at h
    split_ifs at h
    simp_all [symbols, codes]
  simpa [inWord, space, hsym] using hs

theorem symbol_ne_word (c : UInt8) (w : Span) : symbol c ≠ some (.word w) := by
  unfold symbol
  split_ifs <;> simp

theorem lex_nil {s : CString} {p : Nat} (h : s.bytes.drop p = []) : lex s p = [] := by
  rw [lex, h, tokens]

variable {l : List UInt8}

theorem lex_cons {s : CString} {p : Nat} (h : s.bytes.drop p = c :: l) (hs : ¬space c = true) :
    lex s p =
      if c = code '>' ∧ s.at_ (p + 1) = code '>' then .redir .append :: lex s (p + 2)
      else match symbol c with
        | some t => t :: lex s (p + 1)
        | none => .word ⟨p, s.scan inWord p⟩ :: lex s (s.scan inWord p) := by
  have hl := CString.drop_succ h
  have hhead : l.head? = some (code '>') ↔ s.at_ (p + 1) = code '>' := by
    rw [← hl, List.head?_drop, CString.at_, List.getD_eq_getElem?_getD]
    cases s.bytes[p + 1]? <;> simp [code]
  have htail : s.bytes.drop (p + 2) = l.tail := by
    rw [← hl, List.tail_drop]
  rw [lex, h, tokens, if_neg hs]
  simp only [hhead]
  split
  · rw [lex, htail]
  · cases hsym : symbol c with
    | some t => rw [lex, hl]
    | none =>
      have hscan : s.scan inWord p = p + 1 + (l.takeWhile inWord).length := by
        rw [CString.scan_eq, h, List.takeWhile_cons, if_pos (inWord_of_symbol hs hsym),
          List.length_cons]
        omega
      simp only [hscan, lex, ← List.drop_drop, hl]

theorem lex_space {s : CString} {p : Nat}
    (h : s.bytes.drop p = c :: l) (hs : space c = true) : lex s p = lex s (p + 1) := by
  rw [lex, lex, CString.drop_succ h, h, tokens, if_pos hs]

theorem lt_scan_inWord {s : CString} {p : Nat}
    (h : s.bytes.drop p = c :: l) (hs : ¬space c = true) (hsym : symbol c = none) :
    p < s.scan inWord p := by
  rw [CString.scan_eq, h, List.takeWhile_cons, if_pos (inWord_of_symbol hs hsym),
    List.length_cons]
  omega

@[simp] theorem lex_scan (s : CString) (p : Nat) : lex s (s.scan space p) = lex s p := by
  fun_induction CString.scan space s p with
  | case1 p h ih =>
    obtain ⟨hlt, hsp⟩ := h
    have hd := List.drop_eq_getElem_cons hlt
    rw [CString.at_of_drop hd] at hsp
    rw [ih, lex_space hd hsp]
  | case2 p h => rfl

theorem not_space_scan {s : CString} {p : Nat}
    (h : s.bytes.drop (s.scan space p) = c :: l) : ¬space c = true := by
  rw [CString.drop_scan] at h
  have hhead := List.head?_dropWhile_not space (s.bytes.drop p)
  rw [h] at hhead
  simpa using hhead

theorem lex_eq_nil {s : CString} {p : Nat} (h : lex s p = []) : s.at_ (s.scan space p) = 0 := by
  rw [← lex_scan] at h
  rw [CString.at_eq_zero_iff]
  cases hd : s.bytes.drop (s.scan space p) with
  | nil => rfl
  | cons c l =>
    rw [lex_cons hd (not_space_scan hd)] at h
    split at h
    · cases h
    · split at h <;> cases h

theorem lex_eq_cons {s : CString} {p : Nat} {t : Token} {ts : List Token} (h : lex s p = t :: ts) :
    ∃ c l, s.bytes.drop (s.scan space p) = c :: l ∧ s.at_ (s.scan space p) = c ∧ c ≠ 0 ∧
      ¬space c = true := by
  rw [← lex_scan] at h
  cases hd : s.bytes.drop (s.scan space p) with
  | nil => rw [lex_nil hd] at h; cases h
  | cons c l =>
    exact ⟨c, l, rfl, CString.at_of_drop hd,
      fun h0 => s.nul_free (h0 ▸ CString.mem_of_drop hd), not_space_scan hd⟩

theorem gettoken_nil {s : CString} {p : Nat} (h : lex s p = []) :
    (gettoken s p).ret = 0 ∧ lex s (gettoken s p).ps = [] := by
  simp [gettoken, lex_eq_nil h, h]

theorem gettoken_cons {s : CString} {p : Nat} {t : Token} {ts : List Token}
    (h : lex s p = t :: ts) :
    (gettoken s p).ret = t.ret ∧ lex s (gettoken s p).ps = ts ∧
      ∀ w, t = .word w → (⟨(gettoken s p).q, (gettoken s p).eq⟩ : Span) = w := by
  obtain ⟨c, l, hd, hc, hzero, hs⟩ := lex_eq_cons h
  rw [← lex_scan, lex_cons hd hs] at h
  simp only [gettoken, hc, if_neg hzero, lex_scan]
  by_cases hsix : c ∈ [code '|', code '(', code ')', code ';', code '&', code '<']
  · simp only [List.mem_cons, List.not_mem_nil, or_false] at hsix
    rcases hsix with rfl | rfl | rfl | rfl | rfl | rfl <;>
      simp [symbol, code] at h ⊢ <;> obtain ⟨rfl, rfl⟩ := h <;> simp [Token.ret, code]
  · rw [if_neg hsix]
    by_cases hgt : c = code '>'
    · rw [if_pos hgt]
      by_cases hgtgt : s.at_ (s.scan space p + 1) = code '>'
      · rw [if_pos ⟨hgt, hgtgt⟩] at h
        obtain ⟨rfl, rfl⟩ := List.cons.inj h
        simp [hgtgt, Token.ret]
      · subst hgt
        rw [if_neg (fun hand => hgtgt hand.2)] at h
        obtain ⟨rfl, rfl⟩ := List.cons.inj h
        simp [hgtgt, Token.ret]
    · have hsym : symbol c = none := by
        simp only [List.mem_cons, List.not_mem_nil, or_false, not_or] at hsix
        simp [symbol, hsix, hgt]
      rw [if_neg (fun hand => hgt hand.1), hsym] at h
      obtain ⟨rfl, rfl⟩ := List.cons.inj h
      simp [hgt, Token.ret]

@[simp] theorem lex_peek (s : CString) (p : Nat) (toks : List UInt8) :
    lex s (peek s p toks).2 = lex s p :=
  lex_scan s p

/-- `peek` looks at the first token. -/
theorem peek_fst (s : CString) (p : Nat) {toks : List UInt8} (htoks : toks ⊆ symbols) :
    (peek s p toks).1 = (lex s p).head?.any (fun t => t.lead.any (· ∈ toks)) := by
  cases h : lex s p with
  | nil => simp [peek, lex_eq_nil h]
  | cons t ts =>
    obtain ⟨c, l, hd, hc, hzero, hs⟩ := lex_eq_cons h
    rw [← lex_scan, lex_cons hd hs] at h
    have hlead : t.lead = some c ∨ t.lead = none ∧ c ∉ symbols := by
      split at h
      · next hgt =>
        obtain ⟨rfl, rfl⟩ := List.cons.inj h
        exact .inl (by rw [hgt.1]; rfl)
      · cases hsym : symbol c with
        | some t' =>
          rw [hsym] at h
          obtain ⟨rfl, rfl⟩ := List.cons.inj h
          refine .inl ?_
          unfold symbol at hsym
          split_ifs at hsym with h1 h2 h3 h4 h5 h6 h7 <;>
            (cases hsym; simp_all [Token.lead, Token.ret])
        | none =>
          rw [hsym] at h
          obtain ⟨rfl, rfl⟩ := List.cons.inj h
          have hword := inWord_of_symbol hs hsym
          exact .inr ⟨rfl, (of_decide_eq_true hword).2⟩
    rcases hlead with hlead | ⟨hlead, hsym⟩
    · simp [peek, hc, hzero, hlead]
    · have hnot : c ∉ toks := fun hmem => hsym (htoks hmem)
      simp [peek, hc, hlead, hnot]

/-- From position `p` of the string on there are the tokens `ts`. -/
structure At (s : CString) (p : Nat) (ts : List Token) : Prop where
  le : p ≤ s.bytes.length
  lex : lex s p = ts

namespace At

variable {s : CString} {p : Nat} {ts : List Token} {t : Token}

theorem start (s : CString) : At s 0 (tokens 0 s.bytes) := ⟨Nat.zero_le _, rfl⟩

theorem peek (h : At s p ts) (toks : List UInt8) : At s (peek s p toks).2 ts :=
  ⟨CString.scan_le h.le, by rw [lex_peek, h.lex]⟩

/-- What `peek` finds. -/
theorem peek_fst (h : At s p ts) {toks : List UInt8} (htoks : toks ⊆ symbols) :
    (Shell.peek s p toks).1 = ts.head?.any (fun t => t.lead.any (· ∈ toks)) := by
  rw [Shell.peek_fst s p htoks, h.lex]

theorem gettoken_le (h : At s p (t :: ts)) : (gettoken s p).ps ≤ s.bytes.length := by
  obtain ⟨c, l, hd, hc, -, -⟩ := lex_eq_cons h.lex
  have hlt := CString.lt_of_drop hd
  refine CString.scan_le ?_
  split_ifs with h0 hsix hgt hgtgt
  · omega
  · omega
  · -- The second `>` is a byte of the string.
    by_contra hge
    have hnil : s.bytes.drop (s.scan space p + 1) = [] := List.drop_eq_nil_of_le (by omega)
    rw [CString.at_eq_zero_iff.mpr hnil] at hgtgt
    exact absurd hgtgt (by decide)
  · omega
  · exact CString.scan_le (by omega)

theorem gettoken (h : At s p (t :: ts)) : At s (gettoken s p).ps ts :=
  ⟨h.gettoken_le, (gettoken_cons h.lex).2.1⟩

theorem ret (h : At s p (t :: ts)) : (Shell.gettoken s p).ret = t.ret := (gettoken_cons h.lex).1

theorem word {w : Span} (h : At s p (.word w :: ts)) :
    (⟨(Shell.gettoken s p).q, (Shell.gettoken s p).eq⟩ : Span) = w :=
  (gettoken_cons h.lex).2.2 w rfl

theorem ret_nil (h : At s p []) : (Shell.gettoken s p).ret = 0 := (gettoken_nil h.lex).1

theorem gettoken_end (h : At s p []) : At s (Shell.gettoken s p).ps [] := by
  refine ⟨CString.scan_le ?_, (gettoken_nil h.lex).2⟩
  simp only [lex_eq_nil h.lex, if_true]
  exact CString.scan_le h.le

theorem peek_snd (h : At s p ts) : (Shell.peek s p []).2 = s.bytes.length ↔ ts = [] := by
  constructor
  · intro hend
    have hpeek := (h.peek []).lex
    rw [hend, lex_nil (List.drop_eq_nil_of_le le_rfl)] at hpeek
    exact hpeek.symm
  · rintro rfl
    have hzero := CString.at_eq_zero_iff.mp (lex_eq_nil h.lex)
    have hle : s.scan space p ≤ s.bytes.length := CString.scan_le h.le
    exact le_antisymm hle (List.drop_eq_nil_iff.mp hzero)

end At

end Xv6.Shell
