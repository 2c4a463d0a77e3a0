import Xv6.Shell.Grammar

/-!
# The parser accepts its grammar

The parser returns the tree of the phrase that derives all tokens of the string, and panics where
there is none or where it has too many words in one command. A phrase is parsed alike before all
tokens of its follow set.
-/

namespace Xv6.Shell

open CString (code codes)
open List (mem_cons foldl_append length_cons length_append cons_append append_assoc mem_flatMap
  mem_map mem_append)

namespace Result

variable {α β : Type}

/-- The call returns, with a result as described, or panics. -/
def Meets (r : Result α) (post : α → Prop) : Prop :=
  match r with
  | ok a => post a
  | panic _ => True
  | spins => False

theorem Meets.bind {r : Result α} {f : α → Result β} {P : α → Prop} {Q : β → Prop}
    (h : r.Meets P) (hf : ∀ a, P a → (f a).Meets Q) : (r.bind f).Meets Q := by
  cases r with
  | ok a => exact hf a h
  | panic msg => trivial
  | spins => exact h

theorem Meets.mono {r : Result α} {P Q : α → Prop} (h : r.Meets P) (hpq : ∀ a, P a → Q a) :
    r.Meets Q := by
  cases r with
  | ok a => exact hpq a h
  | panic msg => trivial
  | spins => exact h

end Result

section

variable {s : CString} {p : Nat} {ts rest : List Token}

theorem At.peek_redir (h : At s p ts) :
    (Shell.peek s p (codes "<>")).1 = true ↔ ∃ op tl, ts = .redir op :: tl := by
  rw [h.peek_fst (by decide)]
  rcases ts with - | ⟨t, tl⟩
  · simp
  · cases t with
    | redir op => cases op <;> simp <;> decide
    | _ => simp [Token.lead, Token.ret] <;> decide

theorem At.peek_single (h : At s p ts) (toks : List UInt8) (t : Token)
    (ht : t ∈ [.bar, .amp, .semi, .lparen, .rparen]) (htoks : toks = [t.ret]) :
    (Shell.peek s p toks).1 = true ↔ ∃ tl, ts = t :: tl := by
  have hsub : toks ⊆ symbols := by
    subst htoks
    simp only [mem_cons, List.not_mem_nil, or_false] at ht
    rcases ht with rfl | rfl | rfl | rfl | rfl <;> decide
  rw [h.peek_fst hsub]
  subst htoks
  rcases ts with - | ⟨t', tl⟩
  · simp
  · simp only [mem_cons, List.not_mem_nil, or_false] at ht
    rcases ht with rfl | rfl | rfl | rfl | rfl <;>
      rcases t' with w | (_ | _ | _) | _ | _ | _ | _ | _ <;> simp [Token.lead] <;> decide

theorem At.peek_follow (h : At s p ts) :
    (Shell.peek s p (codes "|)&;")).1 = true ↔ ∃ t tl, ts = t :: tl ∧ t ∈ follow .exec := by
  rw [h.peek_fst (by decide)]
  rcases ts with - | ⟨t, tl⟩
  · simp
  · rcases t with w | (_ | _ | _) | _ | _ | _ | _ | _ <;>
      simp [Token.lead, follow] <;> decide

theorem wrap_append (cmd : Cmd Span) (rs rs' : List Redir) :
    wrap cmd (rs ++ rs') = wrap (wrap cmd rs) rs' :=
  foldl_append

theorem addArg_wrap (cmd : Cmd Span) (rs : List Redir) (w : Span) :
    (wrap cmd rs).addArg w = wrap (cmd.addArg w) rs := by
  induction rs generalizing cmd with
  | nil => rfl
  | cons r rs ih => exact ih _

theorem redir_eq (op : Op) (cmd : Cmd Span) (w : Span) :
    (if (Token.redir op).ret = code '<' then Cmd.redir cmd w oRdonly 0
      else if (Token.redir op).ret = code '>' then .redir cmd w (oWronly ||| oCreate) 1
      else if (Token.redir op).ret = code '+' then .redir cmd w (oWronly ||| oCreate) 1
      else cmd) = .redir cmd w op.mode op.fd := by
  cases op <;> rfl

theorem ret_eq_word {t : Token} : t.ret = code 'a' ↔ ∃ w, t = .word w := by
  rcases t with w | (_ | _ | _) | _ | _ | _ | _ | _ <;> simp [Token.ret] <;> decide

theorem ret_ne_zero (t : Token) : t.ret ≠ 0 := by
  rcases t with w | (_ | _ | _) | _ | _ | _ | _ | _ <;> simp [Token.ret] <;> decide

theorem length_le_yieldRedirs (rs : List Redir) : rs.length ≤ (yieldRedirs rs).length := by
  induction rs with
  | nil => simp
  | cons r rs ih => simp; omega

variable {fuel : Nat}

theorem parseredirs_meets (h : At s p ts) (hfuel : ts.length < fuel) (cmd : Cmd Span) :
    (parseredirs s fuel cmd p).Meets fun y =>
      ∃ rs rest, ts = yieldRedirs rs ++ rest ∧ At s y.2 rest ∧ y.1 = wrap cmd rs := by
  induction fuel generalizing cmd p ts with
  | zero => omega
  | succ fuel ih =>
    have hpeek := h.peek (codes "<>")
    rw [parseredirs]
    split
    · next hredir =>
      obtain ⟨op, tl, rfl⟩ := h.peek_redir.mp hredir
      have hfile := hpeek.gettoken
      simp only [hpeek.ret, redir_eq]
      split
      · trivial
      · next hword =>
        rw [not_not] at hword
        rcases tl with - | ⟨t, tl⟩
        · rw [hfile.ret_nil] at hword
          exact absurd hword (by decide)
        · obtain ⟨w, rfl⟩ := ret_eq_word.mp (hfile.ret ▸ hword)
          rw [hfile.word]
          simp only [length_cons] at hfuel
          have hrest := ih hfile.gettoken (by omega) (.redir cmd w op.mode op.fd)
          refine Result.Meets.mono hrest ?_
          rintro y ⟨rs, rest, rfl, hat, htree⟩
          exact ⟨⟨op, w⟩ :: rs, rest, rfl, hat, htree⟩
    · exact ⟨[], ts, rfl, hpeek, rfl⟩

theorem parseredirs_complete {rs : List Redir} (h : At s p (yieldRedirs rs ++ rest))
    (hrest : NoRedir rest) (fuel : Nat) (hfuel : rs.length < fuel) (cmd : Cmd Span) :
    ∃ p', parseredirs s fuel cmd p = .ok (wrap cmd rs, p') ∧ At s p' rest := by
  induction rs generalizing fuel cmd p with
  | nil =>
    obtain ⟨fuel, rfl⟩ : ∃ k, fuel = k + 1 := ⟨fuel - 1, by simp at hfuel; omega⟩
    have hnot : ¬(Shell.peek s p (codes "<>")).1 = true := by
      rw [h.peek_redir]
      rintro ⟨op, tl, htl⟩
      exact hrest op (congrArg List.head? htl)
    exact ⟨_, by rw [parseredirs, if_neg hnot]; rfl, h.peek _⟩
  | cons r rs ih =>
    obtain ⟨fuel, rfl⟩ : ∃ k, fuel = k + 1 := ⟨fuel - 1, by simp at hfuel; omega⟩
    have hpeek := h.peek (codes "<>")
    have hfile := hpeek.gettoken
    obtain ⟨p', hp', hat⟩ := ih hfile.gettoken fuel (by simpa using hfuel)
      (.redir cmd r.file r.op.mode r.op.fd)
    refine ⟨p', ?_, hat⟩
    rw [parseredirs, if_pos (h.peek_redir.mpr ⟨_, _, rfl⟩)]
    simp only [hpeek.ret, hfile.ret, hfile.word, redir_eq]
    exact hp'

theorem parseargs_meets (h : At s p ts) (hfuel : ts.length < fuel)
    (argv : List Span) (rs : List Redir) :
    (parseargs s fuel argv.length (wrap (.exec argv) rs) p).Meets fun y =>
      ∃ args rest, ts = yieldArgs args ++ rest ∧ At s y.2 rest ∧
        y.1 = wrap (.exec (argv ++ args.map Arg.word)) (rs ++ args.flatMap Arg.redirs) ∧
        (args = [] ∨ argv.length + args.length < maxArgs) := by
  induction fuel generalizing p ts argv rs with
  | zero => omega
  | succ fuel ih =>
    have hpeek := h.peek (codes "|)&;")
    have hstop {p'} (hat : At s p' ts) :
        ∃ args rest, ts = yieldArgs args ++ rest ∧ At s p' rest ∧
          wrap (.exec argv) rs =
            wrap (.exec (argv ++ args.map Arg.word)) (rs ++ args.flatMap Arg.redirs) ∧
          (args = [] ∨ argv.length + args.length < maxArgs) :=
      ⟨[], ts, rfl, hat, by simp, .inl rfl⟩
    rw [parseargs]
    split
    · exact hstop hpeek
    · rcases ts with - | ⟨t, ts⟩
      · simp only [hpeek.ret_nil, if_true]
        exact hstop hpeek.gettoken_end
      · simp only [hpeek.ret]
        split_ifs with hzero hword hmany
        · exact absurd hzero (ret_ne_zero t)
        · trivial
        · trivial
        · rw [not_not] at hword
          obtain ⟨w, rfl⟩ := ret_eq_word.mp hword
          rw [hpeek.word, addArg_wrap]
          simp only [length_cons] at hfuel
          refine (parseredirs_meets hpeek.gettoken (by omega) _).bind ?_
          rintro y ⟨rs', rest, rfl, hat, htree⟩
          rw [htree, ← wrap_append]
          rw [length_append] at hfuel
          have hnext := ih hat (by omega) (argv ++ [w]) (rs ++ rs')
          rw [length_append] at hnext
          refine hnext.mono ?_
          rintro z ⟨args, rest', rfl, hat', htree', hlen⟩
          refine ⟨⟨w, rs'⟩ :: args, rest', by simp, hat', by simp [htree'], .inr ?_⟩
          rcases hlen with rfl | hlen
          · simpa using hmany
          · simp at hlen ⊢
            omega

theorem parseargs_complete {args : List Arg} (h : At s p (yieldArgs args ++ rest))
    (hrest : Stops .exec rest) (fuel : Nat) (hfuel : (yieldArgs args).length < fuel)
    (argv : List Span) (rs : List Redir) (hlen : argv.length + args.length < maxArgs) :
    ∃ p', parseargs s fuel argv.length (wrap (.exec argv) rs) p =
        .ok (wrap (.exec (argv ++ args.map Arg.word)) (rs ++ args.flatMap Arg.redirs), p') ∧
      At s p' rest := by
  induction args generalizing fuel p argv rs with
  | nil =>
    obtain ⟨fuel, rfl⟩ : ∃ k, fuel = k + 1 := ⟨fuel - 1, by simp at hfuel; omega⟩
    rw [yieldArgs_nil, List.nil_append] at h
    have hpeek := h.peek (codes "|)&;")
    rw [parseargs]
    rcases rest with - | ⟨t, rest⟩
    · have hnot : ¬(Shell.peek s p (codes "|)&;")).1 = true := by
        rw [h.peek_follow]
        rintro ⟨t, tl, htl, -⟩
        cases htl
      refine ⟨_, ?_, hpeek.gettoken_end⟩
      simp [hnot, hpeek.ret_nil]
    · refine ⟨_, ?_, hpeek⟩
      rw [if_pos (h.peek_follow.mpr ⟨t, rest, rfl, hrest t rfl⟩)]
      simp
  | cons a args ih =>
    obtain ⟨fuel, rfl⟩ : ∃ k, fuel = k + 1 := ⟨fuel - 1, by simp at hfuel; omega⟩
    simp only [yieldArgs_cons, cons_append, append_assoc] at h
    simp only [yieldArgs_cons, length_cons, length_append] at hfuel
    simp only [length_cons] at hlen
    have hpeek := h.peek (codes "|)&;")
    have hnot : ¬(Shell.peek s p (codes "|)&;")).1 = true := by
      rw [h.peek_follow]
      rintro ⟨t, tl, htl, ht⟩
      cases htl
      simp [follow] at ht
    have hrs := length_le_yieldRedirs a.redirs
    obtain ⟨p₁, hp₁, hat₁⟩ := parseredirs_complete hpeek.gettoken (noRedir_args hrest args)
      fuel (by omega) (wrap (.exec (argv ++ [a.word])) rs)
    obtain ⟨p₂, hp₂, hat₂⟩ := ih hat₁ fuel (by omega) (argv ++ [a.word])
      (rs ++ a.redirs) (by simp; omega)
    refine ⟨p₂, ?_, hat₂⟩
    rw [parseargs, if_neg hnot]
    have hne : code 'a' ≠ 0 := by decide
    have hmany : ¬argv.length + 1 ≥ maxArgs := by omega
    simp only [hpeek.ret, hpeek.word, Token.ret, addArg_wrap, Cmd.addArg, if_neg hne, ne_eq,
      not_true_eq_false, if_false, if_neg hmany, hp₁, Result.ok_bind]
    rw [← wrap_append]
    rw [length_append] at hp₂
    simpa using hp₂

theorem parseback_meets (h : At s p ts) (hfuel : ts.length < fuel) (cmd : Cmd Span) :
    (parseback s fuel cmd p).Meets fun y =>
      ∃ n rest, ts = List.replicate n .amp ++ rest ∧ At s y.2 rest ∧ y.1 = backs n cmd := by
  induction fuel generalizing cmd p ts with
  | zero => omega
  | succ fuel ih =>
    rw [parseback]
    split
    · next hamp =>
      obtain ⟨tl, rfl⟩ := (h.peek_single (codes "&") .amp (by decide) (by decide)).mp hamp
      simp only [length_cons] at hfuel
      have hrest := ih (h.peek (codes "&")).gettoken (by omega) (.back cmd)
      refine hrest.mono ?_
      rintro y ⟨n, rest, rfl, hat, htree⟩
      exact ⟨n + 1, rest, rfl, hat, htree⟩
    · exact ⟨0, ts, rfl, h.peek (codes "&"), rfl⟩

theorem parseback_complete {n : Nat} (h : At s p (List.replicate n .amp ++ rest))
    (hrest : rest.head? ≠ some .amp) (fuel : Nat) (hfuel : n < fuel) (cmd : Cmd Span) :
    ∃ p', parseback s fuel cmd p = .ok (backs n cmd, p') ∧ At s p' rest := by
  induction n generalizing fuel cmd p with
  | zero =>
    obtain ⟨fuel, rfl⟩ : ∃ k, fuel = k + 1 := ⟨fuel - 1, by omega⟩
    have hnot : ¬(Shell.peek s p (codes "&")).1 = true := by
      rw [h.peek_single (codes "&") .amp (by decide) (by decide)]
      rintro ⟨tl, htl⟩
      exact hrest (congrArg List.head? htl)
    exact ⟨_, by rw [parseback, if_neg hnot]; rfl, h.peek _⟩
  | succ n ih =>
    obtain ⟨fuel, rfl⟩ : ∃ k, fuel = k + 1 := ⟨fuel - 1, by omega⟩
    have hamp : (Shell.peek s p (codes "&")).1 = true :=
      (h.peek_single (codes "&") .amp (by decide) (by decide)).mpr ⟨_, rfl⟩
    obtain ⟨p', hp', hat⟩ := ih (h.peek (codes "&")).gettoken fuel (by omega) (.back cmd)
    exact ⟨p', by rw [parseback, if_pos hamp]; exact hp', hat⟩

end

def parse (s : CString) : Category → (fuel ps : Nat) → Result (Cmd Span × Nat)
  | .line => parseline s
  | .pipe => parsepipe s
  | .exec => parseexec s

/-- The count that is enough for `n` tokens: no function calls itself without a token in
between, and four of them may call each other. -/
def enough (c : Category) (n : Nat) : Nat :=
  match c with
  | .line => 4 * n + 4
  | .pipe => 4 * n + 3
  | .exec => 4 * n + 2

/-- The result of a parse function: the tokens up to the new position are derived. -/
def Derived (s : CString) (c : Category) (ts : List Token) (y : Cmd Span × Nat) : Prop :=
  ∃ (d : Phrase c) (rest : List Token), ts = d.yield ++ rest ∧ At s y.2 rest ∧ d.Fits ∧ d.tree = y.1

section

variable {s : CString} {p : Nat} {ts rest : List Token}

/-- `parseexec` and `parseblock`, with `parseline` for a smaller count. -/
theorem parseexec_meets {fuel : Nat} (h : At s p ts) (hfuel : enough .exec ts.length ≤ fuel)
    (ih : ∀ {k p' tl}, k < fuel → At s p' tl → enough .line tl.length ≤ k →
      (parseline s k p').Meets (Derived s .line tl)) :
    (parseexec s fuel p).Meets (Derived s .exec ts) := by
  obtain ⟨fuel, rfl⟩ : ∃ k, fuel = k + 2 := ⟨fuel - 2, by simp [enough] at hfuel; omega⟩
  simp only [enough] at hfuel
  have hpeek := h.peek (codes "(")
  rw [parseexec]
  split
  · next hparen =>
    obtain ⟨tl, rfl⟩ := (h.peek_single (codes "(") .lparen (by decide) (by decide)).mp hparen
    simp only [length_cons] at hfuel
    rw [parseblock, if_pos ((hpeek.peek_single (codes "(") .lparen (by decide) (by decide)).mpr
      ⟨tl, rfl⟩)]
    refine (ih (by omega) (hpeek.peek (codes "(")).gettoken (by simp [enough]; omega)).bind ?_
    rintro y ⟨l, rest, rfl, hat, hfits, htree⟩
    dsimp only
    split
    · next hclose =>
      obtain ⟨tl, rfl⟩ := (hat.peek_single (codes ")") .rparen (by decide) (by decide)).mp hclose
      simp only [length_append, length_cons] at hfuel
      refine (parseredirs_meets (hat.peek _).gettoken (by omega) _).mono ?_
      rintro z ⟨rs, rest, rfl, hat', htree'⟩
      exact ⟨.block l rs, rest, by simp [Phrase.yield], hat', hfits,
        by rw [htree', ← htree]; rfl⟩
    · trivial
  · refine (parseredirs_meets hpeek (by omega) _).bind ?_
    rintro y ⟨rs, rest, rfl, hat, htree⟩
    rw [htree]
    rw [length_append] at hfuel
    refine (parseargs_meets hat (by omega) [] rs).mono ?_
    rintro z ⟨args, rest, rfl, hat', htree', hlen⟩
    refine ⟨.simple rs args, rest, by simp [Phrase.yield], hat', ?_, by rw [htree']; rfl⟩
    rcases hlen with rfl | hlen
    · simp [Phrase.Fits]
    · simp only [Phrase.Fits]
      simp at hlen
      omega

/-- The parser terminates, and what it returns is derived. -/
theorem parse_meets (c : Category) {fuel : Nat} (h : At s p ts)
    (hfuel : enough c ts.length ≤ fuel) : (parse s c fuel p).Meets (Derived s c ts) := by
  induction fuel using Nat.strong_induction_on generalizing c p ts with
  | _ fuel ih =>
    cases c with
    | exec => exact parseexec_meets h hfuel fun hk hat hle => ih _ hk .line hat hle
    | pipe =>
      obtain ⟨fuel, rfl⟩ : ∃ k, fuel = k + 1 := ⟨fuel - 1, by simp [enough] at hfuel; omega⟩
      simp only [enough] at hfuel
      rw [parse, parsepipe]
      refine (ih fuel (by omega) .exec h (by simp [enough]; omega)).bind ?_
      rintro y ⟨e, rest, rfl, hat, hfits, htree⟩
      rw [length_append] at hfuel
      dsimp only
      split
      · next hbar =>
        obtain ⟨tl, rfl⟩ := (hat.peek_single (codes "|") .bar (by decide) (by decide)).mp hbar
        simp only [length_cons] at hfuel
        refine (ih fuel (by omega) .pipe (hat.peek _).gettoken (by simp [enough]; omega)).bind ?_
        rintro z ⟨r, rest, rfl, hat', hfits', htree'⟩
        exact ⟨.bar e r, rest, by simp [Phrase.yield], hat', ⟨hfits, hfits'⟩,
          by rw [← htree, ← htree']; rfl⟩
      · exact ⟨.last e, rest, rfl, hat.peek (codes "|"), hfits, htree⟩
    | line =>
      obtain ⟨fuel, rfl⟩ : ∃ k, fuel = k + 1 := ⟨fuel - 1, by simp [enough] at hfuel; omega⟩
      simp only [enough] at hfuel
      rw [parse, parseline]
      refine (ih fuel (by omega) .pipe h (by simp [enough]; omega)).bind ?_
      rintro y ⟨q, rest, rfl, hat, hfits, htree⟩
      rw [length_append] at hfuel
      refine (parseback_meets hat (by omega) _).bind ?_
      rintro z ⟨n, rest, rfl, hat', htree'⟩
      rw [length_append] at hfuel
      dsimp only
      split
      · next hsemi =>
        obtain ⟨tl, rfl⟩ := (hat'.peek_single (codes ";") .semi (by decide) (by decide)).mp hsemi
        simp only [length_cons] at hfuel
        refine (ih fuel (by omega) .line (hat'.peek _).gettoken (by simp [enough]; omega)).bind ?_
        rintro l ⟨l', rest, rfl, hat'', hfits', htree''⟩
        exact ⟨.seq q n l', rest, by simp [Phrase.yield], hat'', ⟨hfits, hfits'⟩,
          by rw [htree', ← htree, ← htree'']; rfl⟩
      · exact ⟨.line q n, rest, by simp [Phrase.yield], hat'.peek (codes ";"), hfits,
          by rw [htree', ← htree]; rfl⟩

theorem parse_complete {c : Category} (d : Phrase c) (h : At s p (d.yield ++ rest))
    (hrest : Stops c rest) (hfits : d.Fits) (fuel : Nat) (hfuel : enough c d.yield.length ≤ fuel) :
    ∃ p', parse s c fuel p = .ok (d.tree, p') ∧ At s p' rest := by
  induction d generalizing fuel p rest with
  | block l rs ih =>
    obtain ⟨fuel, rfl⟩ : ∃ k, fuel = k + 2 := ⟨fuel - 2, by simp [enough] at hfuel; omega⟩
    simp only [Phrase.yield, cons_append, append_assoc] at h
    simp only [enough, Phrase.yield, length_cons, length_append] at hfuel
    have hpeek := h.peek (codes "(")
    have hrs := length_le_yieldRedirs rs
    obtain ⟨p₁, hp₁, hat₁⟩ := ih (hpeek.peek (codes "(")).gettoken (stops_cons (by decide)) hfits
      fuel (by simp only [enough]; omega)
    obtain ⟨p₂, hp₂, hat₂⟩ := parseredirs_complete (hat₁.peek (codes ")")).gettoken
      (noRedir_of_stops hrest) fuel (by omega) l.tree
    refine ⟨p₂, ?_, hat₂⟩
    have hopen := (h.peek_single (codes "(") .lparen (by decide) (by decide)).mpr
      ⟨_, rfl⟩
    have hopen' := (hpeek.peek_single (codes "(") .lparen (by decide)
      (by decide)).mpr ⟨_, rfl⟩
    have hclose := (hat₁.peek_single (codes ")") .rparen (by decide)
      (by decide)).mpr ⟨_, rfl⟩
    rw [parse] at hp₁
    rw [parse, parseexec, if_pos hopen, parseblock, if_pos hopen', hp₁]
    simp only [Result.ok_bind, if_pos hclose]
    exact hp₂
  | simple rs args =>
    obtain ⟨fuel, rfl⟩ : ∃ k, fuel = k + 1 := ⟨fuel - 1, by simp [enough] at hfuel; omega⟩
    have hopen : ¬(Shell.peek s p (codes "(")).1 = true := by
      rw [h.peek_single (codes "(") .lparen (by decide) (by decide)]
      rintro ⟨tl, htl⟩
      exact simple_ne_lparen rs args hrest tl htl
    simp only [Phrase.yield, append_assoc] at h
    simp only [enough, Phrase.yield, length_append] at hfuel
    have hrs := length_le_yieldRedirs rs
    obtain ⟨p₁, hp₁, hat₁⟩ := parseredirs_complete (h.peek (codes "(")) (noRedir_args hrest args)
      fuel (by omega) (.exec [])
    obtain ⟨p₂, hp₂, hat₂⟩ := parseargs_complete hat₁ hrest fuel (by omega) [] rs
      (by simp only [Phrase.Fits, maxArgs] at hfits ⊢; simp; omega)
    refine ⟨p₂, ?_, hat₂⟩
    rw [parse, parseexec, if_neg hopen]
    simp only [hp₁, Result.ok_bind]
    exact hp₂
  | last e ih =>
    obtain ⟨fuel, rfl⟩ : ∃ k, fuel = k + 1 := ⟨fuel - 1, by simp [enough] at hfuel; omega⟩
    obtain ⟨p₁, hp₁, hat₁⟩ := ih h hrest.exec hfits fuel
      (by simp only [enough, Phrase.yield] at hfuel ⊢; omega)
    have hbar : ¬(Shell.peek s p₁ (codes "|")).1 = true := by
      rw [hat₁.peek_single (codes "|") .bar (by decide) (by decide)]
      rintro ⟨tl, rfl⟩
      exact not_stops_cons (by decide) hrest
    refine ⟨_, ?_, hat₁.peek (codes "|")⟩
    rw [parse] at hp₁
    rw [parse, parsepipe, hp₁]
    simp only [Result.ok_bind, if_neg hbar]
    rfl
  | bar e q ihe ihq =>
    obtain ⟨fuel, rfl⟩ : ∃ k, fuel = k + 1 := ⟨fuel - 1, by simp [enough] at hfuel; omega⟩
    simp only [Phrase.yield, cons_append, append_assoc] at h
    simp only [enough, Phrase.yield, length_cons, length_append] at hfuel
    obtain ⟨p₁, hp₁, hat₁⟩ := ihe h (stops_cons (by decide)) hfits.1 fuel
      (by simp only [enough]; omega)
    obtain ⟨p₂, hp₂, hat₂⟩ := ihq (hat₁.peek (codes "|")).gettoken hrest hfits.2 fuel
      (by simp only [enough]; omega)
    have hbar := (hat₁.peek_single (codes "|") .bar (by decide) (by decide)).mpr
      ⟨_, rfl⟩
    refine ⟨p₂, ?_, hat₂⟩
    simp only [parse] at hp₁ hp₂
    rw [parse, parsepipe, hp₁]
    simp only [Result.ok_bind, if_pos hbar, hp₂]
    rfl
  | line q amps ih =>
    obtain ⟨fuel, rfl⟩ : ∃ k, fuel = k + 1 := ⟨fuel - 1, by simp [enough] at hfuel; omega⟩
    simp only [Phrase.yield, append_assoc] at h
    simp only [enough, Phrase.yield, length_append, List.length_replicate] at hfuel
    obtain ⟨p₁, hp₁, hat₁⟩ := ih h (hrest.pipe.amps _) hfits fuel
      (by simp only [enough]; omega)
    obtain ⟨p₂, hp₂, hat₂⟩ := parseback_complete hat₁ hrest.head_ne_amp fuel (by omega)
      q.tree
    have hsemi : ¬(Shell.peek s p₂ (codes ";")).1 = true := by
      rw [hat₂.peek_single (codes ";") .semi (by decide) (by decide)]
      rintro ⟨tl, rfl⟩
      exact not_stops_cons (by decide) hrest
    refine ⟨_, ?_, hat₂.peek (codes ";")⟩
    rw [parse] at hp₁
    rw [parse, parseline, hp₁]
    simp only [Result.ok_bind, hp₂, if_neg hsemi]
    rfl
  | seq q amps l ihq ihl =>
    obtain ⟨fuel, rfl⟩ : ∃ k, fuel = k + 1 := ⟨fuel - 1, by simp [enough] at hfuel; omega⟩
    simp only [Phrase.yield, append_assoc, cons_append] at h
    simp only [enough, Phrase.yield, length_append, List.length_replicate,
      length_cons] at hfuel
    obtain ⟨p₁, hp₁, hat₁⟩ := ihq h ((stops_cons (by decide)).amps _) hfits.1 fuel
      (by simp only [enough]; omega)
    obtain ⟨p₂, hp₂, hat₂⟩ := parseback_complete hat₁ (by simp) fuel (by omega) q.tree
    obtain ⟨p₃, hp₃, hat₃⟩ := ihl (hat₂.peek (codes ";")).gettoken hrest hfits.2 fuel
      (by simp only [enough]; omega)
    have hsemi := (hat₂.peek_single (codes ";") .semi (by decide) (by decide)).mpr
      ⟨_, rfl⟩
    refine ⟨p₃, ?_, hat₃⟩
    simp only [parse] at hp₁ hp₃
    rw [parse, parseline, hp₁]
    simp only [Result.ok_bind, hp₂, if_pos hsemi, hp₃]
    rfl

end

/-- The bytes of a word are in words, and the byte behind it is not. -/
structure IsWord (s : CString) (w : Span) : Prop where
  q_le : w.q ≤ w.eq
  eq_le : w.eq ≤ s.bytes.length
  inWord : ∀ i, w.q ≤ i → i < w.eq → inWord (s.at_ i) = true
  stop : w.eq < s.bytes.length → ¬Shell.inWord (s.at_ w.eq) = true

theorem isWord_scan {s : CString} {p : Nat} (hp : p ≤ s.bytes.length) :
    IsWord s ⟨p, s.scan Shell.inWord p⟩ where
  q_le := by rw [CString.scan_eq]; exact Nat.le_add_right _ _
  eq_le := CString.scan_le hp
  inWord i hi hlt := CString.of_lt_scan hi hlt
  stop hlt := CString.not_scan hlt

variable {w : Span}

theorem IsWord.eq_notMem {s : CString} {w' : Span} (h : IsWord s w) (h' : IsWord s w') :
    ¬(w.q ≤ w'.eq ∧ w'.eq < w.eq) := by
  rintro ⟨hge, hlt⟩
  have hlen := h.eq_le
  exact h'.stop (by omega) (h.inWord w'.eq hge hlt)

theorem isWord_of_mem_lex {s : CString} {p : Nat} (h : .word w ∈ lex s p) : IsWord s w := by
  induction hn : s.bytes.length - p using Nat.strong_induction_on generalizing p with
  | _ n ih =>
    cases hd : s.bytes.drop p with
    | nil => rw [lex_nil hd] at h; cases h
    | cons c l =>
      have hlt := CString.lt_of_drop hd
      have hnext {k} (hk : p < k) (hmem : .word w ∈ lex s k) : IsWord s w :=
        ih (s.bytes.length - k) (by omega) hmem rfl
      by_cases hsp : space c = true
      · rw [lex_space hd hsp] at h
        exact hnext (by omega) h
      · rw [lex_cons hd hsp] at h
        split at h
        · exact hnext (k := p + 2) (by omega) (by simpa using h)
        · cases hsym : symbol c with
          | some t =>
            rw [hsym] at h
            rcases mem_cons.mp h with rfl | hmem
            · exact absurd hsym (symbol_ne_word c w)
            · exact hnext (by omega) hmem
          | none =>
            rw [hsym] at h
            rcases mem_cons.mp h with hw | hmem
            · cases hw
              exact isWord_scan hlt.le
            · exact hnext (lt_scan_inWord hd hsp hsym) hmem

theorem mem_strings_wrap {cmd : Cmd Span} {rs : List Redir} :
    w ∈ (wrap cmd rs).strings ↔ w ∈ cmd.strings ∨ ∃ r ∈ rs, r.file = w := by
  induction rs generalizing cmd with
  | nil => simp [wrap]
  | cons r rs ih =>
    rw [show wrap cmd (r :: rs) = wrap (.redir cmd r.file r.op.mode r.op.fd) rs from rfl, ih]
    simp [Cmd.strings, or_assoc, eq_comm]

theorem strings_backs (n : Nat) (cmd : Cmd Span) : (backs n cmd).strings = cmd.strings := by
  induction n generalizing cmd with
  | zero => rfl
  | succ n ih => exact ih _

theorem mem_yieldRedirs {rs : List Redir} (h : ∃ r ∈ rs, r.file = w) :
    .word w ∈ yieldRedirs rs := by
  obtain ⟨r, hr, rfl⟩ := h
  exact mem_flatMap.mpr ⟨r, hr, by simp⟩

theorem Phrase.mem_yield {c : Category} {d : Phrase c} (h : w ∈ d.tree.strings) :
    .word w ∈ d.yield := by
  induction d with
  | block l rs ih =>
    rcases mem_strings_wrap.mp h with hl | hr
    · simp [yield, ih hl]
    · simp [yield, mem_yieldRedirs hr]
  | simple rs args =>
    simp only [tree, mem_strings_wrap, Cmd.strings, mem_map, mem_append,
      mem_flatMap] at h
    simp only [yield, mem_append, yieldArgs, mem_flatMap, mem_cons,
      Token.word.injEq]
    rcases h with ⟨a, ha, rfl⟩ | ⟨r, hr | ⟨a, ha, hr⟩, rfl⟩
    · exact .inr ⟨a, ha, .inl rfl⟩
    · exact .inl (mem_yieldRedirs ⟨r, hr, rfl⟩)
    · exact .inr ⟨a, ha, .inr (mem_yieldRedirs ⟨r, hr, rfl⟩)⟩
  | last e ih => exact ih h
  | bar e p ihe ihp =>
    rcases mem_append.mp h with he | hp
    · simp [yield, ihe he]
    · simp [yield, ihp hp]
  | line p amps ih =>
    rw [tree, strings_backs] at h
    simp [yield, ih h]
  | seq p amps l ihp ihl =>
    rw [tree, Cmd.strings, strings_backs] at h
    rcases mem_append.mp h with hp | hl
    · simp [yield, ihp hp]
    · simp [yield, ihl hl]

theorem nulterminate_eq_foldl (t : Cmd Span) (mem : Nat → UInt8) :
    nulterminate mem t = t.strings.foldl (fun mem w => Function.update mem w.eq 0) mem := by
  induction t generalizing mem with
  | exec argv => rfl
  | redir cmd file mode fd ih => rw [nulterminate, Cmd.strings, foldl_append, ih]; rfl
  | pipe left right ihl ihr => rw [nulterminate, Cmd.strings, foldl_append, ihr, ihl]
  | list left right ihl ihr => rw [nulterminate, Cmd.strings, foldl_append, ihr, ihl]
  | back cmd ih => exact ih mem

theorem nulterminate_eq (t : Cmd Span) (mem : Nat → UInt8) (p : Nat) :
    nulterminate mem t p = if p ∈ t.strings.map Span.eq then 0 else mem p := by
  rw [nulterminate_eq_foldl]
  generalize t.strings = ws
  induction ws generalizing mem with
  | nil => simp
  | cons w ws ih =>
    rw [List.foldl_cons, ih, Function.update_apply, List.map_cons]
    by_cases hp : p ∈ ws.map Span.eq
    · rw [if_pos hp, if_pos (List.mem_cons_of_mem _ hp)]
    · by_cases hw : p = w.eq
      · rw [if_neg hp, if_pos hw, if_pos (hw ▸ List.mem_cons_self)]
      · rw [if_neg hp, if_neg hw, if_neg (by simp [hw, mem_map] at hp ⊢; exact hp)]

/-- The pointers of the tree point to the words of the command. -/
theorem nulterminate_holds {s : CString} {t : Cmd Span} (h : ∀ w ∈ t.strings, IsWord s w) (hw : w ∈ t.strings) :
    CString.Holds (nulterminate s.at_ t) w.q (s.slice w.q w.eq) := by
  have hword := h w hw
  have hlen : (s.slice w.q w.eq).length = w.eq - w.q := by
    have hle := hword.eq_le
    simp [CString.slice]
    omega
  refine ⟨fun hmem => s.nul_free (List.mem_of_mem_drop (List.mem_of_mem_take hmem)), ?_⟩
  intro i hi
  rw [nulterminate_eq]
  rw [hlen] at hi
  have hq := hword.q_le
  split
  · next hend =>
    -- A NUL has been stored; it is the one behind this word.
    obtain ⟨w', hw', heq⟩ := mem_map.mp hend
    have hge : w.eq - w.q ≤ i := by
      by_contra hlt
      exact hword.eq_notMem (h w' hw') (by omega)
    rw [List.getD_eq_getElem?_getD, List.getElem?_eq_none (by omega)]
    rfl
  · next hend =>
    have hlt : i < w.eq - w.q := by
      by_contra hge
      exact hend (mem_map.mpr ⟨w, hw, by omega⟩)
    simp [CString.at_, CString.slice, List.getD_eq_getElem?_getD, hlt]

theorem parsecmd_meets (s : CString) {fuel : Nat}
    (hfuel : enough .line (tokens 0 s.bytes).length ≤ fuel) :
    (parsecmd fuel s).Meets fun y =>
      (∃ d : Phrase .line, d.yield = tokens 0 s.bytes ∧ d.Fits ∧ d.tree = y.1) ∧
        y.2 = nulterminate s.at_ y.1 := by
  refine (parse_meets .line (At.start s) hfuel).bind ?_
  rintro y ⟨d, rest, hyield, hat, hfits, htree⟩
  dsimp only
  split
  · trivial
  · next hend =>
    rw [not_not, hat.peek_snd] at hend
    subst hend
    exact ⟨⟨d, by rw [hyield, List.append_nil], hfits, htree⟩, rfl⟩

theorem parsecmd_complete (s : CString) {fuel : Nat} (d : Phrase .line)
    (hyield : d.yield = tokens 0 s.bytes) (hfits : d.Fits)
    (hfuel : enough .line d.yield.length ≤ fuel) :
    parsecmd fuel s = .ok (d.tree, nulterminate s.at_ d.tree) := by
  have hstart : At s 0 (d.yield ++ []) := by
    rw [hyield, List.append_nil]
    exact At.start s
  obtain ⟨p', hp', hat⟩ := parse_complete d hstart (fun t ht => by cases ht) hfits fuel hfuel
  rw [parse] at hp'
  rw [parsecmd, hp']
  simp [hat.peek_snd]

/-- The strings of the tree are words of the command, and `nulterminate` has been at them. -/
theorem parsecmd_words {s : CString} {fuel : Nat} {t : Cmd Span} {mem : Nat → UInt8}
    (hfuel : enough .line (tokens 0 s.bytes).length ≤ fuel) (heq : parsecmd fuel s = .ok (t, mem)) :
    mem = nulterminate s.at_ t ∧ ∀ w ∈ t.strings, .word w ∈ tokens 0 s.bytes := by
  have hmeets := parsecmd_meets s hfuel
  rw [heq] at hmeets
  obtain ⟨⟨d, hyield, -, rfl⟩, hmem⟩ := hmeets
  exact ⟨hmem, fun w hw => hyield ▸ Phrase.mem_yield hw⟩

/-- The parser terminates for every string. It returns a tree exactly when a phrase with at most
`MAXARGS - 1` words in each command derives the tokens of the string, and the tree is that of the
phrase, of which there is only one; the pointers in the tree are to the words of the string. In
every other case it panics. -/
theorem parsecmd_accepts (s : CString) :
    ∃ N, ∀ fuel ≥ N, parsecmd fuel s ≠ .spins ∧
      (∀ t, (∃ mem, parsecmd fuel s = .ok (t, mem)) ↔
        ∃ d : Phrase .line, d.yield = tokens 0 s.bytes ∧ d.Fits ∧ d.tree = t) ∧
      (∀ d d' : Phrase .line, d.yield = tokens 0 s.bytes → d'.yield = tokens 0 s.bytes → d = d') ∧
      ∀ t mem, parsecmd fuel s = .ok (t, mem) →
        ∀ w ∈ t.strings, CString.Holds mem w.q (s.slice w.q w.eq) := by
  refine ⟨enough .line (tokens 0 s.bytes).length, fun fuel hfuel => ?_⟩
  have hmeets := parsecmd_meets s hfuel
  refine ⟨?_, fun t => ⟨?_, ?_⟩, fun d d' hd hd' => ?_, fun t mem heq w hw => ?_⟩
  · intro hspins
    rw [hspins] at hmeets
    exact hmeets
  · rintro ⟨mem, heq⟩
    rw [heq] at hmeets
    exact hmeets.1
  · rintro ⟨d, hyield, hfits, rfl⟩
    exact ⟨_, parsecmd_complete s d hyield hfits (hyield ▸ hfuel)⟩
  · have hend : Stops .line [] := fun t ht => by cases ht
    exact (Phrase.yield_inj hend hend (by rw [hd, hd'])).1
  · obtain ⟨rfl, hwords⟩ := parsecmd_words hfuel heq
    exact nulterminate_holds (fun w' hw' => isWord_of_mem_lex (p := 0) (hwords w' hw')) hw

/-- The words survive `nulterminate`: every string of an accepted tree is a token of the command, a
C string at its pointer in the modified buffer has the text of the token, and no terminator falls
inside a word. -/
theorem nulterminate_keeps_words (s : CString) :
    ∃ N, ∀ fuel ≥ N, parsecmd fuel s ≠ .spins ∧ ∀ t mem, parsecmd fuel s = .ok (t, mem) →
      ∀ w ∈ t.strings, .word w ∈ tokens 0 s.bytes ∧
        CString.Holds mem w.q (s.slice w.q w.eq) ∧
        ∀ w' ∈ t.strings, ¬(w.q ≤ w'.eq ∧ w'.eq < w.eq) := by
  refine ⟨enough .line (tokens 0 s.bytes).length, fun fuel hfuel => ⟨fun hspins => ?_, ?_⟩⟩
  · have hmeets := parsecmd_meets s hfuel
    rw [hspins] at hmeets
    exact hmeets
  · intro t mem heq w hw
    obtain ⟨rfl, hwords⟩ := parsecmd_words hfuel heq
    have hisWord : ∀ w ∈ t.strings, IsWord s w := fun w hw =>
      isWord_of_mem_lex (p := 0) (hwords w hw)
    exact ⟨hwords w hw, nulterminate_holds hisWord hw, fun w' hw' =>
      (hisWord w hw).eq_notMem (hisWord w' hw')⟩

end Xv6.Shell
