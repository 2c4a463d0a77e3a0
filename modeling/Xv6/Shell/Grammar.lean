import Xv6.Shell.Tokens

/-!
# The shell's grammar

    line  ::= pipe '&'* [';' line]
    pipe  ::= exec ['|' pipe]
    exec  ::= '(' line ')' redir* | redir* (word redir*)*
    redir ::= ('<' | '>' | '>>') word

A phrase is a derivation of this grammar: it has the tokens that it derives and the command tree
that it stands for. What follows a phrase is a token of its follow set, or the end; with that, no
two phrases derive the same tokens.
-/

namespace Xv6.Shell

open CString (code codes)
open List (cons_append append_assoc)

def Op.mode : Op → Nat
  | read => oRdonly
  | write | append => oWronly ||| oCreate

def Op.fd : Op → Nat
  | read => 0
  | write | append => 1

structure Redir where
  op : Op
  file : Span
  deriving DecidableEq

structure Arg where
  word : Span
  redirs : List Redir
  deriving DecidableEq

inductive Category
  | line
  | pipe
  | exec

inductive Phrase : Category → Type
  | block (l : Phrase .line) (rs : List Redir) : Phrase .exec
  | simple (rs : List Redir) (args : List Arg) : Phrase .exec
  | last (e : Phrase .exec) : Phrase .pipe
  | bar (e : Phrase .exec) (p : Phrase .pipe) : Phrase .pipe
  | line (p : Phrase .pipe) (amps : Nat) : Phrase .line
  | seq (p : Phrase .pipe) (amps : Nat) (l : Phrase .line) : Phrase .line

def yieldRedirs (rs : List Redir) : List Token := rs.flatMap fun r => [.redir r.op, .word r.file]

def yieldArgs (args : List Arg) : List Token :=
  args.flatMap fun a => .word a.word :: yieldRedirs a.redirs

/-- Later redirections are outermost. -/
def wrap (cmd : Cmd Span) (rs : List Redir) : Cmd Span :=
  rs.foldl (fun cmd r => .redir cmd r.file r.op.mode r.op.fd) cmd

def backs : Nat → Cmd Span → Cmd Span
  | 0, cmd => cmd
  | n + 1, cmd => backs n (.back cmd)

namespace Phrase

variable {c : Category}

def yield : {c : Category} → Phrase c → List Token
  | _, block l rs => .lparen :: (l.yield ++ .rparen :: yieldRedirs rs)
  | _, simple rs args => yieldRedirs rs ++ yieldArgs args
  | _, last e => e.yield
  | _, bar e p => e.yield ++ .bar :: p.yield
  | _, line p amps => p.yield ++ List.replicate amps .amp
  | _, seq p amps l => p.yield ++ (List.replicate amps .amp ++ .semi :: l.yield)

def tree : {c : Category} → Phrase c → Cmd Span
  | _, block l rs => wrap l.tree rs
  | _, simple rs args => wrap (.exec (args.map Arg.word)) (rs ++ args.flatMap Arg.redirs)
  | _, last e => e.tree
  | _, bar e p => .pipe e.tree p.tree
  | _, line p amps => backs amps p.tree
  | _, seq p amps l => .list (backs amps p.tree) l.tree

def Fits : {c : Category} → Phrase c → Prop
  | _, block l _ => l.Fits
  | _, simple _ args => args.length ≤ maxArgs - 1
  | _, last e => e.Fits
  | _, bar e p => e.Fits ∧ p.Fits
  | _, line p _ => p.Fits
  | _, seq p _ l => p.Fits ∧ l.Fits

end Phrase

def follow : Category → List Token
  | .line => [.rparen]
  | .pipe => [.amp, .semi, .rparen]
  | .exec => [.bar, .amp, .semi, .rparen]

/-- The tokens that are left start with one that may follow. -/
def Stops (c : Category) (rest : List Token) : Prop := ∀ t ∈ rest.head?, t ∈ follow c

section

variable {rest rest' : List Token}

theorem Stops.pipe (h : Stops .line rest) : Stops .pipe rest :=
  fun t ht => List.mem_cons_of_mem _ (List.mem_cons_of_mem _ (h t ht))

theorem Stops.exec (h : Stops .pipe rest) : Stops .exec rest :=
  fun t ht => List.mem_cons_of_mem _ (h t ht)

theorem stops_cons {c : Category} {t : Token} (h : t ∈ follow c) : Stops c (t :: rest) := by
  rintro _ ⟨⟩
  exact h

theorem not_stops_cons {c : Category} {t : Token} (h : t ∉ follow c) : ¬Stops c (t :: rest) :=
  fun hs => h (hs t rfl)

@[simp] theorem yieldRedirs_nil : yieldRedirs [] = [] := rfl

@[simp] theorem yieldRedirs_cons (r : Redir) (rs : List Redir) :
    yieldRedirs (r :: rs) = .redir r.op :: .word r.file :: yieldRedirs rs := rfl

@[simp] theorem yieldArgs_nil : yieldArgs [] = [] := rfl

@[simp] theorem yieldArgs_cons (a : Arg) (args : List Arg) :
    yieldArgs (a :: args) = .word a.word :: (yieldRedirs a.redirs ++ yieldArgs args) := rfl

def NoRedir (ts : List Token) : Prop := ∀ op, ts.head? ≠ some (.redir op)

theorem noRedir_of_stops (h : Stops .exec rest) : NoRedir rest := by
  intro op hop
  exact absurd (h _ hop) (by cases op <;> decide)

theorem noRedir_args (h : Stops .exec rest) (args : List Arg) :
    NoRedir (yieldArgs args ++ rest) := by
  cases args with
  | nil => exact noRedir_of_stops h
  | cons a args => rintro op ⟨⟩

theorem yieldRedirs_inj {rs rs' : List Redir} (hr : NoRedir rest) (hr' : NoRedir rest')
    (h : yieldRedirs rs ++ rest = yieldRedirs rs' ++ rest') : rs = rs' ∧ rest = rest' := by
  induction rs generalizing rs' with
  | nil =>
    cases rs' with
    | nil => exact ⟨rfl, h⟩
    | cons r' rs' => exact absurd (congrArg List.head? h) (hr r'.op)
  | cons r rs ih =>
    cases rs' with
    | nil => exact absurd (congrArg List.head? h).symm (hr' r.op)
    | cons r' rs' =>
      simp only [yieldRedirs_cons, cons_append, List.cons.injEq, Token.redir.injEq,
        Token.word.injEq] at h
      obtain ⟨rfl, rfl⟩ := ih h.2.2
      exact ⟨by rw [show r = r' from by cases r; cases r'; simp_all], rfl⟩

theorem yieldArgs_inj {args args' : List Arg} (hr : Stops .exec rest) (hr' : Stops .exec rest')
    (h : yieldArgs args ++ rest = yieldArgs args' ++ rest') : args = args' ∧ rest = rest' := by
  induction args generalizing args' with
  | nil =>
    cases args' with
    | nil => exact ⟨rfl, h⟩
    | cons a' args' =>
      have ht := hr (.word a'.word) (congrArg List.head? h)
      simp [follow] at ht
  | cons a args ih =>
    cases args' with
    | nil =>
      have ht := hr' (.word a.word) (congrArg List.head? h).symm
      simp [follow] at ht
    | cons a' args' =>
      simp only [yieldArgs_cons, cons_append, List.cons.injEq, Token.word.injEq,
        append_assoc] at h
      obtain ⟨hrs, htl⟩ := yieldRedirs_inj (noRedir_args hr args) (noRedir_args hr' args') h.2
      obtain ⟨rfl, rfl⟩ := ih htl
      exact ⟨by rw [show a = a' from by cases a; cases a'; simp_all], rfl⟩

theorem amps_inj {n n' : Nat} (hr : rest.head? ≠ some .amp) (hr' : rest'.head? ≠ some .amp)
    (h : List.replicate n Token.amp ++ rest = List.replicate n' Token.amp ++ rest') :
    n = n' ∧ rest = rest' := by
  induction n generalizing n' with
  | zero =>
    cases n' with
    | zero => exact ⟨rfl, h⟩
    | succ n' => exact absurd (congrArg List.head? h) hr
  | succ n ih =>
    cases n' with
    | zero => exact absurd (congrArg List.head? h).symm hr'
    | succ n' =>
      simp only [List.replicate_succ, cons_append, List.cons.injEq, true_and] at h
      obtain ⟨rfl, rfl⟩ := ih h
      exact ⟨rfl, rfl⟩

theorem Stops.amps (h : Stops .pipe rest) (n : Nat) :
    Stops .pipe (List.replicate n .amp ++ rest) := by
  cases n with
  | zero => exact h
  | succ n => exact stops_cons (by decide)

theorem Stops.head_ne_amp (h : Stops .line rest) : rest.head? ≠ some .amp :=
  fun hamp => absurd (h _ hamp) (by decide)

theorem simple_ne_lparen (rs : List Redir) (args : List Arg) (hr : Stops .exec rest)
    (ts : List Token) : yieldRedirs rs ++ yieldArgs args ++ rest ≠ .lparen :: ts := by
  intro h
  cases rs with
  | cons r rs => cases h
  | nil =>
    cases args with
    | cons a args => cases h
    | nil =>
      have hrest : rest = .lparen :: ts := h
      exact absurd (hrest ▸ hr) (not_stops_cons (by decide))

end

theorem Phrase.yield_inj {c : Category} {d d' : Phrase c} {rest rest' : List Token}
    (hr : Stops c rest) (hr' : Stops c rest') (h : d.yield ++ rest = d'.yield ++ rest') :
    d = d' ∧ rest = rest' := by
  induction d generalizing rest rest' with
  | block l rs ih =>
    cases d' with
    | block l' rs' =>
      simp only [yield, cons_append, append_assoc, List.cons.injEq, true_and] at h
      obtain ⟨rfl, htl⟩ := ih (stops_cons (by decide)) (stops_cons (by decide)) h
      obtain ⟨rfl, rfl⟩ := yieldRedirs_inj (noRedir_of_stops hr) (noRedir_of_stops hr')
        (List.cons.inj htl).2
      exact ⟨rfl, rfl⟩
    | simple rs' args' => exact absurd h.symm (simple_ne_lparen rs' args' hr' _)
  | simple rs args =>
    cases d' with
    | block l' rs' => exact absurd h (simple_ne_lparen rs args hr _)
    | simple rs' args' =>
      simp only [yield, append_assoc] at h
      obtain ⟨rfl, htl⟩ := yieldRedirs_inj (noRedir_args hr args) (noRedir_args hr' args') h
      obtain ⟨rfl, rfl⟩ := yieldArgs_inj hr hr' htl
      exact ⟨rfl, rfl⟩
  | last e ih =>
    cases d' with
    | last e' =>
      obtain ⟨rfl, rfl⟩ := ih hr.exec hr'.exec h
      exact ⟨rfl, rfl⟩
    | bar e' p' =>
      simp only [yield, append_assoc, cons_append] at h
      obtain ⟨rfl, rfl⟩ := ih hr.exec (stops_cons (by decide)) h
      exact absurd hr (not_stops_cons (by decide))
  | bar e p ihe ihp =>
    cases d' with
    | last e' =>
      simp only [yield, append_assoc, cons_append] at h
      obtain ⟨rfl, rfl⟩ := ihe (stops_cons (by decide)) hr'.exec h
      exact absurd hr' (not_stops_cons (by decide))
    | bar e' p' =>
      simp only [yield, append_assoc, cons_append] at h
      obtain ⟨rfl, htl⟩ := ihe (stops_cons (by decide)) (stops_cons (by decide)) h
      obtain ⟨rfl, rfl⟩ := ihp hr hr' (List.cons.inj htl).2
      exact ⟨rfl, rfl⟩
  | line p amps ih =>
    cases d' with
    | line p' amps' =>
      simp only [yield, append_assoc] at h
      obtain ⟨rfl, htl⟩ := ih (hr.pipe.amps _) (hr'.pipe.amps _) h
      obtain ⟨rfl, rfl⟩ := amps_inj hr.head_ne_amp hr'.head_ne_amp htl
      exact ⟨rfl, rfl⟩
    | seq p' amps' l' =>
      simp only [yield, append_assoc, cons_append] at h
      obtain ⟨rfl, htl⟩ := ih (hr.pipe.amps _) ((stops_cons (by decide)).amps _) h
      obtain ⟨rfl, rfl⟩ := amps_inj hr.head_ne_amp (by simp) htl
      exact absurd hr (not_stops_cons (by decide))
  | seq p amps l ihp ihl =>
    cases d' with
    | line p' amps' =>
      simp only [yield, append_assoc, cons_append] at h
      obtain ⟨rfl, htl⟩ := ihp ((stops_cons (by decide)).amps _) (hr'.pipe.amps _) h
      obtain ⟨rfl, rfl⟩ := amps_inj (by simp) hr'.head_ne_amp htl
      exact absurd hr' (not_stops_cons (by decide))
    | seq p' amps' l' =>
      simp only [yield, append_assoc, cons_append] at h
      obtain ⟨rfl, htl⟩ := ihp ((stops_cons (by decide)).amps _) ((stops_cons (by decide)).amps _) h
      obtain ⟨rfl, hl⟩ := amps_inj (by simp) (by simp) htl
      obtain ⟨rfl, rfl⟩ := ihl hr hr' (List.cons.inj hl).2
      exact ⟨rfl, rfl⟩

end Xv6.Shell
