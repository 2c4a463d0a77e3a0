import Xv6.Grep.Match
import Xv6.Lib.Bytes

/-!
# grep and how its input is split

The loop of `grep` over the results of `read`, with its buffer. The lines that are complete are
matched in place, and the rest is moved to the front. When there is no newline in the buffer, `m` is
set to 0 and what was read so far of the line is lost.
-/

namespace Xv6.Grep

open CString (code)
open Function (update update_self update_of_ne update_eq_self update_idem)
open Bytes
open List (mem_append length_append length_cons mem_cons_of_mem not_mem_nil mem_cons_self
  append_assoc mem_cons)

def newline : UInt8 := code '\n'

def bufSize : Nat := 1024

/-- The variables of `grep`, and what it has written to descriptor 1. -/
structure State where
  buf : Bytes
  m : Nat
  out : List UInt8

/-- `strchr(buf + p, '\n')`, with `fuel` bytes of the buffer to go -/
def strchr (buf : Bytes) : (fuel p : Nat) → Option Nat
  | 0, _ => none
  | fuel + 1, p =>
    if buf p = 0 then none
    else if buf p = newline then some p
    else strchr buf fuel (p + 1)

/-- The string at `buf + p`, with `fuel` bytes of the buffer to go. -/
def stringAt (buf : Bytes) : (fuel p : Nat) → List UInt8
  | 0, _ => []
  | fuel + 1, p => if buf p = 0 then [] else buf p :: stringAt buf fuel (p + 1)

/-- The inner loop, with at most `fuel` rounds: the buffer, `p` and the output in the end. -/
def lineLoop (pattern : List UInt8) : (fuel : Nat) → Bytes → (p : Nat) → (out : List UInt8) →
    Bytes × Nat × List UInt8
  | 0, buf, p, out => (buf, p, out)
  | fuel + 1, buf, p, out =>
    match strchr buf (bufSize - p) p with
    | none => (buf, p, out)
    | some q =>
      let buf := update buf q 0
      if match_ pattern (stringAt buf (bufSize - p) p) then
        let buf := update buf q newline
        lineLoop pattern fuel buf (q + 1) (out ++ readBytes buf p (q + 1 - p))
      else lineLoop pattern fuel buf (q + 1) out

def grepStep (pattern : List UInt8) (s : State) (chunk : List UInt8) : State :=
  let m := s.m + chunk.length
  let buf := update (writeBytes s.buf s.m chunk) m 0
  let x := lineLoop pattern bufSize buf 0 s.out
  let p := x.2.1
  let m := if p = 0 then 0 else m
  if m > 0 then ⟨writeBytes x.1 0 (readBytes x.1 p (m - p)), m - p, x.2.2⟩ else ⟨x.1, m, x.2.2⟩

/-- `grep`, when the buffer holds `buf` at first and `read` returns the chunks and then 0. -/
def grep (pattern : List UInt8) (buf : Bytes) (chunks : List (List UInt8)) : State :=
  chunks.foldl (grepStep pattern) ⟨buf, 0, []⟩

def textOf (lines : List (List UInt8)) : List UInt8 := lines.flatMap (· ++ [newline])

def matching (pattern : List UInt8) (lines : List (List UInt8)) : List UInt8 :=
  textOf (lines.filter (Matches pattern ·))

/-- `read` may divide the text like this: no chunk is empty, or longer than what is asked for. -/
structure Division (buf : Bytes) (text : List UInt8) (chunks : List (List UInt8)) : Prop where
  flatten : chunks.flatten = text
  ne_nil : ∀ c ∈ chunks, c ≠ []
  fits : ∀ (pattern : CString) pre c post, chunks = pre ++ c :: post →
    c.length ≤ bufSize - (grep pattern.bytes buf pre).m - 1

def IsLine (l : List UInt8) : Prop := 0 ∉ l ∧ newline ∉ l

instance (l : List UInt8) : Decidable (IsLine l) := inferInstanceAs (Decidable (_ ∧ _))

theorem textOf_append (ls ls' : List (List UInt8)) :
    textOf (ls ++ ls') = textOf ls ++ textOf ls' := by
  rw [textOf, List.flatMap_append, textOf, textOf]

variable {ls : List (List UInt8)}

theorem zero_notMem_textOf (h : ∀ l ∈ ls, IsLine l) : 0 ∉ textOf ls := by
  simp only [textOf, List.mem_flatMap, mem_append, List.mem_singleton]
  rintro ⟨l, hl, hz | hz⟩
  · exact (h l hl).1 hz
  · exact absurd hz (by decide)

theorem textOf_cons (l : List UInt8) (ls : List (List UInt8)) :
    textOf (l :: ls) = l ++ newline :: textOf ls := by
  simp [textOf]

theorem matching_append (pattern : List UInt8) (ls ls' : List (List UInt8)) :
    matching pattern (ls ++ ls') = matching pattern ls ++ matching pattern ls' := by
  rw [matching, List.filter_append, textOf_append, matching, matching]

theorem matching_cons (pattern l : List UInt8) (ls : List (List UInt8)) :
    matching pattern (l :: ls) =
      (if match_ pattern l then l ++ [newline] else []) ++ matching pattern ls := by
  by_cases hm : Matches pattern l
  · rw [if_pos ((match_iff _ _).mpr hm), matching, List.filter_cons_of_pos (by simpa using hm),
      textOf_cons]
    simp [matching]
  · rw [if_neg (fun h => hm ((match_iff _ _).mp h)), matching,
      List.filter_cons_of_neg (by simpa using hm)]
    rfl

theorem length_matching_le (pattern : List UInt8) (ls : List (List UInt8)) :
    (matching pattern ls).length ≤ (textOf ls).length := by
  induction ls with
  | nil => exact le_refl _
  | cons l ls ih =>
    rw [matching_cons, textOf_cons, length_append, length_append, length_cons]
    split
    · rw [length_append, List.length_singleton]
      omega
    · rw [List.length_nil]
      omega

variable {text : List UInt8}

theorem exists_lines (h0 : 0 ∉ text) :
    ∃ ls r, text = textOf ls ++ r ∧ (∀ l ∈ ls, IsLine l) ∧ newline ∉ r := by
  induction text with
  | nil => exact ⟨[], [], rfl, by simp, by simp⟩
  | cons c text ih =>
    obtain ⟨ls, r, rfl, hls, hr⟩ := ih (fun h => h0 (mem_cons_of_mem _ h))
    by_cases hc : c = newline
    · refine ⟨[] :: ls, r, by rw [hc, textOf_cons]; rfl, ?_, hr⟩
      rintro l (_ | ⟨_, hl⟩)
      · exact ⟨not_mem_nil, not_mem_nil⟩
      · exact hls l hl
    · have hc0 : c ≠ 0 := fun h => h0 (h ▸ mem_cons_self)
      cases ls with
      | nil => exact ⟨[], c :: r, rfl, by simp, by simp [hr, Ne.symm hc]⟩
      | cons l ls =>
        refine ⟨(c :: l) :: ls, r, by simp [textOf_cons], ?_, hr⟩
        rintro l' (_ | ⟨_, hl'⟩)
        · obtain ⟨hl0, hln⟩ := hls l mem_cons_self
          exact ⟨by simp [hl0, Ne.symm hc0], by simp [hln, Ne.symm hc]⟩
        · exact hls l' (mem_cons_of_mem _ hl')

variable {l : List UInt8}

theorem append_newline_inj {l' rest rest' : List UInt8} (hl : newline ∉ l) (hl' : newline ∉ l')
    (h : l ++ newline :: rest = l' ++ newline :: rest') : l = l' ∧ rest = rest' := by
  induction l generalizing l' with
  | nil =>
    cases l' with
    | nil => exact ⟨rfl, (List.cons.inj h).2⟩
    | cons c l' => exact absurd ((List.cons.inj h).1 ▸ mem_cons_self) hl'
  | cons c l ih =>
    cases l' with
    | nil => exact absurd ((List.cons.inj h).1 ▸ mem_cons_self) hl
    | cons c' l' =>
      obtain ⟨rfl, htail⟩ := List.cons.inj h
      obtain ⟨rfl, hrest⟩ := ih (fun hm => hl (mem_cons_of_mem _ hm))
        (fun hm => hl' (mem_cons_of_mem _ hm)) htail
      exact ⟨rfl, hrest⟩

variable {r : List UInt8}

theorem lines_unique {ls' : List (List UInt8)} (hls : ∀ l ∈ ls, IsLine l)
    (hls' : ∀ l ∈ ls', IsLine l) (hr : newline ∉ r) (h : textOf ls' = textOf ls ++ r) :
    ls' = ls := by
  induction ls generalizing ls' with
  | nil =>
    cases ls' with
    | nil => rfl
    | cons l ls' =>
      rw [textOf_cons] at h
      exact absurd (h ▸ by simp : newline ∈ textOf [] ++ r) hr
  | cons l ls ih =>
    cases ls' with
    | nil =>
      have hlen := congrArg List.length h
      simp [textOf] at hlen
    | cons l' ls' =>
      rw [textOf_cons, textOf_cons, append_assoc, List.cons_append] at h
      obtain ⟨rfl, hrest⟩ := append_newline_inj (hls' _ mem_cons_self).2
        (hls _ mem_cons_self).2 h
      rw [ih (fun x hx => hls x (mem_cons_of_mem _ hx))
        (fun x hx => hls' x (mem_cons_of_mem _ hx)) hrest]

def Lies (buf : Bytes) (p : Nat) (text : List UInt8) : Prop :=
  ∀ i (h : i < text.length), buf (p + i) = text[i]

variable {p : Nat}

theorem Lies.append {buf : Bytes} {a b : List UInt8} (h : Lies buf p (a ++ b)) :
    Lies buf p a ∧ Lies buf (p + a.length) b := by
  constructor
  · intro i hi
    have := h i (by rw [length_append]; omega)
    rwa [List.getElem_append_left hi] at this
  · intro i hi
    have := h (a.length + i) (by rw [length_append]; omega)
    rw [List.getElem_append_right (by omega)] at this
    simpa [Nat.add_assoc] using this

theorem Lies.readBytes_eq {buf : Bytes} (h : Lies buf p text) :
    readBytes buf p text.length = text := by
  apply List.ext_getElem (by simp)
  intro i h₁ h₂
  rw [readBytes_getElem]
  exact h i h₂

theorem lies_writeBytes {buf : Bytes} (text : List UInt8) :
    Lies (writeBytes buf p text) p text := by
  intro i hi
  rw [writeBytes_of_mem (by omega) (by omega)]
  simp [hi]

theorem Lies.congr {buf buf' : Bytes} (h : Lies buf p text)
    (heq : ∀ i, p ≤ i → i < p + text.length → buf' i = buf i) : Lies buf' p text := by
  intro i hi
  rw [heq _ (by omega) (by omega)]
  exact h i hi

variable {fuel : Nat}

theorem strchr_pass {buf : Bytes} (hl : IsLine l) (h : Lies buf p l) (hfuel : l.length ≤ fuel) :
    strchr buf fuel p = strchr buf (fuel - l.length) (p + l.length) := by
  induction l generalizing p fuel with
  | nil => rfl
  | cons c l ih =>
    obtain ⟨hl0, hln⟩ := hl
    simp only [mem_cons, not_or] at hl0 hln
    obtain ⟨fuel, rfl⟩ := Nat.exists_eq_add_of_lt hfuel
    have hc : buf p = c := h 0 (by simp)
    have hrest : Lies buf (p + 1) l := (Lies.append (a := [c]) h).2
    rw [length_cons, strchr, hc, if_neg (Ne.symm hl0.1), if_neg (Ne.symm hln.1),
      ih ⟨hl0.2, hln.2⟩ hrest (by omega)]
    congr 1 <;> omega

theorem stringAt_eq {buf : Bytes} (hl : 0 ∉ l)
    (h : Lies buf p l) (hend : buf (p + l.length) = 0) (hfuel : l.length < fuel) :
    stringAt buf fuel p = l := by
  induction l generalizing p fuel with
  | nil =>
    obtain ⟨fuel, rfl⟩ := Nat.exists_eq_add_of_lt hfuel
    rw [stringAt, if_pos (by simpa using hend)]
  | cons c l ih =>
    simp only [mem_cons, not_or] at hl
    obtain ⟨fuel, rfl⟩ := Nat.exists_eq_add_of_lt hfuel
    have hc : buf p = c := h 0 (by simp)
    have hrest : Lies buf (p + 1) l := (Lies.append (a := [c]) h).2
    rw [length_cons, stringAt, hc, if_neg (Ne.symm hl.1), ih hl.2 hrest ?_ (by omega)]
    rw [← hend, length_cons]
    congr 1
    omega

/-- One round of the inner loop: a line is matched, and written if it matches. -/
theorem lineLoop_round (pattern out : List UInt8) (fuel : Nat) {rest : List UInt8} {buf : Bytes} (hl : IsLine l) (h : Lies buf p (l ++ newline :: rest))
    (hsize : p + l.length + 1 < bufSize) :
    ∃ buf', (∀ i, p + l.length < i → buf' i = buf i) ∧
      lineLoop pattern (fuel + 1) buf p out = lineLoop pattern fuel buf' (p + l.length + 1)
        (out ++ if match_ pattern l then l ++ [newline] else []) := by
  obtain ⟨hline, htail⟩ := h.append
  have hq : buf (p + l.length) = newline := htail 0 (by simp)
  have hfound : strchr buf (bufSize - p) p = some (p + l.length) := by
    rw [strchr_pass hl hline (by omega)]
    obtain ⟨k, hk⟩ := Nat.exists_eq_add_of_lt hsize
    rw [show bufSize - p - l.length = k + 1 + 1 by omega, strchr, hq, if_neg (by decide),
      if_pos rfl]
  have hstring : stringAt (update buf (p + l.length) 0) (bufSize - p) p = l :=
    stringAt_eq hl.1 (hline.congr fun i _ hi => update_of_ne (by omega) _ _)
      (update_self ..) (by omega)
  rw [lineLoop, hfound]
  simp only [hstring, update_idem]
  cases match_ pattern l with
  | true =>
    have hsame : update buf (p + l.length) newline = buf := by
      rw [← hq, update_eq_self]
    have hwritten : readBytes buf p (p + l.length + 1 - p) = l ++ [newline] := by
      have hboth : Lies buf p (l ++ [newline]) := by
        rw [List.append_cons] at h
        exact h.append.1
      have := hboth.readBytes_eq
      rwa [length_append, List.length_singleton,
        show l.length + 1 = p + l.length + 1 - p by omega] at this
    refine ⟨buf, fun _ _ => rfl, ?_⟩
    rw [hsame, hwritten]
    rfl
  | false =>
    refine ⟨update buf (p + l.length) 0,
      fun i hi => update_of_ne (by omega) _ _, ?_⟩
    simp

theorem lineLoop_eq (pattern out : List UInt8) {buf : Bytes} (hfuel : ls.length < fuel)
    (hls : ∀ l ∈ ls, IsLine l) (hr : IsLine r)
    (h : Lies buf p (textOf ls ++ r)) (hend : buf (p + (textOf ls ++ r).length) = 0)
    (hsize : p + (textOf ls ++ r).length < bufSize) :
    (lineLoop pattern fuel buf p out).2 =
        (p + (textOf ls).length, out ++ matching pattern ls) ∧
      ∀ i, p + (textOf ls).length ≤ i → (lineLoop pattern fuel buf p out).1 i = buf i := by
  induction ls generalizing buf p fuel out with
  | nil =>
    obtain ⟨fuel, rfl⟩ := Nat.exists_eq_add_of_lt hfuel
    have hnone : strchr buf (bufSize - p) p = none := by
      have hlies : Lies buf p r := h
      have hend : buf (p + r.length) = 0 := hend
      have hsize : p + r.length < bufSize := hsize
      rw [strchr_pass hr hlies (by omega)]
      obtain ⟨k, hk⟩ := Nat.exists_eq_add_of_lt hsize
      rw [show bufSize - p - r.length = k + 1 by omega, strchr, if_pos hend]
    rw [lineLoop, hnone]
    exact ⟨by simp [textOf, matching], fun i _ => rfl⟩
  | cons l ls ih =>
    obtain ⟨fuel, rfl⟩ := Nat.exists_eq_add_of_lt hfuel
    have hlen : (textOf (l :: ls)).length = l.length + 1 + (textOf ls).length := by
      rw [textOf_cons, length_append, length_cons]
      omega
    rw [length_append, hlen] at hend hsize
    rw [textOf_cons, append_assoc, List.cons_append] at h
    obtain ⟨buf', hbuf', hround⟩ := lineLoop_round pattern out (ls.length + fuel + 1)
      (hls l mem_cons_self) h (by omega)
    have hrest : Lies buf' (p + l.length + 1) (textOf ls ++ r) :=
      (Lies.append (a := [newline]) h.append.2).2.congr fun i hi _ => hbuf' i hi
    have hend' : buf' (p + l.length + 1 + (textOf ls ++ r).length) = 0 := by
      rw [hbuf' _ (by omega), ← hend, length_append]
      congr 1
      omega
    have hfuel' : ls.length < ls.length + fuel + 1 := by omega
    obtain ⟨hresult, hframe⟩ := ih (out ++ if match_ pattern l then l ++ [newline] else []) hfuel'
      (fun x hx => hls x (mem_cons_of_mem _ hx)) hrest hend'
      (by rw [length_append]; omega)
    rw [length_cons, show ls.length + 1 + fuel + 1 = ls.length + fuel + 1 + 1 by omega, hround,
      hresult, hlen, matching_cons, append_assoc]
    refine ⟨by rw [← Nat.add_assoc, ← Nat.add_assoc], fun i hi => ?_⟩
    rw [hframe i (by omega), hbuf' i (by omega)]

theorem length_le_textOf (ls : List (List UInt8)) : ls.length ≤ (textOf ls).length := by
  induction ls with
  | nil => exact le_refl _
  | cons l ls ih =>
    rw [textOf_cons, length_append, length_cons, length_cons]
    omega

variable {w : List UInt8}

theorem lies_read {buf : Bytes} {chunk : List UInt8} (h : Lies buf 0 w) :
    Lies (update (writeBytes buf w.length chunk) (w.length + chunk.length) 0) 0
      (w ++ chunk) := by
  intro i hi
  rw [length_append] at hi
  rw [Nat.zero_add, update_of_ne (by omega)]
  by_cases hiw : i < w.length
  · rw [writeBytes_of_not_mem (Or.inl hiw), List.getElem_append_left hiw]
    simpa using h i hiw
  · rw [writeBytes_of_mem (by omega) (by omega), List.getElem_append_right (by omega)]
    simp [show i - w.length < chunk.length by omega]

structure Carries (s : State) (w : List UInt8) : Prop where
  length : s.m = w.length
  lies : Lies s.buf 0 w
  line : IsLine w

/-- What one read does: the lines that are complete are matched, and the rest is carried over,
unless no line was complete. -/
theorem Carries.step (pattern : List UInt8) {s : State} {chunk : List UInt8} (h : Carries s w) (hroom : w.length + chunk.length < bufSize)
    (hls : ∀ l ∈ ls, IsLine l) (hr : IsLine r) (heq : w ++ chunk = textOf ls ++ r) :
    (grepStep pattern s chunk).out = s.out ++ matching pattern ls ∧
      Carries (grepStep pattern s chunk) (if ls = [] then [] else r) := by
  obtain ⟨hm, hw, hline⟩ := h
  have htotal := congrArg List.length heq
  rw [length_append, length_append] at htotal
  generalize hbuf : update (writeBytes s.buf s.m chunk) (s.m + chunk.length) 0 = buf
  have hlies : Lies buf 0 (textOf ls ++ r) := by
    rw [← heq, ← hbuf, hm]
    exact lies_read hw
  have hend : buf (0 + (textOf ls ++ r).length) = 0 := by
    rw [← heq, ← hbuf, hm, length_append, Nat.zero_add, update_self]
  have hcount := length_le_textOf ls
  have hfuel : ls.length < bufSize := by omega
  obtain ⟨hresult, hframe⟩ := lineLoop_eq pattern s.out hfuel hls hr hlies hend
    (by rw [length_append]; omega)
  rw [Nat.zero_add] at hresult hframe
  rw [grepStep, hbuf]
  generalize lineLoop pattern bufSize buf 0 s.out = x at hresult hframe
  have hp : x.2.1 = (textOf ls).length := congrArg Prod.fst hresult
  have hout : x.2.2 = s.out ++ matching pattern ls := congrArg Prod.snd hresult
  simp only [hp, hout]
  by_cases hnil : ls = []
  · subst hnil
    exact ⟨by simp [textOf], by simp [textOf], fun i hi => by simp at hi, by simp [IsLine]⟩
  · have hpos : 0 < ls.length := List.length_pos_iff.mpr hnil
    have hsome : (textOf ls).length ≠ 0 := by omega
    have hread : s.m + chunk.length > 0 := by omega
    have hmove : s.m + chunk.length - (textOf ls).length = r.length := by omega
    rw [if_neg hsome, if_pos hread, if_neg hnil, hmove]
    have hrest : Lies x.1 (0 + (textOf ls).length) r :=
      (Lies.append hlies).2.congr fun i hi _ => hframe i (by omega)
    rw [Nat.zero_add] at hrest
    exact ⟨rfl, rfl, hrest.readBytes_eq.symm ▸ lies_writeBytes r, hr⟩

variable {pattern : List UInt8} {buf : Bytes}

theorem carries_start (buf : Bytes) : Carries ⟨buf, 0, []⟩ [] :=
  ⟨rfl, fun i hi => by simp at hi, by simp [IsLine]⟩

theorem grep_append (pre : List (List UInt8)) (c : List UInt8) :
    grep pattern buf (pre ++ [c]) = grepStep pattern (grep pattern buf pre) c := by
  rw [grep, List.foldl_append, List.foldl_cons, List.foldl_nil, grep]

theorem newline_mem_textOf (hr : newline ∉ r) : newline ∈ textOf ls ++ r ↔ ls ≠ [] := by
  cases ls with
  | nil => simpa [textOf] using hr
  | cons l ls => simp [textOf_cons]

/-- What the reads have done: all the lines that are complete were matched, if every chunk had a
newline; otherwise some bytes are lost. -/
def Outcome (pattern : List UInt8) (chunks : List (List UInt8)) (w out : List UInt8) : Prop :=
  if ∀ c ∈ chunks, newline ∈ c then
    ∃ ls, (∀ l ∈ ls, IsLine l) ∧ chunks.flatten = textOf ls ++ w ∧ out = matching pattern ls
  else out.length + w.length < chunks.flatten.length

variable {chunks : List (List UInt8)}

theorem Outcome.length_le {out : List UInt8}
    (h : Outcome pattern chunks w out) : out.length + w.length ≤ chunks.flatten.length := by
  rw [Outcome] at h
  split at h
  · obtain ⟨ls, -, hflat, rfl⟩ := h
    have := length_matching_le pattern ls
    rw [hflat, length_append]
    omega
  · omega

theorem Outcome.step {out c : List UInt8}
    (h : Outcome pattern chunks w out) (hw : IsLine w) (hc : c ≠ []) (hls : ∀ l ∈ ls, IsLine l)
    (hr : newline ∉ r) (heq : w ++ c = textOf ls ++ r) :
    Outcome pattern (chunks ++ [c]) (if ls = [] then [] else r)
      (out ++ matching pattern ls) := by
  have hflat : (chunks ++ [c]).flatten = chunks.flatten ++ c := by simp
  have hcut : newline ∈ c ↔ ls ≠ [] := by
    rw [← newline_mem_textOf hr, ← heq, mem_append]
    exact ⟨Or.inr, fun h => h.resolve_left hw.2⟩
  have hall : (∀ d ∈ chunks ++ [c], newline ∈ d) ↔ (∀ d ∈ chunks, newline ∈ d) ∧ ls ≠ [] := by
    rw [← hcut]
    simp [or_imp, forall_and]
  have htotal := congrArg List.length heq
  rw [length_append, length_append] at htotal
  have hout := length_matching_le pattern ls
  have hle := h.length_le
  rw [Outcome]
  split
  · next hgood =>
    obtain ⟨hbefore, hnil⟩ := hall.mp hgood
    rw [Outcome, if_pos hbefore] at h
    obtain ⟨ls', hls', hbegin, rfl⟩ := h
    refine ⟨ls' ++ ls, ?_, ?_, (matching_append _ _ _).symm⟩
    · intro l hl
      exact (mem_append.mp hl).elim (hls' l) (hls l)
    · rw [if_neg hnil, hflat, hbegin, append_assoc, heq, textOf_append, append_assoc]
  · next hbad =>
    rw [hflat, length_append, length_append]
    by_cases hnil : ls = []
    · have hpos := List.length_pos_iff.mpr hc
      rw [if_pos hnil, hnil]
      simp only [matching, textOf, List.filter_nil, List.flatMap_nil, List.length_nil]
      omega
    · have hlost : ¬∀ d ∈ chunks, newline ∈ d := fun hb => hbad (hall.mpr ⟨hb, hnil⟩)
      rw [Outcome, if_neg hlost] at h
      rw [if_neg hnil]
      omega

theorem grep_outcome (h0 : 0 ∉ chunks.flatten) (hne : ∀ c ∈ chunks, c ≠ [])
    (hfits : ∀ pre c post, chunks = pre ++ c :: post →
      c.length ≤ bufSize - (grep pattern buf pre).m - 1) :
    ∃ w, Carries (grep pattern buf chunks) w ∧
      Outcome pattern chunks w (grep pattern buf chunks).out := by
  induction chunks using List.reverseRecOn with
  | nil =>
    refine ⟨[], carries_start buf, ?_⟩
    rw [Outcome, if_pos (by simp)]
    exact ⟨[], by simp [grep, matching, textOf]⟩
  | append_singleton chunks c ih =>
    have h0c : 0 ∉ chunks.flatten ∧ 0 ∉ c := by simpa using h0
    obtain ⟨w, hw, hout⟩ := ih h0c.1 (fun d hd => hne d (List.mem_append_left _ hd))
      (fun pre d post heq => hfits pre d (post ++ [c]) (by rw [heq]; simp))
    have hc : c ≠ [] := hne c (by simp)
    have hroom : c.length ≤ bufSize - w.length - 1 := by
      rw [← hw.length]
      exact hfits chunks c [] rfl
    have h0wc : 0 ∉ w ++ c := by simp [hw.line.1, h0c.2]
    obtain ⟨ls, r, heq, hls, hr⟩ := exists_lines h0wc
    have hrline : IsLine r := ⟨fun h => h0wc (heq ▸ List.mem_append_right _ h), hr⟩
    have hpos := List.length_pos_iff.mpr hc
    obtain ⟨hstep, hcarries⟩ := hw.step pattern (by omega) hls hrline heq
    rw [grep_append]
    exact ⟨_, hcarries, hstep ▸ hout.step hw.line hc hls hr heq⟩

theorem matching_nil (ls : List (List UInt8)) : matching [] ls = textOf ls := by
  rw [matching, List.filter_eq_self.mpr]
  intro l _
  have hm : match_ [] l = true := by cases l <;> rfl
  simpa using (match_iff _ _).mp hm

/-- **grep is right for every pattern exactly if every read brings a newline.** -/
theorem grep_iff (buf : Bytes) (lines chunks : List (List UInt8))
    (hlines : ∀ l ∈ lines, IsLine l) (hdiv : Division buf (textOf lines) chunks) :
    (∀ pattern : CString, (grep pattern.bytes buf chunks).out = matching pattern.bytes lines) ↔
      ∀ c ∈ chunks, newline ∈ c := by
  have h0 : 0 ∉ chunks.flatten := by
    rw [hdiv.flatten]
    exact zero_notMem_textOf hlines
  constructor
  · intro h
    by_contra hbad
    obtain ⟨w, -, hout⟩ := grep_outcome h0 hdiv.ne_nil (hdiv.fits ⟨[], not_mem_nil⟩)
    rw [Outcome, if_neg hbad, h ⟨[], not_mem_nil⟩, matching_nil, hdiv.flatten] at hout
    omega
  · intro hgood pattern
    obtain ⟨w, hw, hout⟩ := grep_outcome h0 hdiv.ne_nil (hdiv.fits pattern)
    rw [Outcome, if_pos hgood, hdiv.flatten] at hout
    obtain ⟨ls, hls, hflat, hresult⟩ := hout
    rw [hresult, lines_unique hls hlines hw.line.2 hflat]

theorem division_singleton (buf : Bytes) {c : List UInt8} (hc : c ≠ [])
    (hlen : c.length < bufSize) :
    Division buf c [c] where
  flatten := by simp
  ne_nil := by simpa using hc
  fits pattern pre d post heq := by
    obtain ⟨rfl, heq⟩ | ⟨_, _, heq⟩ := List.cons_eq_append_iff.mp heq
    · obtain ⟨rfl, -⟩ := List.cons.inj heq
      simp only [grep, List.foldl_nil]
      omega
    · simp at heq

/-- The line "ab" in one read. -/
theorem grep_iff_whole :
    (∀ pattern : CString, (grep pattern.bytes (fun _ => 0) [[97, 98, newline]]).out =
        matching pattern.bytes [[97, 98]]) ↔
      ∀ c ∈ [[97, 98, newline]], newline ∈ c :=
  grep_iff (fun _ => 0) [[97, 98]] [[97, 98, newline]] (by decide)
    (division_singleton _ (by decide) (by decide))

theorem division_split : Division (fun _ => 0) (textOf [[97, 98]]) [[97], [98, newline]] where
  flatten := by decide
  ne_nil := by decide
  fits pattern pre d post heq := by
    have hroom : ([] : List UInt8).length + [97].length < bufSize := by decide
    have hnone : ∀ l ∈ ([] : List (List UInt8)), IsLine l := by simp
    have hline : IsLine [97] := by decide
    have hempty : (grep pattern.bytes (fun _ => 0) [[97]]).m = 0 :=
      ((carries_start _).step pattern.bytes hroom hnone hline rfl).2.length
    match pre with
    | [] =>
      obtain ⟨rfl, -⟩ := List.cons.inj heq
      simp [grep, bufSize]
    | [x] =>
      obtain ⟨hx, htail⟩ := List.cons.inj heq
      obtain ⟨hd, -⟩ := List.cons.inj htail
      rw [← hx, ← hd, hempty]
      decide
    | x :: y :: pre => simp at heq

/-- `grep a` does not find the line "ab" when its first character comes alone. -/
theorem grep_split_lost :
    Division (fun _ => 0) (textOf [[97, 98]]) [[97], [98, newline]] ∧
      (grep [97] (fun _ => 0) [[97], [98, newline]]).out = [] ∧
      matching [97] [[97, 98]] = [97, 98, newline] :=
  ⟨division_split, by decide +kernel, by decide +kernel⟩

end Xv6.Grep
