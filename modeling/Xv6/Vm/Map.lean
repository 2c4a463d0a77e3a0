import Mathlib.Tactic.Abel
import Xv6.Lib.Hoare
import Xv6.Vm.Tables

/-!
# Mapping and unmapping pages

What the functions of `vm.c` do to the map of a directory and to the pages. None of them panics:
they free pages that `kalloc` has handed out, and map pages that are not mapped.
-/

namespace Xv6.Vm

open Bytes Hoare
open Function (update update_self update_of_ne update_apply)

variable {L : Layout} {d pg perm v w x i va : Nat} {m m' : Nat → Option Nat}
  {F hand : Multiset Nat} {s s' : Phys} {α : Type} {E : Fault → Prop}

@[simp] theorem wp_getWord {Q : Nat → Phys → Prop} :
    wp (getWord pg i) Q E s ↔ Q (word s.mem pg i) s := Iff.rfl

@[simp] theorem wp_getPage {Q : Bytes → Phys → Prop} :
    wp (getPage pg) Q E s ↔ Q (s.mem pg) s := Iff.rfl

variable {Q : Unit → Phys → Prop}

@[simp] theorem wp_setPage {bs : Bytes} :
    wp (setPage pg bs) Q E s ↔ Q () { s with mem := update s.mem pg bs } := Iff.rfl

@[simp] theorem wp_setWord :
    wp (setWord pg i w) Q E s ↔
      Q () { s with mem := update s.mem pg (put32 (s.mem pg) (4 * i) w) } := Iff.rfl

theorem wp_p2v {Q : Nat → Phys → Prop} (h : pg * pgSize ≤ kernBase) :
    wp (p2v pg) Q E s ↔ Q pg s := by
  rw [p2v, if_neg (by omega)]
  rfl

theorem wp_kfree (h : L.endPage ≤ pg ∧ pg < L.physTop) :
    wp (kfree L pg) Q E s ↔ Q () { s with
      mem := update s.mem pg fun _ => 1
      freelist := pg :: s.freelist } := by
  refine wp_of_ok ?_
  rw [kfree, if_neg (by omega)]

/-- Some call of `kalloc` fails. -/
def Fails (s : Phys) : Prop := (∃ k, s.fail k = true) ∨ s.freelist = []

theorem wp_kalloc {Q : Option Nat → Phys → Prop}
    (hnone : Fails s → Q none { s with calls := s.calls + 1 })
    (hsome : ∀ pg rest, s.freelist = pg :: rest →
      Q (some pg) { s with calls := s.calls + 1, freelist := rest }) : wp kalloc Q E s := by
  by_cases hfail : s.fail s.calls = true
  · refine (wp_of_ok ?_).mpr (hnone (.inl ⟨_, hfail⟩))
    rw [kalloc, if_pos hfail]
  · cases hfree : s.freelist with
    | nil =>
      refine (wp_of_ok ?_).mpr (hnone (.inr hfree))
      rw [kalloc, if_neg hfail, hfree]
    | cons pg rest =>
      refine (wp_of_ok ?_).mpr (hsome pg rest hfree)
      rw [kalloc, if_neg hfail, hfree]

theorem pdx_eq (h : va < 2 ^ 32) : pdx va = va / pgSize / 1024 := by
  simp only [pdx, pgSize]
  omega

theorem wp_walkpgdir_of_table {Q : Option (Nat × Nat) → Phys → Prop} {alloc : Bool}
    (hva : va < 2 ^ 32) (ht : HasTable s.mem d (va / pgSize))
    (hle : tableOf s.mem d (va / pgSize) * pgSize ≤ kernBase) :
    wp (walkpgdir d va alloc) Q E s ↔
      Q (some (tableOf s.mem d (va / pgSize), va / pgSize % 1024)) s := by
  rw [HasTable] at ht
  rw [walkpgdir, wp_bind, wp_getWord, pdx_eq hva, if_pos ht, wp_bind]
  exact wp_p2v (Q := fun pgtab s' => wp (pure (some (pgtab, ptx va))) Q E s') hle

theorem wp_walkpgdir_of_not_table {Q : Option (Nat × Nat) → Phys → Prop}
    (hva : va < 2 ^ 32) (ht : ¬ HasTable s.mem d (va / pgSize)) :
    wp (walkpgdir d va false) Q E s ↔ Q none s := by
  rw [HasTable] at ht
  rw [walkpgdir, wp_bind, wp_getWord, pdx_eq hva, if_neg ht]
  rfl

/-- There may be too few pages: a call of `kalloc` is to fail, or a directory with `n` pages below
`KERNBASE` needs more pages than there are. -/
def Short (F : Multiset Nat) (s : Phys) (n : Nat) : Prop :=
  (∃ k, s.fail k = true) ∨ F.card ≤ 1 + npdEntries + n

theorem Short.congr {n : Nat} (h : Short F s n) (hfail : s'.fail = s.fail) : Short F s' n := by
  rwa [Short, hfail]

theorem card_tables_le (mem : Nat → Bytes) (d : Nat) : (tables mem d).card ≤ npdEntries := by
  refine Multiset.card_pieces_le fun i _ => ?_
  rw [entry]
  split <;> simp

theorem Dir.short (h : Dir F s d hand m) (hfail : Fails s) :
    Short F s (hand.card + (frames m).card) := by
  refine hfail.imp_right fun hfree => ?_
  have htables := card_tables_le s.mem d
  rw [← h.pages, hfree]
  simp only [Multiset.card_add, Multiset.coe_nil, Multiset.card_zero, Multiset.card_singleton]
  omega

/-- `d` is a directory with the map `m`. Its pages and the free pages are the pages `P`, each page
once, and `p2v` accepts them. -/
structure Formed (P : Multiset Nat) (s : Phys) (d : Nat) (m : Nat → Option Nat) : Prop where
  map : ∀ v, v < 2 ^ 20 → lookup s.mem d v = m v
  pages : (s.freelist : Multiset Nat) + ({d} + tables s.mem d) = P
  nodup : P.Nodup
  le_kernBase : ∀ x ∈ P, x * pgSize ≤ kernBase

section Formed

variable {P : Multiset Nat} (h : Formed P s d m)

include h

theorem Formed.apart : TablesApart s.mem d :=
  Multiset.nodup_of_le (h.pages ▸ Multiset.le_add_left _ _) h.nodup

theorem Formed.congr (hmem : s'.mem = s.mem) (hfree : s'.freelist = s.freelist) :
    Formed P s' d m :=
  ⟨by rw [hmem]; exact h.map, by rw [hmem, hfree, h.pages], h.nodup, h.le_kernBase⟩

theorem Formed.mem_of_table (hv : v < 2 ^ 20) (ht : HasTable s.mem d v) :
    tableOf s.mem d v ∈ P := by
  rw [← h.pages]
  exact Multiset.mem_add.mpr (.inr (Multiset.mem_add.mpr (.inr (tableOf_mem hv ht))))

theorem Formed.newTable {T : Nat} {rest : List Nat} (hfree : s.freelist = T :: rest)
    (hv : v < 2 ^ 20) (ht : ¬ HasTable s.mem d v) (s' : Phys)
    (hmem : s'.mem = update (update s.mem T zeros) d
      (put32 (update s.mem T zeros d) (4 * (v / 1024)) (mkPte (T * pgSize) permWU)))
    (hfree' : s'.freelist = rest) :
    Formed P s' d m ∧ HasTable s'.mem d v ∧ tableOf s'.mem d v = T ∧ Still P 0 s s' ∧
      TablesKept s.mem s'.mem d := by
  have hTfree : T ∈ (s.freelist : Multiset Nat) := by simp [hfree]
  have hTP : T ∈ P := h.pages ▸ Multiset.mem_add.mpr (.inl hTfree)
  have hT : T ∉ {d} + tables s.mem d := Multiset.Nodup.notMem_right (h.pages ▸ h.nodup) hTfree
  have hTd : d ≠ T := fun e => hT (by simp [e])
  have hlt := h.le_kernBase T hTP
  simp only [pgSize, kernBase] at hlt
  obtain ⟨htables, hhas, htable, hlookup⟩ := lookup_newTable hT h.apart hv ht (by omega) hmem
  refine ⟨⟨fun u hu => by rw [hlookup u hu, h.map u hu], ?_, h.nodup, h.le_kernBase⟩, hhas, htable,
    fun x hx => ?_, fun i hi => ?_⟩
  · rw [← h.pages, hfree, hfree', htables]
    simp only [← Multiset.cons_coe, ← Multiset.singleton_add]
    abel
  · have hxP : x ∉ P := hx.resolve_right (Multiset.notMem_zero x)
    have hxd : x ≠ d := fun e => hxP (by rw [← h.pages, e]; simp)
    have hxT : x ≠ T := fun e => hxP (e ▸ hTP)
    rw [hmem, update_of_ne hxd, update_of_ne hxT]
  · have hne : i ≠ v / 1024 := fun e => ht (by rwa [HasTable, ← e])
    rw [hmem, word_setWord_of_ne hne, word_update_of_ne hTd]

/-- The walk that creates the page table if there is none. -/
theorem Formed.wp_walkpgdir (hva : va < 2 ^ 32) : wp (walkpgdir d va true) (fun r s' =>
      Still P 0 s s' ∧ s'.fail = s.fail ∧ TablesKept s.mem s'.mem d ∧ Formed P s' d m ∧ match r with
        | none => Fails s'
        | some (T, i) => HasTable s'.mem d (va / pgSize) ∧
          T = tableOf s'.mem d (va / pgSize) ∧ i = va / pgSize % 1024) (fun _ => False) s := by
  have hv : va / pgSize < 2 ^ 20 := by
    simp only [pgSize]
    omega
  by_cases ht : HasTable s.mem d (va / pgSize)
  · rw [wp_walkpgdir_of_table hva ht (h.le_kernBase _ (h.mem_of_table hv ht))]
    exact ⟨fun _ _ => rfl, rfl, .of_eq rfl, h, ht, rfl, rfl⟩
  · have ht' := ht
    rw [HasTable] at ht'
    rw [walkpgdir, wp_bind, wp_getWord, pdx_eq hva, if_neg ht', if_neg (by simp), wp_bind]
    refine wp_kalloc (fun hfail => ⟨fun _ _ => rfl, rfl, .of_eq rfl, h.congr rfl rfl, hfail⟩)
      fun T rest hfree => ?_
    obtain ⟨hformed, hhas, htable, hstill, hkept⟩ := h.newTable hfree hv ht { s with
      calls := s.calls + 1
      freelist := rest
      mem := update (update s.mem T zeros) d
        (put32 (update s.mem T zeros d) (4 * (va / pgSize / 1024))
          (mkPte (T * pgSize) permWU)) } rfl rfl
    exact ⟨hstill, rfl, hkept, hformed, hhas, htable.symm, rfl⟩

theorem Formed.setEntry (s' : Phys) (hv : v < 2 ^ 20) (ht : HasTable s.mem d v) (hw : w < 2 ^ 32)
    (hmem : s'.mem = update s.mem (tableOf s.mem d v)
      (put32 (s.mem (tableOf s.mem d v)) (4 * (v % 1024)) w)) (hfree : s'.freelist = s.freelist) :
    Formed P s' d (update m v (if pteP w then some w else none)) ∧ Still P 0 s s' ∧
      TablesKept s.mem s'.mem d := by
  obtain ⟨hword, hlookup⟩ := lookup_setEntry h.apart hv ht hw hmem
  refine ⟨⟨fun u hu => ?_, ?_, h.nodup, h.le_kernBase⟩, fun x hx => ?_, fun i _ => hword i⟩
  · rw [hlookup u hu, update_apply]
    split
    · rfl
    · exact h.map u hu
  · rw [← h.pages, tables_congr hword, hfree]
  · rw [hmem, update_of_ne]
    exact fun e => hx.resolve_right (Multiset.notMem_zero x) (e ▸ h.mem_of_table hv ht)

/-- **One page is mapped, or `kalloc` has failed.** -/
theorem Formed.wp_mapPage (hv : v < 2 ^ 20) (hm : m v = none) (hpg : pg < 2 ^ 20)
    (hperm : perm < 4096) :
    wp (mapPage d (v * pgSize) (pg * pgSize) perm) (fun ok s' =>
      Still P 0 s s' ∧ s'.fail = s.fail ∧ TablesKept s.mem s'.mem d ∧
        if ok then Formed P s' d (update m v (some (mkPte (pg * pgSize) perm)))
        else Formed P s' d m ∧ Fails s') (fun _ => False) s := by
  have hdiv : v * pgSize / pgSize = v := Nat.mul_div_cancel _ (by decide)
  have hwalk := h.wp_walkpgdir (show v * pgSize < 2 ^ 32 by simp only [pgSize]; omega)
  rw [hdiv] at hwalk
  rw [mapPage]
  refine hwalk.bind ?_
  rintro (_ | ⟨T, i⟩) s₁ ⟨hstill, hfail, hkept, h₁, hr⟩
  · exact ⟨hstill, hfail, hkept, h₁, hr⟩
  obtain ⟨ht, rfl, rfl⟩ := hr
  -- the entry is not present: the map has nothing there
  have habsent : pteP (word s₁.mem (tableOf s₁.mem d v) (v % 1024)) ≠ true := by
    intro hp
    have hlookup := h₁.map _ hv
    rw [lookup_of_table ht, if_pos hp, hm] at hlookup
    exact absurd hlookup (by simp)
  rw [wp_bind, wp_getWord, if_neg habsent, wp_bind, wp_setWord, wp_pure]
  obtain ⟨h₂, hstill₂, hkept₂⟩ := h₁.setEntry { s₁ with
    mem := update s₁.mem (tableOf s₁.mem d v) (put32 (s₁.mem (tableOf s₁.mem d v))
      (4 * (v % 1024)) (mkPte (pg * pgSize) perm)) } hv ht (mkPte_lt hperm hpg) rfl rfl
  rw [if_pos (pteP_mkPte _ _)] at h₂
  exact ⟨hstill.trans hstill₂ fun _ hx => hx, hfail, hkept.trans hkept₂, h₂⟩

theorem Formed.dir (hP : P + (hand + frames m) = F) : Dir F s d hand m := by
  refine ⟨h.map, ?_⟩
  rw [← hP, ← h.pages]
  abel

omit h

theorem Dir.formed (hF : Pool L F) (h : Dir F s d hand m) :
    ∃ P, P + (hand + frames m) = F ∧ Formed P s d m := by
  have hpages : (s.freelist : Multiset Nat) + ({d} + tables s.mem d) + (hand + frames m) = F := by
    rw [← h.pages]
    abel
  have hle := hpages ▸ Multiset.le_add_right _ (hand + frames m)
  exact ⟨_, hpages, h.map, rfl, Multiset.nodup_of_le hle hF.nodup,
    fun x hx => hF.le_kernBase (Multiset.mem_of_le hle hx)⟩

theorem Still.of_pages {K : Multiset Nat} (h : Still P 0 s s') (hF : F.Nodup) (hP : P + K = F) :
    Still F K s s' := fun x hx => by
  refine h x (.inl fun hxP => hx.elim (fun hxF => hxF ?_) fun hxK => ?_)
  · exact hP ▸ Multiset.mem_add.mpr (.inl hxP)
  · exact Multiset.Nodup.notMem_right (hP ▸ hF) hxP hxK

end Formed

/-- An entry is written: the pages that it mapped before are in hand now, and the page that it maps
was in hand. -/
theorem Dir.setEntry (hand' : Multiset Nat) (s' : Phys) (hF : Pool L F) (h : Dir F s d hand m)
    (hv : v < 2 ^ 20) (ht : HasTable s.mem d v) (hw : w < 2 ^ 32)
    (hmem : s'.mem = update s.mem (tableOf s.mem d v)
      (put32 (s.mem (tableOf s.mem d v)) (4 * (v % 1024)) w)) (hfree : s'.freelist = s.freelist)
    (hhand : hand' + frames (update m v (if pteP w then some w else none)) =
      hand + frames m) :
    Dir F s' d hand' (update m v (if pteP w then some w else none)) ∧
      Still F (hand + frames m) s s' ∧ TablesKept s.mem s'.mem d := by
  obtain ⟨P, hP, hformed⟩ := h.formed hF
  obtain ⟨h', hstill, hkept⟩ := hformed.setEntry s' hv ht hw hmem hfree
  exact ⟨h'.dir (by rw [hhand, hP]), hstill.of_pages hF.nodup hP, hkept⟩

/-- What mapping page `pg` at virtual page `v` takes out of the hand. -/
def taken (v pg : Nat) : Multiset Nat := if v < userPages then {pg} else 0

theorem frames_map (hm : m v = none) (hpg : pteAddr w = pg) :
    frames (update m v (some w)) = frames m + taken v pg := by
  rw [taken]
  split
  · next hv =>
    have hframes := frames_update (m := m) (o := some w) hv
    rw [hm] at hframes
    rw [← hpg]
    exact (add_zero _).symm.trans hframes
  · next hv => rw [frames_update_of_le (by omega), add_zero]

theorem Dir.wp_mapPage (hand' : Multiset Nat) (hF : Pool L F) (h : Dir F s d hand m)
    (hv : v < 2 ^ 20) (hm : m v = none) (hpg : pg < 2 ^ 20) (hperm : perm < 4096)
    (hhand : hand = taken v pg + hand') :
    wp (mapPage d (v * pgSize) (pg * pgSize) perm) (fun ok s' =>
      Still F (hand + frames m) s s' ∧ s'.fail = s.fail ∧ TablesKept s.mem s'.mem d ∧
        if ok then Dir F s' d hand' (update m v (some (mkPte (pg * pgSize) perm)))
        else Dir F s' d hand m ∧ Short F s (hand.card + (frames m).card)) (fun _ => False) s := by
  obtain ⟨P, hP, hformed⟩ := h.formed hF
  refine (hformed.wp_mapPage hv hm hpg hperm).mono ?_ fun _ => False.elim
  rintro (_ | _) s' ⟨hstill, hfail, hkept, h'⟩
  · have hdir := h'.1.dir hP
    exact ⟨hstill.of_pages hF.nodup hP, hfail, hkept, hdir, (hdir.short h'.2).congr hfail.symm⟩
  · refine ⟨hstill.of_pages hF.nodup hP, hfail, hkept, h'.dir ?_⟩
    rw [frames_map hm (pteAddr_mkPte hperm), ← hP, hhand]
    abel

def fill (m : Nat → Option Nat) (v n : Nat) (f : Nat → Nat) : Nat → Option Nat :=
  fun u => if v ≤ u ∧ u < v + n then some (f (u - v)) else m u

theorem fill_zero (m : Nat → Option Nat) (v : Nat) (f : Nat → Nat) : fill m v 0 f = m := by
  funext u
  rw [fill, if_neg (by omega)]

theorem fill_succ (m : Nat → Option Nat) (v n : Nat) (f : Nat → Nat) :
    fill m v (n + 1) f =
      fill (update m v (some (f 0))) (v + 1) n fun j => f (j + 1) := by
  funext u
  simp only [fill]
  by_cases huv : u = v
  · subst huv
    rw [if_pos (by omega), if_neg (by omega), update_self, Nat.sub_self]
  · rw [update_of_ne huv]
    by_cases hu : v ≤ u ∧ u < v + (n + 1)
    · rw [if_pos hu, if_pos (by omega), show u - (v + 1) + 1 = u - v by omega]
    · rw [if_neg hu, if_neg (by omega)]

variable {n : Nat}

theorem fill_of_lt {u : Nat} {f : Nat → Nat} (h : u < v) : fill m v n f u = m u :=
  if_neg (by omega)

/-- What mapping pages of the kernel does: the map below `KERNBASE` stays, and `ok` says whether
all pages are mapped. -/
def Mapped (F : Multiset Nat) (s : Phys) (d : Nat) (hand : Multiset Nat) (m mok : Nat → Option Nat)
    (ok : Bool) (s' : Phys) : Prop :=
  Still F (hand + frames m) s s' ∧ s'.fail = s.fail ∧
    ∃ m', Dir F s' d hand m' ∧ (∀ u, u < userPages → m' u = m u) ∧
      if ok then m' = mok else Short F s (hand.card + (frames m).card)

theorem Mapped.trans {m₁ mok : Nat → Option Nat} {s₁ : Phys} {ok : Bool}
    (hstill : Still F (hand + frames m) s s₁) (hfail : s₁.fail = s.fail)
    (hsame : ∀ u, u < userPages → m₁ u = m u) (h : Mapped F s₁ d hand m₁ mok ok s') :
    Mapped F s d hand m mok ok s' := by
  obtain ⟨hstill₁, hfail₁, m', hdir, hsame₁, hok⟩ := h
  rw [frames_congr hsame] at hstill₁ hok
  refine ⟨hstill.trans hstill₁ fun _ hx => hx, hfail₁.trans hfail, m', hdir,
    fun u hu => (hsame₁ u hu).trans (hsame u hu), ?_⟩
  split
  · next hT => rwa [if_pos hT] at hok
  · next hT =>
    rw [if_neg hT] at hok
    exact hok.congr hfail.symm

/-- The pages up to the one for which `kalloc` fails are mapped. Frames go round the address space,
pages do not. -/
theorem Formed.wp_mapLoop {P : Multiset Nat} {q : Nat} (h : Formed P s d m) (hperm : perm < 4096)
    (hvn : v + n < 2 ^ 20) (hq : q < 2 ^ 20) (hm : ∀ j, j ≤ n → m (v + j) = none) :
    wp (mapLoop d perm n (v * pgSize) (q * pgSize)) (fun ok s' =>
      Still P 0 s s' ∧ s'.fail = s.fail ∧ ∃ k,
        Formed P s' d (fill m v k fun j => mkPte ((q + j) % 2 ^ 20 * pgSize) perm) ∧
          if ok then k = n + 1 else k ≤ n ∧ Fails s') (fun _ => False) s := by
  induction n generalizing s m v q with
  | zero =>
    rw [mapLoop]
    refine (h.wp_mapPage hvn (hm 0 le_rfl) hq hperm).mono ?_ fun _ => False.elim
    rintro (_ | _) s' ⟨hstill, hfail, -, h'⟩
    · exact ⟨hstill, hfail, 0, by rw [fill_zero]; exact h'.1, le_rfl, h'.2⟩
    · refine ⟨hstill, hfail, 1, ?_, rfl⟩
      rw [fill_succ, fill_zero, Nat.add_zero, Nat.mod_eq_of_lt hq]
      exact h'
  | succ n ih =>
    rw [mapLoop]
    refine (h.wp_mapPage (by omega) (hm 0 (Nat.zero_le _)) hq hperm).bind ?_
    rintro (_ | _) s₁ ⟨hstill, hfail, -, h₁⟩
    · exact ⟨hstill, hfail, 0, by rw [fill_zero]; exact h₁.1, Nat.zero_le _, h₁.2⟩
    have hnext : ∀ r, (r * pgSize + pgSize) % 2 ^ 32 = (r + 1) % 2 ^ 20 * pgSize := by
      intro r
      simp only [pgSize]
      omega
    have hshift : (fun j => mkPte ((q + (j + 1)) % 2 ^ 20 * pgSize) perm) =
        fun j => mkPte (((q + 1) % 2 ^ 20 + j) % 2 ^ 20 * pgSize) perm := by
      funext j
      rw [Nat.mod_add_mod, Nat.add_right_comm, Nat.add_assoc]
    rw [if_pos rfl, hnext, hnext, Nat.mod_eq_of_lt (show v + 1 < 2 ^ 20 by omega)]
    refine (ih h₁ (by omega) (Nat.mod_lt _ (by decide)) fun j hj => ?_).mono ?_ fun _ => False.elim
    · rw [update_of_ne (by omega), show v + 1 + j = v + (j + 1) by omega]
      exact hm (j + 1) (by omega)
    · rintro ok s' ⟨hstill', hfail', k, h', hk⟩
      refine ⟨hstill.trans hstill' fun _ hx => hx, hfail'.trans hfail, k + 1, ?_, ?_⟩
      · rwa [fill_succ, hshift, Nat.add_zero, Nat.mod_eq_of_lt hq]
      · cases ok with
        | true => exact congrArg (· + 1) hk
        | false => exact ⟨Nat.succ_le_succ hk.1, hk.2⟩

theorem Dir.wp_mapLoop (hF : Pool L F) (hperm : perm < 4096) {q : Nat} (h : Dir F s d hand m)
    (hv : userPages ≤ v) (hvn : v + n < 2 ^ 20) (hqn : q + n < 2 ^ 20)
    (hm : ∀ j, j ≤ n → m (v + j) = none) :
    wp (mapLoop d perm n (v * pgSize) (q * pgSize))
      (Mapped F s d hand m (fill m v (n + 1) fun j => mkPte ((q + j) * pgSize) perm))
      (fun _ => False) s := by
  obtain ⟨P, hP, hformed⟩ := h.formed hF
  refine (hformed.wp_mapLoop hperm hvn (by omega) hm).mono ?_ fun _ => False.elim
  rintro ok s' ⟨hstill, hfail, k, h', hk⟩
  have hsame : ∀ u, u < userPages →
      fill m v k (fun j => mkPte ((q + j) % 2 ^ 20 * pgSize) perm) u = m u :=
    fun u hu => fill_of_lt (by omega)
  have hdir : Dir F s' d hand _ := h'.dir (by rw [frames_congr hsame, hP])
  refine ⟨hstill.of_pages hF.nodup hP, hfail, _, hdir, hsame, ?_⟩
  cases ok with
  | true =>
    subst hk
    funext u
    simp only [fill]
    refine if_ctx_congr Iff.rfl (fun hu => ?_) fun _ => rfl
    rw [Nat.mod_eq_of_lt (by omega)]
  | false =>
    rw [← frames_congr hsame]
    exact (hdir.short hk.2).congr hfail.symm

theorem mappages_eq (d perm n pa : Nat) {size : Nat} (hpos : 0 < size)
    (hsize : (size - 1) / pgSize = n) (hvn : v + n < 2 ^ 20) :
    mappages d (v * pgSize) size pa perm = mapLoop d perm n (v * pgSize) pa := by
  have hdown : pgRoundDown (v * pgSize) = v * pgSize := by
    simp only [pgRoundDown, pgSize]
    omega
  have hlast : pgRoundDown ((v * pgSize + size + (2 ^ 32 - 1)) % 2 ^ 32) = (v + n) * pgSize := by
    simp only [pgRoundDown, pgSize] at hsize ⊢
    omega
  have hrounds : ((v + n) * pgSize + 2 ^ 32 - v * pgSize) % 2 ^ 32 / pgSize = n := by
    simp only [pgSize]
    omega
  rw [mappages, hdown, hlast, hrounds]

theorem Dir.wp_mappages (hF : Pool L F) (h : Dir F s d (pg ::ₘ hand) m) (hv : v < userPages)
    (hm : m v = none) (hperm : perm < 4096) :
    wp (mappages d (v * pgSize) pgSize (pg * pgSize) perm) (fun ok s' =>
      Still F (pg ::ₘ hand + frames m) s s' ∧ s'.fail = s.fail ∧ TablesKept s.mem s'.mem d ∧
        if ok then Dir F s' d hand (update m v (some (mkPte (pg * pgSize) perm)))
        else Dir F s' d (pg ::ₘ hand) m ∧ Short F s (1 + hand.card + (frames m).card))
      (fun _ => False) s := by
  have hlt : v < 2 ^ 20 := by
    rw [userPages] at hv
    omega
  rw [mappages_eq d perm 0 (pg * pgSize) (by decide) (by decide) hlt, mapLoop]
  have hpg : pg < 2 ^ 20 := hF.lt (h.mem_of_hand (Multiset.mem_cons_self pg hand))
  refine (h.wp_mapPage hand hF hlt hm hpg hperm ?_).mono ?_ fun _ => False.elim
  · rw [taken, if_pos hv, Multiset.singleton_add]
  · intro ok s' hpost
    rwa [Multiset.card_cons, Nat.add_comm hand.card] at hpost

def Kmap.add (m : Nat → Option Nat) (k : Kmap) : Nat → Option Nat :=
  fill m (k.virt / pgSize) (k.size / pgSize) fun j =>
    mkPte ((k.physStart / pgSize + j) * pgSize) k.perm

def kernelMap (L : Layout) : Nat → Option Nat := L.kmap.foldl Kmap.add fun _ => none

variable {k : Kmap}

theorem Kmap.Ok.user (hk : k.Ok) {u : Nat} (hu : u < userPages) : k.add m u = m u := by
  refine fill_of_lt ?_
  have hbase := hk.base_le
  rw [userPages] at hu
  simp only [kernBase, pgSize] at hbase ⊢
  omega

theorem Kmap.Ok.add_of_apart {k' : Kmap} (hk : k.Ok) (hk' : k'.Ok) (hapart : k.Apart k') {j : Nat}
    (hj : j < k'.size / pgSize) : k.add m (k'.virt / pgSize + j) = m (k'.virt / pgSize + j) := by
  have hvirt := hk.virt
  have hsize := hk.size
  have hvirt' := hk'.virt
  have hsize' := hk'.size
  refine if_neg ?_
  simp only [pgSize] at *
  rcases hapart with hapart | hapart <;> omega

theorem Dir.wp_kmap (hF : Pool L F) (hk : k.Ok) (h : Dir F s d hand m)
    (hm : ∀ j, j < k.size / pgSize → m (k.virt / pgSize + j) = none) :
    wp (mappages d k.virt k.size k.physStart k.perm) (Mapped F s d hand m (k.add m))
      (fun _ => False) s := by
  obtain ⟨v, hv⟩ : ∃ v, k.virt = v * pgSize :=
    ⟨_, (Nat.div_mul_cancel (Nat.dvd_of_mod_eq_zero hk.virt)).symm⟩
  obtain ⟨q, hq⟩ : ∃ q, k.physStart = q * pgSize :=
    ⟨_, (Nat.div_mul_cancel (Nat.dvd_of_mod_eq_zero hk.phys)).symm⟩
  obtain ⟨n, hn⟩ : ∃ n, k.size = (n + 1) * pgSize := by
    obtain ⟨c, hc⟩ := Nat.dvd_of_mod_eq_zero hk.size
    have hpos := hk.pos
    refine ⟨c - 1, ?_⟩
    rw [Nat.sub_add_cancel (Nat.pos_of_ne_zero fun e => by simp [hc, e] at hpos), hc, Nat.mul_comm]
  have hdiv : ∀ r, r * pgSize / pgSize = r := fun r => Nat.mul_div_cancel _ (by decide)
  have hbase := hk.base_le
  have htop := hk.le_top
  have hphys := hk.phys_le
  have hperm := hk.perm
  rw [hv, hn] at htop
  rw [hq, hn] at hphys
  rw [hv] at hbase
  simp only [kernBase, pgSize] at hbase htop hphys
  rw [Kmap.add]
  rw [hv, hn, hdiv, hdiv] at hm ⊢
  rw [hq, hdiv, mappages_eq d k.perm n (q * pgSize) (by simp) (by simp; omega) (by omega)]
  refine h.wp_mapLoop hF (by omega) ?_ (by omega) (by omega) fun j hj => hm j (by omega)
  rw [userPages]
  omega

theorem Dir.wp_mapKernel (hF : Pool L F) {ks : List Kmap} (hok : ∀ k ∈ ks, k.Ok)
    (hapart : ks.Pairwise Kmap.Apart) (h : Dir F s d hand m)
    (hm : ∀ k ∈ ks, ∀ j, j < k.size / pgSize → m (k.virt / pgSize + j) = none) :
    wp (mapKernel d ks) (Mapped F s d hand m (ks.foldl Kmap.add m)) (fun _ => False) s := by
  induction ks generalizing s m with
  | nil => exact ⟨fun _ _ => rfl, rfl, m, h, fun _ _ => rfl, rfl⟩
  | cons k ks ih =>
    rw [mapKernel]
    have hk := hok k List.mem_cons_self
    refine (h.wp_kmap hF hk (hm k List.mem_cons_self)).bind ?_
    rintro (_ | _) s₁ ⟨hstill, hfail, m₁, hdir, hsame, hpost⟩
    · exact ⟨hstill, hfail, m₁, hdir, hsame, hpost⟩
    · rw [if_pos rfl] at hpost
      subst hpost
      refine (ih (fun k' hk' => hok k' (List.mem_cons_of_mem _ hk')) hapart.of_cons hdir
        fun k' hk' j hj => ?_).mono (fun _ _ => Mapped.trans hstill hfail hsame) fun _ => False.elim
      rw [hk.add_of_apart (hok k' (List.mem_cons_of_mem _ hk'))
        (List.rel_of_pairwise_cons hapart hk') hj]
      exact hm k' (List.mem_cons_of_mem _ hk') j hj

end Xv6.Vm
