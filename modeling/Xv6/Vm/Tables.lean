import Xv6.Lib.Pieces
import Xv6.Vm.Defs

/-!
# A page directory as a flat map

What the walk through the two levels of a page directory finds is `lookup`, a partial map from
virtual pages to entries.

`Dir` says that the free list, the pages a function has in its hands, and the pages of a directory
are the pages `F`, each page once. The pages of a directory are itself, its page tables, and the
pages that its entries below `KERNBASE` map.
-/

namespace Xv6.Vm

open Bytes
open Function (update update_self update_of_ne)
open Multiset (mem_singleton pieces_eq_zero mem_pieces pieces_congr pieces_change mem_add count_add
  count_pos mem_coe)

variable {L : Layout} {mem mem' : Nat → Bytes} {d pg perm v w x i j : Nat} {bs : Bytes}

theorem word_lt (mem : Nat → Bytes) (pg i : Nat) : word mem pg i < 2 ^ 32 := get32_lt ..

theorem word_update_of_ne (h : x ≠ pg) : word (update mem pg bs) x i = word mem x i := by
  rw [word, update_of_ne h, word]

theorem word_setWord_self (hw : w < 2 ^ 32) :
    word (update mem pg (put32 (mem pg) (4 * i) w)) pg i = w := by
  rw [word, update_self, get32_put32, Nat.mod_eq_of_lt hw]

theorem word_setWord_of_ne (h : j ≠ i) :
    word (update mem pg (put32 (mem pg) (4 * i) w)) pg j = word mem pg j := by
  rw [word, update_self, put32, get32_writeBytes_of_disjoint, word]
  rw [length_le32]
  omega

theorem word_of_zeros (h : mem pg = zeros) : word mem pg i = 0 := by
  rw [word, h]
  rfl

theorem mkPte_eq (pg : Nat) (hperm : perm < 4096) :
    mkPte (pg * pgSize) perm = pg * 4096 + (perm ||| 1) ∧ perm ||| 1 < 4096 := by
  have hlt : perm ||| 1 < 2 ^ 12 := Nat.or_lt_two_pow hperm (by decide)
  refine ⟨?_, hlt⟩
  have hor := Nat.shiftLeft_add_eq_or_of_lt hlt pg
  rw [Nat.shiftLeft_eq] at hor
  rw [mkPte, Nat.or_assoc]
  exact hor.symm

@[simp] theorem pteP_mkPte (pa perm : Nat) : pteP (mkPte pa perm) = true := by
  simp [pteP, mkPte]

theorem pteAddr_mkPte (hperm : perm < 4096) : pteAddr (mkPte (pg * pgSize) perm) = pg := by
  obtain ⟨heq, hlt⟩ := mkPte_eq pg hperm
  rw [pteAddr, heq]
  omega

theorem pteFlags_mkPte (hperm : perm < 4096) :
    pteFlags (mkPte (pg * pgSize) perm) = perm ||| 1 := by
  obtain ⟨heq, hlt⟩ := mkPte_eq pg hperm
  rw [pteFlags, heq]
  omega

theorem mkPte_lt (hperm : perm < 4096) (hpg : pg < 2 ^ 20) : mkPte (pg * pgSize) perm < 2 ^ 32 := by
  obtain ⟨heq, hlt⟩ := mkPte_eq pg hperm
  rw [heq]
  omega

theorem pteU_mkPte : pteU (mkPte (pg * pgSize) perm) = pteU perm := by
  have hpg : (pg * pgSize).testBit 2 = false := by
    rw [show pg * pgSize = pg <<< 12 from (Nat.shiftLeft_eq pg 12).symm, Nat.testBit_shiftLeft]
    rfl
  rw [pteU, mkPte, Nat.testBit_or, Nat.testBit_or, hpg]
  simp [pteU, Nat.testBit]

def entry (w : Nat) : Multiset Nat := if pteP w then {pteAddr w} else 0

theorem entry_of_present (h : pteP w = true) : entry w = {pteAddr w} := if_pos h

theorem entry_of_absent (h : pteP w = false) : entry w = 0 := by
  rw [entry, h]
  rfl

theorem mem_entry : x ∈ entry w ↔ pteP w = true ∧ pteAddr w = x := by
  rw [entry]
  split
  · next h =>
    rw [mem_singleton]
    exact ⟨fun e => ⟨h, e.symm⟩, fun e => e.2.symm⟩
  · next h => exact ⟨fun e => absurd e (Multiset.notMem_zero x), fun e => absurd e.1 h⟩

def tables (mem : Nat → Bytes) (d : Nat) : Multiset Nat :=
  Multiset.pieces npdEntries fun i => entry (word mem d i)

theorem tables_of_zeros (h : mem d = zeros) : tables mem d = 0 :=
  pieces_eq_zero fun i _ => by
    rw [word_of_zeros h]
    rfl

def HasTable (mem : Nat → Bytes) (d v : Nat) : Prop := pteP (word mem d (v / 1024)) = true

def tableOf (mem : Nat → Bytes) (d v : Nat) : Nat := pteAddr (word mem d (v / 1024))

def lookup (mem : Nat → Bytes) (d v : Nat) : Option Nat :=
  let pte := word mem (tableOf mem d v) (v % 1024)
  if pteP (word mem d (v / 1024)) && pteP pte then some pte else none

theorem lookup_of_table (h : HasTable mem d v) : lookup mem d v =
    if pteP (word mem (tableOf mem d v) (v % 1024)) then
      some (word mem (tableOf mem d v) (v % 1024)) else none := by
  rw [HasTable] at h
  simp [lookup, h]

theorem lookup_of_not_table (h : ¬ HasTable mem d v) : lookup mem d v = none := by
  rw [HasTable, Bool.not_eq_true] at h
  simp [lookup, h]

theorem lookup_eq_some : lookup mem d v = some w ↔
    HasTable mem d v ∧ word mem (tableOf mem d v) (v % 1024) = w ∧ pteP w = true := by
  by_cases h : HasTable mem d v
  · rw [lookup_of_table h]
    split
    · next hp =>
      rw [Option.some_inj]
      exact ⟨fun e => ⟨h, e, e ▸ hp⟩, fun e => e.2.1⟩
    · next hp => exact ⟨nofun, fun e => absurd (e.2.1 ▸ e.2.2) hp⟩
  · rw [lookup_of_not_table h]
    exact ⟨nofun, fun e => absurd e.1 h⟩

theorem lookup_present (h : lookup mem d v = some w) : pteP w = true := (lookup_eq_some.mp h).2.2

theorem lookup_lt (h : lookup mem d v = some w) : w < 2 ^ 32 :=
  (lookup_eq_some.mp h).2.1 ▸ word_lt ..

theorem tableOf_mem (hv : v < 2 ^ 20) (h : HasTable mem d v) : tableOf mem d v ∈ tables mem d := by
  have hi : v / 1024 < npdEntries := by
    simp only [npdEntries]
    omega
  exact mem_pieces.mpr ⟨_, hi, mem_entry.mpr ⟨h, rfl⟩⟩

/-- The directory and its page tables are different pages. -/
def TablesApart (mem : Nat → Bytes) (d : Nat) : Prop := ({d} + tables mem d).Nodup

theorem TablesApart.tableOf_ne (h : TablesApart mem d) (hv : v < 2 ^ 20) (ht : HasTable mem d v) :
    tableOf mem d v ≠ d := by
  intro e
  have hmem := tableOf_mem hv ht
  rw [e] at hmem
  exact Multiset.Nodup.notMem_right h (Multiset.mem_singleton_self d) hmem

theorem TablesApart.tableOf_inj (h : TablesApart mem d) {u : Nat} (hu : u < 2 ^ 20)
    (hv : v < 2 ^ 20) (htu : HasTable mem d u) (htv : HasTable mem d v)
    (e : tableOf mem d u = tableOf mem d v) : u / 1024 = v / 1024 := by
  have hnodup : (tables mem d).Nodup := (Multiset.nodup_add.mp h).2.1
  refine hnodup.piece_unique ?_ ?_ (mem_entry.mpr ⟨htu, rfl⟩) (mem_entry.mpr ⟨htv, e.symm⟩)
  all_goals
    simp only [npdEntries]
    omega

theorem lookup_congr (hd : mem' d = mem d) (ht : ∀ x ∈ tables mem d, mem' x = mem x)
    (hv : v < 2 ^ 20) : lookup mem' d v = lookup mem d v := by
  have hword : ∀ i, word mem' d i = word mem d i := fun i => by rw [word, hd, word]
  by_cases h : HasTable mem d v
  · have h' : HasTable mem' d v := by rwa [HasTable, hword]
    have htable : tableOf mem' d v = tableOf mem d v := by rw [tableOf, hword, tableOf]
    rw [lookup_of_table h, lookup_of_table h', htable, word, ht _ (tableOf_mem hv h), word]
  · have h' : ¬ HasTable mem' d v := by rwa [HasTable, hword]
    rw [lookup_of_not_table h, lookup_of_not_table h']

theorem tables_congr (hd : ∀ i, word mem' d i = word mem d i) : tables mem' d = tables mem d := by
  exact pieces_congr fun i _ => by rw [hd]

theorem lookup_setEntry (h : TablesApart mem d) (hv : v < 2 ^ 20) (ht : HasTable mem d v)
    (hw : w < 2 ^ 32) (hmem : mem' = update mem (tableOf mem d v)
      (put32 (mem (tableOf mem d v)) (4 * (v % 1024)) w)) :
    (∀ i, word mem' d i = word mem d i) ∧ ∀ u, u < 2 ^ 20 → lookup mem' d u =
      if u = v then if pteP w then some w else none else lookup mem d u := by
  have hword : ∀ i, word mem' d i = word mem d i := fun i => by
    rw [hmem, word_update_of_ne (h.tableOf_ne hv ht).symm]
  have htable : ∀ u, tableOf mem' d u = tableOf mem d u := fun u => by
    rw [tableOf, hword, tableOf]
  refine ⟨hword, fun u hu => ?_⟩
  by_cases htu : HasTable mem d u
  · have htu' : HasTable mem' d u := by rwa [HasTable, hword]
    rw [lookup_of_table htu', lookup_of_table htu, htable]
    by_cases huv : u = v
    · subst huv
      rw [if_pos rfl, hmem, word_setWord_self hw]
    · rw [if_neg huv]
      suffices hsame : word mem' (tableOf mem d u) (u % 1024) =
          word mem (tableOf mem d u) (u % 1024) by rw [hsame]
      rw [hmem]
      by_cases heq : tableOf mem d u = tableOf mem d v
      · have hidx := h.tableOf_inj hu hv htu ht heq
        rw [heq, word_setWord_of_ne (by omega)]
      · rw [word_update_of_ne heq]
  · have htu' : ¬ HasTable mem' d u := by rwa [HasTable, hword]
    have huv : u ≠ v := fun e => htu (e ▸ ht)
    rw [lookup_of_not_table htu', lookup_of_not_table htu, if_neg huv]

theorem lookup_newTable {T : Nat} (hT : T ∉ {d} + tables mem d) (hapart : TablesApart mem d)
    (hv : v < 2 ^ 20) (ht : ¬ HasTable mem d v) (hTlt : T < 2 ^ 20)
    (hmem : mem' = update (update mem T zeros) d
      (put32 (update mem T zeros d) (4 * (v / 1024)) (mkPte (T * pgSize) permWU))) :
    tables mem' d = tables mem d + {T} ∧ HasTable mem' d v ∧ tableOf mem' d v = T ∧
      ∀ u, u < 2 ^ 20 → lookup mem' d u = lookup mem d u := by
  have hTd : T ≠ d := fun e => hT (by simp [e])
  have hself : word mem' d (v / 1024) = mkPte (T * pgSize) permWU := by
    rw [hmem]
    exact word_setWord_self (mkPte_lt (by decide) hTlt)
  have hword : ∀ i, i ≠ v / 1024 → word mem' d i = word mem d i := fun i hi => by
    rw [hmem, word_setWord_of_ne hi, word_update_of_ne hTd.symm]
  have htable : tableOf mem' d v = T := by
    rw [tableOf, hself, pteAddr_mkPte (by decide)]
  have hhas : HasTable mem' d v := by rw [HasTable, hself, pteP_mkPte]
  refine ⟨?_, hhas, htable, fun u hu => ?_⟩
  · rw [HasTable, Bool.not_eq_true] at ht
    have hi : v / 1024 < npdEntries := by
      simp only [npdEntries]
      omega
    have hsum : tables mem' d + entry (word mem d (v / 1024)) =
        tables mem d + entry (word mem' d (v / 1024)) :=
      pieces_change (f := fun j => entry (word mem d j)) hi
        fun j _ hj => congrArg entry (hword j hj)
    rwa [hself, entry_of_absent ht, entry_of_present (pteP_mkPte _ _),
      pteAddr_mkPte (by decide), add_zero] at hsum
  · by_cases hidx : u / 1024 = v / 1024
    · have htu : ¬ HasTable mem d u := by rwa [HasTable, hidx]
      have htu' : HasTable mem' d u := by rwa [HasTable, hidx]
      have hzero : word mem' (tableOf mem' d u) (u % 1024) = 0 := by
        rw [tableOf, hidx, ← tableOf, htable]
        refine word_of_zeros ?_
        rw [hmem, update_of_ne hTd, update_self]
      rw [lookup_of_not_table htu, lookup_of_table htu', hzero]
      rfl
    · by_cases htu : HasTable mem d u
      · have htu' : HasTable mem' d u := by rwa [HasTable, hword _ hidx]
        have hne : tableOf mem d u ≠ T :=
          fun e => hT (mem_add.mpr (Or.inr (e ▸ tableOf_mem hu htu)))
        have hsame : tableOf mem' d u = tableOf mem d u := by
          rw [tableOf, hword _ hidx, tableOf]
        rw [lookup_of_table htu, lookup_of_table htu', hsame, hmem,
          word_update_of_ne (hapart.tableOf_ne hu htu), word_update_of_ne hne]
      · have htu' : ¬ HasTable mem' d u := by rwa [HasTable, hword _ hidx]
        rw [lookup_of_not_table htu, lookup_of_not_table htu']

def userPages : Nat := 2 ^ 19

def frame : Option Nat → Multiset Nat
  | some w => {pteAddr w}
  | none => 0

def frames (m : Nat → Option Nat) : Multiset Nat := Multiset.pieces userPages fun v => frame (m v)

variable {m m' : Nat → Option Nat} {F hand : Multiset Nat} {s s' : Phys} {o : Option Nat}

theorem mem_frames : x ∈ frames m ↔ ∃ v, v < userPages ∧ ∃ w, m v = some w ∧ pteAddr w = x := by
  rw [frames, mem_pieces]
  refine exists_congr fun v => and_congr_right fun _ => ?_
  cases m v with
  | none => simp [frame]
  | some w => simp [frame, eq_comm]

theorem frames_congr (h : ∀ v, v < userPages → m' v = m v) : frames m' = frames m :=
  pieces_congr fun v hv => by rw [h v hv]

theorem frames_update (hv : v < userPages) :
    frames (update m v o) + frame (m v) = frames m + frame o := by
  have hchange : frames (update m v o) + frame (m v) =
      frames m + frame (update m v o v) :=
    pieces_change (f := fun v => frame (m v)) hv
      fun u _ hu => congrArg frame (update_of_ne hu ..)
  rwa [update_self] at hchange

theorem frames_update_of_le (hv : userPages ≤ v) : frames (update m v o) = frames m :=
  frames_congr fun u hu => update_of_ne (by omega) ..

theorem frames_eq_zero (h : ∀ v, v < userPages → m v = none) : frames m = 0 :=
  pieces_eq_zero fun v hv => by
    rw [h v hv]
    rfl

/-- Different pages that `kalloc` can hand out. -/
structure Pool (L : Layout) (F : Multiset Nat) : Prop where
  nodup : F.Nodup
  range : ∀ x ∈ F, L.endPage ≤ x ∧ x < L.physTop

/-- `d` is a directory with the map `m`. The pages `F` are the free pages, the pages in hand and the
pages of the directory. -/
structure Dir (F : Multiset Nat) (s : Phys) (d : Nat) (hand : Multiset Nat)
    (m : Nat → Option Nat) : Prop where
  map : ∀ v, v < 2 ^ 20 → lookup s.mem d v = m v
  pages : (s.freelist : Multiset Nat) + hand + ({d} + tables s.mem d + frames m) = F

/-- The pages outside `F` and the pages `K` are as they were. -/
def Still (F K : Multiset Nat) (s s' : Phys) : Prop := ∀ x, x ∉ F ∨ x ∈ K → s'.mem x = s.mem x

theorem Still.trans {K K' : Multiset Nat} {s₁ s₂ s₃ : Phys} (h₁ : Still F K s₁ s₂)
    (h₂ : Still F K' s₂ s₃) (hK : ∀ x ∈ K', x ∈ K) : Still F K' s₁ s₃ := by
  intro x hx
  rw [h₂ x hx, h₁ x (hx.imp_right (hK x))]

/-- The page tables of directory `d` are still where they were. -/
def TablesKept (mem mem' : Nat → Bytes) (d : Nat) : Prop :=
  ∀ i, pteP (word mem d i) = true → word mem' d i = word mem d i

theorem TablesKept.of_eq (h : mem' d = mem d) : TablesKept mem mem' d := fun i _ => by
  rw [word, h, word]

theorem TablesKept.trans {mem'' : Nat → Bytes} (h : TablesKept mem mem' d)
    (h' : TablesKept mem' mem'' d) : TablesKept mem mem'' d := fun i hi => by
  rw [h' i (by rwa [h i hi]), h i hi]

theorem Pool.le_kernBase (hF : Pool L F) (hx : x ∈ F) : x * pgSize ≤ kernBase := by
  have h₁ := (hF.range x hx).2
  have h₂ := L.top_le
  simp only [pgSize, kernBase, devSpace] at h₂ ⊢
  omega

theorem Pool.lt (hF : Pool L F) (hx : x ∈ F) : x < 2 ^ 20 := by
  have h := hF.le_kernBase hx
  simp only [pgSize, kernBase] at h
  omega

theorem Dir.count (hF : Pool L F) (h : Dir F s d hand m) (x : Nat) :
    (s.freelist : Multiset Nat).count x + hand.count x + (({d} : Multiset Nat).count x +
      (tables s.mem d).count x + (frames m).count x) ≤ 1 := by
  have hcount := Multiset.nodup_iff_count_le_one.mp hF.nodup x
  rwa [← h.pages, count_add, count_add, count_add, count_add]
    at hcount

theorem Dir.congr (h : Dir F s d hand m) (hmem : s'.mem = s.mem) (hfree : s'.freelist = s.freelist) :
    Dir F s' d hand m :=
  ⟨fun v hv => by rw [hmem, h.map v hv], by rw [hmem, hfree, h.pages]⟩

theorem Dir.congr_map (h : Dir F s d hand m) (hm : ∀ v, v < 2 ^ 20 → m' v = m v) :
    Dir F s d hand m' := by
  refine ⟨fun v hv => by rw [h.map v hv, hm v hv], ?_⟩
  rw [frames_congr fun v hv => hm v (by rw [userPages] at hv; omega), h.pages]

theorem Dir.apart (hF : Pool L F) (h : Dir F s d hand m) : TablesApart s.mem d := by
  rw [TablesApart]
  refine Multiset.nodup_of_le ?_ hF.nodup
  rw [← h.pages]
  exact (Multiset.le_add_right _ _).trans (Multiset.le_add_left _ _)

variable (h : Dir F s d hand m)

include h

theorem Dir.mem_of_table (hx : x ∈ tables s.mem d) : x ∈ F := by
  rw [← h.pages]
  simp [hx]

theorem Dir.mem_of_frame (hx : x ∈ frames m) : x ∈ F := by
  rw [← h.pages]
  simp [hx]

theorem Dir.mem_of_free (hx : x ∈ s.freelist) : x ∈ F := by
  rw [← h.pages]
  simp [hx]

theorem Dir.mem_of_hand (hx : x ∈ hand) : x ∈ F := by
  rw [← h.pages]
  simp [hx]

theorem Dir.mem_of_dir : d ∈ F := by
  rw [← h.pages]
  simp

omit h

theorem Dir.kept (hF : Pool L F) (h : Dir F s d hand m) (hx : x ∉ F ∨ x ∈ hand + frames m) :
    x ∉ s.freelist ∧ x ≠ d ∧ x ∉ tables s.mem d := by
  rcases hx with hx | hx
  · exact ⟨fun hf => hx (h.mem_of_free hf), fun e => hx (e ▸ h.mem_of_dir),
      fun ht => hx (h.mem_of_table ht)⟩
  · have hcount := h.count hF x
    have hpos : 0 < hand.count x + (frames m).count x := by
      rw [← count_add]
      exact count_pos.mpr hx
    refine ⟨fun hf => ?_, fun e => ?_, fun ht => ?_⟩
    · have := count_pos.mpr (mem_coe.mpr hf)
      omega
    · have := count_pos.mpr (mem_singleton.mpr e)
      omega
    · have := count_pos.mpr ht
      omega

end Xv6.Vm
