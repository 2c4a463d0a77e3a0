import Xv6.Vm.Map

/-!
# Freeing pages and page directories

`deallocuvm` unmaps the pages of a range and frees them, each of them once. It skips the addresses
of a page table that does not exist. `freevm` gives back all pages of a directory. With it
`setupkvm` makes a directory with the kernel's part only, or leaves the free pages as they were.
-/

namespace Xv6.Vm

open Bytes Hoare
open Function (update update_self update_of_ne update_eq_self)
open Multiset (mem_add mem_cons_self count_pos count_add cons_coe singleton_add
  count_singleton_self coe_nil)

variable {L : Layout} {d pg v w x u : Nat} {m m' : Nat → Option Nat} {F hand : Multiset Nat}
  {s s' : Phys}

def cut (m : Nat → Option Nat) (lo hi : Nat) : Nat → Option Nat :=
  fun v => if lo ≤ v ∧ v < hi then none else m v

variable {lo hi : Nat}

theorem cut_of_le (h : hi ≤ lo) : cut m lo hi = m := by
  funext v
  rw [cut, if_neg (by omega)]

theorem cut_update (h : lo < hi) : cut (update m lo none) (lo + 1) hi = cut m lo hi := by
  funext v
  rw [cut, cut]
  by_cases hlo : v = lo
  · subst hlo
    rw [if_neg (by omega), if_pos (by omega), update_self]
  · rw [update_of_ne hlo]
    by_cases hin : lo + 1 ≤ v ∧ v < hi
    · rw [if_pos hin, if_pos (by omega)]
    · rw [if_neg hin, if_neg (by omega)]

theorem mem_frames_cut (h : x ∈ frames (cut m lo hi)) : x ∈ frames m := by
  obtain ⟨v, hv, w, hw, hx⟩ := mem_frames.mp h
  rw [cut] at hw
  split at hw
  · exact absurd hw (by simp)
  · exact mem_frames.mpr ⟨v, hv, w, hw, hx⟩

/-- The directory has the map `m'` in the end, and the pages in hand and of `m'` are as they
were. -/
structure Leads (F : Multiset Nat) (s : Phys) (d : Nat) (hand : Multiset Nat)
    (m' : Nat → Option Nat) (s' : Phys) : Prop where
  still : Still F (hand + frames m') s s'
  fail : s'.fail = s.fail
  kept : TablesKept s.mem s'.mem d
  dir : Dir F s' d hand m'

theorem Leads.refl (h : Dir F s d hand m) : Leads F s d hand m s :=
  ⟨fun _ _ => rfl, rfl, .of_eq rfl, h⟩

theorem Leads.trans {s₁ : Phys} (h₁ : Leads F s d hand m s₁) (h₂ : Leads F s₁ d hand m' s')
    (hsub : ∀ x ∈ frames m', x ∈ frames m) : Leads F s d hand m' s' where
  still := h₁.still.trans h₂.still fun x hx =>
    mem_add.mpr ((mem_add.mp hx).imp_right (hsub x))
  fail := h₂.fail.trans h₁.fail
  kept := h₁.kept.trans h₂.kept
  dir := h₂.dir

theorem Dir.freePage {bs : Bytes} (hF : Pool L F) (h : Dir F s d (pg ::ₘ hand) m)
    (hmem : s'.mem = update s.mem pg bs) (hfree : s'.freelist = pg :: s.freelist)
    (hfail : s'.fail = s.fail) : Leads F s d hand m s' := by
  have hpg : pg ∈ (pg ::ₘ hand) + frames m := by simp
  obtain ⟨-, hne, hnt⟩ := h.kept hF (Or.inr hpg)
  have hd : s'.mem d = s.mem d := by rw [hmem, update_of_ne hne.symm]
  have hword : ∀ i, word s'.mem d i = word s.mem d i := fun i => by rw [word, hd, word]
  refine ⟨fun x hx => ?_, hfail, .of_eq hd, fun v hv => ?_, ?_⟩
  · -- the page is not among those that are kept
    have hxpg : x ≠ pg := by
      rintro rfl
      rcases hx with hx | hx
      · exact hx (h.mem_of_hand (mem_cons_self ..))
      · have hcount := h.count hF x
        have hpos := count_pos.mpr hx
        rw [count_add] at hpos
        rw [Multiset.count_cons_self] at hcount
        omega
    rw [hmem, update_of_ne hxpg]
  · rw [lookup_congr hd (fun x hx => ?_) hv, h.map v hv]
    have hxpg : x ≠ pg := fun e => hnt (e ▸ hx)
    rw [hmem, update_of_ne hxpg]
  · rw [← h.pages, tables_congr hword, hfree]
    simp only [← cons_coe, ← singleton_add]
    abel

theorem Dir.wp_kfree (hF : Pool L F) (h : Dir F s d (pg ::ₘ hand) m) :
    wp (kfree L pg) (fun _ => Leads F s d hand m) (fun _ => False) s := by
  rw [Vm.wp_kfree (hF.range pg (h.mem_of_hand (mem_cons_self ..)))]
  exact h.freePage hF rfl rfl rfl

theorem Dir.unmap (hF : Pool L F) (h : Dir F s d hand m) (hv : v < userPages)
    (hm : m v = some w) (s' : Phys) (hmem : s'.mem = update (update s.mem (pteAddr w) fun _ => 1)
      (tableOf s.mem d v) (put32 (update s.mem (pteAddr w) (fun _ => 1)
        (tableOf s.mem d v)) (4 * (v % 1024)) 0))
    (hfree : s'.freelist = pteAddr w :: s.freelist) (hfail : s'.fail = s.fail) :
    Leads F s d hand (update m v none) s' := by
  have hlt : v < 2 ^ 20 := by
    rw [userPages] at hv
    omega
  obtain ⟨ht, -, -⟩ := lookup_eq_some.mp ((h.map v hlt).trans hm)
  have hx : pteAddr w ∈ hand + frames m :=
    mem_add.mpr (Or.inr (mem_frames.mpr ⟨v, hv, w, hm, rfl⟩))
  have hTx : tableOf s.mem d v ≠ pteAddr w := by
    intro e
    exact (h.kept hF (Or.inr hx)).2.2 (e ▸ tableOf_mem hlt ht)
  -- clear the entry first: the page is in hand then
  have h0 : (if pteP 0 then some 0 else none) = (none : Option Nat) := rfl
  have hframes : frames (update m v none) + {pteAddr w} = frames m := by
    have hchange := frames_update (m := m) (o := none) hv
    rw [hm] at hchange
    exact hchange.trans (add_zero _)
  set s₁ : Phys := { s with
    mem := update s.mem (tableOf s.mem d v)
      (put32 (s.mem (tableOf s.mem d v)) (4 * (v % 1024)) 0) } with hs₁
  obtain ⟨h₁, hstill₁, hkept₁⟩ := h.setEntry (pteAddr w ::ₘ hand) s₁ (w := 0) hF hlt ht
    (by decide) rfl rfl (by
      rw [h0, ← hframes, ← singleton_add]
      abel)
  rw [h0] at h₁
  have hmem₁ : s'.mem = update s₁.mem (pteAddr w) fun _ => 1 := by
    rw [hmem, update_of_ne hTx, Function.update_comm hTx]
  obtain ⟨hstill₂, hfail₂, hkept₂, h₂⟩ := h₁.freePage hF hmem₁ hfree hfail
  refine ⟨hstill₁.trans hstill₂ fun x hx => ?_, hfail, hkept₁.trans hkept₂, h₂⟩
  rw [← hframes]
  rw [mem_add] at hx ⊢
  exact hx.imp_right fun hx => mem_add.mpr (Or.inl hx)

def pagesUp (sz : Nat) : Nat := (sz + pgSize - 1) / pgSize

theorem userPages_le {v : Nat} (h : v < userPages) : v < 2 ^ 20 := by
  rw [userPages] at h
  omega

section

variable (L)

/-- Free the page of an entry that is present, and clear the entry. -/
def freeEntry (pgtab i : Nat) : PhysM Unit := do
  let pte ← getWord pgtab i
  if pteP pte then
    if pteAddr pte = 0 then panic "kfree"
    else
      let v ← p2v (pteAddr pte)
      kfree L v
      setWord pgtab i 0
  else return ()

def freePageAt (pgdir a : Nat) : PhysM Unit := do
  match ← walkpgdir pgdir a false with
  | none => return ()
  | some (pgtab, i) => freeEntry L pgtab i

def visitPages (pgdir : Nat) : List Nat → PhysM Unit
  | [] => return ()
  | v :: vs => do
    freePageAt L pgdir (v * pgSize)
    visitPages pgdir vs

end

theorem walkpgdir_of_absent (h : pteP (word s.mem d (pdx u)) = false) :
    walkpgdir d u false s = .ok (none, s) := by
  have hget : getWord d (pdx u) s = .ok (word s.mem d (pdx u), s) := rfl
  simp only [walkpgdir, bind, StateT.bind, Except.bind, hget, h]
  rfl

theorem walkpgdir_of_present (h : pteP (word s.mem d (pdx u)) = true) :
    walkpgdir d u false s = if pteAddr (word s.mem d (pdx u)) * pgSize > kernBase then
      .error (.panic "P2V on address > KERNBASE")
    else .ok (some (pteAddr (word s.mem d (pdx u)), ptx u), s) := by
  have hget : getWord d (pdx u) s = .ok (word s.mem d (pdx u), s) := rfl
  simp only [walkpgdir, bind, StateT.bind, Except.bind, hget, h, if_true, p2v]
  by_cases hle : pteAddr (word s.mem d (pdx u)) * pgSize > kernBase
  · rw [if_pos hle, if_pos hle]
    rfl
  · rw [if_neg hle, if_neg hle]
    rfl

theorem freeEntry_bind {pgtab i : Nat} (k : PhysM Unit) :
    (freeEntry L pgtab i >>= fun _ => k) = (do
      let pte ← getWord pgtab i
      if pteP pte then
        if pteAddr pte = 0 then panic "kfree"
        else
          let v ← p2v (pteAddr pte)
          kfree L v
          setWord pgtab i 0
          k
      else k) := by
  rw [freeEntry, bind_assoc]
  refine bind_congr fun pte => ?_
  split
  · split
    · rfl
    · simp only [bind_assoc]
  · rw [pure_bind]

variable {oldsz n a : Nat}

/-- Where there is a page table the loop does what the plain loop does. -/
theorem deallocLoop_of_present (ha : a < oldsz) (h : pteP (word s.mem d (pdx a)) = true) :
    deallocLoop L d oldsz (n + 1) a s =
      (freePageAt L d a >>= fun _ => deallocLoop L d oldsz n ((a + pgSize) % 2 ^ 32)) s := by
  have hwalk := walkpgdir_of_present h
  rw [deallocLoop, if_pos ha, freePageAt, bind_assoc]
  simp only [bind, StateT.bind, Except.bind, hwalk]
  by_cases hle : pteAddr (word s.mem d (pdx a)) * pgSize > kernBase
  · rw [if_pos hle]
  · rw [if_neg hle]
    exact congrFun (freeEntry_bind _).symm s

theorem visitPages_skip {vs vs' : List Nat}
    (h : ∀ v ∈ vs, pteP (word s.mem d (pdx (v * pgSize))) = false) :
    visitPages L d (vs ++ vs') s = visitPages L d vs' s := by
  induction vs with
  | nil => rfl
  | cons v vs ih =>
    have hwalk := walkpgdir_of_absent (h v List.mem_cons_self)
    have hpass : freePageAt L d (v * pgSize) s = .ok ((), s) := by
      simp only [freePageAt, bind, StateT.bind, Except.bind, hwalk]
      rfl
    rw [List.cons_append, visitPages]
    simp only [bind, StateT.bind, Except.bind, hpass]
    exact ih fun v hv => h v (List.mem_cons_of_mem _ hv)

theorem range'_split (a b c : Nat) (hab : a ≤ b) :
    List.range' a (c - a) = List.range' a (min b c - a) ++ List.range' b (c - b) := by
  by_cases hbc : b ≤ c
  · have happend : List.range' a (b - a) ++ List.range' (a + 1 * (b - a)) (c - b) =
        List.range' a (b - a + (c - b)) := List.range'_append
    rw [Nat.min_eq_left hbc, show c - a = b - a + (c - b) by omega, ← happend,
      show a + 1 * (b - a) = b by omega]
  · rw [Nat.min_eq_right (by omega), show c - b = 0 by omega, List.range'_zero, List.append_nil]

theorem deallocLoop_eq (hold : oldsz ≤ kernBase) (hn : oldsz ≤ (u + n) * pgSize) :
    deallocLoop L d oldsz n (u * pgSize) s =
      visitPages L d (List.range' u (pagesUp oldsz - u)) s := by
  induction n generalizing s u with
  | zero =>
    have hdone : pagesUp oldsz - u = 0 := by
      simp only [pagesUp, pgSize] at hn ⊢
      omega
    rw [deallocLoop, if_neg (by rw [Nat.add_zero] at hn; omega), hdone]
    rfl
  | succ n ih =>
    by_cases hlt : u * pgSize < oldsz
    · have hu : u < userPages := by
        simp only [userPages, pgSize, kernBase] at *
        omega
      have hin : u < pagesUp oldsz := by
        simp only [pagesUp, pgSize] at *
        omega
      have hva : u * pgSize < 2 ^ 32 := by
        simp only [pgSize, kernBase] at *
        omega
      cases htable : pteP (word s.mem d (pdx (u * pgSize))) with
      | true =>
        have hnext : (u * pgSize + pgSize) % 2 ^ 32 = (u + 1) * pgSize := by
          simp only [pgSize, userPages] at *
          omega
        rw [deallocLoop_of_present hlt htable, hnext,
          show pagesUp oldsz - u = pagesUp oldsz - (u + 1) + 1 by omega, List.range'_succ,
          visitPages]
        refine congrFun (bind_congr fun _ => funext fun s' => ih ?_) s
        rwa [show u + 1 + n = u + (n + 1) by omega]
      | false =>
        -- the jump goes to the first page of the next page table
        have hskip : (pdx (u * pgSize) + 1) * 2 ^ 22 % 2 ^ 32 = (u / 1024 + 1) * 1024 * pgSize := by
          rw [pdx_eq hva, Nat.mul_div_cancel _ (by decide)]
          simp only [pgSize, userPages] at *
          omega
        have hwalk := walkpgdir_of_absent htable
        have hpass : ∀ v ∈ List.range' u (min ((u / 1024 + 1) * 1024) (pagesUp oldsz) - u),
            pteP (word s.mem d (pdx (v * pgSize))) = false := by
          intro v hv
          obtain ⟨hle, hv⟩ := List.mem_range'_1.mp hv
          rw [userPages] at hu
          have hvb : v * pgSize < 2 ^ 32 := by
            rw [pgSize]
            omega
          have hslot : pdx (v * pgSize) = pdx (u * pgSize) := by
            rw [pdx_eq hva, pdx_eq hvb, Nat.mul_div_cancel _ (by decide),
              Nat.mul_div_cancel _ (by decide)]
            omega
          rw [hslot, htable]
        rw [deallocLoop, if_pos hlt]
        simp only [bind, StateT.bind, Except.bind, hwalk]
        rw [hskip, ih (hn.trans (Nat.mul_le_mul_right _ (by omega))),
          range'_split u ((u / 1024 + 1) * 1024) (pagesUp oldsz) (by omega)]
        exact (visitPages_skip hpass).symm
    · have hdone : pagesUp oldsz - u = 0 := by
        simp only [pagesUp, pgSize] at hlt ⊢
        omega
      rw [deallocLoop, if_neg hlt, hdone]
      rfl

theorem deallocLoop_pages {newsz : Nat} (hold : oldsz ≤ kernBase) :
    deallocLoop L d oldsz (Vm.pages (pagesUp newsz * pgSize) oldsz) (pagesUp newsz * pgSize) =
      visitPages L d (List.range' (pagesUp newsz) (pagesUp oldsz - pagesUp newsz)) := by
  funext s
  refine deallocLoop_eq hold ?_
  simp only [Vm.pages, pgSize]
  omega

def entryAt (mem : Nat → Bytes) (d v : Nat) : Option Nat :=
  if pteP (word mem d (v / 1024)) then some (word mem (tableOf mem d v) (v % 1024)) else none

def framesAt (m : Nat → Option Nat) (vs : List Nat) : List Nat :=
  vs.filterMap fun v => (m v).map pteAddr

theorem entryAt_clear {mem mem' : Nat → Bytes} {bs : Bytes} (hapart : TablesApart mem d)
    (hxd : x ≠ d) (hxt : x ∉ tables mem d) (hv : v < 2 ^ 20) (ht : HasTable mem d v)
    (hmem : mem' = update (update mem x bs) (tableOf mem d v)
      (put32 (update mem x bs (tableOf mem d v)) (4 * (v % 1024)) 0)) :
    mem' d = mem d ∧ ∀ u, u < 2 ^ 20 →
      entryAt mem' d u = if u = v then some 0 else entryAt mem d u := by
  have hd : mem' d = mem d := by
    rw [hmem, update_of_ne (hapart.tableOf_ne hv ht).symm, update_of_ne hxd.symm]
  have hword : ∀ i, word mem' d i = word mem d i := fun i => by rw [word, hd, word]
  have htable : ∀ u, tableOf mem' d u = tableOf mem d u := fun u => by
    rw [tableOf, hword, tableOf]
  refine ⟨hd, fun u hu => ?_⟩
  rw [entryAt, entryAt, hword, htable]
  by_cases htu : HasTable mem d u
  · rw [HasTable] at htu
    rw [if_pos htu, if_pos htu]
    have hne : tableOf mem d u ≠ x := fun e => hxt (e ▸ tableOf_mem hu htu)
    by_cases huv : u = v
    · subst huv
      rw [if_pos rfl, hmem]
      exact congrArg some (word_setWord_self (by decide))
    · rw [if_neg huv, hmem]
      by_cases heq : tableOf mem d u = tableOf mem d v
      · have hslot := hapart.tableOf_inj hu hv htu ht heq
        rw [heq, word_setWord_of_ne (by omega), word_update_of_ne (heq ▸ hne)]
      · rw [word_update_of_ne heq, word_update_of_ne hne]
  · rw [HasTable] at htu
    have huv : u ≠ v := fun e => htu (e ▸ ht)
    rw [if_neg htu, if_neg htu, if_neg huv]

theorem Dir.wp_freePageAt (hF : Pool L F) (h : Dir F s d hand m) (hv : v < userPages) :
    wp (freePageAt L d (v * pgSize)) (fun _ s' =>
      Leads F s d hand (update m v none) s' ∧ s'.mem d = s.mem d ∧
      s'.freelist = (framesAt m [v]).reverse ++ s.freelist ∧
      ∀ u, u < 2 ^ 20 → entryAt s'.mem d u =
        if u = v ∧ (m v).isSome then some 0 else entryAt s.mem d u) (fun _ => False) s := by
  have hlt := userPages_le hv
  have hva : v * pgSize < 2 ^ 32 := by
    rw [pgSize]
    omega
  have hdiv : v * pgSize / pgSize = v := Nat.mul_div_cancel _ (by decide)
  -- nothing is mapped there
  have hnone : m v = none → Leads F s d hand (update m v none) s ∧ s.mem d = s.mem d ∧
      s.freelist = (framesAt m [v]).reverse ++ s.freelist ∧
      ∀ u, u < 2 ^ 20 → entryAt s.mem d u =
        if u = v ∧ (m v).isSome then some 0 else entryAt s.mem d u := by
    intro hm
    refine ⟨?_, rfl, by simp [framesAt, hm], fun u _ => by simp [hm]⟩
    rw [← hm, update_eq_self]
    exact .refl h
  rw [freePageAt, wp_bind]
  by_cases ht : HasTable s.mem d v
  · rw [wp_walkpgdir_of_table hva (by rwa [hdiv])
      (by rw [hdiv]; exact hF.le_kernBase (h.mem_of_table (tableOf_mem hlt ht))), hdiv]
    change wp (freeEntry L (tableOf s.mem d v) (v % 1024)) _ _ _
    rw [freeEntry, wp_bind, wp_getWord]
    have hlookup := (lookup_of_table ht).symm.trans (h.map v hlt)
    refine wp_ite (fun hp => ?_) fun hp => ?_
    · rw [if_pos hp] at hlookup
      set w := word s.mem (tableOf s.mem d v) (v % 1024) with hw
      have hx : pteAddr w ∈ F := h.mem_of_frame (mem_frames.mpr ⟨v, hv, _, hlookup.symm, rfl⟩)
      have hpos : pteAddr w ≠ 0 := by
        have := (hF.range _ hx).1
        have := L.end_pos
        omega
      rw [if_neg hpos, wp_bind, wp_p2v (hF.le_kernBase hx), wp_bind,
        Vm.wp_kfree (hF.range _ hx), wp_setWord]
      obtain ⟨-, hnd, hnt⟩ := h.kept hF (Or.inr (mem_add.mpr (Or.inr
        (mem_frames.mpr ⟨v, hv, _, hlookup.symm, rfl⟩))))
      obtain ⟨hdir, hentries⟩ := entryAt_clear (h.apart hF) hnd hnt hlt ht
        (rfl : update (update s.mem (pteAddr w) fun _ => 1)
          (tableOf s.mem d v) _ = _)
      refine ⟨?_, hdir, ?_, fun u hu => ?_⟩
      · exact h.unmap hF hv hlookup.symm { s with
          mem := update (update s.mem (pteAddr w) fun _ => 1)
            (tableOf s.mem d v) (put32 (update s.mem (pteAddr w) (fun _ => 1)
              (tableOf s.mem d v)) (4 * (v % 1024)) 0)
          freelist := pteAddr w :: s.freelist } rfl rfl rfl
      · simp [framesAt, ← hlookup]
      · rw [hentries u hu, ← hlookup]
        simp
    · rw [if_neg hp] at hlookup
      rw [wp_pure]
      exact hnone hlookup.symm
  · rw [wp_walkpgdir_of_not_table hva (by rwa [hdiv]), wp_pure]
    refine hnone ?_
    rw [← h.map v hlt, lookup_of_not_table ht]

theorem Dir.wp_visitPages (hF : Pool L F) (h : Dir F s d hand m) (hn : u + n ≤ userPages) :
    wp (visitPages L d (List.range' u n)) (fun _ s' => Leads F s d hand (cut m u (u + n)) s' ∧
      s'.mem d = s.mem d ∧
      s'.freelist = (framesAt m (List.range' u n)).reverse ++ s.freelist ∧
      ∀ v, v < 2 ^ 20 → entryAt s'.mem d v =
        if v ∈ List.range' u n ∧ (m v).isSome then some 0 else entryAt s.mem d v)
      (fun _ => False) s := by
  induction n generalizing s m u with
  | zero =>
    rw [List.range'_zero, visitPages, wp_pure, cut_of_le (Nat.add_zero u).le]
    exact ⟨.refl h, rfl, rfl, fun v _ => by simp⟩
  | succ n ih =>
    rw [List.range'_succ, visitPages]
    refine (h.wp_freePageAt hF (by omega)).bind ?_
    rintro _ s₁ ⟨h₁, hd₁, hfree₁, hentries₁⟩
    refine (ih h₁.dir (by omega)).mono ?_ fun _ => False.elim
    rintro _ s' ⟨h₂, hd, hfree, hentries⟩
    have hu : u ∉ List.range' (u + 1) n := by simp
    have hframes : framesAt (update m u none) (List.range' (u + 1) n) =
        framesAt m (List.range' (u + 1) n) :=
      List.filterMap_congr fun v hv => by
        rw [update_of_ne (ne_of_mem_of_not_mem hv hu)]
    rw [show u + 1 + n = u + (n + 1) by omega] at h₂
    rw [← cut_update (by omega)]
    refine ⟨h₁.trans h₂ fun x => mem_frames_cut, hd.trans hd₁, ?_, fun v hv => ?_⟩
    · rw [hfree, hfree₁, hframes, ← List.append_assoc, ← List.reverse_append, framesAt, framesAt,
        framesAt, ← List.filterMap_append, List.singleton_append]
    · rw [hentries v hv, hentries₁ v hv]
      by_cases hvu : v = u
      · subst hvu
        rw [if_neg (fun h => hu h.1)]
        simp
      · rw [update_of_ne hvu]
        simp [hvu]

theorem pgRoundUp_eq (h : a ≤ kernBase) : pgRoundUp a = pagesUp a * pgSize := by
  simp only [pgRoundUp, pagesUp, pgSize, kernBase] at *
  omega

theorem pagesUp_mono {b : Nat} (h : a ≤ b) : pagesUp a ≤ pagesUp b := by
  simp only [pagesUp, pgSize]
  omega

/-- **`deallocuvm` frees the mapped pages between the two sizes.** -/
theorem Dir.wp_deallocuvm (hF : Pool L F) {newsz : Nat} (hold : oldsz ≤ kernBase)
    (h : Dir F s d hand m) :
    wp (deallocuvm L d oldsz newsz) (fun r s' => r = (if newsz ≥ oldsz then oldsz else newsz) ∧
      Leads F s d hand (cut m (pagesUp newsz) (pagesUp oldsz)) s') (fun _ => False) s := by
  rw [deallocuvm]
  refine wp_ite (fun hge => ?_) fun hlt => ?_
  · rw [wp_pure, if_pos hge, cut_of_le (pagesUp_mono hge)]
    exact ⟨rfl, .refl h⟩
  · rw [if_neg hlt, pgRoundUp_eq (by omega)]
    have hend : pagesUp newsz + (pagesUp oldsz - pagesUp newsz) = pagesUp oldsz :=
      Nat.add_sub_cancel' (pagesUp_mono (by omega))
    rw [deallocLoop_pages hold]
    refine (h.wp_visitPages hF (hend.trans_le ?_)).bind fun _ s' hs' => ⟨rfl, hend ▸ hs'.1⟩
    simp only [pagesUp, userPages, pgSize, kernBase] at *
    omega

theorem wp_freeTables (hF : Pool L F) {is : List Nat} (hpages : (s.freelist : Multiset Nat) + hand +
      ({d} + (is.map fun i => entry (word s.mem d i)).sum) = F) :
    wp (freeTables L d is) (fun _ s' => Still F hand s s' ∧ s'.fail = s.fail ∧
      (s'.freelist : Multiset Nat) + hand + {d} = F) (fun _ => False) s := by
  induction is generalizing s with
  | nil =>
    rw [freeTables, wp_pure]
    rw [List.map_nil, List.sum_nil, add_zero] at hpages
    exact ⟨fun _ _ => rfl, rfl, hpages⟩
  | cons i is ih =>
    rw [freeTables, wp_bind, wp_getWord]
    rw [List.map_cons, List.sum_cons] at hpages
    refine wp_ite (fun hp => ?_) fun hp => ?_
    · rw [entry_of_present hp] at hpages
      set x := pteAddr (word s.mem d i) with hx
      have hxF : x ∈ F := by
        rw [← hpages]
        simp
      have hcount := Multiset.nodup_iff_count_le_one.mp hF.nodup
      have hxd : d ≠ x := by
        intro e
        have := hcount x
        rw [← hpages, ← e] at this
        simp only [count_add, count_singleton_self] at this
        omega
      rw [wp_bind, wp_p2v (hF.le_kernBase hxF), wp_bind, Vm.wp_kfree (hF.range x hxF)]
      have hword : ∀ j, word (update s.mem x fun _ => 1) d j = word s.mem d j :=
        fun j => word_update_of_ne hxd
      refine (ih ?_).mono (fun _ s' => ?_) fun _ => False.elim
      · rw [← hpages]
        simp only [hword, ← cons_coe, ← singleton_add]
        abel
      · rintro ⟨hstill, hfail, hfree⟩
        refine ⟨fun y hy => ?_, hfail, hfree⟩
        have hyx : y ≠ x := by
          intro e
          rw [e] at hy
          rcases hy with hy | hy
          · exact hy hxF
          · have := hcount x
            have hpos := count_pos.mpr hy
            rw [← hpages] at this
            simp only [count_add, count_singleton_self] at this
            omega
        rw [hstill y hy]
        exact update_of_ne hyx ..
    · rw [Bool.not_eq_true] at hp
      rw [entry_of_absent hp, zero_add] at hpages
      exact ih hpages

/-- **`freevm` gives back all pages of a directory.** -/
theorem Dir.wp_freevm (hF : Pool L F) (h : Dir F s d hand m) :
    wp (freevm L d) (fun _ s' => Still F hand s s' ∧ s'.fail = s.fail ∧
      (s'.freelist : Multiset Nat) + hand = F) (fun _ => False) s := by
  -- names for the numbers keep the loops from being unfolded
  obtain ⟨top, htop⟩ : ∃ top, kernBase = top := ⟨_, rfl⟩
  obtain ⟨n, hn⟩ : ∃ n, npdEntries = n := ⟨_, rfl⟩
  rw [freevm, htop, hn]
  refine (h.wp_deallocuvm hF htop.ge).bind ?_
  rintro _ s₁ ⟨-, h₁⟩
  have hframes : frames (cut m (pagesUp 0) (pagesUp top)) = 0 := by
    rw [← htop]
    exact frames_eq_zero fun v hv => if_pos ⟨Nat.zero_le v, hv⟩
  have hpages := h₁.dir.pages
  have hstill := h₁.still
  rw [hframes, add_zero] at hstill
  rw [hframes, add_zero, tables, hn, Multiset.pieces_eq_sum] at hpages
  refine (wp_freeTables hF hpages).bind ?_
  rintro _ s₂ ⟨hstill₂, hfail₂, hfree₂⟩
  have hd : d ∈ F := h.mem_of_dir
  rw [Vm.wp_kfree (hF.range d hd)]
  refine ⟨fun x hx => ?_, hfail₂.trans h₁.fail, ?_⟩
  · have hxd : x ≠ d := by
      rintro rfl
      rcases hx with hx | hx
      · exact hx hd
      · have hcount := Multiset.nodup_iff_count_le_one.mp hF.nodup x
        have hpos := count_pos.mpr hx
        rw [← hfree₂, count_add, count_add, count_singleton_self]
          at hcount
        omega
    rw [← hstill x hx, ← hstill₂ x hx]
    exact update_of_ne hxd ..
  · rw [← hfree₂]
    simp only [← cons_coe, ← singleton_add]
    abel

theorem dir_of_zeros {rest : List Nat} (hpages : (s.freelist : Multiset Nat) + hand = F)
    (hfree : s.freelist = d :: rest) (hmem : s'.mem = update s.mem d zeros)
    (hfree' : s'.freelist = rest) : Dir F s' d hand fun _ => none := by
  have hzeros : s'.mem d = zeros := by rw [hmem, update_self]
  refine ⟨fun v _ => lookup_of_not_table ?_, ?_⟩
  · rw [HasTable, word_of_zeros hzeros]
    decide
  · rw [tables_of_zeros hzeros, frames_eq_zero fun _ _ => rfl, ← hpages, hfree, hfree']
    simp only [← cons_coe, ← singleton_add]
    abel

/-- **`setupkvm` makes a directory with the kernel's part, or fails and changes nothing.** -/
theorem wp_setupkvm (hF : Pool L F) (hpages : (s.freelist : Multiset Nat) + hand = F) :
    wp (setupkvm L) (fun r s' => Still F hand s s' ∧ s'.fail = s.fail ∧ match r with
      | none => (s'.freelist : Multiset Nat) + hand = F ∧ Short F s hand.card
      | some d => Dir F s' d hand (kernelMap L)) (fun _ => False) s := by
  rw [setupkvm, wp_bind]
  refine wp_kalloc (fun hfail => ?_) fun d rest hfree => ?_
  · refine ⟨fun _ _ => rfl, rfl, hpages, hfail.imp_right fun hnil => ?_⟩
    rw [← hpages, hnil]
    simp only [coe_nil, zero_add]
    omega
  · set s₁ : Phys := { s with
      mem := update s.mem d zeros
      freelist := rest
      calls := s.calls + 1 } with hs₁
    have h₁ : Dir F s₁ d hand fun _ => none := dir_of_zeros hpages hfree rfl rfl
    have hframes : frames (fun _ => none) = 0 := frames_eq_zero fun _ _ => rfl
    have hstill₁ : Still F hand s s₁ := by
      intro x hx
      have hxd : x ≠ d :=
        (h₁.kept hF (hx.imp_right fun hx => mem_add.mpr (Or.inl hx))).2.1
      exact update_of_ne hxd ..
    rw [wp_bind, wp_setPage, if_neg (Nat.not_lt.mpr L.top_le)]
    refine (h₁.wp_mapKernel hF L.ok L.apart fun _ _ _ _ => rfl).bind ?_
    rintro (_ | _) s₂ ⟨hstill₂, hfail₂, m', h₂, -, hpost⟩
    · rw [hframes, add_zero] at hstill₂
      rw [if_neg (by simp), hframes, Multiset.card_zero, Nat.add_zero] at hpost
      refine (h₂.wp_freevm hF).bind ?_
      rintro _ s₃ ⟨hstill₃, hfail₃, hfree₃⟩
      exact ⟨(hstill₁.trans hstill₂ fun _ hx => hx).trans hstill₃ fun _ hx => hx,
        hfail₃.trans hfail₂, hfree₃, hpost⟩
    · rw [hframes, add_zero] at hstill₂
      rw [if_pos rfl] at hpost
      subst hpost
      exact ⟨hstill₁.trans hstill₂ fun _ hx => hx, hfail₂, h₂⟩

end Xv6.Vm
