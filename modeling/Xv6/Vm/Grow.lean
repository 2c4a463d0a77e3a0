import Xv6.Vm.Free

/-!
# Growing and shrinking a process

`growproc` passes on what `allocuvm` and `deallocuvm` return, and takes a size of 0 for an error. So
it is all or nothing except for two kinds of negative `n`: if the size becomes 0 then the pages are
freed and -1 is returned, and if it would become negative then nothing is freed and 0 is returned.
-/

namespace Xv6.Vm

open Bytes Hoare
open Function (update update_self update_of_ne)
open Multiset (count_pos mem_coe mem_cons_of_mem mem_add pieces_eq_single)

variable {L : Layout} {d pg v w x u : Nat} {m m' : Nat → Option Nat} {F hand : Multiset Nat}
  {s s' : Phys}

theorem Dir.take {rest : List Nat} {bs : Bytes} (s' : Phys) (hF : Pool L F) (h : Dir F s d hand m)
    (hfree : s.freelist = pg :: rest) (hmem : s'.mem = update s.mem pg bs)
    (hfree' : s'.freelist = rest) :
    Dir F s' d (pg ::ₘ hand) m ∧ Still F (hand + frames m) s s' ∧
      TablesKept s.mem s'.mem d := by
  have hpg : pg ∈ s.freelist := by simp [hfree]
  have hcount := h.count hF pg
  have hpos := count_pos.mpr (mem_coe.mpr hpg)
  have hd : s'.mem d = s.mem d := by
    rw [hmem, update_of_ne]
    rintro rfl
    rw [Multiset.count_singleton_self] at hcount
    omega
  have hword : ∀ i, word s'.mem d i = word s.mem d i := fun i => by rw [word, hd, word]
  refine ⟨⟨fun v hv => ?_, ?_⟩, fun x hx => ?_, .of_eq hd⟩
  · rw [lookup_congr hd (fun x hx => ?_) hv, h.map v hv]
    rw [hmem, update_of_ne]
    rintro rfl
    have := count_pos.mpr hx
    omega
  · rw [← h.pages, tables_congr hword, hfree, hfree']
    simp only [← Multiset.cons_coe, ← Multiset.singleton_add]
    abel
  · have hxpg : x ≠ pg := fun e => (h.kept hF hx).1 (e ▸ hpg)
    rw [hmem, update_of_ne hxpg]

/-- What `allocuvm` does from page `u` on, when the pages up to `newsz` are not mapped. -/
def Allocated (F : Multiset Nat) (s : Phys) (d : Nat) (hand : Multiset Nat) (m : Nat → Option Nat)
    (u oldsz newsz r : Nat) (s' : Phys) : Prop :=
  s'.fail = s.fail ∧
    ((r = newsz ∧ ∃ f : Nat → Nat,
        Dir F s' d hand
          (fill m u (pagesUp newsz - u) fun j => mkPte (f j * pgSize) permWU) ∧
        Still F (hand + frames m) s s' ∧
        (∀ j, j < pagesUp newsz - u → s'.mem (f j) = zeros) ∧ TablesKept s.mem s'.mem d) ∨
      (r = 0 ∧ Leads F s d hand (cut m (pagesUp oldsz) (pagesUp newsz)) s' ∧
        Short F s (hand.card + (frames m).card + (pagesUp newsz - u))))

theorem Short.mono {n n' : Nat} (h : Short F s n) (hn : n ≤ n') : Short F s n' :=
  h.imp_right fun hcard => by omega

variable {newsz oldsz : Nat}

theorem Allocated.step {r : Nat} {s₁ s₂ : Phys}
    (h : Allocated F s₂ d hand (update m u (some (mkPte (pg * pgSize) permWU))) (u + 1)
      oldsz newsz r s')
    (hu : u < userPages) (hin : u < pagesUp newsz) (hlo : pagesUp oldsz ≤ u) (hm : m u = none)
    (hstill₁ : Still F (hand + frames m) s s₁) (hzero : s₁.mem pg = zeros)
    (hfail₂ : s₂.fail = s.fail) (hstill₂ : Still F ((pg ::ₘ hand) + frames m) s₁ s₂)
    (hkept : TablesKept s.mem s₂.mem d) : Allocated F s d hand m u oldsz newsz r s' := by
  set m₁ := update m u (some (mkPte (pg * pgSize) permWU)) with hm₁
  have hframes : frames m₁ = frames m + {pg} := by
    rw [hm₁, frames_map hm (pteAddr_mkPte (by decide)), taken, if_pos hu]
  have hstill : Still F (hand + frames m) s s₂ := hstill₁.trans
    (fun x hx => hstill₂ x (hx.imp_right fun hx => by
      rw [Multiset.cons_add]
      exact mem_cons_of_mem hx)) fun x hx => hx
  have hsub : ∀ x ∈ hand + frames m, x ∈ hand + frames m₁ := fun x hx => by
    rw [hframes, ← add_assoc]
    exact mem_add.mpr (Or.inl hx)
  obtain ⟨hfail, hcase⟩ := h
  refine ⟨hfail.trans hfail₂, ?_⟩
  rcases hcase with ⟨hr, f, hdir, hstill₃, hzeros, hkept₃⟩ | ⟨hr, hleads, hshort⟩
  · refine .inl ⟨hr, fun j => Nat.casesOn j pg f, ?_, ?_, fun j hj => ?_, hkept.trans hkept₃⟩
    · rw [show pagesUp newsz - u = pagesUp newsz - (u + 1) + 1 by omega, fill_succ]
      exact hdir
    · intro x hx
      rw [hstill₃ x (hx.imp_right (hsub x)), hstill x hx]
    · cases j with
      | zero =>
        have hpg : pg ∈ hand + frames m₁ := by simp [hframes]
        have hpg' : pg ∈ (pg ::ₘ hand) + frames m := by simp
        change s'.mem pg = zeros
        rw [hstill₃ pg (Or.inr hpg), hstill₂ pg (Or.inr hpg'), hzero]
      | succ j => exact hzeros j (by omega)
  · have hcut : cut m₁ (pagesUp oldsz) (pagesUp newsz) =
        cut m (pagesUp oldsz) (pagesUp newsz) := by
      funext v
      rw [cut, cut]
      split
      · rfl
      · rw [hm₁, update_of_ne (by omega)]
    rw [hcut] at hleads
    refine .inr ⟨hr, ⟨hstill.trans hleads.still fun x hx => ?_, hfail.trans hfail₂,
      hkept.trans hleads.kept, hleads.dir⟩,
      (hshort.congr hfail₂.symm).mono ?_⟩
    · exact mem_add.mpr ((mem_add.mp hx).imp_right mem_frames_cut)
    · rw [hframes, Multiset.card_add, Multiset.card_singleton]
      omega

theorem Dir.wp_allocLoop (hF : Pool L F) {n : Nat} (hnew : newsz < kernBase)
    (hlo : pagesUp oldsz ≤ u) (h : Dir F s d hand m) (hn : newsz ≤ (u + n) * pgSize)
    (hm : ∀ v, u ≤ v → v < pagesUp newsz → m v = none) :
    wp (allocLoop L d oldsz newsz n (u * pgSize)) (Allocated F s d hand m u oldsz newsz)
      (fun _ => False) s := by
  induction n generalizing s m u with
  | zero =>
    have hu : pagesUp newsz - u = 0 := by
      simp only [pagesUp, pgSize] at hn ⊢
      omega
    rw [allocLoop, if_neg (by rw [Nat.add_zero] at hn; omega), wp_pure]
    refine ⟨rfl, .inl ⟨rfl, fun _ => 0, ?_, fun _ _ => rfl, fun j hj => by omega, .of_eq rfl⟩⟩
    rw [hu, fill_zero]
    exact h
  | succ n ih =>
    rw [allocLoop]
    refine wp_ite (fun hlt => ?_) fun hge => ?_
    · have hin : u < pagesUp newsz := by
        simp only [pagesUp, pgSize] at *
        omega
      have hu : u < userPages := by
        simp only [userPages, pgSize, kernBase] at *
        omega
      have hnext : (u * pgSize + pgSize) % 2 ^ 32 = (u + 1) * pgSize := by
        simp only [pgSize, userPages] at *
        omega
      rw [wp_bind]
      refine wp_kalloc (fun hfail => ?_) fun pg rest hfree => ?_
      · have h₁ : Dir F { s with calls := s.calls + 1 } d hand m := h.congr rfl rfl
        refine (h₁.wp_deallocuvm hF hnew.le).bind ?_
        rintro _ s' ⟨-, hleads⟩
        refine ⟨hleads.fail, .inr ⟨rfl, ⟨hleads.still, hleads.fail, hleads.kept, hleads.dir⟩, ?_⟩⟩
        refine (h.short hfail).imp_right fun hcard => ?_
        omega
      · set s₁ : Phys := { s with
          mem := update s.mem pg zeros
          freelist := rest
          calls := s.calls + 1 } with hs₁
        obtain ⟨h₁, hstill₁, hkept₁⟩ := h.take s₁ hF hfree rfl rfl
        rw [wp_bind, wp_setPage]
        refine (h₁.wp_mappages hF hu (hm u le_rfl hin) (by decide)).bind ?_
        rintro (_ | _) s₂ ⟨hstill₂, hfail₂, hkept₂, hpost⟩
        · -- no page table: the pages mapped so far and the one in hand are freed
          rw [if_neg (by simp)] at hpost
          obtain ⟨h₂, hshort⟩ := hpost
          refine (h₂.wp_deallocuvm hF hnew.le).bind ?_
          rintro _ s₃ ⟨-, hleads⟩
          refine (hleads.dir.wp_kfree hF).bind ?_
          rintro _ s₄ hleads₄
          have hsub : ∀ {K : Multiset Nat} {x : Nat}, x ∈ hand + K → x ∈ (pg ::ₘ hand) + K :=
            fun hx => mem_add.mpr
              ((mem_add.mp hx).imp_left (mem_cons_of_mem ·))
          have hcut : ∀ x ∈ hand + frames (cut m (pagesUp oldsz) (pagesUp newsz)),
              x ∈ hand + frames m := fun x hx =>
            mem_add.mpr ((mem_add.mp hx).imp_right mem_frames_cut)
          have hstill : Still F (hand + frames (cut m (pagesUp oldsz) (pagesUp newsz))) s s₄ := by
            intro x hx
            rw [hleads₄.still x hx, hleads.still x (hx.imp_right hsub),
              hstill₂ x (hx.imp_right fun hx => hsub (hcut x hx)),
              hstill₁ x (hx.imp_right (hcut x))]
          have hfail : s₄.fail = s.fail := hleads₄.fail.trans (hleads.fail.trans hfail₂)
          have hkept := ((hkept₁.trans hkept₂).trans hleads.kept).trans hleads₄.kept
          exact ⟨hfail, .inr ⟨rfl, ⟨hstill, hfail, hkept, hleads₄.dir⟩, hshort.mono (by omega)⟩⟩
        · rw [if_pos rfl] at hpost
          rw [if_pos rfl, hnext]
          refine (ih (by omega) hpost ?_ fun v hv hv' => ?_).mono (fun r s' hs' => ?_)
            fun _ => False.elim
          · rwa [show u + 1 + n = u + (n + 1) by omega]
          · rw [update_of_ne (by omega)]
            exact hm v (by omega) hv'
          · exact hs'.step hu hin hlo (hm u le_rfl hin) hstill₁ (update_self ..) hfail₂
              hstill₂ (hkept₁.trans hkept₂)
    · have hu : pagesUp newsz - u = 0 := by
        simp only [pagesUp, pgSize] at hge ⊢
        omega
      rw [wp_pure]
      refine ⟨rfl, .inl ⟨rfl, fun _ => 0, ?_, fun _ _ => rfl, fun j hj => by omega, .of_eq rfl⟩⟩
      rw [hu, fill_zero]
      exact h

/-- **`allocuvm` maps zeroed pages up to the new size, or leaves the map as it was.** -/
theorem Dir.wp_allocuvm (hF : Pool L F) (h : Dir F s d hand m)
    (hm : newsz < kernBase → ∀ v, pagesUp oldsz ≤ v → v < pagesUp newsz → m v = none) :
    wp (allocuvm L d oldsz newsz) (fun r s' =>
      if newsz ≥ kernBase then r = 0 ∧ s' = s
      else if newsz < oldsz then r = oldsz ∧ s' = s
      else Allocated F s d hand m (pagesUp oldsz) oldsz newsz r s') (fun _ => False) s := by
  rw [allocuvm]
  refine wp_ite (fun hge => ?_) fun hlt => ?_
  · rw [wp_pure, if_pos hge]
    exact ⟨rfl, rfl⟩
  · refine wp_ite (fun hlt' => ?_) fun hge' => ?_
    · rw [wp_pure, if_neg hlt, if_pos hlt']
      exact ⟨rfl, rfl⟩
    · simp only [if_neg hlt, if_neg hge']
      rw [pgRoundUp_eq (by omega)]
      refine h.wp_allocLoop hF (by omega) le_rfl ?_ (hm (by omega))
      simp only [Vm.pages, pgSize]
      omega

def pagesOf (s : Phys) (d : Nat) : Multiset Nat :=
  s.freelist + 0 + ({d} + tables s.mem d + frames (lookup s.mem d))

theorem dir_pagesOf (s : Phys) (d : Nat) : Dir (pagesOf s d) s d 0 (lookup s.mem d) :=
  ⟨fun _ _ => rfl, rfl⟩

/-- The address space of a process of size `sz`: no page is in two places, and the user pages that
are mapped are those below `PGROUNDUP(sz)`. -/
structure Process (L : Layout) (s : Phys) (d sz : Nat) : Prop where
  pool : Pool L (pagesOf s d)
  lt : sz < kernBase
  mapped : ∀ v, v < userPages → ((lookup s.mem d v).isSome ↔ v * pgSize < pgRoundUp sz)

/-- What `growproc` should do: it returns 0 with the size changed by `n` and the pages of the new
size mapped, or -1 with the map as it was. -/
def GrowPost (s : Phys) (d sz : Nat) (n : Int32) (r : Option Nat) (s' : Phys) : Prop :=
  match r with
  | some sz' => (sz' : Int) = sz + n.toInt ∧ sz' < kernBase ∧
    ∀ v, v < userPages → ((lookup s'.mem d v).isSome ↔ v * pgSize < pgRoundUp sz')
  | none => ∀ v, v < userPages → lookup s'.mem d v = lookup s.mem d v

/-- `growproc` is all or nothing. -/
def GrowOk (L : Layout) (s : Phys) (d sz : Nat) (n : Int32) : Prop :=
  ∃ r s', growproc L d sz n s = .ok (r, s') ∧ GrowPost s d sz n r s'

variable {sz : Nat}

theorem lt_pgRoundUp_iff (h : sz ≤ kernBase) : v * pgSize < pgRoundUp sz ↔ v < pagesUp sz := by
  rw [pgRoundUp_eq h]
  simp only [pgSize]
  omega

theorem Process.none_of_le (h : Process L s d sz) (hv : v < userPages)
    (hle : pagesUp sz ≤ v) : lookup s.mem d v = none := by
  rw [← Option.not_isSome_iff_eq_none, h.mapped v hv, lt_pgRoundUp_iff h.lt.le]
  omega

theorem pagesUp_le_userPages (h : sz ≤ kernBase) : pagesUp sz ≤ userPages := by
  simp only [pagesUp, userPages, pgSize, kernBase] at *
  omega

variable {n : Int32}

theorem growOk_of_pos (h : Process L s d sz) (hn : 0 < n.toInt) : GrowOk L s d sz n := by
  obtain ⟨hbits, -, hmax⟩ := toNat_toUInt32 n
  rw [if_pos hn.le] at hbits
  have hlt := h.lt
  have hnew : (sz + n.toUInt32.toNat) % 2 ^ 32 = sz + n.toUInt32.toNat := by
    simp only [kernBase] at hlt
    omega
  have hpos : n > 0 := Int32.lt_iff_toInt_lt.mpr hn
  refine wp.returns ?_
  rw [growproc, hnew, if_pos hpos]
  refine ((dir_pagesOf s d).wp_allocuvm h.pool fun hlt v hv hv' =>
    h.none_of_le (hv'.trans_le (pagesUp_le_userPages hlt.le)) hv).bind fun r s' hr => ?_
  rw [wp_pure]
  split at hr
  · -- too large
    obtain ⟨rfl, rfl⟩ := hr
    exact fun _ _ => rfl
  · next hlt' =>
    rw [if_neg (by omega)] at hr
    obtain ⟨-, ⟨rfl, f, hdir, -, -⟩ | ⟨rfl, hleads, -⟩⟩ := hr
    · rw [if_neg (by omega)]
      refine ⟨by omega, by omega, fun v hv => ?_⟩
      have hmono := pagesUp_mono (Nat.le_add_right sz n.toUInt32.toNat)
      rw [lt_pgRoundUp_iff (by omega), hdir.map v (userPages_le hv), fill]
      split
      · next hin => exact iff_of_true rfl (by omega)
      · next hout =>
        rw [h.mapped v hv, lt_pgRoundUp_iff hlt.le]
        omega
    · -- the pages that were mapped are unmapped again
      intro v hv
      rw [hleads.dir.map v (userPages_le hv), cut]
      split
      · next hin => exact (h.none_of_le hv hin.1).symm
      · rfl

theorem growproc_of_neg (h : Process L s d sz) (hn : n.toInt < 0) :
    wp (growproc L d sz n) (fun r s' =>
      if -(sz : Int) ≤ n.toInt then ∃ newsz : Nat, (newsz : Int) = sz + n.toInt ∧ newsz < sz ∧
        r = (if newsz = 0 then none else some newsz) ∧
        ∀ v, v < userPages → lookup s'.mem d v =
          cut (lookup s.mem d) (pagesUp newsz) (pagesUp sz) v
      else r = (if sz = 0 then none else some sz) ∧ ∀ v, v < userPages →
        lookup s'.mem d v = lookup s.mem d v) (fun _ => False) s := by
  obtain ⟨hbits, hmin, -⟩ := toNat_toUInt32 n
  rw [if_neg (by omega)] at hbits
  have hlt := h.lt
  have hpos : ¬ n > 0 := fun hpos => by
    have := Int32.lt_iff_toInt_lt.mp hpos
    change 0 < n.toInt at this
    omega
  have hneg : n < 0 := Int32.lt_iff_toInt_lt.mpr hn
  rw [growproc, if_neg hpos, if_pos hneg]
  refine ((dir_pagesOf s d).wp_deallocuvm h.pool hlt.le).bind fun r s' => ?_
  rintro ⟨rfl, hleads⟩
  rw [wp_pure]
  simp only [kernBase] at hlt
  by_cases hin : -(sz : Int) ≤ n.toInt
  · have hnew : (((sz + n.toUInt32.toNat) % 2 ^ 32 : Nat) : Int) = sz + n.toInt := by omega
    have hlt' : ¬ (sz + n.toUInt32.toNat) % 2 ^ 32 ≥ sz := by omega
    rw [if_pos hin, if_neg hlt']
    exact ⟨_, hnew, by omega, rfl, fun v hv => hleads.dir.map v (userPages_le hv)⟩
  · -- the sum is negative: as an unsigned number it is larger than the size
    have hge : (sz + n.toUInt32.toNat) % 2 ^ 32 ≥ sz := by omega
    rw [if_neg hin, if_pos hge]
    refine ⟨rfl, fun v hv => ?_⟩
    rw [hleads.dir.map v (userPages_le hv), cut_of_le (pagesUp_mono hge)]

theorem growPost_cut (h : Process L s d sz) (hnew : (newsz : Int) = sz + n.toInt) (hlt : newsz < sz)
    (hmap : ∀ v, v < userPages → lookup s'.mem d v =
      cut (lookup s.mem d) (pagesUp newsz) (pagesUp sz) v) : GrowPost s d sz n (some newsz) s' := by
  have hsz := h.lt
  refine ⟨hnew, by omega, fun v hv => ?_⟩
  have hmono := pagesUp_mono hlt.le
  rw [lt_pgRoundUp_iff (by omega), hmap v hv, cut]
  split
  · next hin => exact iff_of_false (by simp) (by omega)
  · next hout =>
    rw [h.mapped v hv, lt_pgRoundUp_iff hsz.le]
    omega

theorem not_growPost_cut (h : Process L s d sz) (hpos : 0 < sz)
    (hmap : ∀ v, v < userPages → lookup s'.mem d v =
      cut (lookup s.mem d) (pagesUp 0) (pagesUp sz) v) : ¬ GrowPost s d sz n none s' := by
  intro hpost
  have hfirst : 0 < pagesUp sz := by
    simp only [pagesUp, pgSize]
    omega
  have hmapped := (h.mapped 0 (by decide)).mpr ((lt_pgRoundUp_iff h.lt.le).mpr hfirst)
  rw [← hpost 0 (by decide), hmap 0 (by decide), cut, if_pos ⟨Nat.zero_le 0, hfirst⟩] at hmapped
  exact absurd hmapped (by simp)

/-- **`growproc(n)` is all or nothing unless `n` is negative and takes a process that is not empty
to the size 0 or below.** -/
theorem growOk_iff {L : Layout} {s : Phys} {d sz : Nat} (h : Process L s d sz) (n : Int32) :
    GrowOk L s d sz n ↔ 0 ≤ n.toInt ∨ sz = 0 ∨ -(sz : Int) < n.toInt := by
  rcases lt_trichotomy n.toInt 0 with hn | hn | hn
  · obtain ⟨r, s', hrun, hpost⟩ := (growproc_of_neg h hn).returns
    have hiff : GrowOk L s d sz n ↔ GrowPost s d sz n r s' := by
      constructor
      · rintro ⟨r₁, s₁, hrun₁, hpost₁⟩
        rw [hrun] at hrun₁
        cases hrun₁
        exact hpost₁
      · exact fun hpost => ⟨r, s', hrun, hpost⟩
    rw [hiff]
    split at hpost
    · next hin =>
      obtain ⟨newsz, hnew, hlt, rfl, hmap⟩ := hpost
      by_cases h0 : newsz = 0
      · subst h0
        rw [if_pos rfl]
        exact iff_of_false (not_growPost_cut h (by omega) hmap) (by omega)
      · rw [if_neg h0]
        exact iff_of_true (growPost_cut h hnew hlt hmap) (by omega)
    · next hout =>
      obtain ⟨rfl, hmap⟩ := hpost
      by_cases h0 : sz = 0
      · rw [if_pos h0]
        exact iff_of_true hmap (Or.inr (Or.inl h0))
      · rw [if_neg h0]
        refine iff_of_false (fun hpost => ?_) (by omega)
        have hsize := hpost.1
        omega
  · -- `n` is 0
    refine iff_of_true ⟨some sz, s, ?_, ?_⟩ (Or.inl hn.ge)
    · have hzero : n = 0 := Int32.toInt_inj.mp hn
      subst hzero
      rfl
    · exact ⟨by omega, h.lt, h.mapped⟩
  · exact iff_of_true (growOk_of_pos h hn) (Or.inl hn.le)

/-- Page 300 is a directory with the page table 301, which maps page 302 at address 0. -/
def oneMapped : Phys where
  mem := fun pg =>
    if pg = 300 then put32 zeros 0 (mkPte (301 * pgSize) permWU)
    else if pg = 301 then put32 zeros 0 (mkPte (302 * pgSize) permWU)
    else zeros
  freelist := [303]
  calls := 0
  fail := fun _ => false

theorem word_of_first {mem : Nat → Bytes} {j : Nat} (h : mem pg = put32 zeros 0 w)
    (hw : w < 2 ^ 32) : word mem pg j = if j = 0 then w else 0 := by
  rw [word, h]
  split
  · next h0 =>
    subst h0
    rw [Nat.mul_zero, get32_put32, Nat.mod_eq_of_lt hw]
  · next h0 =>
    rw [put32, get32_writeBytes_of_disjoint (Or.inr (by rw [length_le32]; omega))]
    rfl

theorem word_oneMapped_dir (j : Nat) :
    word oneMapped.mem 300 j = if j = 0 then mkPte (301 * pgSize) permWU else 0 :=
  word_of_first rfl (by decide)

theorem word_oneMapped_table (j : Nat) :
    word oneMapped.mem 301 j = if j = 0 then mkPte (302 * pgSize) permWU else 0 :=
  word_of_first rfl (by decide)

theorem lookup_oneMapped (v : Nat) : lookup oneMapped.mem 300 v =
    if v = 0 then some (mkPte (302 * pgSize) permWU) else none := by
  by_cases hidx : v / 1024 = 0
  · have htable : HasTable oneMapped.mem 300 v := by
      rw [HasTable, word_oneMapped_dir, if_pos hidx, pteP_mkPte]
    have heq : tableOf oneMapped.mem 300 v = 301 := by
      rw [tableOf, word_oneMapped_dir, if_pos hidx]
      decide
    rw [lookup_of_table htable, heq, word_oneMapped_table]
    by_cases h0 : v = 0
    · subst h0
      decide
    · rw [if_neg h0, if_neg (show ¬ v % 1024 = 0 by omega)]
      rfl
  · rw [lookup_of_not_table, if_neg (by omega)]
    rw [HasTable, word_oneMapped_dir, if_neg hidx]
    decide

theorem pagesOf_oneMapped : pagesOf oneMapped 300 = {303, 300, 301, 302} := by
  have htables : tables oneMapped.mem 300 = {301} := by
    rw [tables, pieces_eq_single (i := 0) (by decide) fun j _ hj => ?_]
    · rw [word_oneMapped_dir]
      decide
    · rw [word_oneMapped_dir, if_neg hj]
      rfl
  have hframes : frames (lookup oneMapped.mem 300) = {302} := by
    rw [frames, pieces_eq_single (i := 0) (by decide) fun v _ hv => ?_]
    · rw [lookup_oneMapped]
      decide
    · rw [lookup_oneMapped, if_neg hv]
      rfl
  rw [pagesOf, htables, hframes]
  decide

theorem process_oneMapped : Process .source oneMapped 300 4096 where
  pool := by
    rw [pagesOf_oneMapped]
    exact ⟨by decide, by decide⟩
  lt := by decide
  mapped v hv := by
    rw [lookup_oneMapped, lt_pgRoundUp_iff (by decide)]
    have hone : pagesUp 4096 = 1 := by decide
    rw [hone]
    split
    · next h0 => exact iff_of_true rfl (by omega)
    · next h0 => exact iff_of_false (by simp) (by omega)

/-- A process gives up its only page: the page is freed, and `sbrk` returns -1. -/
theorem growproc_oneMapped : Process .source oneMapped 300 4096 ∧
    ¬ GrowOk .source oneMapped 300 4096 (-4096) := by
  refine ⟨process_oneMapped, ?_⟩
  have hrun : (growproc .source 300 4096 (-4096) oneMapped).map
      (fun q => (q.1, lookup q.2.mem 300 0)) = .ok (none, none) := by
    decide +kernel
  rintro ⟨r, s', hgrow, hpost⟩
  rw [hgrow] at hrun
  obtain ⟨rfl, hlookup⟩ := Prod.mk.inj (Except.ok.inj hrun)
  have hsame := hpost 0 (by decide)
  rw [hlookup, lookup_oneMapped, if_pos rfl] at hsame
  exact absurd hsame (by simp)

theorem growOk_iff_oneMapped : Process .source oneMapped 300 4096 ∧
    (GrowOk .source oneMapped 300 4096 (-1) ↔
      0 ≤ (-1 : Int32).toInt ∨ 4096 = 0 ∨ -((4096 : Nat) : Int) < (-1 : Int32).toInt) :=
  ⟨process_oneMapped, growOk_iff process_oneMapped (-1)⟩

end Xv6.Vm
