import Xv6.Vm.Grow

/-!
# Copying an address space

`copyuvm` maps every page below the size of the parent to a page of its own with the same contents
and flags, or gives back every page it has taken. There are fewer pages of memory than pages below
`KERNBASE`, so the loop does not get to the kernel's part of the new directory.
-/

namespace Xv6.Vm

open Bytes Hoare
open Function (update update_self update_of_ne)
open Multiset (notMem_zero card_add mem_add mem_coe coe_eq_coe)

variable {L : Layout} {d pg v w x u pgdir sz : Nat} {m m' : Nat → Option Nat}
  {F hand : Multiset Nat} {s s₀ s' : Phys}

/-- A page directory with all pages below `sz` present. Its pages are not free. -/
structure Parent (L : Layout) (s : Phys) (pgdir sz : Nat) : Prop where
  pool : Pool L s.freelist
  lt : sz < 2 ^ 32
  dir : pgdir ∉ s.freelist
  table : ∀ v, v < 2 ^ 20 → HasTable s.mem pgdir v →
    tableOf s.mem pgdir v ∉ s.freelist ∧ tableOf s.mem pgdir v * pgSize ≤ kernBase
  frame : ∀ v w, v < userPages → lookup s.mem pgdir v = some w →
    pteAddr w ∉ s.freelist ∧ pteAddr w * pgSize ≤ kernBase
  present : ∀ v, v * pgSize < sz → (lookup s.mem pgdir v).isSome

/-- In `s'` the directory `d` is a copy of what `pgdir` was in `s`. -/
structure Copied (L : Layout) (s : Phys) (pgdir sz d : Nat) (s' : Phys) : Prop where
  page : ∀ v, v * pgSize < sz → ∃ w w', lookup s.mem pgdir v = some w ∧
    lookup s'.mem d v = some w' ∧ pteFlags w' = pteFlags w ∧
    s'.mem (pteAddr w') = s.mem (pteAddr w)
  fresh : ∀ v w', v < userPages → lookup s'.mem d v = some w' →
    pteAddr w' ∈ s.freelist ∧ pteAddr w' ∉ s'.freelist ∧
      ∀ u w, u < userPages → lookup s.mem pgdir u = some w → pteAddr w ≠ pteAddr w'
  distinct : ∀ u v w w', u < userPages → v < userPages → lookup s'.mem d u = some w →
    lookup s'.mem d v = some w' → pteAddr w = pteAddr w' → u = v
  nothing : ∀ v, v < userPages → sz ≤ v * pgSize → lookup s'.mem d v = none
  kernel : ∀ v, userPages ≤ v → v < 2 ^ 20 → lookup s'.mem d v = kernelMap L v

theorem kernelMap_user (hv : v < userPages) : kernelMap L v = none := by
  have hfold : ∀ (ks : List Kmap) (m : Nat → Option Nat), (∀ k ∈ ks, k.Ok) →
      ks.foldl Kmap.add m v = m v := by
    intro ks
    induction ks with
    | nil => exact fun _ _ => rfl
    | cons k ks ih =>
      intro m hok
      rw [List.foldl_cons, ih _ fun k' hk' => hok k' (List.mem_cons_of_mem _ hk'),
        (hok k List.mem_cons_self).user hv]
  exact hfold _ _ L.ok

theorem pteFlags_or (h : pteP w = true) : pteFlags w ||| 1 = pteFlags w := by
  refine Nat.eq_of_testBit_eq fun i => ?_
  rw [Nat.testBit_or]
  rcases Nat.eq_zero_or_pos i with rfl | hi
  · have hbit : (pteFlags w).testBit 0 = true := by
      rw [pteP] at h
      rw [pteFlags, show 4096 = 2 ^ 12 from rfl, Nat.testBit_mod_two_pow, h]
      rfl
    rw [hbit, Bool.true_or]
  · have hone : (1 : Nat).testBit i = false := Bool.eq_false_iff.mpr fun hone => by
      have := Nat.testBit_one_eq_true_iff_self_eq_zero.mp hone
      omega
    rw [hone, Bool.or_false]

def oldEntry (s : Phys) (pgdir v : Nat) : Nat := (lookup s.mem pgdir v).getD 0

/-- The map of the child after `u` rounds; page `j` is copied to page `f j`. -/
def childMap (L : Layout) (s₀ : Phys) (pgdir u : Nat) (f : Nat → Nat) : Nat → Option Nat :=
  fill (kernelMap L) 0 u fun j => mkPte (f j * pgSize) (pteFlags (oldEntry s₀ pgdir j))

/-- The child after `u` rounds. -/
structure Child (L : Layout) (s₀ : Phys) (pgdir d u : Nat) (f : Nat → Nat) (s : Phys) : Prop where
  dir : Dir s₀.freelist s d 0 (childMap L s₀ pgdir u f)
  still : Still s₀.freelist 0 s₀ s
  card : (frames (childMap L s₀ pgdir u f)).card = u
  content : ∀ j, j < u → s.mem (f j) = s₀.mem (pteAddr (oldEntry s₀ pgdir j))

variable {f : Nat → Nat}

theorem childMap_of_lt (h : v < u) : childMap L s₀ pgdir u f v =
    some (mkPte (f v * pgSize) (pteFlags (oldEntry s₀ pgdir v))) :=
  if_pos ⟨Nat.zero_le v, by omega⟩

theorem childMap_of_le (h : u ≤ v) : childMap L s₀ pgdir u f v = kernelMap L v := if_neg (by omega)

theorem childMap_succ (L : Layout) (s₀ : Phys) (pgdir u : Nat) (f : Nat → Nat) :
    childMap L s₀ pgdir (u + 1) (update f u pg) =
      update (childMap L s₀ pgdir u f) u
        (some (mkPte (pg * pgSize) (pteFlags (oldEntry s₀ pgdir u)))) := by
  funext v
  by_cases hv : v = u
  · subst hv
    rw [childMap_of_lt (Nat.lt_succ_self v), update_self, update_self]
  · rw [update_of_ne hv]
    rcases Nat.lt_or_ge v u with hlt | hge
    · rw [childMap_of_lt hlt, childMap_of_lt (by omega), update_of_ne hv]
    · rw [childMap_of_le hge, childMap_of_le (by omega)]

theorem pteFlags_lt (w : Nat) : pteFlags w < 4096 := Nat.mod_lt _ (by decide)

theorem mem_frames_childMap (L : Layout) (s₀ : Phys) (pgdir : Nat) (f : Nat → Nat) {j : Nat}
    (hj : j < u) (hu : u ≤ userPages) : f j ∈ frames (childMap L s₀ pgdir u f) :=
  mem_frames.mpr ⟨j, by omega, _, childMap_of_lt hj, pteAddr_mkPte (pteFlags_lt _)⟩

theorem Child.step {s₁ s₂ : Phys} (h : Child L s₀ pgdir d u f s)
    (hu : u < userPages) (hw : lookup s₀.mem pgdir u = some w)
    (hstill₁ : Still s₀.freelist (0 + frames (childMap L s₀ pgdir u f)) s s₁)
    (hcopy : s₁.mem pg = s₀.mem (pteAddr w))
    (hstill₂ : Still s₀.freelist ((pg ::ₘ 0) + frames (childMap L s₀ pgdir u f)) s₁ s₂)
    (h₂ : Dir s₀.freelist s₂ d 0 (update (childMap L s₀ pgdir u f) u
      (some (mkPte (pg * pgSize) (pteFlags w))))) :
    Child L s₀ pgdir d (u + 1) (update f u pg) s₂ := by
  have hold : oldEntry s₀ pgdir u = w := by
    rw [oldEntry, hw]
    rfl
  have hnone : childMap L s₀ pgdir u f u = none := by
    rw [childMap_of_le le_rfl, kernelMap_user hu]
  have hmap : childMap L s₀ pgdir (u + 1) (update f u pg) =
      update (childMap L s₀ pgdir u f) u (some (mkPte (pg * pgSize) (pteFlags w))) := by
    rw [childMap_succ, hold]
  refine ⟨hmap ▸ h₂, fun x hx => ?_, ?_, fun j hj => ?_⟩
  · rcases hx with hx | hx
    · rw [hstill₂ x (Or.inl hx), hstill₁ x (Or.inl hx), h.still x (Or.inl hx)]
    · exact absurd hx (notMem_zero x)
  · rw [hmap, frames_map hnone (pteAddr_mkPte (pteFlags_lt w)), taken, if_pos hu,
      card_add, h.card, Multiset.card_singleton]
  · by_cases hju : j = u
    · subst hju
      have hpg : pg ∈ (pg ::ₘ 0) + frames (childMap L s₀ pgdir j f) :=
        mem_add.mpr (Or.inl (Multiset.mem_cons_self pg 0))
      rw [update_self, hstill₂ pg (Or.inr hpg), hcopy, hold]
    · have hmem := mem_frames_childMap L s₀ pgdir f
        (show j < u by omega) hu.le
      rw [update_of_ne hju, hstill₂ _ (Or.inr (mem_add.mpr (Or.inr hmem))),
        hstill₁ _ (Or.inr (mem_add.mpr (Or.inr hmem))), h.content j (by omega)]

theorem Child.copied (hP : Parent L s₀ pgdir sz) (h : Child L s₀ pgdir d u f s)
    (hu : u ≤ userPages) (hsz : sz ≤ u * pgSize) (hlast : ∀ v, v < u → v * pgSize < sz) :
    Copied L s₀ pgdir sz d s := by
  have hlookup : ∀ v, v < u → lookup s.mem d v =
      some (mkPte (f v * pgSize) (pteFlags (oldEntry s₀ pgdir v))) := fun v hv => by
    rw [h.dir.map v (userPages_le (by omega)), childMap_of_lt hv]
  have hnone : ∀ v, u ≤ v → v < userPages → lookup s.mem d v = none := fun v hv hv' => by
    rw [h.dir.map v (userPages_le hv'), childMap_of_le hv, kernelMap_user hv']
  have haddr : ∀ v, pteAddr (mkPte (f v * pgSize) (pteFlags (oldEntry s₀ pgdir v))) = f v :=
    fun v => pteAddr_mkPte (pteFlags_lt _)
  have hbelow : ∀ v w', v < userPages → lookup s.mem d v = some w' → v < u ∧ pteAddr w' = f v := by
    intro v w' hv hw'
    rcases Nat.lt_or_ge v u with hlt | hge
    · rw [hlookup v hlt] at hw'
      exact ⟨hlt, Option.some_inj.mp hw' ▸ haddr v⟩
    · rw [hnone v hge hv] at hw'
      exact absurd hw' (by simp)
  refine ⟨fun v hv => ?_, fun v w' hv hw' => ?_, fun v v' w w' hv hv' hw hw' heq => ?_,
    fun v hv hge => ?_, fun v hv hv' => ?_⟩
  · -- the same flags and contents
    obtain ⟨w, hw⟩ := Option.isSome_iff_exists.mp (hP.present v hv)
    have hvu : v < u := by
      simp only [pgSize] at hv hsz
      omega
    have hold : oldEntry s₀ pgdir v = w := by
      rw [oldEntry, hw]
      rfl
    refine ⟨w, _, hw, hlookup v hvu, ?_, ?_⟩
    · rw [pteFlags_mkPte (pteFlags_lt _), hold, pteFlags_or (lookup_present hw)]
    · rw [haddr, h.content v hvu, hold]
  · -- a page that was free
    obtain ⟨hvu, haddr'⟩ := hbelow v w' hv hw'
    have hmem := mem_frames_childMap L s₀ pgdir f hvu hu
    have hfree : f v ∈ s₀.freelist := mem_coe.mp (h.dir.mem_of_frame hmem)
    have hkept := h.dir.kept hP.pool (Or.inr (mem_add.mpr (Or.inr hmem)))
    rw [haddr']
    refine ⟨hfree, hkept.1, fun u' w hu' hw heq => ?_⟩
    exact (hP.frame u' w hu' hw).1 (heq ▸ hfree)
  · -- no page is mapped twice
    obtain ⟨hvu, haddr₁⟩ := hbelow v w hv hw
    obtain ⟨hvu', haddr₂⟩ := hbelow v' w' hv' hw'
    have hnodup : (frames (childMap L s₀ pgdir u f)).Nodup := by
      refine Multiset.nodup_of_le ?_ hP.pool.nodup
      rw [← h.dir.pages]
      exact (Multiset.le_add_left _ _).trans (Multiset.le_add_left _ _)
    refine hnodup.piece_unique hv hv' (x := f v) ?_ ?_
    · rw [childMap_of_lt hvu, frame, haddr]
      exact Multiset.mem_singleton_self _
    · rw [childMap_of_lt hvu', frame, haddr, ← haddr₁, heq, haddr₂]
      exact Multiset.mem_singleton_self _
  · refine hnone v (Nat.le_of_not_lt fun hlt => ?_) hv
    have := hlast v hlt
    omega
  · rw [h.dir.map v hv', childMap_of_le (by omega)]

end Xv6.Vm
