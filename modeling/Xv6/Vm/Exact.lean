import Xv6.Vm.Image

/-!
# What deallocuvm and allocuvm do, exactly

Where each page has one use, `deallocuvm` frees each mapped page of the range once, clears its entry
and touches no other entry. `allocuvm` maps fresh pages, or gives back all that it took but new page
tables.
-/

namespace Xv6.Vm

open Bytes Hoare

variable {L : Layout} {d pg u v w x : Nat} {m : Nat → Option Nat} {F hand : Multiset Nat}
  {s s' : Phys}

section

variable (L)

def visited (oldsz newsz : Nat) : List Nat :=
  List.range' (pagesUp newsz) (pagesUp oldsz - pagesUp newsz)

/-- `deallocuvm` without the jump over page tables that do not exist. -/
def plainDeallocuvm (pgdir oldsz newsz : Nat) : PhysM Nat := do
  visitPages L pgdir (visited oldsz newsz)
  return newsz

end

variable {oldsz newsz : Nat}

theorem mem_visited (hold : oldsz ≤ kernBase) (hlt : newsz < oldsz) :
    v ∈ visited oldsz newsz ↔ pgRoundUp newsz ≤ v * pgSize ∧ v * pgSize < oldsz := by
  rw [visited, List.mem_range'_1, pgRoundUp_eq (by omega)]
  simp only [pagesUp, pgSize]
  omega

theorem deallocuvm_eq_plain (hlt : newsz < oldsz) (hold : oldsz ≤ kernBase) :
    deallocuvm L d oldsz newsz = plainDeallocuvm L d oldsz newsz := by
  rw [deallocuvm, if_neg (by omega), plainDeallocuvm, pgRoundUp_eq (by omega),
    deallocLoop_pages hold, visited]

/-- The pages mapped at `vs` have been freed, each once, and their entries cleared. -/
structure Freed (s : Phys) (d : Nat) (vs : List Nat) (s' : Phys) : Prop where
  freelist : s'.freelist = (framesAt (lookup s.mem d) vs).reverse ++ s.freelist
  entries : ∀ v, v < 2 ^ 20 → entryAt s'.mem d v =
    if v ∈ vs ∧ (lookup s.mem d v).isSome then some 0 else entryAt s.mem d v
  dir : s'.mem d = s.mem d

theorem Dir.nodup_framesAt (hF : Pool L F) (h : Dir F s d hand m) {vs : List Nat}
    (hvs : ∀ v ∈ vs, v < userPages) (hnodup : vs.Nodup) : (framesAt m vs).Nodup := by
  rw [framesAt, List.Nodup, List.pairwise_filterMap]
  refine hnodup.imp_of_mem fun {v v'} hv hv' hne x hx y hy e => hne ?_
  obtain ⟨w, hw, rfl⟩ := Option.map_eq_some_iff.mp hx
  obtain ⟨w', hw', rfl⟩ := Option.map_eq_some_iff.mp hy
  exact h.frame_inj hF (hvs v hv) (hvs v' hv') hw hw' e

/-- **deallocuvm is the loop that visits every page**, and it frees the mapped pages of the range
once each. -/
theorem deallocuvm_exact (L : Layout) (d oldsz newsz : Nat) (hlt : newsz < oldsz)
    (hold : oldsz ≤ kernBase) :
    deallocuvm L d oldsz newsz = plainDeallocuvm L d oldsz newsz ∧
      (∀ v, v ∈ visited oldsz newsz ↔ pgRoundUp newsz ≤ v * pgSize ∧ v * pgSize < oldsz) ∧
      ∀ s, Pool L (pagesOf s d) → ∃ s', deallocuvm L d oldsz newsz s = .ok (newsz, s') ∧
        (framesAt (lookup s.mem d) (visited oldsz newsz)).Nodup ∧
        Freed s d (visited oldsz newsz) s' := by
  have heq : deallocuvm L d oldsz newsz = plainDeallocuvm L d oldsz newsz :=
    deallocuvm_eq_plain hlt hold
  refine ⟨heq, fun v => mem_visited hold hlt, fun s hF => ?_⟩
  have hvs : ∀ v ∈ visited oldsz newsz, v < userPages := fun v hv => by
    have := ((mem_visited hold hlt).mp hv).2
    simp only [userPages, pgSize, kernBase] at *
    omega
  have hnodup : (visited oldsz newsz).Nodup := List.nodup_range'
  have hdir := dir_pagesOf s d
  have hrun : wp (plainDeallocuvm L d oldsz newsz) (fun r s' => r = newsz ∧
      Freed s d (visited oldsz newsz) s') (fun _ => False) s := by
    rw [plainDeallocuvm]
    refine (hdir.wp_visitPages hF ?_).bind ?_
    · simp only [pagesUp, userPages, pgSize, kernBase] at *
      omega
    · rintro _ s' ⟨-, hd, hfree, hentries⟩
      rw [wp_pure]
      exact ⟨rfl, hfree, hentries, hd⟩
  obtain ⟨r, s', hs', rfl, hfreed⟩ := hrun.returns
  exact ⟨s', by rw [heq, hs'], hdir.nodup_framesAt hF hvs hnodup, hfreed⟩

/-- A process of one page gives it up. -/
theorem deallocuvm_exact_oneMapped :
    ∃ s', deallocuvm .source 300 4096 0 oneMapped = .ok (0, s') ∧
      (framesAt (lookup oneMapped.mem 300) (visited 4096 0)).Nodup ∧
      Freed oneMapped 300 (visited 4096 0) s' :=
  (deallocuvm_exact .source 300 4096 0 (by decide) (by decide)).2.2 oneMapped process_oneMapped.pool

/-- The pages from `PGROUNDUP(oldsz)` on and below `newsz` are mapped to fresh pages of zeros, each
to its own, for the user to read and write, and no other page is mapped differently. -/
def Extended (s : Phys) (d oldsz newsz : Nat) (s' : Phys) : Prop :=
  ∃ f : Nat → Nat,
    (∀ v, v < 2 ^ 20 → lookup s'.mem d v =
      if pgRoundUp oldsz ≤ v * pgSize ∧ v * pgSize < newsz then some (mkPte (f v * pgSize) permWU)
      else lookup s.mem d v) ∧
    (∀ v, pgRoundUp oldsz ≤ v * pgSize → v * pgSize < newsz →
      f v ∈ s.freelist ∧ f v ∉ s'.freelist ∧ s'.mem (f v) = zeros ∧
      ∀ u, pgRoundUp oldsz ≤ u * pgSize → u * pgSize < newsz → f u = f v → u = v)

/-- Every page is mapped as before, and the pages that are no longer free are new page tables
without entries. -/
def Restored (s : Phys) (d : Nat) (s' : Phys) : Prop :=
  (∀ v, v < 2 ^ 20 → lookup s'.mem d v = lookup s.mem d v) ∧
    ∃ new : Multiset Nat, tables s'.mem d = tables s.mem d + new ∧
      (s.freelist : Multiset Nat) = s'.freelist + new ∧
      ∀ x ∈ new, ∀ i < 1024, pteP (word s'.mem x i) = false

theorem TablesKept.le {mem mem' : Nat → Bytes} (h : TablesKept mem mem' d) :
    tables mem d ≤ tables mem' d := by
  refine Multiset.pieces_le fun i _ => ?_
  cases hi : pteP (word mem d i) with
  | true => rw [h i hi]
  | false =>
    rw [entry_of_absent hi]
    exact Multiset.zero_le _

theorem range_iff (hle : oldsz ≤ newsz) (hnew : newsz < kernBase) :
    pagesUp oldsz ≤ v ∧ v < pagesUp oldsz + (pagesUp newsz - pagesUp oldsz) ↔
      pgRoundUp oldsz ≤ v * pgSize ∧ v * pgSize < newsz := by
  rw [pgRoundUp_eq (by omega)]
  simp only [pagesUp, pgSize]
  omega

/-- The pages of the new part were free, and are different. -/
theorem extended_of_fill {f : Nat → Nat} (hF : Pool L (pagesOf s d))
    (hle : oldsz ≤ newsz) (hnew : newsz < kernBase)
    (hm : ∀ v, pgRoundUp oldsz ≤ v * pgSize → v * pgSize < newsz → lookup s.mem d v = none)
    (hdir : Dir (pagesOf s d) s' d 0 (fill (lookup s.mem d) (pagesUp oldsz)
      (pagesUp newsz - pagesUp oldsz) fun j => mkPte (f j * pgSize) permWU))
    (hzeros : ∀ j, j < pagesUp newsz - pagesUp oldsz → s'.mem (f j) = zeros)
    (hkept : TablesKept s.mem s'.mem d) : Extended s d oldsz newsz s' := by
  have hfill : ∀ v, pgRoundUp oldsz ≤ v * pgSize → v * pgSize < newsz →
      v < userPages ∧ fill (lookup s.mem d) (pagesUp oldsz) (pagesUp newsz - pagesUp oldsz)
        (fun j => mkPte (f j * pgSize) permWU) v =
          some (mkPte (f (v - pagesUp oldsz) * pgSize) permWU) := by
    intro v h₁ h₂
    refine ⟨?_, if_pos ((range_iff hle hnew).mpr ⟨h₁, h₂⟩)⟩
    simp only [userPages, pgSize, kernBase] at *
    omega
  have haddr : ∀ j, pteAddr (mkPte (f j * pgSize) permWU) = f j := fun j =>
    pteAddr_mkPte (by decide)
  refine ⟨fun v => f (v - pagesUp oldsz), fun v hv => ?_, fun v h₁ h₂ => ?_⟩
  · rw [hdir.map v hv, fill]
    exact if_congr (range_iff hle hnew) rfl rfl
  · obtain ⟨hv, hat⟩ := hfill v h₁ h₂
    have hframe := mem_frames.mpr ⟨v, hv, _, hat, haddr _⟩
    obtain ⟨hfree, hnd, hnt⟩ := hdir.kept hF (Or.inr (Multiset.mem_add.mpr (Or.inr hframe)))
    -- what was mapped before is mapped elsewhere
    have hold : f (v - pagesUp oldsz) ∉ frames (lookup s.mem d) := by
      intro hx
      obtain ⟨u, hu, w, hw, hxw⟩ := mem_frames.mp hx
      have hout : ¬ (pgRoundUp oldsz ≤ u * pgSize ∧ u * pgSize < newsz) := fun h => by
        rw [hm u h.1 h.2] at hw
        cases hw
      have hsame : fill (lookup s.mem d) (pagesUp oldsz) (pagesUp newsz - pagesUp oldsz)
          (fun j => mkPte (f j * pgSize) permWU) u = some w := by
        rw [fill, if_neg (fun h => hout ((range_iff hle hnew).mp h)), hw]
      have huv := hdir.frame_inj hF hu hv hsame hat (hxw.trans (haddr _).symm)
      exact hout (huv ▸ ⟨h₁, h₂⟩)
    refine ⟨?_, hfree, hzeros _ ?_, fun u hu₁ hu₂ heq => ?_⟩
    · have hpool := hdir.mem_of_frame hframe
      rw [pagesOf, Multiset.mem_add, Multiset.mem_add, Multiset.mem_add, Multiset.mem_add] at hpool
      rcases hpool with (hx | hx) | (hx | hx) | hx
      · exact hx
      · exact absurd hx (Multiset.notMem_zero _)
      · exact absurd (Multiset.mem_singleton.mp hx) hnd
      · exact absurd (Multiset.mem_of_le hkept.le hx) hnt
      · exact absurd hx hold
    · have := (range_iff hle hnew).mpr ⟨h₁, h₂⟩
      omega
    · obtain ⟨hu, hatu⟩ := hfill u hu₁ hu₂
      exact hdir.frame_inj hF hu hv hatu hat (by rw [haddr, haddr]; exact heq)

theorem restored_of_leads (hF : Pool L (pagesOf s d))
    (hle : oldsz ≤ newsz) (hnew : newsz < kernBase)
    (hm : ∀ v, pgRoundUp oldsz ≤ v * pgSize → v * pgSize < newsz → lookup s.mem d v = none)
    (h : Leads (pagesOf s d) s d 0 (cut (lookup s.mem d) (pagesUp oldsz) (pagesUp newsz)) s') :
    Restored s d s' := by
  have hcut : cut (lookup s.mem d) (pagesUp oldsz) (pagesUp newsz) = lookup s.mem d := by
    funext v
    rw [cut]
    split
    · next hin =>
      have := (range_iff hle hnew).mp ⟨hin.1, by omega⟩
      exact (hm v this.1 this.2).symm
    · rfl
  rw [hcut] at h
  obtain ⟨new, hnew⟩ := Multiset.le_iff_exists_add.mp h.kept.le
  refine ⟨h.dir.map, new, hnew, ?_, fun x hx j hj => ?_⟩
  · have hpages := h.dir.pages
    rw [hnew, pagesOf] at hpages
    refine add_right_cancel (b := {d} + tables s.mem d + frames (lookup s.mem d)) ?_
    rw [← add_zero (s.freelist : Multiset Nat), ← hpages]
    abel
  · -- a new page table has an entry of the directory that was not present
    have hapart := (Multiset.nodup_add.mp (h.dir.apart hF)).2.1
    have hx' : x ∈ tables s'.mem d := by
      rw [hnew]
      exact Multiset.mem_add.mpr (Or.inr hx)
    obtain ⟨i, hi, hentry⟩ := Multiset.mem_pieces.mp hx'
    obtain ⟨hp, haddr⟩ := mem_entry.mp hentry
    have habsent : ¬ pteP (word s.mem d i) = true := by
      intro hpi
      have hold : x ∈ tables s.mem d := by
        refine Multiset.mem_pieces.mpr ⟨i, hi, mem_entry.mpr ⟨hpi, ?_⟩⟩
        rw [← h.kept i hpi, haddr]
      rw [hnew] at hapart
      exact hapart.notMem_right hold hx
    have hdiv : (i * 1024 + j) / 1024 = i := by omega
    have hmod : (i * 1024 + j) % 1024 = j := by omega
    have hv : i * 1024 + j < 2 ^ 20 := by
      rw [npdEntries] at hi
      omega
    have hnone : ¬ HasTable s.mem d (i * 1024 + j) := by rwa [HasTable, hdiv]
    have hsome : HasTable s'.mem d (i * 1024 + j) := by rwa [HasTable, hdiv]
    have hmap := h.dir.map _ hv
    rw [lookup_of_not_table hnone, lookup_of_table hsome, tableOf, hdiv, hmod, haddr] at hmap
    cases hbit : pteP (word s'.mem x j) with
    | true =>
      rw [if_pos hbit] at hmap
      cases hmap
    | false => rfl

/-- **allocuvm maps fresh pages up to the new size, or gives back everything but new page
tables.** -/
theorem allocuvm_exact (L : Layout) (s : Phys) (d oldsz newsz : Nat) (hF : Pool L (pagesOf s d))
    (hle : oldsz ≤ newsz) (hnew : newsz < kernBase)
    (hm : ∀ v, pgRoundUp oldsz ≤ v * pgSize → v * pgSize < newsz → lookup s.mem d v = none) :
    ∃ r s', allocuvm L d oldsz newsz s = .ok (r, s') ∧
      (r = newsz ∧ Extended s d oldsz newsz s' ∨ r = 0 ∧ Restored s d s') := by
  have hfree : newsz < kernBase → ∀ v, pagesUp oldsz ≤ v → v < pagesUp newsz →
      lookup s.mem d v = none := fun _ v hlo hhi => by
    have hin := (range_iff hle hnew).mp ⟨hlo, by omega⟩
    exact hm v hin.1 hin.2
  have hrun := (dir_pagesOf s d).wp_allocuvm hF hfree
  obtain ⟨r, s', hs', hpost⟩ := hrun.returns
  refine ⟨r, s', hs', ?_⟩
  rw [if_neg (by omega), if_neg (by omega)] at hpost
  obtain ⟨-, ⟨hr, f, hdir, -, hzeros, hkept⟩ | ⟨hr, hleads, -⟩⟩ := hpost
  · exact Or.inl ⟨hr, extended_of_fill hF hle hnew hm hdir hzeros hkept⟩
  · exact Or.inr ⟨hr, restored_of_leads hF hle hnew hm hleads⟩

/-- A process of one page asks for another one. -/
theorem allocuvm_exact_oneMapped :
    ∃ r s', allocuvm .source 300 4096 8192 oneMapped = .ok (r, s') ∧
      (r = 8192 ∧ Extended oneMapped 300 4096 8192 s' ∨ r = 0 ∧ Restored oneMapped 300 s') :=
  allocuvm_exact .source oneMapped 300 4096 8192 process_oneMapped.pool (by decide) (by decide)
    fun v hv _ => by
      rw [lookup_oneMapped, if_neg]
      rintro rfl
      exact absurd hv (by decide)

end Xv6.Vm
