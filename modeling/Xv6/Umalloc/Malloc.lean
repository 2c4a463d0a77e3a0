import Mathlib.Algebra.Order.Group.Nat
import Xv6.Umalloc.FreeList

namespace Xv6.Umalloc

open Circular
open Function (update update_self update_of_ne)
open List (mem_cons_self mem_cons_of_mem mem_append mem_cons pairwise_cons mem_map)
open Function (iterate_succ_apply')

/-- `h'` has the free blocks `N'`, and those of `N` are these and `b`. -/
structure Taken (base : Nat) (h h' : Heap) (N N' : List Block) (b : Block) : Prop where
  list : FreeList base h' N'
  units : units N = Umalloc.units N' + b.size
  sz : h'.sz = h.sz
  granted : h'.granted = h.granted
  block : h'.size b.addr = b.size
  low : base + headerSize ≤ b.addr
  size : ∀ x, x ∉ b.addr :: N.map Block.addr → h'.size x = h.size x
  has : ∀ a, HasByte N a ↔ HasByte (b :: N') a
  apart : ∀ c ∈ N', b.Apart c

section

variable {base : Nat} {h : Heap} {N : List Block}

variable {pre post : List Block} {P q : Block}

theorem FreeList.unlink (hf : FreeList base h N)
    (hsplit : baseBlock base :: N = pre ++ P :: q :: post) :
    ∃ N', Taken base h
      { h with ptr := update h.ptr P.addr (h.ptr q.addr), freep := P.addr } N N' q := by
  obtain ⟨-, hrest, -, hcross⟩ := hf.around hsplit
  obtain ⟨-, hptr, hptrq, hpathpost⟩ := hf.path hsplit
  have hPN : P ∈ baseBlock base :: N := by rw [hsplit]; simp
  have hqN : q ∈ N := mem_of_split hsplit mem_cons_self
  have hsorted := hf.sorted_from hsplit
  have hne : ∀ b, b.addr < P.addr ∨ b ∈ post → b.addr ≠ P.addr := by
    rintro b (hb | hb)
    · exact hb.ne
    · exact (hrest b (mem_cons_of_mem q hb)).addr_lt.ne'
  obtain ⟨N', hN', hlist⟩ : ∃ N', pre ++ P :: post = baseBlock base :: N' ∧ FreeList base
      { h with ptr := update h.ptr P.addr (h.ptr q.addr), freep := P.addr } N' :=
    hf.splice hsplit (M := [])
    (fun _ => mem_cons_of_mem q) hpathpost (.inl rfl) (List.forall_mem_nil _)
    ⟨(update_self _ _ _).trans hptrq, trivial⟩ (by simp [hf.size_eq hPN])
    (hsorted.sublist ((List.sublist_cons_self q post).cons_cons P))
    (fun b hb => ⟨update_of_ne (hne b hb) _ _, rfl⟩) rfl
  refine ⟨N', hlist, ?_, rfl, rfl, (hf.size q hqN).1, hf.low q hqN, fun x _ => rfl, fun a => ?_,
    fun c hc => ?_⟩
  · rw [← units_base base N, ← units_base base N', ← hN', hsplit]
    simp only [units_append, units_cons]
    omega
  · rw [← hasByte_base base N, hsplit, hasByte_cons, ← hasByte_base base N', ← hN']
    simp only [hasByte_append, hasByte_cons]
    simp only [or_left_comm]
  · have hc' : c ∈ pre ++ P :: post := by rw [hN']; exact mem_cons_of_mem _ hc
    rcases mem_append.mp hc' with hc | hc
    · exact .inr (hcross c hc q mem_cons_self).le
    · rcases mem_cons.mp hc with rfl | hc
      · exact .inr (hrest q mem_cons_self).le
      · exact .inl ((pairwise_cons.mp hsorted.of_cons).1 c hc).le

variable {n : Nat}

theorem FreeList.shrink (hf : FreeList base h N)
    (hsplit : baseBlock base :: N = pre ++ P :: q :: post) (hlt : n < q.size) :
    ∃ N', Taken base h
      { h with
        size := update (update h.size q.addr (q.size - n))
          (q.addr + (q.size - n) * headerSize) n
        freep := P.addr } N N' ⟨q.addr + (q.size - n) * headerSize, n⟩ := by
  obtain ⟨-, hrest, -, hcross⟩ := hf.around hsplit
  obtain ⟨-, hptr, hptrq, hpathpost⟩ := hf.path hsplit
  have hPN : P ∈ baseBlock base :: N := by rw [hsplit]; simp
  have hqN : q ∈ N := mem_of_split hsplit mem_cons_self
  have hPq := hrest q mem_cons_self
  have hPq' := hPq.addr_lt
  have hstop : q.stop = q.addr + (q.size - n) * headerSize + n * headerSize := by
    rw [Block.stop, Nat.add_assoc, ← Nat.add_mul, Nat.sub_add_cancel hlt.le]
  have hgap : q.addr < q.addr + (q.size - n) * headerSize := by
    have : 0 < (q.size - n) * headerSize := Nat.mul_pos (by omega) (by decide)
    omega
  have hsorted := (hf.sorted_from hsplit).of_cons
  have hpostabove : ∀ c ∈ post, q.stop < c.addr := (pairwise_cons.mp hsorted).1
  have hsub : (⟨q.addr, q.size - n⟩ : Block).stop ≤ q.stop := by
    rw [hstop, Block.stop]
    exact Nat.le_add_right _ _
  have hsize {x : Nat} (h₁ : x ≠ q.addr) (h₂ : x ≠ q.addr + (q.size - n) * headerSize) :
      update (update h.size q.addr (q.size - n)) (q.addr + (q.size - n) * headerSize) n x =
        h.size x := by
    rw [update_of_ne h₂, update_of_ne h₁]
  have hself : update (update h.size q.addr (q.size - n)) (q.addr + (q.size - n) * headerSize) n
      q.addr = q.size - n := by
    rw [update_of_ne hgap.ne, update_self]
  have hframe : ∀ b, b.addr < P.addr ∨ b ∈ post → update (update h.size q.addr (q.size - n))
      (q.addr + (q.size - n) * headerSize) n b.addr = h.size b.addr := by
    rintro b (hb | hb)
    · exact hsize (by omega) (by omega)
    · have := hpostabove b hb
      exact hsize (by omega) (by omega)
  obtain ⟨N', hN', hlist⟩ : ∃ N', pre ++ P :: ⟨q.addr, q.size - n⟩ :: post = baseBlock base :: N' ∧
      FreeList base { h with
        size := update (update h.size q.addr (q.size - n))
          (q.addr + (q.size - n) * headerSize) n
        freep := P.addr } N' := hf.splice hsplit (M := [⟨q.addr, q.size - n⟩])
    (fun _ => mem_cons_of_mem q) hpathpost (.inl rfl)
    (List.forall_mem_singleton.mpr ⟨Nat.sub_pos_of_lt hlt, hf.low q hqN⟩) ⟨hptr, hptrq, trivial⟩
    (List.forall_mem_cons.mpr ⟨(hsize (x := P.addr) (by omega) (by omega)).trans (hf.size_eq hPN),
      List.forall_mem_singleton.mpr hself⟩)
    (pairwise_cons.mpr ⟨List.forall_mem_cons.mpr ⟨hPq, fun c hc =>
      hrest c (mem_cons_of_mem q hc)⟩, pairwise_cons.mpr
        ⟨fun c hc => hsub.trans_lt (hpostabove c hc), hsorted.of_cons⟩⟩)
    (fun b hb => ⟨rfl, hframe b hb⟩) rfl
  refine ⟨N', hlist, ?_, rfl, rfl, update_self _ _ _, ?_, fun x hx => ?_, fun a => ?_,
    fun c hc => ?_⟩
  · rw [← units_base base N, ← units_base base N', ← hN', hsplit]
    simp only [units_append, units_cons]
    omega
  · have := hf.low q hqN
    simp only
    omega
  · simp only [mem_cons, not_or] at hx
    refine hsize ?_ hx.1
    rintro rfl
    exact hx.2 (List.mem_map_of_mem (f := Block.addr) hqN)
  · rw [← hasByte_base base N, hsplit, hasByte_cons, ← hasByte_base base N', ← hN']
    simp only [hasByte_append, hasByte_cons]
    have hbytes : q.Has a ↔ Block.Has ⟨q.addr + (q.size - n) * headerSize, n⟩ a ∨
        Block.Has ⟨q.addr, q.size - n⟩ a := by
      rw [Block.Has, hstop]
      simp only [Block.Has, Block.stop]
      omega
    rw [hbytes]
    simp only [or_assoc, or_left_comm]
  · have hc' : c ∈ pre ++ P :: ⟨q.addr, q.size - n⟩ :: post := by
      rw [hN']
      exact mem_cons_of_mem _ hc
    simp only [mem_append, mem_cons] at hc'
    rcases hc' with hc | rfl | rfl | hc
    · have := hcross c hc q mem_cons_self
      simp only [Block.Below] at this
      exact .inr (by simp only; omega)
    · simp only [Block.Below] at hPq
      exact .inr (by simp only; omega)
    · exact .inr (Nat.le_refl _)
    · have := hpostabove c hc
      exact .inl (by rw [hstop] at this; exact this.le)

theorem FreeList.take (hf : FreeList base h N) {x : Nat} (hx : x ∈ base :: N.map Block.addr)
    (hn : 0 < n) (hsize : n ≤ h.size (h.ptr x)) :
    ∃ N' b, (take h n x (h.ptr x)).2 = b.addr ∧ b.size = n ∧
      Taken base h (take h n x (h.ptr x)).1 N N' b := by
  obtain ⟨P, hP, rfl⟩ := mem_map.mp
    (show x ∈ (baseBlock base :: N).map Block.addr from hx)
  obtain ⟨pre, rest, hsplit, hptr, -⟩ := hf.node hP
  cases rest with
  | nil =>
    -- `base` has no units.
    rw [List.map_nil, List.headD_nil] at hptr
    rw [hptr, hf.base_size] at hsize
    omega
  | cons q post =>
    rw [List.map_cons, List.headD_cons] at hptr
    have hq := (hf.size q (mem_of_split hsplit mem_cons_self)).1
    rw [hptr, hq] at hsize
    rw [hptr, Umalloc.take, hq]
    by_cases heq : q.size = n
    · obtain ⟨N', htaken⟩ := hf.unlink hsplit
      rw [if_pos heq]
      exact ⟨N', q, rfl, heq, htaken⟩
    · obtain ⟨N', htaken⟩ := hf.shrink hsplit (n := n) (by omega)
      rw [if_neg heq]
      exact ⟨N', _, rfl, rfl, htaken⟩

/-- The loop of `malloc` passes the nodes that are too small and are not `freep`. -/
theorem mallocLoop_pass {k x : Nat} {gaps : List (Option Nat)}
    (hsmall : ∀ j < k, h.size (h.ptr^[j + 1] x) < n) (hfreep : ∀ j < k, h.ptr^[j + 1] x ≠ h.freep)
    (fuel : Nat) :
    mallocLoop n (fuel + 1 + k) h x (h.ptr x) gaps =
      mallocLoop n (fuel + 1) h (h.ptr^[k] x) (h.ptr^[k + 1] x) gaps := by
  induction k generalizing x with
  | zero => rfl
  | succ k ih =>
    have h₁ : ¬h.size (h.ptr x) ≥ n := not_le.mpr (hsmall 0 (by omega))
    have h₂ : ¬h.ptr x = h.freep := hfreep 0 (by omega)
    rw [show fuel + 1 + (k + 1) = (fuel + 1 + k) + 1 by omega, mallocLoop, if_neg h₁, if_neg h₂,
      ih (fun j hj => hsmall (j + 1) (by omega)) (fun j hj => hfreep (j + 1) (by omega))]
    rfl

theorem FreeList.mallocLoop_found (hf : FreeList base h N) (hn : 0 < n)
    (hlarge : ∃ c ∈ N, n ≤ c.size) (gaps : List (Option Nat)) :
    ∃ h' N' b, b.size = n ∧ Taken base h h' N N' b ∧
      ∃ K, ∀ fuel ≥ K,
        mallocLoop n fuel h h.freep (h.ptr h.freep) gaps = some (h', some b.addr) := by
  obtain ⟨c, hc, hcn⟩ := hlarge
  have hexists : ∃ k, n ≤ h.size (h.ptr (h.ptr^[k] h.freep)) := by
    obtain ⟨k, hk⟩ := hf.ring.reach hf.freep
      (mem_cons_of_mem _ (List.mem_map_of_mem (f := Block.addr) hc))
    refine ⟨k, ?_⟩
    rw [← iterate_succ_apply' h.ptr, hk, (hf.size c hc).1]
    exact hcn
  obtain ⟨k, hk, hfirst⟩ := exists_first (p := fun x => n ≤ h.size (h.ptr x)) hexists
  obtain ⟨N', b, hb, hbn, htaken⟩ := hf.take (hf.ring.iterate_mem hf.freep k) hn hk
  refine ⟨_, N', b, hbn, htaken, k + 1, fun fuel hfuel => ?_⟩
  obtain ⟨fuel, rfl⟩ : ∃ m, fuel = m + 1 + k := ⟨fuel - 1 - k, by omega⟩
  have hsmall : ∀ j < k, h.size (h.ptr^[j + 1] h.freep) < n := fun j hj => by
    rw [iterate_succ_apply']
    exact not_le.mp (hfirst j hj)
  rw [mallocLoop_pass hsmall (fun j hj heq => ?_) fuel]
  · rw [mallocLoop, iterate_succ_apply', if_pos hk, ← hb]
  · -- Once around the circle, the same nodes come again.
    refine hfirst (k - (j + 1)) (by omega) ?_
    have hback : h.ptr^[k] h.freep = h.ptr^[k - (j + 1)] h.freep := by
      conv_lhs => rw [show k = (k - (j + 1)) + (j + 1) by omega, Function.iterate_add_apply, heq]
    rw [← hback]
    exact hk

theorem FreeList.mallocLoop_none (hf : FreeList base h N) (hn : 0 < n)
    (hsmall : ∀ c ∈ N, c.size < n) (gaps : List (Option Nat)) :
    ∃ k, ∀ fuel, mallocLoop n (fuel + 1 + k) h h.freep (h.ptr h.freep) gaps =
      (morecore h fuel n (gaps.headD none)).bind fun y =>
        match y.2 with
        | none => some (y.1, none)
        | some p => mallocLoop n fuel y.1 p (y.1.ptr p) gaps.tail := by
  have hall : ∀ x ∈ base :: N.map Block.addr, h.size x < n := by
    intro x hx
    obtain ⟨b, hb, rfl⟩ := mem_map.mp
      (show x ∈ (baseBlock base :: N).map Block.addr from hx)
    rw [hf.size_eq hb]
    rcases mem_cons.mp hb with rfl | hb
    · exact hn
    · exact hsmall b hb
  have hexists : ∃ k, h.ptr (h.ptr^[k] h.freep) = h.freep := by
    obtain ⟨k, hk⟩ := hf.ring.reach hf.freep hf.freep
    exact ⟨k, by rw [← iterate_succ_apply' h.ptr, hk]⟩
  obtain ⟨k, hk, hfirst⟩ := exists_first (p := fun x => h.ptr x = h.freep) hexists
  refine ⟨k, fun fuel => ?_⟩
  have hnode (j : Nat) : h.size (h.ptr^[j] h.freep) < n :=
    hall _ (hf.ring.iterate_mem hf.freep j)
  rw [mallocLoop_pass (fun j _ => hnode (j + 1)) (fun j hj heq => ?_) fuel]
  · have hkn : ¬h.size (h.ptr (h.ptr^[k] h.freep)) ≥ n := by
      rw [← iterate_succ_apply' h.ptr]
      exact not_le.mpr (hnode (k + 1))
    rw [mallocLoop, iterate_succ_apply', if_neg hkn]
    exact if_pos hk
  · rw [iterate_succ_apply'] at heq
    exact hfirst j hj heq

theorem FreeList.exists_block (hf : FreeList base h N) {a : Nat} (hn : 0 < n)
    (hhas : ∀ i, Block.Has ⟨a, n⟩ i → HasByte N i) : ∃ c ∈ N, n ≤ c.size := by
  have hpos : 0 < n * headerSize := Nat.mul_pos hn (by decide)
  obtain ⟨c, hc, hca⟩ := hhas a ⟨Nat.le_refl _, by simp only [Block.stop]; omega⟩
  refine ⟨c, hc, ?_⟩
  by_contra hlt
  -- The byte behind `c` is one of the bytes, but no other block is adjacent.
  have hlen : c.size * headerSize < n * headerSize :=
    Nat.mul_lt_mul_of_pos_right (by omega) (by decide)
  obtain ⟨d, hd, hda⟩ := hhas c.stop ⟨by simp only [Block.Has] at hca ⊢; omega, by
    simp only [Block.Has, Block.stop] at hca ⊢
    omega⟩
  obtain ⟨l₁, l₂, heq, -, hl₁, hl₂, -⟩ := hf.node (mem_cons_of_mem _ hc)
  have hdN : d ∈ l₁ ++ c :: l₂ := heq ▸ mem_cons_of_mem _ hd
  simp only [Block.Has] at hca hda
  rcases mem_append.mp hdN with hd | hd
  · have hbelow := hl₁ d hd
    simp only [Block.Below] at hbelow
    omega
  · rcases mem_cons.mp hd with rfl | hd
    · omega
    · have hbelow := hl₂ d hd
      simp only [Block.Below] at hbelow
      omega

end

structure Outside (base : Nat) (N : List Block) (X : Block) : Prop where
  pos : 0 < X.size
  low : base + headerSize ≤ X.addr
  apart : ∀ c ∈ N, X.Apart c

section

variable {base : Nat} {h h' : Heap} {N N' : List Block} {X : Block}

variable {c : Block}

theorem Block.apart_of_has {X : Block} (hX : 0 < X.size) (hc : 0 < c.size)
    (h : ∀ a, X.Has a → ¬c.Has a) : X.Apart c := by
  have hX' : 0 < X.size * headerSize := Nat.mul_pos hX (by decide)
  have hc' : 0 < c.size * headerSize := Nat.mul_pos hc (by decide)
  have h₁ := h X.addr
  have h₂ := h c.addr
  simp only [Block.Has, Block.Apart, Block.stop] at h₁ h₂ ⊢
  omega

variable {a : Nat}

theorem Block.Apart.not_has {X : Block} (h : X.Apart c) (hX : X.Has a) : ¬c.Has a := by
  simp only [Block.Has, Block.Apart] at h hX ⊢
  omega

theorem Block.has_addr {X : Block} (hX : 0 < X.size) : X.Has X.addr := by
  have hX' : 0 < X.size * headerSize := Nat.mul_pos hX (by decide)
  simp only [Block.Has, Block.stop]
  omega

theorem Outside.not_hasByte (hX : Outside base N X) (ha : X.Has a) : ¬HasByte N a := by
  rintro ⟨c, hc, hca⟩
  exact (hX.apart c hc).not_has ha hca

variable {L : Nat}

theorem stop_le (hc : 0 < c.size) (h : ∀ a, c.Has a → a < L) : c.stop ≤ L := by
  have hc' : 0 < c.size * headerSize := Nat.mul_pos hc (by decide)
  have := h (c.stop - 1)
  simp only [Block.Has, Block.stop] at this ⊢
  omega

theorem hasByte_lt (h : ∀ c ∈ N, c.stop ≤ L) (ha : HasByte N a) : a < L := by
  obtain ⟨c, hc, hca⟩ := ha
  exact lt_of_lt_of_le hca.2 (h c hc)

theorem Outside.not_mem (hf : FreeList base h N) (hX : Outside base N X) :
    X.addr ∉ base :: N.map Block.addr := by
  intro hmem
  rcases mem_cons.mp hmem with heq | hmem
  · have := hX.low
    simp only [headerSize] at this
    omega
  · obtain ⟨c, hc, hca⟩ := mem_map.mp hmem
    have hpos := (hf.size c hc).2
    exact hX.not_hasByte (Block.has_addr hX.pos) ⟨c, hc, hca ▸ Block.has_addr hpos⟩

variable {bp u : Nat} {b : Block}

theorem Freed.outside (hf : FreeList base h N) (hfreed : Freed base h h' bp u N N') (hu : 0 < u)
    (hX : Outside base N X) (hXb : X.Apart ⟨bp, u⟩) :
    Outside base N' X ∧ h'.size X.addr = h.size X.addr := by
  refine ⟨⟨hX.pos, hX.low, fun c hc => ?_⟩, hfreed.size _ ?_⟩
  · refine Block.apart_of_has hX.pos (hfreed.list.size c hc).2 fun a ha hca => ?_
    have hbyte := (hfreed.has a).mp ⟨c, hc, hca⟩
    rw [hasByte_cons] at hbyte
    exact hbyte.elim (hXb.not_has ha) (hX.not_hasByte ha)
  · intro hmem
    rcases mem_cons.mp hmem with heq | hmem
    · exact hXb.not_has (Block.has_addr hX.pos) (heq ▸ Block.has_addr (X := ⟨bp, u⟩) hu)
    · exact hX.not_mem hf hmem

theorem Freed.stop_le (hfreed : Freed base h h' bp u N N')
    (hbp : (⟨bp, u⟩ : Block).stop ≤ L) (hN : ∀ c ∈ N, c.stop ≤ L) : ∀ c ∈ N', c.stop ≤ L := by
  intro c hc
  refine Umalloc.stop_le (hfreed.list.size c hc).2 fun a ha => ?_
  have hbyte := (hfreed.has a).mp ⟨c, hc, ha⟩
  rw [hasByte_cons] at hbyte
  exact hbyte.elim (fun h => lt_of_lt_of_le h.2 hbp) (hasByte_lt hN)

theorem Taken.outside (hf : FreeList base h N) (htaken : Taken base h h' N N' b) (hb : 0 < b.size)
    (hX : Outside base N X) : Outside base N' X ∧ X.Apart b ∧ h'.size X.addr = h.size X.addr := by
  have hXb : X.Apart b := Block.apart_of_has hX.pos hb fun a ha hba =>
    hX.not_hasByte ha ((htaken.has a).mpr (hasByte_cons.mpr (.inl hba)))
  refine ⟨⟨hX.pos, hX.low, fun c hc => ?_⟩, hXb, htaken.size _ ?_⟩
  · refine Block.apart_of_has hX.pos (htaken.list.size c hc).2 fun a ha hca => ?_
    exact hX.not_hasByte ha ((htaken.has a).mpr (hasByte_cons.mpr (.inr ⟨c, hc, hca⟩)))
  · intro hmem
    rcases mem_cons.mp hmem with heq | hmem
    · exact hXb.not_has (Block.has_addr hX.pos) (heq ▸ Block.has_addr hb)
    · exact hX.not_mem hf (mem_cons_of_mem _ hmem)

theorem Taken.stop_le (htaken : Taken base h h' N N' b) (hb : 0 < b.size)
    (hN : ∀ c ∈ N, c.stop ≤ L) : b.stop ≤ L ∧ ∀ c ∈ N', c.stop ≤ L := by
  have hlt (a : Nat) (ha : HasByte (b :: N') a) : a < L := hasByte_lt hN ((htaken.has a).mpr ha)
  refine ⟨Umalloc.stop_le hb fun a ha => hlt a (hasByte_cons.mpr (.inl ha)), fun c hc => ?_⟩
  exact Umalloc.stop_le (htaken.list.size c hc).2 fun a ha =>
    hlt a (hasByte_cons.mpr (.inr ⟨c, hc, ha⟩))

/-- `h'` is `h` with more memory: a region of `u` units has become free. -/
structure Grown (base : Nat) (h h' : Heap) (N N' : List Block) (u : Nat) : Prop where
  list : FreeList base h' N'
  units : units N' = Umalloc.units N + u
  granted : h'.granted = h.granted + u * headerSize
  sz : h.sz ≤ h'.sz
  stop : ∀ c ∈ N', c.stop ≤ h'.sz
  large : ∃ c ∈ N', u ≤ c.size
  outside : ∀ X, Outside base N X → X.stop ≤ h.sz →
    Outside base N' X ∧ h'.size X.addr = h.size X.addr

/-- `sbrk` grants what `morecore` asks for when `malloc` needs `n` units. -/
def CanGrow (h : Heap) (n : Nat) (gap : Option Nat) : Prop :=
  ∃ g, gap = some g ∧ h.sz + g + (if n < 4096 then 4096 else n) * headerSize < kernBase

theorem FreeList.morecore (hf : FreeList base h N) (hbase : base + headerSize ≤ h.sz)
    (hstop : ∀ c ∈ N, c.stop ≤ h.sz) {n : Nat} (hn : n ≤ 2 ^ 28) (gap : Option Nat) :
    (¬ CanGrow h n gap ∧ ∀ fuel, morecore h fuel n gap = some (h, none)) ∨
      CanGrow h n gap ∧ ∃ h' N' u, n ≤ u ∧ Grown base h h' N N' u ∧
        ∃ K, ∀ fuel ≥ K, morecore h fuel n gap = some (h', some h'.freep) := by
  rw [CanGrow]
  generalize hnu : (if n < 4096 then 4096 else n) = nu
  have hle : n ≤ nu := by split at hnu <;> omega
  have hmod : nu * headerSize % 2 ^ 32 = nu * headerSize := by
    refine Nat.mod_eq_of_lt ?_
    simp only [headerSize]
    split at hnu <;> omega
  have hpos : 0 < nu := by split at hnu <;> omega
  cases hs : sbrk h (nu * headerSize) gap with
  | none =>
    refine .inl ⟨?_, fun fuel => by simp only [Umalloc.morecore, hnu, hmod, hs]⟩
    rintro ⟨g, rfl, hlt⟩
    rw [sbrk, Option.bind_some, if_pos hlt] at hs
    cases hs
  | some y =>
    obtain ⟨hp, h₀⟩ := y
    obtain ⟨g, hg, hgrant⟩ := Option.bind_eq_some_iff.mp hs
    split at hgrant
    · next hlt =>
      cases hgrant
      -- The new block is above everything that the process has had.
      have hnode : ∀ x ∈ base :: N.map Block.addr, x < h.sz := by
        intro x hx
        rcases mem_cons.mp hx with rfl | hx
        · simp only [headerSize] at hbase
          omega
        · obtain ⟨c, hc, rfl⟩ := mem_map.mp hx
          have := hstop c hc
          have := Block.has_addr (hf.size c hc).2
          simp only [Block.Has] at this
          omega
      have hf₀ : FreeList base
          { h with
            size := update h.size (h.sz + g) nu
            sz := h.sz + g + nu * headerSize
            granted := h.granted + nu * headerSize } N :=
        hf.congr (fun _ _ => rfl)
          (fun x hx => update_of_ne (by have := hnode x hx; omega) _ _) rfl
      have hnew : update h.size (h.sz + g) nu (h.sz + g) = nu := update_self _ _ _
      obtain ⟨h', N', ⟨K, hK⟩, hfreed⟩ := hf₀.free hnew hpos (by omega)
        (fun c hc => .inr (by have := hstop c hc; simp only; omega))
      refine .inr ⟨⟨g, hg, hlt⟩, h', N', nu, hle, ⟨hfreed.list, hfreed.units, hfreed.granted, ?_, ?_, ?_, ?_⟩, K,
        fun fuel hfuel => ?_⟩
      · rw [hfreed.sz]
        simp only
        omega
      · rw [hfreed.sz]
        refine hfreed.stop_le (Nat.le_refl _) fun c hc => ?_
        have := hstop c hc
        simp only
        omega
      · exact hfreed.list.exists_block hpos fun a ha =>
          (hfreed.has a).mpr (hasByte_cons.mpr (.inl ha))
      · intro X hX hXsz
        have hapart : X.Apart ⟨h.sz + g, nu⟩ := .inl (by simp only; omega)
        obtain ⟨hout, hsize⟩ := hfreed.outside hf₀ hpos hX hapart
        refine ⟨hout, hsize.trans (update_of_ne ?_ _ _)⟩
        have := Block.has_addr hX.pos
        simp only [Block.Has] at this
        omega
      · simp only [Umalloc.morecore, hnu, hmod, hs, hK fuel hfuel]
        rfl
    · cases hgrant

/-- The free blocks; before the first call of `malloc` there is no list. -/
def FreeBlocks (base : Nat) (h : Heap) (N : List Block) : Prop :=
  h.freep = 0 ∧ N = [] ∨ FreeList base h N

/-- The block `b` has been taken from the free blocks `N`, after the heap has grown or not. -/
structure Got (base : Nat) (h h' : Heap) (N N' : List Block) (b : Block) : Prop where
  list : FreeList base h' N'
  units : (units N' + b.size) * headerSize + h.granted =
    Umalloc.units N * headerSize + h'.granted
  sz : h.sz ≤ h'.sz
  stop : b.stop ≤ h'.sz ∧ ∀ c ∈ N', c.stop ≤ h'.sz
  block : h'.size b.addr = b.size
  low : base + headerSize ≤ b.addr
  apart : ∀ c ∈ N', b.Apart c
  outside : ∀ X, Outside base N X → X.stop ≤ h.sz →
    Outside base N' X ∧ X.Apart b ∧ h'.size X.addr = h.size X.addr

theorem FreeList.mallocLoop (hf : FreeList base h N) (hbase : base + headerSize ≤ h.sz)
    (hstop : ∀ c ∈ N, c.stop ≤ h.sz) {n : Nat} (hpos : 0 < n) (hn : n ≤ 2 ^ 28)
    (gaps : List (Option Nat)) :
    ((∀ c ∈ N, c.size < n) ∧ ¬ CanGrow h n (gaps.headD none) ∧
        ∃ K, ∀ fuel ≥ K, mallocLoop n fuel h h.freep (h.ptr h.freep) gaps = some (h, none)) ∨
      ((∃ c ∈ N, n ≤ c.size) ∨ CanGrow h n (gaps.headD none)) ∧
        ∃ h' N' b, b.size = n ∧ Got base h h' N N' b ∧
        ∃ K, ∀ fuel ≥ K,
          mallocLoop n fuel h h.freep (h.ptr h.freep) gaps = some (h', some b.addr) := by
  by_cases hlarge : ∃ c ∈ N, n ≤ c.size
  · obtain ⟨h', N', b, hbn, ht, hK⟩ := hf.mallocLoop_found hpos hlarge gaps
    have hb : 0 < b.size := by omega
    refine .inr ⟨.inl hlarge, h', N', b, hbn, ⟨ht.list, ?_, ht.sz.ge, ?_, ht.block, ht.low,
      ht.apart, fun X hX _ => ht.outside hf hb hX⟩, hK⟩
    · rw [ht.units, ht.granted]
    · rw [ht.sz]
      exact ht.stop_le hb hstop
  · have hsmall : ∀ c ∈ N, c.size < n := fun c hc => by
      by_contra hge
      exact hlarge ⟨c, hc, by omega⟩
    obtain ⟨k, hk⟩ := hf.mallocLoop_none hpos hsmall gaps
    rcases hf.morecore hbase hstop hn (gaps.headD none) with
      ⟨hno, hfail⟩ | ⟨hcan, h₁, N₁, u, hu, hg, K₁, hK₁⟩
    · refine .inl ⟨hsmall, hno, k + 1, fun fuel hfuel => ?_⟩
      obtain ⟨fuel, rfl⟩ : ∃ m, fuel = m + 1 + k := ⟨fuel - 1 - k, by omega⟩
      rw [hk, hfail]
      rfl
    · -- Now there is a large block.
      obtain ⟨c, hc, hcu⟩ := hg.large
      obtain ⟨h', N', b, hbn, ht, K₂, hK₂⟩ :=
        hg.list.mallocLoop_found hpos ⟨c, hc, by omega⟩ gaps.tail
      have hb : 0 < b.size := by omega
      refine .inr ⟨.inr hcan, h', N', b, hbn, ⟨ht.list, ?_, ?_, ?_, ht.block, ht.low, ht.apart,
        fun X hX hXsz => ?_⟩, K₁ + K₂ + 1 + k, fun fuel hfuel => ?_⟩
      · have h₁ := hg.units
        rw [ht.units] at h₁
        rw [ht.granted, hg.granted, h₁, Nat.add_mul]
        omega
      · rw [ht.sz]
        exact hg.sz
      · rw [ht.sz]
        exact ht.stop_le hb hg.stop
      · obtain ⟨hout, hsize⟩ := hg.outside X hX hXsz
        obtain ⟨hout', hapart, hsize'⟩ := ht.outside hg.list hb hout
        exact ⟨hout', hapart, hsize'.trans hsize⟩
      · obtain ⟨fuel, rfl⟩ : ∃ m, fuel = m + 1 + k := ⟨fuel - 1 - k, by omega⟩
        rw [hk, hK₁ fuel (by omega)]
        exact hK₂ fuel (by omega)

theorem nunits_le {nbytes : Nat} (h : nbytes ≤ 2 ^ 30) : nunits nbytes ≤ 2 ^ 28 := by
  simp only [nunits, headerSize]
  omega

/-- `malloc` terminates; it changes no block and returns 0, or it returns a block. -/
theorem malloc_spec (hf : FreeBlocks base h N) (hbase : base + headerSize ≤ h.sz)
    (hpos : 0 < base) (hstop : ∀ c ∈ N, c.stop ≤ h.sz) {nbytes : Nat}
    (hunits : nunits nbytes ≤ 2 ^ 28) (gaps : List (Option Nat)) :
    ((∀ c ∈ N, c.size < nunits nbytes) ∧ ¬ CanGrow h (nunits nbytes) (gaps.headD none) ∧
      ∃ h', FreeList base h' N ∧ h'.sz = h.sz ∧ h'.granted = h.granted ∧
      (∀ x ≠ base, h'.size x = h.size x) ∧
      ∃ K, ∀ fuel ≥ K, malloc base fuel nbytes gaps h = some (h', none)) ∨
    ((∃ c ∈ N, nunits nbytes ≤ c.size) ∨ CanGrow h (nunits nbytes) (gaps.headD none)) ∧
      ∃ h' N' b, b.size = nunits nbytes ∧ Got base h h' N N' b ∧
      ∃ K, ∀ fuel ≥ K, malloc base fuel nbytes gaps h = some (h', some b.addr) := by
  have hunits' : 0 < nunits nbytes := Nat.succ_pos _
  rcases hf with ⟨hnull, rfl⟩ | hf
  · -- The first call makes the list.
    have hf₀ : FreeList base
        { h with
          ptr := update h.ptr base base
          size := update h.size base 0
          freep := base } [] :=
      { ring := ⟨update_self _ _ _, trivial⟩
        base_size := update_self _ _ _
        size := fun b hb => by cases hb
        sorted := by simp
        low := fun b hb => by cases hb
        freep := mem_cons_self }
    rcases hf₀.mallocLoop hbase hstop hunits' hunits gaps with
      ⟨hsmall, hno, hfail⟩ | ⟨hcan, h', N', b, hbn, hgot, hK⟩
    · refine .inl ⟨hsmall, hno, _, hf₀, rfl, rfl, fun x hx => update_of_ne hx _ _, ?_⟩
      simpa only [malloc, hnull, if_true] using hfail
    · refine .inr ⟨hcan, h', N', b, hbn, ⟨hgot.list, hgot.units, hgot.sz, hgot.stop, hgot.block,
        hgot.low, hgot.apart, fun X hX hXsz => ?_⟩, ?_⟩
      · obtain ⟨hout, hapart, hsize⟩ := hgot.outside X hX hXsz
        refine ⟨hout, hapart, hsize.trans (update_of_ne ?_ _ _)⟩
        have := hX.low
        simp only [headerSize] at this
        omega
      · simpa only [malloc, hnull, if_true] using hK
  · have hfreep : h.freep ≠ 0 := by
      obtain ⟨c, hc, hca⟩ := mem_map.mp
        (show h.freep ∈ (baseBlock base :: N).map Block.addr from hf.freep)
      have := hf.base_le hc
      omega
    rcases hf.mallocLoop hbase hstop hunits' hunits gaps with ⟨hsmall, hno, hfail⟩ | hgot
    · refine .inl ⟨hsmall, hno, h, hf, rfl, rfl, fun _ _ => rfl, ?_⟩
      simpa only [malloc, if_neg hfreep] using hfail
    · exact .inr (by simpa only [malloc, if_neg hfreep] using hgot)

end

end Xv6.Umalloc
