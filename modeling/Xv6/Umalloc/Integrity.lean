import Mathlib.Data.List.Pairwise
import Xv6.Umalloc.Malloc

/-!
# Heap integrity

A program calls `malloc` and `free` as it likes, and writes into the blocks that it has. The free
list stays a circle in address order, free and live blocks are disjoint and together what `sbrk` has
granted, and every call returns.
-/

namespace Xv6.Umalloc

section

variable {h : Heap} {fuel fuel' : Nat}

theorem findPlace_mono {bp p q : Nat} (hle : fuel ≤ fuel') (hp : findPlace h bp fuel p = some q) :
    findPlace h bp fuel' p = some q := by
  induction fuel generalizing fuel' p with
  | zero => cases hp
  | succ fuel ih =>
    obtain ⟨fuel', rfl⟩ : ∃ n, fuel' = n + 1 := ⟨fuel' - 1, by omega⟩
    rw [findPlace] at hp ⊢
    split_ifs at hp ⊢
    · exact hp
    · exact hp
    · exact ih (by omega) hp

theorem free_mono {bp : Nat} {h' : Heap} (hle : fuel ≤ fuel') (hf : free h fuel bp = some h') :
    free h fuel' bp = some h' := by
  obtain ⟨p, hp, rfl⟩ := Option.map_eq_some_iff.mp hf
  rw [free, findPlace_mono hle hp]
  rfl

variable {y : Heap × Option Nat}

theorem morecore_mono {n : Nat} {gap : Option Nat} (hle : fuel ≤ fuel')
    (hm : morecore h fuel n gap = some y) : morecore h fuel' n gap = some y := by
  simp only [morecore] at hm ⊢
  split at hm
  · exact hm
  · next hp h' hs =>
    obtain ⟨h'', hfree, rfl⟩ := Option.map_eq_some_iff.mp hm
    rw [free_mono hle hfree]
    rfl

theorem mallocLoop_mono {n prevp p : Nat} {gaps : List (Option Nat)}
    (hle : fuel ≤ fuel') (hm : mallocLoop n fuel h prevp p gaps = some y) :
    mallocLoop n fuel' h prevp p gaps = some y := by
  induction fuel generalizing fuel' h prevp p gaps with
  | zero => cases hm
  | succ fuel ih =>
    obtain ⟨fuel', rfl⟩ : ∃ m, fuel' = m + 1 := ⟨fuel' - 1, by omega⟩
    rw [mallocLoop] at hm ⊢
    split_ifs at hm ⊢ with hsize hfreep
    · exact hm
    · obtain ⟨z, hz, hm⟩ := Option.bind_eq_some_iff.mp hm
      rw [morecore_mono (by omega) hz, Option.bind_some]
      split at hm
      · exact hm
      · exact ih (by omega) hm
    · exact ih (by omega) hm

theorem malloc_mono {base nbytes : Nat} {gaps : List (Option Nat)}
    (hle : fuel ≤ fuel') (hm : malloc base fuel nbytes gaps h = some y) :
    malloc base fuel' nbytes gaps h = some y :=
  mallocLoop_mono hle hm

end

theorem eq_of_mono {α : Type} {f : Nat → Option α}
    (hmono : ∀ {n m y}, n ≤ m → f n = some y → f m = some y)
    {fuel K : Nat} {x y : α} (hx : f fuel = some x) (hy : ∀ n ≥ K, f n = some y) : x = y := by
  have h₁ := hmono (Nat.le_max_left fuel K) hx
  rw [hy _ (Nat.le_max_right fuel K)] at h₁
  exact (Option.some.inj h₁).symm

/-- The variable `base` is part of the process before the first `sbrk`. -/
structure Layout where
  base : Nat
  sz : Nat
  base_pos : 0 < base
  base_le : base + headerSize ≤ sz

def State.start (L : Layout) (ptr size : Nat → Nat) : State := ⟨⟨ptr, size, 0, L.sz, 0⟩, []⟩

def State.block (s : State) (l : Live) : Block := ⟨l.addr, s.heap.size l.addr⟩

/-- The heap has the free blocks `N` and is intact. -/
structure Intact (base : Nat) (s : State) (N : List Block) : Prop where
  /-- a circular list in address order, with `base`, of blocks that are disjoint and not adjacent -/
  free : FreeBlocks base s.heap N
  listed : s.live ≠ [] → FreeList base s.heap N
  /-- live blocks have units and are disjoint from the free ones -/
  outside : ∀ l ∈ s.live, Outside base N (s.block l)
  disjoint : s.live.Pairwise fun l m => (s.block l).Apart (s.block m)
  /-- behind the header there is room for the bytes that were asked for -/
  room : ∀ l ∈ s.live, headerSize + l.nbytes ≤ (s.block l).size * headerSize
  total : (units N + units (s.live.map s.block)) * headerSize = s.heap.granted
  base_le : base + headerSize ≤ s.heap.sz
  free_stop : ∀ c ∈ N, c.stop ≤ s.heap.sz
  live_stop : ∀ l ∈ s.live, (s.block l).stop ≤ s.heap.sz

theorem intact_start (L : Layout) (ptr size : Nat → Nat) :
    Intact L.base (.start L ptr size) [] where
  free := .inl ⟨rfl, rfl⟩
  listed := fun h => absurd rfl h
  outside := fun l hl => by cases hl
  disjoint := List.Pairwise.nil
  room := fun l hl => by cases hl
  total := rfl
  base_le := L.base_le
  free_stop := fun c hc => by cases hc
  live_stop := fun l hl => by cases hl

section

variable {base : Nat} {s : State} {N : List Block}

variable {s' : State}

theorem map_block_congr {s : State} {ls : List Live}
    (h : ∀ l ∈ ls, s'.heap.size l.addr = s.heap.size l.addr) : ls.map s'.block = ls.map s.block :=
  List.map_congr_left fun l hl => by rw [State.block, State.block, h l hl]

theorem block_congr {s : State} {l : Live}
    (h : s'.heap.size l.addr = s.heap.size l.addr) : s'.block l = s.block l := by
  rw [State.block, State.block, h]

variable {h' : Heap}

theorem Intact.got (hI : Intact base s N) {N' : List Block} {b : Block} {nbytes : Nat}
    (hn : nbytes ≤ 2 ^ 30) (hb : b.size = nunits nbytes) (hg : Got base s.heap h' N N' b) :
    Intact base ⟨h', ⟨b.addr, nbytes⟩ :: s.live⟩ N' := by
  have hkeep : ∀ l ∈ s.live, h'.size l.addr = s.heap.size l.addr := fun l hl =>
    (hg.outside _ (hI.outside l hl) (hI.live_stop l hl)).2.2
  have hblock : ∀ l ∈ s.live,
      State.block ⟨h', ⟨b.addr, nbytes⟩ :: s.live⟩ l = s.block l := fun l hl =>
    block_congr (hkeep l hl)
  have hnew : State.block ⟨h', ⟨b.addr, nbytes⟩ :: s.live⟩ ⟨b.addr, nbytes⟩ = b := by
    simp only [State.block, hg.block]
  have hpos : 0 < b.size := by rw [hb]; exact Nat.succ_pos _
  refine ⟨.inr hg.list, fun _ => hg.list, fun l hl => ?_,
    List.pairwise_cons.mpr ⟨fun l hl => ?_, ?_⟩, fun l hl => ?_, ?_, hI.base_le.trans hg.sz, hg.stop.2, fun l hl => ?_⟩
  · rcases List.mem_cons.mp hl with rfl | hl
    · rw [hnew]
      exact ⟨hpos, hg.low, hg.apart⟩
    · rw [hblock l hl]
      exact (hg.outside _ (hI.outside l hl) (hI.live_stop l hl)).1
  · rw [hnew, hblock l hl]
    exact (hg.outside _ (hI.outside l hl) (hI.live_stop l hl)).2.1.symm
  · refine hI.disjoint.imp_of_mem fun {l m} hl hm hlm => ?_
    rw [hblock l hl, hblock m hm]
    exact hlm
  · rcases List.mem_cons.mp hl with rfl | hl
    · rw [hnew, hb]
      simp only [nunits, headerSize]
      omega
    · rw [hblock l hl]
      exact hI.room l hl
  · have hmap : s.live.map (State.block ⟨h', ⟨b.addr, nbytes⟩ :: s.live⟩) = s.live.map s.block :=
      map_block_congr hkeep
    have htotal := hI.total
    have hunits := hg.units
    rw [List.map_cons, units_cons, hnew, hmap]
    simp only [Nat.add_mul] at htotal hunits ⊢
    omega
  · rcases List.mem_cons.mp hl with rfl | hl
    · rw [hnew]
      exact hg.stop.1
    · rw [hblock l hl]
      exact (hI.live_stop l hl).trans hg.sz

theorem Intact.congr (hI : Intact base s N) (hf : FreeBlocks base h' N)
    (hlisted : s.live ≠ [] → FreeList base h' N)
    (hsize : ∀ l ∈ s.live, h'.size l.addr = s.heap.size l.addr) (hsz : h'.sz = s.heap.sz)
    (hgranted : h'.granted = s.heap.granted) : Intact base { s with heap := h' } N := by
  have hblock : ∀ l ∈ s.live, State.block { s with heap := h' } l = s.block l := fun l hl =>
    block_congr (hsize l hl)
  refine ⟨hf, hlisted, fun l hl => ?_, ?_, fun l hl => ?_, ?_, ?_, ?_, fun l hl => ?_⟩
  · rw [hblock l hl]
    exact hI.outside l hl
  · refine hI.disjoint.imp_of_mem fun {l m} hl hm hlm => ?_
    rw [hblock l hl, hblock m hm]
    exact hlm
  · rw [hblock l hl]
    exact hI.room l hl
  · have hmap : s.live.map (State.block { s with heap := h' }) = s.live.map s.block :=
      map_block_congr hsize
    rw [hmap, hI.total]
    exact hgranted.symm
  · simp only [hsz]
    exact hI.base_le
  · simp only [hsz]
    exact hI.free_stop
  · rw [hblock l hl]
    simp only [hsz]
    exact hI.live_stop l hl

theorem Intact.freed (hI : Intact base s N) (hf : FreeList base s.heap N) {ls₁ ls₂ : List Live}
    {l : Live} (hsplit : s.live = ls₁ ++ l :: ls₂) {N' : List Block}
    (hfreed : Freed base s.heap h' l.addr (s.heap.size l.addr) N N') :
    Intact base ⟨h', ls₁ ++ ls₂⟩ N' := by
  have hl : l ∈ s.live := by rw [hsplit]; simp
  have hmem : ∀ m ∈ ls₁ ++ ls₂, m ∈ s.live := by
    intro m hm
    rw [hsplit]
    simp only [List.mem_append, List.mem_cons] at hm ⊢
    tauto
  have hdisjoint := hI.disjoint
  rw [hsplit, List.pairwise_append, List.pairwise_cons] at hdisjoint
  obtain ⟨hd₁, ⟨hd, hd₂⟩, hd₁₂⟩ := hdisjoint
  have hapart : ∀ m ∈ ls₁ ++ ls₂, (s.block m).Apart (s.block l) := by
    intro m hm
    rcases List.mem_append.mp hm with hm | hm
    · exact hd₁₂ m hm l List.mem_cons_self
    · exact (hd m hm).symm
  have hpos := (hI.outside l hl).pos
  have hkeep : ∀ m ∈ ls₁ ++ ls₂,
      Outside base N' (s.block m) ∧ h'.size m.addr = s.heap.size m.addr := fun m hm =>
    hfreed.outside hf hpos (hI.outside m (hmem m hm)) (hapart m hm)
  have hblock : ∀ m ∈ ls₁ ++ ls₂, State.block ⟨h', ls₁ ++ ls₂⟩ m = s.block m := fun m hm =>
    block_congr (hkeep m hm).2
  refine ⟨.inr hfreed.list, fun _ => hfreed.list, fun m hm => ?_, ?_, fun m hm => ?_, ?_, ?_, ?_,
    fun m hm => ?_⟩
  · rw [hblock m hm]
    exact (hkeep m hm).1
  · refine List.Pairwise.imp_of_mem (fun {m m'} hm hm' hmm' => ?_) (List.pairwise_append.mpr
      ⟨hd₁, hd₂, fun m hm m' hm' => hd₁₂ m hm m' (List.mem_cons_of_mem l hm')⟩)
    rw [hblock m hm, hblock m' hm']
    exact hmm'
  · rw [hblock m hm]
    exact hI.room m (hmem m hm)
  · have hmap : (ls₁ ++ ls₂).map (State.block ⟨h', ls₁ ++ ls₂⟩) = (ls₁ ++ ls₂).map s.block :=
      map_block_congr fun m hm => (hkeep m hm).2
    have htotal := hI.total
    rw [hsplit, List.map_append, List.map_cons, units_append, units_cons] at htotal
    rw [hmap, List.map_append, units_append, hfreed.units, hfreed.granted, ← htotal]
    congr 1
    simp only [State.block]
    omega
  · rw [hfreed.sz]
    exact hI.base_le
  · rw [hfreed.sz]
    exact hfreed.stop_le (hI.live_stop l hl) hI.free_stop
  · rw [hblock m hm, hfreed.sz]
    exact hI.live_stop m (hmem m hm)

theorem Intact.none (hI : Intact base s N) (hf : FreeList base h' N)
    (hsz : h'.sz = s.heap.sz) (hgranted : h'.granted = s.heap.granted)
    (hsize : ∀ x ≠ base, h'.size x = s.heap.size x) : Intact base { s with heap := h' } N := by
  refine hI.congr (.inr hf) (fun _ => hf) (fun l hl => hsize _ ?_) hsz hgranted
  have := (hI.outside l hl).low
  simp only [headerSize, State.block] at this
  omega

theorem Intact.write (hI : Intact base s N) {addr ptr size : Nat}
    (ha : Allowed s (.write addr ptr size)) :
    Intact base { s with
      heap := { s.heap with
        ptr := Function.update s.heap.ptr addr ptr
        size := Function.update s.heap.size addr size } } N := by
  obtain ⟨b, hb, hlo, hhi⟩ := ha
  have hout := hI.outside b hb
  have hf := hI.listed (List.ne_nil_of_mem hb)
  have hhas : (s.block b).Has addr := by
    simp only [headerSize] at hlo hhi
    simp only [Block.Has, Block.stop, State.block, headerSize]
    omega
  -- The address is in the block, so that it is no other header, and not this one.
  have hnode : ∀ x ∈ base :: N.map Block.addr, x ≠ addr := by
    rintro x hx rfl
    rcases List.mem_cons.mp hx with rfl | hx
    · have := hout.low
      simp only [State.block, headerSize] at this hlo
      omega
    · obtain ⟨c, hc, rfl⟩ := List.mem_map.mp hx
      exact (hout.apart c hc).not_has hhas (Block.has_addr (hf.size c hc).2)
  have hlive : ∀ l ∈ s.live, l.addr ≠ addr := by
    rintro l hl rfl
    by_cases hlb : l = b
    · subst hlb
      simp only [headerSize] at hlo
      omega
    · have : Std.Symm fun x y : Live => (s.block x).Apart (s.block y) := ⟨fun _ _ => Or.symm⟩
      have hapart := hI.disjoint.forall hl hb hlb
      exact hapart.not_has (Block.has_addr (hI.outside l hl).pos) hhas
  have hf' : FreeList base
      { s.heap with
        ptr := Function.update s.heap.ptr addr ptr
        size := Function.update s.heap.size addr size } N :=
    hf.congr (fun x hx => Function.update_of_ne (hnode x hx) _ _)
      (fun x hx => Function.update_of_ne (hnode x hx) _ _) rfl
  exact hI.congr (.inr hf') (fun _ => hf')
    (fun l hl => Function.update_of_ne (hlive l hl) _ _) rfl rfl

variable {a : Action}

theorem Intact.next (hI : Intact base s N) (hpos : 0 < base) (ha : Allowed s a) :
    ∃ s' N', Intact base s' N' ∧ ∃ K, ∀ fuel ≥ K, step base fuel s a = some s' := by
  cases a with
  | malloc nbytes gaps =>
    rcases malloc_spec hI.free hI.base_le hpos hI.free_stop (nunits_le ha) gaps with
      ⟨-, -, h', hf, hsz, hgranted, hsize, K, hK⟩ | ⟨-, h', N', b, hb, hgot, K, hK⟩
    · refine ⟨{ s with heap := h' }, N, hI.none hf hsz hgranted hsize, K, fun fuel hfuel => ?_⟩
      rw [step, if_pos ha]
      simp only [hK fuel hfuel, Option.map_some]
    · refine ⟨_, N', hI.got ha hb hgot, K, fun fuel hfuel => ?_⟩
      rw [step, if_pos ha]
      simp only [hK fuel hfuel, Option.map_some]
  | free addr =>
    obtain ⟨b, hb, hba⟩ := ha
    obtain ⟨l, ls₁, ls₂, -, hl, hsplit, herase⟩ :=
      List.exists_of_eraseP (p := fun b : Live => b.addr = addr) hb (by simpa using hba)
    simp only [decide_eq_true_eq] at hl
    subst hl
    have hlive : l ∈ s.live := by rw [hsplit]; simp
    have hout := hI.outside l hlive
    have hf := hI.listed (List.ne_nil_of_mem hlive)
    obtain ⟨h', N', ⟨K, hK⟩, hfreed⟩ := hf.free rfl hout.pos hout.low hout.apart
    refine ⟨_, N', hI.freed hf hsplit hfreed, K, fun fuel hfuel => ?_⟩
    rw [step, if_pos ⟨b, hb, hba⟩]
    simp only [hK fuel hfuel, Option.map_some, herase]
  | write addr ptr size =>
    refine ⟨_, N, hI.write ha, 0, fun fuel _ => ?_⟩
    rw [step, if_pos ha]

theorem step_mono {fuel fuel' : Nat} (hle : fuel ≤ fuel')
    (hs : step base fuel s a = some s') : step base fuel' s a = some s' := by
  by_cases ha : Allowed s a
  swap
  · simp only [step, if_neg ha] at hs
    cases hs
  cases a with
  | malloc nbytes gaps =>
    simp only [step, if_pos ha] at hs ⊢
    obtain ⟨y, hy, rfl⟩ := Option.map_eq_some_iff.mp hs
    simp only [malloc_mono hle hy, Option.map_some]
  | free addr =>
    simp only [step, if_pos ha] at hs ⊢
    obtain ⟨y, hy, rfl⟩ := Option.map_eq_some_iff.mp hs
    simp only [free_mono hle hy, Option.map_some]
  | write addr ptr size =>
    simp only [step, if_pos ha] at hs ⊢
    exact hs

theorem Intact.step (hI : Intact base s N) (hpos : 0 < base) {fuel : Nat}
    (hs : step base fuel s a = some s') : ∃ N', Intact base s' N' := by
  have ha : Allowed s a := by
    by_contra ha
    simp only [Umalloc.step, if_neg ha] at hs
    cases hs
  obtain ⟨s'', N', hI', K, hK⟩ := hI.next hpos ha
  cases eq_of_mono (f := fun n => Umalloc.step base n s a) step_mono hs hK
  exact ⟨N', hI'⟩

end

/-- The heap of a program that asks for at most `2^30` bytes at a time and frees blocks that it
has. In every state of every run it is intact: the free list is a circle in address order with
`base` in it, its blocks are not adjacent, pairwise disjoint and disjoint from the live blocks,
these have room for what was asked for, and the units of all blocks are what `sbrk` has granted.
Every call returns; when `malloc` returns 0, free and live blocks are what they were. -/
theorem heap_integrity (L : Layout) (ptr size : Nat → Nat) (fuel : Nat) (as : List Action)
    (s : State) (hs : Transition.run (step L.base fuel) (.start L ptr size) as = some s) :
    ∃ N, Intact L.base s N ∧
      (∀ a, Allowed s a → ∃ s' K, ∀ fuel' ≥ K, step L.base fuel' s a = some s') ∧
      ∀ nbytes ≤ 2 ^ 30, ∀ gaps fuel' h',
        malloc L.base fuel' nbytes gaps s.heap = some (h', none) →
          FreeBlocks L.base h' N ∧ ∀ l ∈ s.live, h'.size l.addr = s.heap.size l.addr := by
  obtain ⟨N, hI⟩ : ∃ N, Intact L.base s N :=
    Transition.run_invariant (I := fun s => ∃ N, Intact L.base s N)
      (fun _ _ _ ⟨_, hI⟩ hstep => hI.step L.base_pos hstep) ⟨[], intact_start L ptr size⟩ hs
  refine ⟨N, hI, fun a ha => ?_, fun nbytes hn gaps fuel' h' hm => ?_⟩
  · obtain ⟨s', -, -, K, hK⟩ := hI.next L.base_pos ha
    exact ⟨s', K, hK⟩
  · rcases malloc_spec hI.free hI.base_le L.base_pos hI.free_stop (nunits_le hn) gaps with
      ⟨-, -, h'', hf, -, -, hsize, K, hK⟩ | ⟨-, h'', N', b, -, -, K, hK⟩
    · cases eq_of_mono (f := fun n => malloc L.base n nbytes gaps s.heap) malloc_mono hm hK
      refine ⟨.inr hf, fun l hl => hsize _ ?_⟩
      have := (hI.outside l hl).low
      simp only [headerSize, State.block] at this
      omega
    · cases eq_of_mono (f := fun n => malloc L.base n nbytes gaps s.heap) malloc_mono hm hK

/-- `base` at 16, in a process of one page. -/
def onePage : Layout := ⟨16, 4096, by decide, by decide⟩

/-- Two blocks are allocated, the first with memory from `sbrk`; the first one, at the upper end of
that memory, is freed again, and a large block is refused. -/
def twoBlocksRun : List Action :=
  [.malloc 10 [some 0], .malloc 100 [], .free (4096 + 4093 * 8), .malloc (2 ^ 30) [some 8, none]]

theorem heap_integrity_twoBlocks :
    ∃ s N, Transition.run (step onePage.base 9) (.start onePage (fun _ => 0) (fun _ => 0))
        twoBlocksRun = some s ∧ Intact onePage.base s N := by
  obtain ⟨s, hs⟩ : ∃ s, Transition.run (step onePage.base 9)
      (.start onePage (fun _ => 0) (fun _ => 0)) twoBlocksRun = some s :=
    Option.isSome_iff_exists.mp (by decide +kernel)
  obtain ⟨N, hI, -⟩ := heap_integrity onePage (fun _ => 0) (fun _ => 0) 9 twoBlocksRun s hs
  exact ⟨s, N, hs, hI⟩

end Xv6.Umalloc
