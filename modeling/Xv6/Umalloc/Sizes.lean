import Xv6.Umalloc.Malloc
import Xv6.Vm.Grow

/-!
# The sizes of malloc

`malloc` rounds the number of bytes up to units and `morecore` turns units into bytes again, both
modulo 2^32, and `sbrk` takes the result for a signed number. `sbrk` is what `growproc` makes of it.
Memory above `PGROUNDUP(sz)` is not mapped. The run is followed until the process is killed by a
page fault, or the break is lowered.
-/

namespace Xv6.Umalloc

/-- The new size of a process of size `sz` that calls `growproc(n)`, if it does not return -1.
`refuse` says that there are not enough pages. -/
def grow (refuse : Bool) (sz : Nat) (n : Int32) : Option Nat :=
  let newsz := (sz + n.toUInt32.toNat) % 2 ^ 32
  if n > 0 then
    if refuse ∨ newsz ≥ kernBase then none else some (max sz newsz)
  else if n < 0 then
    let sz' := if newsz ≥ sz then sz else newsz
    if sz' = 0 then none else some sz'
  else some sz

/-- Why `malloc` does not return, or is not followed further. -/
inductive Stop
  /-- the process has used an address that is not mapped -/
  | killed
  /-- the break has been lowered -/
  | lowered
  /-- the loops have not ended within their counts -/
  | unfinished
  deriving DecidableEq

def finished {α : Type} : Option α → Except Stop α
  | some a => .ok a
  | none => .error .unfinished

def morecore32 (h : Heap) (fuel nu : Nat) (refuse : Bool) : Except Stop (Heap × Option Nat) :=
  let nu := if nu < 4096 then 4096 else nu
  let n := Int32.ofNat (nu * headerSize)
  match grow refuse h.sz n with
  | none =>
    -- a size of 0 is an error for `growproc`, but all pages are gone then
    if n < 0 then .error .killed else .ok (h, none)
  | some sz =>
    if sz < h.sz then .error .lowered
    else if h.sz + headerSize > Vm.pgRoundUp sz then .error .killed
    else
      finished ((free { h with
        size := Function.update h.size h.sz nu
        sz := sz
        granted := h.granted + (sz - h.sz) } fuel h.sz).map fun h => (h, some h.freep))

/-- The loop of `malloc`. Each call of `sbrk` takes the next of the refusals. -/
def mallocLoop32 (n : Nat) : (fuel : Nat) → Heap → (prevp p : Nat) → List Bool →
    Except Stop (Heap × Option Nat)
  | 0, _, _, _, _ => .error .unfinished
  | fuel + 1, h, prevp, p, refusals =>
    if h.size p ≥ n then
      let x := take h n prevp p
      .ok (x.1, some x.2)
    else if p = h.freep then
      match morecore32 h fuel n (refusals.headD true) with
      | .error e => .error e
      | .ok (h, none) => .ok (h, none)
      | .ok (h, some p) => mallocLoop32 n fuel h p (h.ptr p) refusals.tail
    else mallocLoop32 n fuel h p (h.ptr p) refusals

def Heap.listed (base : Nat) (h : Heap) : Heap :=
  if h.freep = 0 then
    { h with
      ptr := Function.update h.ptr base base, size := Function.update h.size base 0
      freep := base }
  else h

def malloc32 (base fuel nbytes : Nat) (refusals : List Bool) (h : Heap) :
    Except Stop (Heap × Option Nat) :=
  let h := h.listed base
  mallocLoop32 (nunits nbytes) fuel h h.freep (h.ptr h.freep) refusals

/-- A heap between two calls. The free blocks are `N`; they lie in the memory that `sbrk` has
granted, which begins at `start`, behind the data and the stack of the program. -/
structure HeapOk (base start : Nat) (h : Heap) (N : List Block) : Prop where
  blocks : FreeBlocks base h N
  base_pos : 0 < base
  start_le : base + 2 * headerSize ≤ start
  low : ∀ c ∈ N, start ≤ c.addr
  stop : ∀ c ∈ N, c.stop ≤ h.sz
  sz_le : start ≤ h.sz
  sz_lt : h.sz < kernBase

/-- `malloc` returns, without lowering the break: 0, or a block with room for `nbytes` bytes behind
the header, in memory that `sbrk` has granted. -/
def MallocOk (base start nbytes : Nat) (refusals : List Bool) (h : Heap) : Prop :=
  ∃ h' r, (∃ K, ∀ fuel ≥ K, malloc32 base fuel nbytes refusals h = .ok (h', r)) ∧ h.sz ≤ h'.sz ∧
    ∀ p, r = some p → start ≤ p ∧ p + h'.size p * headerSize ≤ h'.sz ∧
      headerSize + nbytes ≤ h'.size p * headerSize

section

variable {h h' : Heap} {fuel n prevp p : Nat} {refuse : Bool} {refusals : List Bool}
  {r : Option Nat}

/-- A refusal as the gap behind which memory is granted. -/
def gapOf (refuse : Bool) : Option Nat := if refuse then none else some 0

theorem toInt_ofNat_units (hn : n ≤ 2 ^ 29) :
    (Int32.ofNat (n * headerSize)).toInt =
      if n < 2 ^ 28 then (n : Int) * 8 else if n < 2 ^ 29 then (n : Int) * 8 - 2 ^ 32 else 0 := by
  have hsize : Int32.size = 2 ^ 32 := rfl
  rw [Int32.toInt_ofNat', headerSize, hsize]
  by_cases hlow : n * 8 < 2 ^ 31
  · rw [Int.bmod_eq_of_le (by omega) (by omega), if_pos (by omega), Nat.cast_mul]
    rfl
  · have hshift : ((n * 8 : Nat) : Int) = ((n * 8 : Nat) - 2 ^ 32 : Int) + (2 ^ 32 : Nat) := by
      omega
    rw [hshift, Int.add_bmod_right, Int.bmod_eq_of_le (by omega) (by omega), if_neg (by omega)]
    split_ifs <;> omega

theorem grow_of_lt (hpos : 0 < n) (hn : n < 2 ^ 28) {sz : Nat} (hsz : sz < kernBase) :
    grow refuse sz (Int32.ofNat (n * headerSize)) =
      if refuse ∨ sz + n * headerSize ≥ kernBase then none else some (sz + n * headerSize) := by
  have hint := toInt_ofNat_units (show n ≤ 2 ^ 29 by omega)
  rw [if_pos hn] at hint
  obtain ⟨hbits, -, -⟩ := Bytes.toNat_toUInt32 (Int32.ofNat (n * headerSize))
  rw [if_pos (by omega)] at hbits
  have hgt : Int32.ofNat (n * headerSize) > 0 := by
    rw [gt_iff_lt, Int32.lt_iff_toInt_lt, Int32.toInt_zero]
    omega
  simp only [kernBase] at hsz
  have heq : (sz + (Int32.ofNat (n * headerSize)).toUInt32.toNat) % 2 ^ 32 =
      sz + n * headerSize := by
    have hnat : (Int32.ofNat (n * headerSize)).toUInt32.toNat = n * 8 := by omega
    rw [hnat, headerSize]
    omega
  rw [grow, if_pos hgt]
  simp only [heq, Nat.max_eq_right (Nat.le_add_right sz (n * headerSize))]

theorem morecore32_of_lt (hn : n < 2 ^ 28) (hsz : h.sz < kernBase) :
    morecore32 h fuel n refuse = finished (morecore h fuel n (gapOf refuse)) := by
  rw [morecore32, morecore]
  generalize hnu : (if n < 4096 then 4096 else n) = nu
  have hnu' : 0 < nu ∧ nu < 2 ^ 28 := by
    split at hnu <;> omega
  have hmod : nu * headerSize % 2 ^ 32 = nu * headerSize := by
    simp only [headerSize]
    omega
  have hint := toInt_ofNat_units (show nu ≤ 2 ^ 29 by omega)
  rw [if_pos hnu'.2] at hint
  have hneg : ¬ Int32.ofNat (nu * headerSize) < 0 := by
    rw [Int32.lt_iff_toInt_lt, Int32.toInt_zero]
    omega
  simp only [hmod, grow_of_lt hnu'.1 hnu'.2 hsz]
  cases refuse with
  | true => simp only [gapOf, sbrk, finished, true_or, if_true, if_neg hneg, Option.bind_none]
  | false =>
    simp only [gapOf, sbrk, Bool.false_eq_true, false_or, if_false, Option.bind_some,
      Nat.add_zero]
    by_cases hroom : h.sz + nu * headerSize < kernBase
    · have hmapped : ¬ h.sz + headerSize > Vm.pgRoundUp (h.sz + nu * headerSize) := by
        rw [Vm.pgRoundUp]
        simp only [kernBase, Vm.pgSize, headerSize] at hroom ⊢
        omega
      simp only [if_pos hroom, if_neg (Nat.not_le.mpr hroom),
        if_neg (show ¬ h.sz + nu * headerSize < h.sz by omega), if_neg hmapped,
        Nat.add_sub_cancel_left]
    · simp only [if_neg hroom, if_pos (Nat.not_lt.mp hroom), finished, if_neg hneg]

theorem free_sz {bp : Nat} (hf : free h fuel bp = some h') : h'.sz = h.sz := by
  obtain ⟨p, -, rfl⟩ := Option.map_eq_some_iff.mp hf
  simp only [joinLower, joinUpper]
  split_ifs <;> rfl

theorem sbrk_sz {hp : Nat} {gap : Option Nat} (hs : sbrk h n gap = some (hp, h')) :
    h'.sz < kernBase := by
  obtain ⟨g, -, hgrant⟩ := Option.bind_eq_some_iff.mp hs
  by_cases hlt : h.sz + g + n < kernBase
  · rw [if_pos hlt] at hgrant
    rw [← (Prod.mk.inj (Option.some.inj hgrant)).2]
    exact hlt
  · rw [if_neg hlt] at hgrant
    cases hgrant

theorem morecore_sz {gap : Option Nat} (hm : morecore h fuel n gap = some (h', r))
    (hsz : h.sz < kernBase) : h'.sz < kernBase := by
  simp only [morecore] at hm
  split at hm
  · cases hm
    exact hsz
  · next hp h₀ hs =>
    obtain ⟨h₁, hfree, hx⟩ := Option.map_eq_some_iff.mp hm
    cases hx
    have hsz' : h₀.sz < kernBase := sbrk_sz hs
    rw [free_sz hfree]
    exact hsz'

theorem mallocLoop32_of_lt (hn : n < 2 ^ 28) (hsz : h.sz < kernBase) :
    mallocLoop32 n fuel h prevp p refusals =
      finished (mallocLoop n fuel h prevp p (refusals.map gapOf)) := by
  -- Along the run only the break has to stay below the kernel.
  induction fuel generalizing h prevp p refusals with
  | zero => rfl
  | succ fuel ih =>
    have hhead : (refusals.map gapOf).headD none = gapOf (refusals.headD true) := by
      cases refusals <;> rfl
    rw [mallocLoop32, mallocLoop, hhead, morecore32_of_lt hn hsz]
    split_ifs
    · rfl
    · cases hm : morecore h fuel n (gapOf (refusals.headD true)) with
      | none => rfl
      | some y =>
        obtain ⟨h', r⟩ := y
        cases r with
        | none => rfl
        | some p =>
          simp only [finished, Option.bind_some]
          rw [ih (morecore_sz hm hsz), List.map_tail]
          rfl
    · exact ih hsz

theorem malloc32_of_lt {base nbytes : Nat} (hn : nunits nbytes < 2 ^ 28) (hsz : h.sz < kernBase) :
    malloc32 base fuel nbytes refusals h =
      finished (malloc base fuel nbytes (refusals.map gapOf) h) := by
  have hlisted : (h.listed base).sz < kernBase := by
    rw [Heap.listed]
    split_ifs <;> exact hsz
  rw [malloc32, mallocLoop32_of_lt hn hlisted]
  rfl

theorem grow_of_ge (hlow : 2 ^ 28 ≤ n) (hn : n ≤ 2 ^ 29) (refuse : Bool) (sz : Nat) :
    match grow refuse sz (Int32.ofNat (n * headerSize)) with
    | none => Int32.ofNat (n * headerSize) < 0
    | some sz' => sz' ≤ sz := by
  have hint := toInt_ofNat_units hn
  rw [if_neg (by omega)] at hint
  have hpos : ¬ Int32.ofNat (n * headerSize) > 0 := by
    rw [gt_iff_lt, Int32.lt_iff_toInt_lt, Int32.toInt_zero]
    split_ifs at hint <;> omega
  rw [grow, if_neg hpos]
  by_cases hneg : Int32.ofNat (n * headerSize) < 0
  · simp only [if_pos hneg]
    generalize (sz + (Int32.ofNat (n * headerSize)).toUInt32.toNat) % 2 ^ 32 = newsz
    by_cases hge : newsz ≥ sz
    · rw [if_pos hge]
      by_cases hzero : sz = 0
      · rw [if_pos hzero]
        exact hneg
      · rw [if_neg hzero]
    · rw [if_neg hge]
      by_cases hzero : newsz = 0
      · rw [if_pos hzero]
        exact hneg
      · rw [if_neg hzero]
        omega
  · rw [if_neg hneg]

/-- What `morecore` returns when the bytes wrap: `freep`, with the break where it was. -/
theorem morecore32_of_ge (hlow : 2 ^ 28 ≤ n) (hn : n ≤ 2 ^ 29)
    (hm : morecore32 h fuel n refuse = .ok (h', r)) : r ≠ none ∧ h'.sz = h.sz := by
  have hgrow := grow_of_ge hlow hn refuse h.sz
  rw [morecore32, if_neg (by omega)] at hm
  cases hg : grow refuse h.sz (Int32.ofNat (n * headerSize)) with
  | none =>
    rw [hg] at hgrow hm
    simp only [if_pos hgrow] at hm
    cases hm
  | some sz =>
    rw [hg] at hgrow hm
    simp only at hm
    split_ifs at hm with hless
    cases hf : free { h with
        size := Function.update h.size h.sz n
        sz := sz
        granted := h.granted + (sz - h.sz) } fuel h.sz with
    | none =>
      rw [hf] at hm
      cases hm
    | some h₁ =>
      have hsz₁ : h₁.sz = sz := free_sz hf
      rw [hf] at hm
      cases hm
      exact ⟨Option.some_ne_none _, hsz₁.trans (Nat.le_antisymm hgrow (Nat.not_lt.mp hless))⟩

/-- When the bytes wrap, `malloc` does not return 0. -/
theorem mallocLoop32_of_ge (hlow : 2 ^ 28 ≤ n) (hn : n ≤ 2 ^ 29)
    (hm : mallocLoop32 n fuel h prevp p refusals = .ok (h', r)) : r ≠ none ∧ h'.sz = h.sz := by
  induction fuel generalizing h prevp p refusals with
  | zero => cases hm
  | succ fuel ih =>
    rw [mallocLoop32] at hm
    split_ifs at hm
    · cases hm
      refine ⟨Option.some_ne_none _, ?_⟩
      simp only [take]
      split_ifs <;> rfl
    · cases hc : morecore32 h fuel n (refusals.headD true) with
      | error e =>
        rw [hc] at hm
        cases hm
      | ok y =>
        obtain ⟨h₁, r₁⟩ := y
        obtain ⟨hsome, hsz⟩ := morecore32_of_ge hlow hn hc
        rw [hc] at hm
        cases r₁ with
        | none => exact absurd rfl hsome
        | some q =>
          obtain ⟨hr, hsz'⟩ := ih hm
          exact ⟨hr, hsz'.trans hsz⟩
    · exact ih hm

end

section

variable {base start nbytes : Nat} {h : Heap} {N : List Block} {refusals : List Bool}

theorem nunits_cases (h : nbytes < 2 ^ 32) :
    nbytes ≤ 2 ^ 31 - 16 ∧ nunits nbytes < 2 ^ 28 ∧
        headerSize + nbytes ≤ nunits nbytes * headerSize ∨
      2 ^ 31 - 16 < nbytes ∧ nbytes ≤ 2 ^ 32 - 8 ∧
        2 ^ 28 ≤ nunits nbytes ∧ nunits nbytes ≤ 2 ^ 29 ∨
      2 ^ 32 - 8 < nbytes ∧ nunits nbytes = 1 := by
  simp only [nunits, headerSize]
  omega

theorem Got.start_le {h' : Heap} {N' : List Block} {b : Block} (hok : HeapOk base start h N)
    (hgot : Got base h h' N N' b) (hb : 0 < b.size) : start ≤ b.addr := by
  by_contra hlt
  have hlow := hgot.low
  have hstart := hok.start_le
  have hsz := hok.sz_le
  simp only [headerSize] at hlow hstart
  -- One unit that overlaps the block and is not free.
  have hout : Outside base N ⟨min b.addr (start - 8), 1⟩ := by
    refine ⟨Nat.one_pos, by simp only [headerSize]; omega, fun c hc => .inl ?_⟩
    have := hok.low c hc
    simp only [Block.stop, headerSize]
    omega
  obtain ⟨-, hapart, -⟩ := hgot.outside _ hout (by simp only [Block.stop, headerSize]; omega)
  simp only [Block.Apart, Block.stop, headerSize] at hapart
  omega

theorem listed_sz : (h.listed base).sz = h.sz := by
  rw [Heap.listed]
  split_ifs <;> rfl

variable (hok : HeapOk base start h N)

include hok

theorem HeapOk.pos : ∀ c ∈ N, 0 < c.size := by
  rcases hok.blocks with ⟨-, rfl⟩ | hf
  · exact fun c hc => by cases hc
  · exact fun c hc => (hf.size c hc).2

theorem HeapOk.malloc32 (hunits : nunits nbytes < 2 ^ 28) (refusals : List Bool) :
    ((∀ c ∈ N, c.size < nunits nbytes) ∧
      ¬ CanGrow h (nunits nbytes) (gapOf (refusals.headD true)) ∧
      ∃ h', h'.sz = h.sz ∧
        ∃ K, ∀ fuel ≥ K, malloc32 base fuel nbytes refusals h = .ok (h', none)) ∨
    ((∃ c ∈ N, nunits nbytes ≤ c.size) ∨
        CanGrow h (nunits nbytes) (gapOf (refusals.headD true))) ∧
      ∃ h' p, h.sz ≤ h'.sz ∧ start ≤ p ∧ h'.size p = nunits nbytes ∧
        p + h'.size p * headerSize ≤ h'.sz ∧
        ∃ K, ∀ fuel ≥ K, malloc32 base fuel nbytes refusals h = .ok (h', some p) := by
  have hbase : base + headerSize ≤ h.sz := by
    have := hok.start_le
    have := hok.sz_le
    simp only [headerSize] at *
    omega
  have hhead : (refusals.map gapOf).headD none = gapOf (refusals.headD true) := by
    cases refusals <;> rfl
  have hspec := malloc_spec hok.blocks hbase hok.base_pos hok.stop (Nat.le_of_lt hunits)
    (refusals.map gapOf)
  rw [hhead] at hspec
  rcases hspec with ⟨hsmall, hno, h', -, hsz, -, -, K, hK⟩ | ⟨hcan, h', N', b, hb, hgot, K, hK⟩
  · refine .inl ⟨hsmall, hno, h', hsz, K, fun fuel hfuel => ?_⟩
    rw [malloc32_of_lt hunits hok.sz_lt, hK fuel hfuel, finished]
  · have hpos : 0 < b.size := by
      rw [hb]
      exact Nat.succ_pos _
    refine .inr ⟨hcan, h', b.addr, hgot.sz, hgot.start_le hok hpos, hgot.block.trans hb, ?_, K,
      fun fuel hfuel => ?_⟩
    · rw [hgot.block]
      exact hgot.stop.1
    · rw [malloc32_of_lt hunits hok.sz_lt, hK fuel hfuel, finished]

theorem HeapOk.mallocOk_of_le (hle : nbytes ≤ 2 ^ 31 - 16) :
    MallocOk base start nbytes refusals h := by
  have hunits : nunits nbytes < 2 ^ 28 ∧
      headerSize + nbytes ≤ nunits nbytes * headerSize := by
    have := nunits_cases (show nbytes < 2 ^ 32 by omega)
    omega
  rcases hok.malloc32 hunits.1 refusals with
    ⟨-, -, h', hsz, hK⟩ | ⟨-, h', p, hsz, hstart, hsize, hstop, hK⟩
  · exact ⟨h', none, hK, hsz.ge, fun p hp => by cases hp⟩
  · refine ⟨h', some p, hK, hsz, fun q hq => ?_⟩
    cases hq
    exact ⟨hstart, hstop, by rw [hsize]; exact hunits.2⟩

theorem HeapOk.not_mallocOk_of_wrap (hlow : 2 ^ 31 - 16 < nbytes)
    (hhigh : nbytes ≤ 2 ^ 32 - 8) : ¬ MallocOk base start nbytes refusals h := by
  rintro ⟨h', r, ⟨K, hK⟩, -, hblock⟩
  have hunits : 2 ^ 28 ≤ nunits nbytes ∧ nunits nbytes ≤ 2 ^ 29 := by
    have := nunits_cases (show nbytes < 2 ^ 32 by omega)
    omega
  obtain ⟨hr, hsz⟩ := mallocLoop32_of_ge hunits.1 hunits.2 (hK K (Nat.le_refl K))
  rw [listed_sz] at hsz
  obtain ⟨p, rfl⟩ := Option.ne_none_iff_exists'.mp hr
  -- A block that is large enough would end above the kernel's base.
  obtain ⟨hstart, hstop, hroom⟩ := hblock p rfl
  have := hok.sz_lt
  have := hok.start_le
  simp only [kernBase, headerSize] at *
  omega

theorem HeapOk.mallocOk_iff_of_gt (hlow : 2 ^ 32 - 8 < nbytes) (hlt : nbytes < 2 ^ 32) :
    MallocOk base start nbytes refusals h ↔
      N = [] ∧ (refusals.headD true = true ∨ kernBase ≤ h.sz + 32768) := by
  have hunits : nunits nbytes = 1 := by
    have := nunits_cases hlt
    omega
  have hcan : CanGrow h 1 (gapOf (refusals.headD true)) ↔
      refusals.headD true = false ∧ h.sz + 32768 < kernBase := by
    cases refusals.headD true <;> simp [CanGrow, gapOf, headerSize]
  have hsmall : (∀ c ∈ N, c.size < 1) ↔ N = [] := by
    constructor
    · intro hall
      cases N with
      | nil => rfl
      | cons c N =>
        have := hok.pos c List.mem_cons_self
        have := hall c List.mem_cons_self
        omega
    · rintro rfl
      exact fun c hc => by cases hc
  rcases hok.malloc32 (show nunits nbytes < 2 ^ 28 by omega) refusals with
    ⟨hall, hno, h', hsz, hK⟩ | ⟨hyes, h', p, hsz, hstart, hsize, hstop, K, hK⟩
  · rw [hunits] at hall hno
    refine iff_of_true ⟨h', none, hK, hsz.ge, fun p hp => by cases hp⟩ ⟨hsmall.mp hall, ?_⟩
    rw [hcan] at hno
    cases hr : refusals.headD true with
    | true => exact .inl rfl
    | false => exact .inr (Nat.not_lt.mp fun hroom => hno ⟨hr, hroom⟩)
  · rw [hunits] at hyes hsize
    refine iff_of_false ?_ ?_
    · rintro ⟨h'', r, ⟨K', hK'⟩, -, hblock⟩
      have heq := (hK _ (Nat.le_max_left K K')).symm.trans (hK' _ (Nat.le_max_right K K'))
      obtain ⟨rfl, rfl⟩ := Prod.mk.inj (Except.ok.inj heq)
      obtain ⟨-, -, hroom⟩ := hblock p rfl
      rw [hsize, headerSize] at hroom
      omega
    · rintro ⟨hnil, hgrow⟩
      rcases hyes with ⟨c, hc, -⟩ | hyes
      · rw [hnil] at hc
        cases hc
      · obtain ⟨hgrant, hroom⟩ := hcan.mp hyes
        rw [hgrant] at hgrow
        rcases hgrow with hgrow | hgrow
        · cases hgrow
        · omega

omit hok

/-- For which sizes `malloc` returns 0 or a block that is large enough, and leaves the break. -/
theorem mallocOk_iff (hok : HeapOk base start h N) (hlt : nbytes < 2 ^ 32) :
    MallocOk base start nbytes refusals h ↔
      nbytes ≤ 2 ^ 31 - 16 ∨ 2 ^ 32 - 8 < nbytes ∧
        N = [] ∧ (refusals.headD true = true ∨ kernBase ≤ h.sz + 32768) := by
  rcases nunits_cases hlt with ⟨hle, -⟩ | ⟨hlow, hhigh, -⟩ | ⟨hgt, -⟩
  · exact iff_of_true (hok.mallocOk_of_le hle) (.inl hle)
  · exact iff_of_false (hok.not_mallocOk_of_wrap hlow hhigh) (by omega)
  · rw [hok.mallocOk_iff_of_gt hgt hlt]
    constructor
    · exact fun hno => .inr ⟨hgt, hno⟩
    · rintro (hle | ⟨-, hno⟩)
      · omega
      · exact hno

/-- The heap of a process of one page that has not called `malloc`. -/
def unused : Heap := ⟨fun _ => 0, fun _ => 0, 0, 4096, 0⟩

theorem unused_ok : HeapOk 16 4096 unused [] :=
  { blocks := .inl ⟨rfl, rfl⟩
    base_pos := by decide
    start_le := by decide
    low := fun c hc => by cases hc
    stop := fun c hc => by cases hc
    sz_le := Nat.le_refl _
    sz_lt := by decide }

theorem mallocOk_iff_tenBytes : HeapOk 16 4096 unused [] ∧ MallocOk 16 4096 10 [false] unused :=
  ⟨unused_ok, (mallocOk_iff unused_ok (by decide)).mpr (.inl (by decide))⟩

/-- A call for `2^32 - 1` bytes returns a header with nothing behind it, and a call for
`2^32 - 4096` bytes lowers the break. -/
theorem malloc_wraps :
    HeapOk 16 4096 unused [] ∧
    (malloc32 16 9 (2 ^ 32 - 1) [false] unused).map (fun x => (x.2, x.2.map x.1.size)) =
      .ok (some 36856, some 1) ∧
    ¬ MallocOk 16 4096 (2 ^ 32 - 1) [false] unused ∧
    (malloc32 16 9 (2 ^ 32 - 4096) [false] unused).map Prod.snd = .error .lowered ∧
    ¬ MallocOk 16 4096 (2 ^ 32 - 4096) [false] unused := by
  refine ⟨unused_ok, by decide +kernel, ?_, by decide +kernel,
    unused_ok.not_mallocOk_of_wrap (by decide) (by decide)⟩
  rw [unused_ok.mallocOk_iff_of_gt (by decide) (by decide)]
  rintro ⟨-, hno | hno⟩
  · cases hno
  · exact absurd hno (by decide)

end

end Xv6.Umalloc
