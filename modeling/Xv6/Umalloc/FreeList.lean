import Mathlib
import Xv6.Lib.Circular
import Xv6.Umalloc.Defs

/-!
# The free list

The free blocks are a circle in address order, behind `base`, which has size 0 and the lowest
address. `free` finds the place of a block from wherever `freep` is, and `malloc` finds a block that
is large enough, if there is one.
-/

namespace Xv6.Umalloc

open Circular
open List (mem_cons_self mem_cons_of_mem mem_cons pairwise_cons pairwise_append map_append map_cons
  mem_append map_nil headD_nil headD_cons mem_map)

/-- A header, and its size in units. -/
structure Block where
  addr : Nat
  size : Nat
  deriving DecidableEq

namespace Block

def stop (b : Block) : Nat := b.addr + b.size * headerSize

def Apart (b c : Block) : Prop := b.stop ≤ c.addr ∨ c.stop ≤ b.addr

def Below (b c : Block) : Prop := b.stop < c.addr

def Has (b : Block) (a : Nat) : Prop := b.addr ≤ a ∧ a < b.stop

end Block

def baseBlock (base : Nat) : Block := ⟨base, 0⟩

def HasByte (N : List Block) (a : Nat) : Prop := ∃ c ∈ N, c.Has a

def units (N : List Block) : Nat := (N.map Block.size).sum

/-- The free blocks, in the order of their addresses. -/
structure FreeList (base : Nat) (h : Heap) (N : List Block) : Prop where
  /-- a circular list that contains `base` -/
  ring : Ring h.ptr base (N.map Block.addr)
  base_size : h.size base = 0
  size : ∀ b ∈ N, h.size b.addr = b.size ∧ 0 < b.size
  /-- in address order, disjoint and not adjacent -/
  sorted : (baseBlock base :: N).Pairwise Block.Below
  low : ∀ b ∈ N, base + headerSize ≤ b.addr
  freep : h.freep ∈ base :: N.map Block.addr

theorem FreeList.congr {base : Nat} {h h' : Heap} {N : List Block} (hf : FreeList base h N)
    (hptr : ∀ x ∈ base :: N.map Block.addr, h'.ptr x = h.ptr x)
    (hsize : ∀ x ∈ base :: N.map Block.addr, h'.size x = h.size x)
    (hfreep : h'.freep = h.freep) : FreeList base h' N where
  ring := hf.ring.congr hptr
  base_size := (hsize base mem_cons_self).trans hf.base_size
  size b hb := by
    rw [hsize _ (mem_cons_of_mem _ (List.mem_map_of_mem (f := Block.addr) hb))]
    exact hf.size b hb
  sorted := hf.sorted
  low := hf.low
  freep := by rw [hfreep]; exact hf.freep

variable {b : Block} {a : Nat}

theorem exists_split {N : List Block} (hs : (b :: N).Pairwise Block.Below)
    (hb : b.addr < a) (hne : ∀ c ∈ N, c.addr ≠ a) :
    ∃ pre p post, b :: N = pre ++ p :: post ∧ p.addr < a ∧ ∀ c ∈ post, a < c.addr := by
  induction N generalizing b with
  | nil => exact ⟨[], b, [], rfl, hb, fun c hc => by cases hc⟩
  | cons c N ih =>
    rcases Nat.lt_or_gt_of_ne (hne c mem_cons_self) with hlt | hgt
    · obtain ⟨pre, p, post, heq, hp, hpost⟩ := ih hs.of_cons hlt
        (fun d hd => hne d (mem_cons_of_mem c hd))
      exact ⟨b :: pre, p, post, by rw [heq]; rfl, hp, hpost⟩
    · refine ⟨[], b, c :: N, rfl, hb, fun d hd => ?_⟩
      rcases mem_cons.mp hd with rfl | hd
      · exact hgt
      · have hbelow := (pairwise_cons.mp hs.of_cons).1 d hd
        simp only [Block.Below, Block.stop] at hbelow
        omega

/-- The loop of `free` stops at `p`. -/
def Place (h : Heap) (bp p : Nat) : Prop :=
  (bp > p ∧ bp < h.ptr p) ∨ (p ≥ h.ptr p ∧ (bp > p ∨ bp < h.ptr p))

theorem findPlace_of_first {h : Heap} {bp : Nat} {k p fuel : Nat} (hk : Place h bp (h.ptr^[k] p))
    (hfirst : ∀ j < k, ¬Place h bp (h.ptr^[j] p)) (hfuel : k < fuel) :
    findPlace h bp fuel p = some (h.ptr^[k] p) := by
  induction k generalizing p fuel with
  | zero =>
    obtain ⟨fuel, rfl⟩ : ∃ n, fuel = n + 1 := ⟨fuel - 1, by omega⟩
    rw [findPlace]
    rcases hk with hk | hk
    · exact if_pos hk
    · split_ifs
      · rfl
      · rfl
      · exact absurd hk ‹_›
  | succ k ih =>
    obtain ⟨fuel, rfl⟩ : ∃ n, fuel = n + 1 := ⟨fuel - 1, by omega⟩
    have hnot : ¬Place h bp p := hfirst 0 (by omega)
    rw [Place, not_or] at hnot
    rw [findPlace, if_neg hnot.1, if_neg hnot.2]
    exact ih hk (fun j hj => hfirst (j + 1) (by omega)) (by omega)

section

variable {base : Nat} {h : Heap} {N pre post : List Block} {p : Block}

theorem Block.Below.addr_lt {c : Block} (h : b.Below c) : b.addr < c.addr := by
  simp only [Block.Below, Block.stop] at h
  omega

theorem FreeList.path (hf : FreeList base h N) (hsplit : baseBlock base :: N = pre ++ p :: post) :
    Path h.ptr (pre.map Block.addr) p.addr ∧ h.ptr p.addr = (post.map Block.addr).headD base ∧
      Path h.ptr (post.map Block.addr) base := by
  have hpath : Path h.ptr ((pre ++ p :: post).map Block.addr) base := by
    rw [← hsplit]
    exact hf.ring
  rwa [map_append, map_cons, path_append] at hpath

theorem FreeList.sorted_from (hf : FreeList base h N)
    (hsplit : baseBlock base :: N = pre ++ p :: post) : (p :: post).Pairwise Block.Below :=
  (pairwise_append.mp (hsplit ▸ hf.sorted)).2.1

theorem FreeList.around (hf : FreeList base h N) (hsplit : baseBlock base :: N = pre ++ p :: post) :
    (∀ c ∈ pre, c.Below p) ∧ (∀ c ∈ post, p.Below c) ∧ pre.Pairwise Block.Below ∧
      ∀ c ∈ pre, ∀ d ∈ post, c.Below d := by
  have hsorted := hf.sorted
  rw [hsplit, pairwise_append] at hsorted
  exact ⟨fun c hc => hsorted.2.2 c hc p mem_cons_self, (pairwise_cons.mp hsorted.2.1).1,
    hsorted.1, fun c hc d hd => hsorted.2.2 c hc d (mem_cons_of_mem p hd)⟩

theorem FreeList.node (hf : FreeList base h N) (hb : b ∈ baseBlock base :: N) :
    ∃ l₁ l₂, baseBlock base :: N = l₁ ++ b :: l₂ ∧
      h.ptr b.addr = (l₂.map Block.addr).headD base ∧
      (∀ c ∈ l₁, c.Below b) ∧ (∀ c ∈ l₂, b.Below c) ∧ l₂.Pairwise Block.Below := by
  obtain ⟨l₁, l₂, heq⟩ := List.append_of_mem hb
  obtain ⟨hbefore, hbehind, -⟩ := hf.around heq
  exact ⟨l₁, l₂, heq, (hf.path heq).2.1, hbefore, hbehind, (hf.sorted_from heq).of_cons⟩

theorem FreeList.base_le (hf : FreeList base h N) (hb : b ∈ baseBlock base :: N) :
    base ≤ b.addr := by
  rcases mem_cons.mp hb with rfl | hb
  · exact Nat.le_refl _
  · exact le_trans (Nat.le_add_right _ _) (hf.low b hb)

theorem FreeList.place_iff (hf : FreeList base h N) {bp : Nat}
    (hp : p ∈ baseBlock base :: N) (hlt : p.addr < bp)
    (hsplit : ∀ c ∈ baseBlock base :: N, c.addr ≤ p.addr ∨ bp < c.addr)
    (hb : b ∈ baseBlock base :: N) : Place h bp b.addr ↔ b.addr = p.addr := by
  obtain ⟨l₁, l₂, heq, hptr, hl₁, hl₂, hl₂'⟩ := hf.node hb
  have hbase := hf.base_le hb
  have hbase' := hf.base_le hp
  constructor
  · intro hplace
    cases l₂ with
    | nil =>
      -- The last node: all others are below it.
      have hpb : p.addr ≤ b.addr := by
        rw [heq] at hp
        rcases mem_append.mp hp with hp | hp
        · exact (hl₁ p hp).addr_lt.le
        · rw [List.mem_singleton.mp hp]
      rw [map_nil, headD_nil] at hptr
      rw [Place, hptr] at hplace
      rcases hsplit b hb with hle | hgt <;> omega
    | cons c l₂ =>
      have hbc := (hl₂ c mem_cons_self).addr_lt
      rw [map_cons, headD_cons] at hptr
      rw [Place, hptr] at hplace
      -- The place is not after the first test, and `p` is not above the next node.
      by_contra hne
      have hpl : p ∈ c :: l₂ := by
        rw [heq] at hp
        rcases mem_append.mp hp with hp | hp
        · have := (hl₁ p hp).addr_lt
          rcases hsplit b hb with hle | hgt <;> omega
        · rcases mem_cons.mp hp with rfl | hp
          · exact absurd rfl hne
          · exact hp
      have hcp : c.addr ≤ p.addr := by
        rcases mem_cons.mp hpl with rfl | hpl
        · exact Nat.le_refl _
        · exact ((pairwise_cons.mp hl₂').1 p hpl).addr_lt.le
      omega
  · intro hbp
    cases l₂ with
    | nil =>
      rw [map_nil, headD_nil] at hptr
      exact .inr ⟨by omega, .inl (by omega)⟩
    | cons c l₂ =>
      rw [map_cons, headD_cons] at hptr
      have hbc := (hl₂ c mem_cons_self).addr_lt
      have hc : c ∈ baseBlock base :: N := by rw [heq]; simp
      rcases hsplit c hc with hle | hgt
      · omega
      · exact .inl ⟨by omega, by omega⟩

theorem FreeList.findPlace (hf : FreeList base h N) {p : Block} {bp : Nat}
    (hp : p ∈ baseBlock base :: N) (hlt : p.addr < bp)
    (hsplit : ∀ c ∈ baseBlock base :: N, c.addr ≤ p.addr ∨ bp < c.addr) :
    ∃ K, ∀ fuel ≥ K, findPlace h bp fuel h.freep = some p.addr := by
  have hmem : p.addr ∈ base :: N.map Block.addr := List.mem_map_of_mem (f := Block.addr) hp
  have hreach : ∃ k, Place h bp (h.ptr^[k] h.freep) := by
    obtain ⟨k, hk⟩ := hf.ring.reach hf.freep hmem
    exact ⟨k + 1, by rw [hk]; exact (hf.place_iff hp hlt hsplit hp).mpr rfl⟩
  obtain ⟨k, hk, hfirst⟩ := exists_first hreach
  have heq : h.ptr^[k] h.freep = p.addr := by
    have hnode := hf.ring.iterate_mem hf.freep k
    obtain ⟨b, hb, hbk⟩ := mem_map.mp
      (show h.ptr^[k] h.freep ∈ (baseBlock base :: N).map Block.addr from hnode)
    rw [← hbk] at hk ⊢
    exact (hf.place_iff hp hlt hsplit hb).mp hk
  exact ⟨k + 1, fun fuel hfuel => by
    rw [findPlace_of_first hk hfirst (by omega), heq]⟩

end

theorem units_append (M N : List Block) : units (M ++ N) = units M + units N := by
  simp [units]

theorem units_cons (b : Block) (N : List Block) : units (b :: N) = b.size + units N := by
  simp [units]

theorem hasByte_cons {N : List Block} : HasByte (b :: N) a ↔ b.Has a ∨ HasByte N a := by
  simp [HasByte]

variable {M : List Block}

theorem hasByte_append {N : List Block} : HasByte (M ++ N) a ↔ HasByte M a ∨ HasByte N a := by
  simp [HasByte, or_and_right, exists_or]

theorem FreeList.of_nodes {base : Nat} {h : Heap}
    (hhead : M.head? = some (baseBlock base)) (hpath : Path h.ptr (M.map Block.addr) base)
    (hsize : ∀ b ∈ M, h.size b.addr = b.size) (hsorted : M.Pairwise Block.Below)
    (hok : ∀ b ∈ M, b = baseBlock base ∨ 0 < b.size ∧ base + headerSize ≤ b.addr)
    (hfreep : h.freep ∈ M.map Block.addr) : ∃ N, M = baseBlock base :: N ∧ FreeList base h N := by
  obtain ⟨N, rfl⟩ : ∃ N, M = baseBlock base :: N := by
    cases M with
    | nil => cases hhead
    | cons b N => cases hhead; exact ⟨N, rfl⟩
  have hN : ∀ b ∈ N, 0 < b.size ∧ base + headerSize ≤ b.addr := by
    intro b hb
    rcases hok b (mem_cons_of_mem _ hb) with rfl | hgood
    · have hbelow := (pairwise_cons.mp hsorted).1 _ hb
      simp [Block.Below, Block.stop, baseBlock] at hbelow
    · exact hgood
  exact ⟨N, rfl, hpath, hsize _ mem_cons_self,
    fun b hb => ⟨hsize b (mem_cons_of_mem _ hb), (hN b hb).1⟩, hsorted,
    fun b hb => (hN b hb).2, hfreep⟩

section

variable {base : Nat} {h : Heap} {N pre post : List Block} {p : Block} {bp u : Nat}

/-- After the first join the block has `u'` units and the nodes behind it are `R`. -/
structure Joined (base : Nat) (h h₁ : Heap) (bp u : Nat) (post : List Block) (u' : Nat)
    (R : List Block) : Prop where
  size : h₁.size bp = u'
  ptr : h₁.ptr bp = (R.map Block.addr).headD base
  ptr_of_ne : ∀ x ≠ bp, h₁.ptr x = h.ptr x
  size_of_ne : ∀ x ≠ bp, h₁.size x = h.size x
  sz : h₁.sz = h.sz
  granted : h₁.granted = h.granted
  pos : 0 < u'
  sorted : (⟨bp, u'⟩ :: R).Pairwise Block.Below
  path : Path h.ptr (R.map Block.addr) base
  sub : ∀ c ∈ R, c ∈ post
  units : u' + units R = u + units post
  has : ∀ a, HasByte (⟨bp, u'⟩ :: R) a ↔ HasByte (⟨bp, u⟩ :: post) a

theorem mem_of_split (hsplit : baseBlock base :: N = pre ++ p :: post) {c : Block} (hc : c ∈ post) :
    c ∈ N := by
  cases pre with
  | nil =>
    obtain ⟨-, rfl⟩ := List.cons.inj hsplit
    exact hc
  | cons b pre =>
    obtain ⟨-, rfl⟩ := List.cons.inj hsplit
    simp [hc]

theorem FreeList.joined_upper (hf : FreeList base h N)
    (hsplit : baseBlock base :: N = pre ++ p :: post)
    (hp : p.addr < bp) (hpost : ∀ c ∈ post, bp < c.addr) (hu : h.size bp = u) (hpos : 0 < u)
    (hapart : ∀ c ∈ N, Block.Apart ⟨bp, u⟩ c) :
    ∃ u' R, Joined base h (joinUpper h bp p.addr) bp u post u' R := by
  obtain ⟨-, hptr, hpath⟩ := hf.path hsplit
  have hsorted := (hf.sorted_from hsplit).of_cons
  have hbase : base ≤ p.addr := hf.base_le (by rw [hsplit]; simp)
  by_cases hjoin : bp + h.size bp * headerSize = h.ptr p.addr
  · -- The next node is the upper neighbour.
    cases post with
    | nil =>
      rw [map_nil, headD_nil] at hptr
      omega
    | cons q R =>
      rw [map_cons, headD_cons] at hptr
      have hq := hf.size q (mem_of_split hsplit mem_cons_self)
      have hstop : bp + u * headerSize = q.addr := by rw [← hu, hjoin, hptr]
      refine ⟨u + q.size, R, ?_⟩
      simp only [joinUpper, if_pos hjoin]
      exact
        { size := by simp [hptr, hq.1, hu]
          ptr := by simp only [Function.update_self, hptr]; exact hpath.1
          ptr_of_ne := fun x hx => Function.update_of_ne hx _ _
          size_of_ne := fun x hx => Function.update_of_ne hx _ _
          sz := rfl
          granted := rfl
          pos := by omega
          sorted := by
            refine pairwise_cons.mpr ⟨fun c hc => ?_, (pairwise_cons.mp hsorted).2⟩
            have hbelow := (pairwise_cons.mp hsorted).1 c hc
            simp only [Block.Below, Block.stop, Nat.add_mul] at hbelow ⊢
            omega
          path := hpath.2
          sub := fun c hc => mem_cons_of_mem q hc
          units := by rw [units_cons]; omega
          has := fun a => by
            simp only [hasByte_cons, Block.Has, Block.stop, Nat.add_mul]
            grind }
  · refine ⟨u, post, ?_⟩
    simp only [joinUpper, if_neg hjoin]
    exact
      { size := hu
        ptr := by simp [hptr]
        ptr_of_ne := fun x hx => Function.update_of_ne hx _ _
        size_of_ne := fun x hx => rfl
        sz := rfl
        granted := rfl
        pos := hpos
        sorted := by
          refine pairwise_cons.mpr ⟨fun c hc => ?_, hsorted⟩
          cases post with
          | nil => cases hc
          | cons q R =>
            rw [map_cons, headD_cons] at hptr
            have hq := hapart q (mem_of_split hsplit mem_cons_self)
            have hlt := hpost q mem_cons_self
            rw [hptr, hu] at hjoin
            have hbelow : Block.Below ⟨bp, u⟩ q := by
              simp only [Block.Apart, Block.Below, Block.stop] at hq ⊢
              omega
            rcases mem_cons.mp hc with rfl | hc
            · exact hbelow
            · have hqc := (pairwise_cons.mp hsorted).1 c hc
              simp only [Block.Below, Block.stop] at hbelow hqc ⊢
              omega
        path := hpath
        sub := fun c hc => hc
        units := rfl
        has := fun a => Iff.rfl }

theorem units_base (base : Nat) (N : List Block) : units (baseBlock base :: N) = units N := by
  simp [units, baseBlock]

theorem hasByte_base (base : Nat) (N : List Block) (a : Nat) :
    HasByte (baseBlock base :: N) a ↔ HasByte N a := by
  have hnot : ¬(baseBlock base).Has a := by
    simp only [Block.Has, Block.stop, baseBlock]
    omega
  rw [hasByte_cons, or_iff_right hnot]

/-- `h'` has the free blocks `N'`, which are those of `N` and a block of `u` units at `bp`. -/
structure Freed (base : Nat) (h h' : Heap) (bp u : Nat) (N N' : List Block) : Prop where
  list : FreeList base h' N'
  units : units N' = Umalloc.units N + u
  sz : h'.sz = h.sz
  granted : h'.granted = h.granted
  size : ∀ x, x ∉ bp :: base :: N.map Block.addr → h'.size x = h.size x
  has : ∀ a, HasByte N' a ↔ HasByte (⟨bp, u⟩ :: N) a

theorem Joined.joinLower_eq {h₁ : Heap} {u' : Nat} {R : List Block}
    (hj : Joined base h h₁ bp u post u' R) {x : Nat} (hx : x ≠ p.addr) (hx' : x ≠ bp) :
    (joinLower h₁ bp p.addr).ptr x = h.ptr x ∧ (joinLower h₁ bp p.addr).size x = h.size x := by
  rw [joinLower]
  split <;> simp [Function.update_of_ne hx, hj.ptr_of_ne x hx', hj.size_of_ne x hx']

/-- Whatever the nodes behind `pre` are, they have the units and the bytes of `p`, the block and
`R`. -/
theorem Joined.freed {h₁ : Heap} {u' : Nat} {M N' R : List Block}
    (hj : Joined base h h₁ bp u post u' R) (hsplit : baseBlock base :: N = pre ++ p :: post)
    (hN' : pre ++ M = baseBlock base :: N')
    (hlist : FreeList base { joinLower h₁ bp p.addr with freep := p.addr } N')
    (hunits : Umalloc.units M = p.size + (u' + Umalloc.units R))
    (hhas : ∀ a, HasByte M a ↔ p.Has a ∨ HasByte (⟨bp, u'⟩ :: R) a) :
    Freed base h { joinLower h₁ bp p.addr with freep := p.addr } bp u N N' := by
  refine ⟨hlist, ?_, ?_, ?_, fun x hx => ?_, fun a => ?_⟩
  · rw [← units_base base N', ← units_base base N, ← hN', hsplit, units_append, units_append,
      hunits, hj.units, units_cons]
    omega
  · rw [joinLower]
    split <;> exact hj.sz
  · rw [joinLower]
    split <;> exact hj.granted
  · simp only [mem_cons, not_or] at hx
    refine (hj.joinLower_eq (fun hxp => ?_) hx.1).2
    have hpN : p ∈ baseBlock base :: N := by rw [hsplit]; simp
    rcases mem_cons.mp hpN with rfl | hpN
    · exact hx.2.1 hxp
    · exact hx.2.2 (hxp ▸ List.mem_map_of_mem (f := Block.addr) hpN)
  · rw [← hasByte_base base N', ← hN', hasByte_append, hhas, hj.has, hasByte_cons, hasByte_cons,
      ← hasByte_base base N, hsplit, hasByte_append, hasByte_cons]
    tauto

variable (hf : FreeList base h N)

include hf

theorem FreeList.size_eq (hb : b ∈ baseBlock base :: N) : h.size b.addr = b.size := by
  rcases mem_cons.mp hb with rfl | hb
  · exact hf.base_size
  · exact (hf.size b hb).1

theorem FreeList.ok (hb : b ∈ baseBlock base :: N) :
    b = baseBlock base ∨ 0 < b.size ∧ base + headerSize ≤ b.addr := by
  rcases mem_cons.mp hb with rfl | hb
  · exact .inl rfl
  · exact .inr ⟨(hf.size b hb).2, hf.low b hb⟩

/-- The nodes from `p` on become a node at the same place, the nodes `M`, and the last ones of
the list, `R`. -/
theorem FreeList.splice (hsplit : baseBlock base :: N = pre ++ p :: post) {k : Heap} {v : Nat}
    {M R : List Block} (hsub : ∀ c ∈ R, c ∈ post) (hR : Path h.ptr (R.map Block.addr) base)
    (hv : v = p.size ∨ p ≠ baseBlock base ∧ 0 < v)
    (hnew : ∀ b ∈ M, 0 < b.size ∧ base + headerSize ≤ b.addr)
    (hpath : Path k.ptr (p.addr :: M.map Block.addr) ((R.map Block.addr).headD base))
    (hsize : ∀ b ∈ ⟨p.addr, v⟩ :: M, k.size b.addr = b.size)
    (hsorted : (⟨p.addr, v⟩ :: (M ++ R)).Pairwise Block.Below)
    (hframe : ∀ b, b.addr < p.addr ∨ b ∈ R →
      k.ptr b.addr = h.ptr b.addr ∧ k.size b.addr = h.size b.addr)
    (hfreep : k.freep = p.addr) :
    ∃ N', pre ++ ⟨p.addr, v⟩ :: (M ++ R) = baseBlock base :: N' ∧ FreeList base k N' := by
  obtain ⟨hpre, -, hpresorted, -⟩ := hf.around hsplit
  have hpN : p ∈ baseBlock base :: N := by rw [hsplit]; simp
  have hmem : ∀ c, c ∈ pre ∨ c ∈ R → c ∈ baseBlock base :: N := fun c hc => by
    rw [hsplit, mem_append, mem_cons]
    exact hc.imp_right fun hc => .inr (hsub c hc)
  have hsame : ∀ c, c ∈ pre ∨ c ∈ R → k.ptr c.addr = h.ptr c.addr ∧ k.size c.addr = h.size c.addr :=
    fun c hc => hframe c (hc.imp_left fun hc => (hpre c hc).addr_lt)
  have hcongr {K : List Block} {z : Nat} (hK : ∀ c ∈ K, c ∈ pre ∨ c ∈ R)
      (h : Path h.ptr (K.map Block.addr) z) : Path k.ptr (K.map Block.addr) z := by
    refine h.congr fun x hx => ?_
    obtain ⟨c, hc, rfl⟩ := mem_map.mp hx
    exact (hsame c (hK c hc)).1
  refine FreeList.of_nodes ?_ ?_ (fun b hb => ?_) (pairwise_append.mpr ⟨hpresorted, hsorted,
    fun c hc d hd => lt_of_lt_of_le (hpre c hc) ?_⟩) (fun b hb => ?_) (by simp [hfreep])
  · cases pre with
    | nil =>
      rcases hv with rfl | hv
      · rw [(List.cons.inj hsplit).1]
        rfl
      · exact absurd (List.cons.inj hsplit).1.symm hv.1
    | cons b pre =>
      rw [(List.cons.inj hsplit).1]
      rfl
  · rw [map_append, map_cons, map_append, path_append, ← List.cons_append, path_append]
    exact ⟨hcongr (fun _ => .inl) (hf.path hsplit).1, hpath, hcongr (fun _ => .inr) hR⟩
  · simp only [mem_append, mem_cons] at hb
    rcases hb with hb | hb | hb | hb
    · rw [(hsame b (.inl hb)).2, hf.size_eq (hmem b (.inl hb))]
    · exact hsize b (by simp [hb])
    · exact hsize b (by simp [hb])
    · rw [(hsame b (.inr hb)).2, hf.size_eq (hmem b (.inr hb))]
  · rcases mem_cons.mp hd with rfl | hd
    · exact le_rfl
    · exact ((pairwise_cons.mp hsorted).1 d hd).addr_lt.le
  · simp only [mem_append, mem_cons] at hb
    rcases hb with hb | rfl | hb | hb
    · exact hf.ok (hmem b (.inl hb))
    · rcases hv with rfl | hv
      · exact hf.ok hpN
      · exact .inr ⟨hv.2, ((hf.ok hpN).resolve_left hv.1).2⟩
    · exact .inr (hnew b hb)
    · exact hf.ok (hmem b (.inr hb))

theorem FreeList.joined_lower (hsplit : baseBlock base :: N = pre ++ p :: post) (hp : p.addr < bp)
    (hapart : ∀ c ∈ N, Block.Apart ⟨bp, u⟩ c)
    (hpost : ∀ c ∈ post, bp < c.addr) (hlow : base + headerSize ≤ bp) {h₁ : Heap} {u' : Nat}
    {R : List Block} (hj : Joined base h h₁ bp u post u' R) :
    ∃ N', Freed base h { joinLower h₁ bp p.addr with freep := p.addr } bp u N N' := by
  have hpN : p ∈ baseBlock base :: N := by rw [hsplit]; simp
  have hpsize : h₁.size p.addr = p.size := by
    rw [hj.size_of_ne _ (by omega), hf.size_eq hpN]
  have hframe : ∀ b, b.addr < p.addr ∨ b ∈ R → (joinLower h₁ bp p.addr).ptr b.addr = h.ptr b.addr ∧
      (joinLower h₁ bp p.addr).size b.addr = h.size b.addr := by
    rintro b (hb | hb)
    · exact hj.joinLower_eq (by omega) (by omega)
    · have := hpost b (hj.sub b hb)
      exact hj.joinLower_eq (by omega) (by omega)
  by_cases hjoin : p.addr + h₁.size p.addr * headerSize = bp
  · -- The place is the lower neighbour, and not `base`.
    rw [hpsize] at hjoin
    have hne : p ≠ baseBlock base := by
      rintro rfl
      simp [baseBlock, headerSize] at hjoin hlow
      omega
    have hsorted : (⟨p.addr, p.size + u'⟩ :: R).Pairwise Block.Below := by
      refine pairwise_cons.mpr ⟨fun c hc => ?_, (pairwise_cons.mp hj.sorted).2⟩
      have hbelow := (pairwise_cons.mp hj.sorted).1 c hc
      simp only [Block.Below, Block.stop, Nat.add_mul] at hbelow ⊢
      omega
    obtain ⟨N', hN', hlist⟩ := hf.splice hsplit
      (k := { joinLower h₁ bp p.addr with freep := p.addr }) hj.sub hj.path
      (.inr ⟨hne, Nat.add_pos_right p.size hj.pos⟩) (List.forall_mem_nil _)
      ⟨by simp [joinLower, hpsize, hjoin, hj.ptr], trivial⟩
      (by simp [joinLower, hpsize, hjoin, hj.size]) hsorted hframe rfl
    refine ⟨N', hj.freed hsplit hN' hlist ?_ fun a => ?_⟩
    · rw [units_cons, List.nil_append, Nat.add_assoc]
    · rw [hasByte_cons, hasByte_cons, List.nil_append, ← or_assoc]
      refine or_congr_left ?_
      simp only [Block.Has, Block.stop, Nat.add_mul]
      omega
  · have hpbelow : p.Below ⟨bp, u'⟩ := by
      have hle : p.stop ≤ bp := by
        rcases mem_cons.mp hpN with rfl | hpN'
        · simp only [Block.stop, baseBlock, headerSize] at hlow ⊢
          omega
        · have := hapart p hpN'
          have hpos := (hf.size p hpN').2
          simp only [Block.Apart, Block.stop, headerSize] at this ⊢
          omega
      rw [hpsize] at hjoin
      simp only [Block.Below, Block.stop] at hle ⊢
      omega
    have hsorted : (p :: ⟨bp, u'⟩ :: R).Pairwise Block.Below := by
      refine pairwise_cons.mpr ⟨fun c hc => ?_, hj.sorted⟩
      rcases mem_cons.mp hc with rfl | hc
      · exact hpbelow
      · exact (hf.around hsplit).2.1 c (hj.sub c hc)
    have hbp : (joinLower h₁ bp p.addr).ptr bp = (R.map Block.addr).headD base := by
      rw [joinLower, if_neg hjoin, ← hj.ptr]
      exact Function.update_of_ne (by omega) _ _
    obtain ⟨N', hN', hlist⟩ := hf.splice hsplit
      (k := { joinLower h₁ bp p.addr with freep := p.addr }) hj.sub hj.path (.inl rfl)
      (List.forall_mem_singleton.mpr ⟨hj.pos, hlow⟩) ⟨by simp [joinLower, hjoin], hbp, trivial⟩
      (by rw [joinLower, if_neg hjoin]; simp [hpsize, hj.size]) hsorted hframe rfl
    refine ⟨N', hj.freed hsplit hN' hlist ?_ fun a => ?_⟩
    · rw [units_cons, List.singleton_append, units_cons]
    · rw [hasByte_cons, List.singleton_append]

theorem FreeList.free (hu : h.size bp = u) (hpos : 0 < u)
    (hlow : base + headerSize ≤ bp) (hapart : ∀ c ∈ N, Block.Apart ⟨bp, u⟩ c) :
    ∃ h' N', (∃ K, ∀ fuel ≥ K, free h fuel bp = some h') ∧ Freed base h h' bp u N N' := by
  have hne : ∀ c ∈ N, c.addr ≠ bp := by
    intro c hc heq
    have hc' := hapart c hc
    have := (hf.size c hc).2
    simp only [Block.Apart, Block.stop, headerSize] at hc'
    omega
  obtain ⟨pre, p, post, hsplit, hp, hpost⟩ := exists_split hf.sorted
    (show (baseBlock base).addr < bp by simp only [baseBlock, headerSize] at hlow ⊢; omega) hne
  obtain ⟨u', R, hj⟩ := hf.joined_upper hsplit hp hpost hu hpos hapart
  obtain ⟨N', hfreed⟩ := hf.joined_lower hsplit hp hapart hpost hlow hj
  have hpN : p ∈ baseBlock base :: N := by rw [hsplit]; simp
  have horder : ∀ c ∈ baseBlock base :: N, c.addr ≤ p.addr ∨ bp < c.addr := by
    intro c hc
    rw [hsplit] at hc
    rcases mem_append.mp hc with hc | hc
    · exact .inl ((hf.around hsplit).1 c hc).addr_lt.le
    · rcases mem_cons.mp hc with rfl | hc
      · exact .inl (Nat.le_refl _)
      · exact .inr (hpost c hc)
  obtain ⟨K, hK⟩ := hf.findPlace hpN hp horder
  exact ⟨_, N', ⟨K, fun fuel hfuel => by rw [Umalloc.free, hK fuel hfuel]; rfl⟩, hfreed⟩

end

end Xv6.Umalloc
