import Xv6.Bio.Defs
import Xv6.Lib.Count

/-!
# The cache shows the bytes last published

The cache is a flat map from block numbers to bytes, `last`. `Faithful` says how the buffers and the
disk represent it. A buffer that is given to another block is never dirty.
-/

namespace Xv6.Bio

open Log Transition
open Function (update update_self update_of_ne update_eq_self)

/-- The buffers and the disk represent `last`; the changes in the buffers of `pending` are not
published yet. -/
structure Faithful (c : Cache) (last : Nat → Block) (pending : Nat → Bool) : Prop where
  mru : ∀ i, i ∈ c.mru ↔ i < nbuf
  uniq : ∀ i j b, i < nbuf → j < nbuf → c.carries i b → c.carries j b → i = j
  data : ∀ i b, i < nbuf → c.carries i b → (c.buf i).valid = true → pending i = false →
    (c.buf i).data = last b
  clean : ∀ i b, i < nbuf → c.carries i b → (c.buf i).dirty = false → c.disk b = last b
  absent : ∀ b, (∀ i, i < nbuf → ¬ c.carries i b) → c.disk b = last b
  valid : ∀ i, i < nbuf → (c.buf i).dirty = true → (c.buf i).valid = true
  locked : ∀ i, i < nbuf → pending i = true → (c.buf i).lock ≠ none
  dev : ∀ i, i < nbuf → (c.buf i).refcnt ≠ 0 → (c.buf i).dev = rootDev

variable {c c' : Cache} {last last' : Nat → Block} {pending pending' : Nat → Bool} {i b : Nat}
  {x : Buf}

theorem Cache.set_self (c : Cache) (i : Nat) (x : Buf) : (c.set i x).buf i = x := by
  simp [set]

theorem Cache.set_of_ne {j : Nat} (h : j ≠ i) : (c.set i x).buf j = c.buf j := by
  simp [set, h]

section Write

variable (s : State) (i : Nat) (v : Block)

theorem State.goto_pc_self (p : Nat) (k : Pc) : (s.goto p k).pc p = k := update_self _ _ _

theorem State.goto_pc_of_ne {p q : Nat} (k : Pc) (h : q ≠ p) : (s.goto p k).pc q = s.pc q :=
  update_of_ne h _ _

theorem State.goto_self (p : Nat) : s.goto p (s.pc p) = s := by
  rw [State.goto, update_eq_self]

theorem State.write_self : ((s.setData i v).bwrite i).cache.buf i =
    { s.cache.buf i with valid := true, dirty := false, data := v } := by
  simp [State.bwrite, State.setData, Cache.bwrite, Cache.set]

variable {i} in
theorem State.write_of_ne {j : Nat} (h : j ≠ i) :
    ((s.setData i v).bwrite i).cache.buf j = s.cache.buf j := by
  simp [State.bwrite, State.setData, Cache.bwrite, Cache.set, h]

theorem State.write_disk : ((s.setData i v).bwrite i).cache.disk =
    update s.cache.disk (s.cache.buf i).blockno v := by
  simp [State.bwrite, State.setData, Cache.bwrite, Cache.set]

theorem State.write_published : ((s.setData i v).bwrite i).published =
    update s.published (s.cache.buf i).blockno v := by
  simp [State.bwrite, State.publish, State.setData, Cache.set]

theorem State.write_last : ((s.setData i v).bwrite i).last =
    update s.last (s.cache.buf i).blockno v := by
  simp [State.bwrite, State.publish, State.setData, Cache.set]

theorem State.write_pending : ((s.setData i v).bwrite i).pending =
    update s.pending i false := by
  simp [State.bwrite, State.publish, State.setData]

theorem State.write_data : (s.setData i (s.cache.buf i).data).bwrite i = s.bwrite i := by
  simp [State.bwrite, State.publish, State.setData, Cache.bwrite, Cache.set]

end Write

/-- What a buffer and the disk show of the flat map; `v` says that the buffer has changes that are
not published yet. -/
structure BufOk (disk : Disk) (last : Nat → Block) (v : Bool) (x : Buf) : Prop where
  data : x.dev = rootDev → x.valid = true → v = false → x.data = last x.blockno
  clean : x.dev = rootDev → x.dirty = false → disk x.blockno = last x.blockno
  valid : x.dirty = true → x.valid = true
  locked : v = true → x.lock ≠ none
  dev : x.refcnt ≠ 0 → x.dev = rootDev

theorem Faithful.buf (h : Faithful c last pending) (hi : i < nbuf) :
    BufOk c.disk last (pending i) (c.buf i) :=
  ⟨fun hd => h.data i _ hi ⟨hd, rfl⟩, fun hd => h.clean i _ hi ⟨hd, rfl⟩, h.valid i hi,
    h.locked i hi, h.dev i hi⟩

theorem Faithful.of_buf (hmru : ∀ i, i ∈ c.mru ↔ i < nbuf)
    (huniq : ∀ i j b, i < nbuf → j < nbuf → c.carries i b → c.carries j b → i = j)
    (habsent : ∀ b, (∀ i, i < nbuf → ¬ c.carries i b) → c.disk b = last b)
    (hbuf : ∀ i, i < nbuf → BufOk c.disk last (pending i) (c.buf i)) :
    Faithful c last pending where
  mru := hmru
  uniq := huniq
  absent := habsent
  data i _ hi hc := hc.2 ▸ (hbuf i hi).data hc.1
  clean i _ hi hc := hc.2 ▸ (hbuf i hi).clean hc.1
  valid i hi := (hbuf i hi).valid
  locked i hi := (hbuf i hi).locked
  dev i hi := (hbuf i hi).dev

theorem Cache.carries_update (hbuf : c'.buf = update c.buf i x) (hdev : x.dev = (c.buf i).dev)
    (hblock : x.blockno = (c.buf i).blockno) (j b : Nat) : c'.carries j b ↔ c.carries j b := by
  rw [carries, carries, hbuf]
  by_cases hji : j = i
  · subst hji
    rw [update_self, hdev, hblock]
  · rw [update_of_ne hji]

theorem Faithful.of_carries (h : Faithful c last pending) (hmru : ∀ j, j ∈ c'.mru ↔ j ∈ c.mru)
    (hcarries : ∀ j b, c'.carries j b ↔ c.carries j b)
    (habsent : ∀ b, (∀ i, i < nbuf → ¬ c.carries i b) → c'.disk b = last' b)
    (hbuf : ∀ i, i < nbuf → BufOk c'.disk last' (pending' i) (c'.buf i)) :
    Faithful c' last' pending' := by
  refine .of_buf (fun j => (hmru j).trans (h.mru j)) (fun j k b hj hk hcj hck => ?_)
    (fun b hb => ?_) hbuf
  · exact h.uniq j k b hj hk ((hcarries j b).mp hcj) ((hcarries k b).mp hck)
  · exact habsent b fun j hj hc => hb j hj ((hcarries j b).mpr hc)

theorem Faithful.set (h : Faithful c last pending) (hbuf : c'.buf = update c.buf i x)
    (hmru : ∀ j, j ∈ c'.mru ↔ j ∈ c.mru) (hdisk : c'.disk = c.disk)
    (hdev : x.dev = (c.buf i).dev) (hblock : x.blockno = (c.buf i).blockno)
    (hpending : ∀ j, j ≠ i → pending' j = pending j)
    (hok : i < nbuf → BufOk c.disk last (pending' i) x) : Faithful c' last pending' := by
  refine h.of_carries hmru (Cache.carries_update hbuf hdev hblock) ?_ fun j hj => ?_
  · rw [hdisk]
    exact h.absent
  · rw [hbuf, hdisk]
    by_cases hji : j = i
    · subst hji
      rw [update_self]
      exact hok hj
    · rw [update_of_ne hji, hpending j hji]
      exact h.buf hj

/-- The data of buffer `i` is published: it goes to the disk, or the buffer is dirty. -/
theorem Faithful.publish (h : Faithful c last pending) (hi : i < nbuf)
    (hroot : (c.buf i).dev = rootDev) (hbuf : c'.buf = update c.buf i x) (hmru : c'.mru = c.mru)
    (hdev : x.dev = (c.buf i).dev) (hblock : x.blockno = (c.buf i).blockno)
    (hvalid : x.valid = true) (hdisk : c'.disk = update c.disk (c.buf i).blockno x.data ∨
      c'.disk = c.disk ∧ x.dirty = true) :
    Faithful c' (update last (c.buf i).blockno x.data) (update pending i false) := by
  have hdisk_ne : ∀ b, b ≠ (c.buf i).blockno → c'.disk b = c.disk b := by
    intro b hb
    rcases hdisk with e | ⟨e, -⟩
    · rw [e, update_of_ne hb]
    · rw [e]
  refine h.of_carries (by simp [hmru]) (Cache.carries_update hbuf hdev hblock) (fun b hb => ?_)
    fun j hj => ?_
  · have hne : b ≠ (c.buf i).blockno := by
      rintro rfl
      exact hb i hi ⟨hroot, rfl⟩
    rw [update_of_ne hne, hdisk_ne b hne]
    exact h.absent b hb
  · rw [hbuf]
    by_cases hji : j = i
    · subst hji
      rw [update_self, update_self]
      refine ⟨fun _ _ _ => ?_, fun _ hd => ?_, fun _ => hvalid, nofun, fun _ => hdev.trans hroot⟩
      · rw [hblock, update_self]
      · rw [hblock, update_self]
        rcases hdisk with e | ⟨-, e⟩
        · rw [e, update_self]
        · rw [e] at hd
          cases hd
    · -- no other buffer has the block
      have hne : (c.buf j).dev = rootDev → (c.buf j).blockno ≠ (c.buf i).blockno := fun hd e =>
        hji (h.uniq j i _ hj hi ⟨hd, e⟩ ⟨hroot, rfl⟩)
      have hok := h.buf hj
      rw [update_of_ne hji, update_of_ne hji]
      refine { hok with data := fun hd hv hp => ?_, clean := fun hd hc => ?_ }
      · rw [update_of_ne (hne hd)]
        exact hok.data hd hv hp
      · rw [update_of_ne (hne hd), hdisk_ne _ (hne hd)]
        exact hok.clean hd hc

/-- What `bget` does: it finds the block, or gives a clean buffer to it that nobody uses. -/
inductive BgetStep (c : Cache) (b : Nat) : Nat → Cache → Prop
  | hit {i : Nat} (hi : i ∈ c.mru) (hc : c.carries i b) :
      BgetStep c b i (c.set i { c.buf i with refcnt := (c.buf i).refcnt + 1 })
  | recycle {i : Nat} (hi : i ∈ c.mru) (hnone : ∀ j ∈ c.mru, ¬ c.carries j b)
      (href : (c.buf i).refcnt = 0) (hclean : (c.buf i).dirty = false) :
      BgetStep c b i (c.set i { c.buf i with
        dev := rootDev, blockno := b, valid := false, dirty := false, refcnt := 1 })

theorem bget_inv (h : c.bget b = some (i, c')) : BgetStep c b i c' := by
  rw [Cache.bget] at h
  split at h
  · next j hfind =>
    cases h
    exact .hit (List.mem_of_find?_eq_some hfind) (by simpa using List.find?_some hfind)
  · next hnone =>
    split at h
    · next j hfind =>
      cases h
      obtain ⟨href, hclean⟩ : (c.buf i).refcnt = 0 ∧ (c.buf i).dirty = false := by
        simpa using List.find?_some hfind
      refine .recycle (by simpa using List.mem_of_find?_eq_some hfind) (fun j hj => ?_) href hclean
      simpa using List.find?_eq_none.mp hnone j hj
    · cases h

theorem BgetStep.carries (h : BgetStep c b i c') : c'.carries i b := by
  cases h with
  | hit hi hc =>
    rw [Cache.carries, Cache.set_self]
    exact hc
  | recycle =>
    rw [Cache.carries, Cache.set_self]
    exact ⟨rfl, rfl⟩

theorem BgetStep.buf_of_ne (h : BgetStep c b i c') {j : Nat} (hj : j ≠ i) : c'.buf j = c.buf j := by
  cases h <;> rw [Cache.set_of_ne hj]

theorem BgetStep.lock (h : BgetStep c b i c') : (c'.buf i).lock = (c.buf i).lock := by
  cases h <;> rw [Cache.set_self]

theorem BgetStep.refcnt (h : BgetStep c b i c') : (c'.buf i).refcnt = (c.buf i).refcnt + 1 := by
  cases h with
  | hit => rw [Cache.set_self]
  | recycle _ _ href => rw [Cache.set_self, href]

inductive RunStep (g : Geom) (s : State) (p : Nat) : State → Prop
  | bget {b i : Nat} {k : Cont} {c : Cache} (hpc : s.pc p = .bget b k)
      (hstep : BgetStep s.cache b i c) : RunStep g s p { s.goto p (.lock i k) with cache := c }
  | lock {i : Nat} {k : Cont} (hpc : s.pc p = .lock i k) (hl : (s.cache.buf i).lock = none) :
      RunStep g s p { s.goto p (.read i k) with
        cache := s.cache.set i { s.cache.buf i with lock := some p } }
  | read {i : Nat} {k : Cont} (hpc : s.pc p = .read i k) :
      RunStep g s p (if (s.cache.buf i).valid then s.goto p (.got i k)
        else { s.goto p (.got i k) with cache := s.cache.read i })
  | got {i : Nat} {k : Cont} (hpc : s.pc p = .got i k) : RunStep g s p (got s p i k)
  | resume {k : Pc} (hpc : s.pc p = .brelse [] k) : RunStep g s p (s.goto p k)
  | unlock {i : Nat} {is : List Nat} {k : Pc} (hpc : s.pc p = .brelse (i :: is) k) :
      RunStep g s p { s.goto p (.drop i is k) with
        cache := s.cache.set i { s.cache.buf i with lock := none } }
  | drop {i : Nat} {is : List Nat} {k : Pc} (hpc : s.pc p = .drop i is k) :
      RunStep g s p { s.goto p (.brelse is k) with cache := s.cache.drop i }
  | insert {i : Nat} (hpc : s.pc p = .insert i) : RunStep g s p ((insert s i).goto p .idle)
  | copy {tail : Nat} (hpc : s.pc p = .writeLog tail) (h : tail < s.lh.length) :
      RunStep g s p (s.goto p (.bget (g.start + tail + 1) (.logTo tail)))
  | copied {tail : Nat} (hpc : s.pc p = .writeLog tail) (h : ¬ tail < s.lh.length) :
      RunStep g s p (s.goto p (.bget g.start (.head false)))
  | install {tail : Nat} (hpc : s.pc p = .install tail) (h : tail < s.lh.length) :
      RunStep g s p (s.goto p (.bget (g.start + tail + 1) (.instLog tail)))
  | installed {tail : Nat} (hpc : s.pc p = .install tail) (h : ¬ tail < s.lh.length) :
      RunStep g s p { s.goto p (.bget g.start (.head true)) with lh := [], logged := [] }
  | finish (hpc : s.pc p = .finish) : RunStep g s p { s.goto p .idle with committing := false }

theorem run_inv {g : Geom} {s t : State} {p : Nat} (h : run g s p = some t) : RunStep g s p t := by
  rw [run] at h
  split at h
  · cases h
  · next hpc =>
    obtain ⟨⟨i, c⟩, hc, rfl⟩ := Option.map_eq_some_iff.mp h
    exact .bget hpc (bget_inv hc)
  · next hpc =>
    split_ifs at h with hl
    cases h
    exact .lock hpc hl
  · next i k hpc =>
    have hstep := RunStep.read (g := g) hpc
    split_ifs at h hstep <;> cases h <;> exact hstep
  · next hpc =>
    cases h
    exact .got hpc
  · next hpc =>
    cases h
    exact .resume hpc
  · next hpc =>
    cases h
    exact .unlock hpc
  · next hpc =>
    cases h
    exact .drop hpc
  · next hpc =>
    cases h
    exact .insert hpc
  · next hpc =>
    split_ifs at h with hlt <;> cases h
    · exact .copy hpc hlt
    · exact .copied hpc hlt
  · next hpc =>
    split_ifs at h with hlt <;> cases h
    · exact .install hpc hlt
    · exact .installed hpc hlt
  · next hpc =>
    cases h
    exact .finish hpc

inductive ActStep (g : Geom) (n : Nat) (s : State) : Action → State → Prop
  | bread {p b : Nat} (hp : p < n) (hpc : s.pc p = .idle) :
      ActStep g n s (.bread p b) (s.goto p (.bget b (.user b)))
  | modify {p i : Nat} {data : Block} (hp : p < n) (hpc : s.pc p = .idle) (hi : i < nbuf)
      (hl : (s.cache.buf i).lock = some p) : ActStep g n s (.modify p i data) (s.setData i data)
  | bwrite {p i : Nat} (hp : p < n) (hpc : s.pc p = .idle) (hi : i < nbuf)
      (hl : (s.cache.buf i).lock = some p) : ActStep g n s (.bwrite p i) (s.bwrite i)
  | logWrite {p i : Nat} (hp : p < n) (hpc : s.pc p = .idle) (hi : i < nbuf)
      (hl : (s.cache.buf i).lock = some p) (hop : s.inOp p = true)
      (hout : ¬ g.InLog (s.cache.buf i).blockno) :
      ActStep g n s (.logWrite p i) (s.goto p (.insert i))
  | brelse {p i : Nat} (hp : p < n) (hpc : s.pc p = .idle) (hi : i < nbuf)
      (hl : (s.cache.buf i).lock = some p) (hpending : s.pending i = false) :
      ActStep g n s (.brelse p i) (s.goto p (.brelse [i] .idle))
  | beginOp {p : Nat} (hp : p < n) (hpc : s.pc p = .idle) (hop : s.inOp p = false)
      (hc : s.committing = false) :
      ActStep g n s (.beginOp p)
        { s with outstanding := s.outstanding + 1, inOp := update s.inOp p true }
  | endOp {p : Nat} (hp : p < n) (hpc : s.pc p = .idle) (hop : s.inOp p = true)
      (hc : s.committing = false) :
      ActStep g n s (.endOp p)
        { s with outstanding := s.outstanding - 1, inOp := update s.inOp p false }
  | commit {p : Nat} {k : Pc} (hp : p < n) (hpc : s.pc p = .idle) (hop : s.inOp p = true)
      (hc : s.committing = false) (hlast : s.outstanding - 1 = 0)
      (hk : 0 < s.lh.length ∧ k = .writeLog 0 ∨ s.lh = [] ∧ k = .finish) :
      ActStep g n s (.endOp p)
        { s.goto p k with
          outstanding := s.outstanding - 1
          inOp := update s.inOp p false
          committing := true }
  | run {p : Nat} {t : State} (hp : p < n) (hstep : RunStep g s p t) : ActStep g n s (.run p) t

theorem step_inv {g : Geom} {n : Nat} {s t : State} {a : Action} (h : step g n s a = some t) :
    ActStep g n s a t := by
  cases a <;> simp only [step] at h
  case endOp p =>
    split_ifs at h with hc hcommit hlast hlen <;> cases h
    · exact .commit hc.1 hc.2.1 hc.2.2 (by simpa using hcommit) hlast (Or.inl ⟨hlen, rfl⟩)
    · exact .commit hc.1 hc.2.1 hc.2.2 (by simpa using hcommit) hlast
        (Or.inr ⟨List.length_eq_zero_iff.mp (Nat.eq_zero_of_not_pos hlen), rfl⟩)
    · exact .endOp hc.1 hc.2.1 hc.2.2 (by simpa using hcommit)
  case run p =>
    split_ifs at h with hp
    exact .run hp (run_inv h)
  all_goals
    split_ifs at h with hc
    cases h
  · exact .bread hc.1 hc.2
  · exact .modify hc.1 hc.2.1 hc.2.2.1 hc.2.2.2
  · exact .bwrite hc.1 hc.2.1 hc.2.2.1 hc.2.2.2
  · obtain ⟨hp, hpc, hi, hl, hop, hout⟩ := hc
    exact .logWrite hp hpc hi hl hop hout
  · obtain ⟨hp, hpc, hi, hl, hpending⟩ := hc
    exact .brelse hp hpc hi hl hpending
  · obtain ⟨hp, hpc, hop, hcommit, -⟩ := hc
    exact .beginOp hp hpc hop hcommit

theorem Faithful.bget (h : Faithful c last pending) (hstep : BgetStep c b i c')
    (hfree : (c.buf i).refcnt = 0 → pending i = false) : Faithful c' last pending := by
  cases hstep with
  | hit hi hc =>
    exact h.set rfl (fun _ => Iff.rfl) rfl rfl rfl (fun _ _ => rfl) fun hi =>
      { h.buf hi with dev := fun _ => hc.1 }
  | recycle hi hnone href hclean =>
    have hilt := (h.mru i).mp hi
    -- the block was on the disk, and so was the block that gives way
    have hb : c.disk b = last b := h.absent b fun j hj => hnone j ((h.mru j).mpr hj)
    have hcarries : ∀ j b', j ≠ i → (Cache.carries (c.set i { c.buf i with
        dev := rootDev, blockno := b, valid := false, dirty := false, refcnt := 1 }) j b' ↔
          c.carries j b') := fun j b' hj => by
      rw [Cache.carries, Cache.carries, Cache.set_of_ne hj]
    refine .of_buf h.mru (fun j k b' hj hk hcj hck => ?_) (fun b' hb' => ?_) fun j hj => ?_
    · by_cases hji : j = i <;> by_cases hki : k = i
      · rw [hji, hki]
      · subst hji
        rw [Cache.carries, Cache.set_self] at hcj
        obtain ⟨-, rfl⟩ := hcj
        exact absurd ((hcarries k _ hki).mp hck) (hnone k ((h.mru k).mpr hk))
      · subst hki
        rw [Cache.carries, Cache.set_self] at hck
        obtain ⟨-, rfl⟩ := hck
        exact absurd ((hcarries j _ hji).mp hcj) (hnone j ((h.mru j).mpr hj))
      · exact h.uniq j k b' hj hk ((hcarries j b' hji).mp hcj) ((hcarries k b' hki).mp hck)
    · change c.disk b' = last b'
      by_cases hold : c.carries i b'
      · exact h.clean i b' hilt hold hclean
      · refine h.absent b' fun j hj hc => ?_
        by_cases hji : j = i
        · exact hold (hji ▸ hc)
        · exact hb' j hj ((hcarries j b' hji).mpr hc)
    · by_cases hji : j = i
      · subst hji
        rw [Cache.set_self, hfree href]
        exact ⟨nofun, fun _ _ => hb, nofun, nofun, fun _ => rfl⟩
      · rw [Cache.set_of_ne hji]
        exact h.buf hj

/-- The buffers that a call of `bread` has in hand. -/
def Cont.needs : Cont → List Nat
  | .logFrom _ i | .instDst _ i => [i]
  | _ => []

/-- The buffers whose sleep locks a process has at this point. -/
def Pc.needs : Pc → List Nat
  | .bget _ k | .lock _ k => k.needs
  | .read i k | .got i k => i :: k.needs
  | .brelse is _ | .drop _ is _ => is
  | .insert i => [i]
  | _ => []

/-- The references to buffer `i` of a process that waits for its lock, or has given it back. -/
def Pc.waits (i : Nat) : Pc → Nat
  | .lock j _ | .drop j _ _ => if j = i then 1 else 0
  | _ => 0

/-- After `brelse` a process continues at a point where it has nothing in hand. -/
def Pc.Resumes : Pc → Prop
  | .brelse _ k | .drop _ _ k => k.needs = [] ∧ (∀ i, k.waits i = 0) ∧ k.Resumes
  | _ => True

def Buf.held (x : Buf) : Nat := if x.lock = none then 0 else 1

/-- The reference counts and the locks are those of the processes. -/
structure Sane (n : Nat) (s : State) : Prop where
  faithful : Faithful s.cache s.last s.pending
  refcnt : ∀ i, i < nbuf → (s.cache.buf i).refcnt =
    ∑ p ∈ Finset.range n, (s.pc p).waits i + (s.cache.buf i).held
  holds : ∀ p i, i ∈ (s.pc p).needs → i < nbuf ∧ (s.cache.buf i).lock = some p
  nodup : ∀ p, (s.pc p).needs.Nodup
  waits : ∀ p i, (s.pc p).waits i ≠ 0 → i < nbuf
  resumes : ∀ p, (s.pc p).Resumes
  /-- whoever has a buffer in hand has read it -/
  fetched : ∀ p i, i < nbuf → (s.cache.buf i).lock = some p →
    (s.cache.buf i).valid = true ∨ ∃ k, s.pc p = .read i k
  /-- only `log_write` has buffers in hand whose changes are not published -/
  quiet : ∀ p i, i ∈ (s.pc p).needs → s.pc p ≠ .insert i → s.pending i = false

variable {g : Geom} {n : Nat} {s t : State} {p : Nat} {k : Pc}

theorem Sane.lock_of_refcnt (h : Sane n s) (hi : i < nbuf) (hr : (s.cache.buf i).refcnt = 0) :
    (s.cache.buf i).lock = none := by
  by_contra hne
  have := h.refcnt i hi
  rw [Buf.held, if_neg hne] at this
  omega

theorem Sane.refcnt_of_waits (h : Sane n s) (hp : p < n) (hw : (s.pc p).waits i ≠ 0) :
    (s.cache.buf i).refcnt ≠ 0 := by
  have hle := Finset.single_le_sum (f := fun q => (s.pc q).waits i) (fun _ _ => Nat.zero_le _)
    (Finset.mem_range.mpr hp)
  have := h.refcnt i (h.waits p i hw)
  omega

/-- What holds for a process at point `k`. -/
structure ProcOk (c : Cache) (pending : Nat → Bool) (p : Nat) (k : Pc) : Prop where
  holds : ∀ i ∈ k.needs, i < nbuf ∧ (c.buf i).lock = some p
  nodup : k.needs.Nodup
  resumes : k.Resumes
  fetched : ∀ i, i < nbuf → (c.buf i).lock = some p →
    (c.buf i).valid = true ∨ ∃ k', k = .read i k'
  quiet : ∀ i ∈ k.needs, k ≠ .insert i → pending i = false

variable (h : Sane n s)

include h

theorem Sane.proc (hpc : s.pc p = k) : ProcOk s.cache s.pending p k := by
  subst hpc
  exact ⟨h.holds p, h.nodup p, h.resumes p, h.fetched p, h.quiet p⟩

/-- **A step of process `p`** that changes at most buffer `i`, and its lock only if it was free or
`p` had it. -/
theorem Sane.change (hp : p < n) (hi : i < nbuf)
    (hbuf : t.cache.buf = update s.cache.buf i x) (hpc : t.pc = update s.pc p k)
    (hf : Faithful t.cache t.last t.pending)
    (hlock : x.lock = (s.cache.buf i).lock ∨ (s.cache.buf i).lock = none ∧ x.lock = some p ∨
      (s.cache.buf i).lock = some p ∧ x.lock = none)
    (hcount : x.refcnt + (s.pc p).waits i + (s.cache.buf i).held =
      (s.cache.buf i).refcnt + k.waits i + x.held)
    (hwaits : ∀ j, j ≠ i → k.waits j = (s.pc p).waits j)
    (hvalid : (s.cache.buf i).lock ≠ none → (s.cache.buf i).valid = true → x.valid = true)
    (hpending : ∀ j, t.pending j = s.pending j ∨ t.pending j = false ∨
      (s.cache.buf j).lock = some p) (hok : ProcOk t.cache t.pending p k) : Sane n t := by
  obtain ⟨hself, hother⟩ := Function.eq_update_iff.mp hpc
  rw [Function.eq_update_iff] at hbuf
  obtain ⟨rfl, hbuf⟩ := hbuf
  -- the locks of other processes stay
  have hstay : ∀ q j, q ≠ p →
      ((t.cache.buf j).lock = some q ↔ (s.cache.buf j).lock = some q) := by
    intro q j hqp
    by_cases hji : j = i
    · subst hji
      have hpq : p ≠ q := fun e => hqp e.symm
      rcases hlock with e | ⟨e, e'⟩ | ⟨e, e'⟩ <;> simp [*]
    · rw [hbuf j hji]
  have hproc : ∀ q, ProcOk t.cache t.pending q (t.pc q) := by
    intro q
    by_cases hqp : q = p
    · rw [hqp, hself]
      exact hok
    rw [hother q hqp]
    refine ⟨fun j hj => ?_, h.nodup q, h.resumes q, fun j hj hq => ?_, fun j hj hne => ?_⟩
    · obtain ⟨hlt, hl⟩ := h.holds q j hj
      exact ⟨hlt, (hstay q j hqp).mpr hl⟩
    · rw [hstay q j hqp] at hq
      refine (h.fetched q j hj hq).imp_left fun hv => ?_
      by_cases hji : j = i
      · subst hji
        exact hvalid (by simp [hq]) hv
      · rwa [hbuf j hji]
    · rcases hpending j with e | e | e
      · rw [e]
        exact h.quiet q j hj hne
      · exact e
      · rw [(h.holds q j hj).2, Option.some.injEq] at e
        exact absurd e hqp
  refine ⟨hf, fun j hj => ?_, fun q => (hproc q).holds, fun q => (hproc q).nodup,
    fun q j hq => ?_, fun q => (hproc q).resumes, fun q => (hproc q).fetched,
    fun q => (hproc q).quiet⟩
  · have hsum : ∑ q ∈ Finset.range n, (t.pc q).waits j + (s.pc p).waits j =
        ∑ q ∈ Finset.range n, (s.pc q).waits j + (t.pc p).waits j := by
      refine sum_range_change (w := fun q => (s.pc q).waits j) hp fun q _ hq => ?_
      simp only [hother q hq]
    have hold := h.refcnt j hj
    rw [hself] at hsum
    by_cases hji : j = i
    · subst hji
      omega
    · rw [hwaits j hji] at hsum
      rw [hbuf j hji]
      omega
  · by_cases hji : j = i
    · exact hji ▸ hi
    · by_cases hqp : q = p
      · subst hqp
        rw [hself, hwaits j hji] at hq
        exact h.waits q j hq
      · rw [hother q hqp] at hq
        exact h.waits q j hq

theorem Sane.goto (hp : p < n) (hcache : t.cache = s.cache)
    (hlast : t.last = s.last) (hpending : t.pending = s.pending)
    (hpc : t.pc = update s.pc p k) (hwaits : ∀ j, k.waits j = (s.pc p).waits j)
    (hneeds : k.needs.Sublist (s.pc p).needs) (hread : ∀ j k', s.pc p ≠ .read j k')
    (hres : k.Resumes) (hquiet : ∀ j ∈ k.needs, k ≠ .insert j → s.pending j = false) :
    Sane n t := by
  refine h.change hp (show 0 < nbuf by decide) (by rw [hcache, update_eq_self]) hpc ?_ (Or.inl rfl)
    (by rw [hwaits 0]) (fun j _ => hwaits j) (fun _ => id) (fun j => Or.inl (by rw [hpending])) ?_
  all_goals rw [hcache, hpending]
  · rw [hlast]
    exact h.faithful
  · exact ⟨fun j hj => h.holds p j (hneeds.subset hj), (h.nodup p).sublist hneeds, hres,
      fun j hj hl => Or.inl ((h.fetched p j hj hl).resolve_right fun ⟨k', e⟩ => hread j k' e),
      hquiet⟩

theorem Sane.bget (hp : p < n) {k : Cont} (hpc : s.pc p = .bget b k)
    (hstep : BgetStep s.cache b i c') : Sane n { s.goto p (.lock i k) with cache := c' } := by
  have hi : i < nbuf := by
    refine (h.faithful.mru i).mp ?_
    cases hstep <;> assumption
  have hf : Faithful c' s.last s.pending := by
    refine h.faithful.bget hstep fun hr => ?_
    have hl := h.lock_of_refcnt hi hr
    by_contra hne
    exact h.faithful.locked i hi (by simpa using hne) hl
  -- a buffer in somebody's hands is not recycled
  have hvalid : (s.cache.buf i).lock ≠ none → (s.cache.buf i).valid = true →
      (c'.buf i).valid = true := by
    intro hl hv
    cases hstep with
    | hit => rwa [Cache.set_self]
    | recycle _ _ hr => exact absurd (h.lock_of_refcnt hi hr) hl
  have hlock : ∀ j, (c'.buf j).lock = (s.cache.buf j).lock := by
    intro j
    by_cases hji : j = i
    · subst hji
      exact hstep.lock
    · rw [hstep.buf_of_ne hji]
  have hok := h.proc hpc
  refine h.change hp hi (Function.eq_update_iff.mpr ⟨rfl, fun j hj => hstep.buf_of_ne hj⟩) rfl hf
    (Or.inl hstep.lock) ?_ (fun j hj => ?_) hvalid (fun j => Or.inl rfl)
    ⟨fun j hj => ?_, hok.nodup, trivial, fun j hj hl => Or.inl ?_, fun j hj _ => hok.quiet j hj nofun⟩
  · simp only [hstep.refcnt, hpc, Pc.waits, Buf.held, hstep.lock, if_pos, Nat.add_zero]
  · simp [Pc.waits, hpc, hj.symm]
  · obtain ⟨hj', hl⟩ := hok.holds j hj
    exact ⟨hj', (hlock j).trans hl⟩
  · have hold : (s.cache.buf j).lock = some p := (hlock j).symm.trans hl
    have hv := (hok.fetched j hj hold).resolve_right nofun
    by_cases hji : j = i
    · subst hji
      refine hvalid (fun e => ?_) hv
      rw [hold] at e
      cases e
    · exact (congrArg Buf.valid (hstep.buf_of_ne hji)).trans hv

theorem Sane.mine (hp : p < n) (hi : i < nbuf)
    (hl : (s.cache.buf i).lock = some p) (hbuf : t.cache.buf = update s.cache.buf i x)
    (hx : x.lock = (s.cache.buf i).lock) (href : x.refcnt = (s.cache.buf i).refcnt)
    (hv : x.valid = true) (hpc : t.pc = update s.pc p k)
    (hf : Faithful t.cache t.last t.pending) (hwaits : ∀ j, k.waits j = (s.pc p).waits j)
    (hneeds : k.needs.Perm (s.pc p).needs ∨ k.needs = []) (hres : k.Resumes)
    (hread : ∀ j k', j ≠ i → s.pc p ≠ .read j k')
    (hpending : ∀ j, j ≠ i → t.pending j = s.pending j)
    (hquiet : ∀ j ∈ k.needs, k ≠ .insert j → t.pending j = false) : Sane n t := by
  have hlock : ∀ j, (t.cache.buf j).lock = (s.cache.buf j).lock := by
    intro j
    rw [hbuf]
    by_cases hji : j = i
    · rw [hji, update_self, hx]
    · rw [update_of_ne hji]
  refine h.change hp hi hbuf hpc hf (Or.inl hx) ?_ (fun j _ => hwaits j) (fun _ _ => hv)
    (fun j => ?_) ⟨fun j hj => ?_, ?_, hres, fun j hj hj' => Or.inl ?_, hquiet⟩
  · rw [href, hwaits, Buf.held, Buf.held, hx]
  · by_cases hji : j = i
    · exact Or.inr (Or.inr (hji ▸ hl))
    · exact Or.inl (hpending j hji)
  · rcases hneeds with hperm | e
    · rw [hlock]
      exact h.holds p j (hperm.mem_iff.mp hj)
    · rw [e] at hj
      cases hj
  · rcases hneeds with hperm | e
    · exact hperm.nodup_iff.mpr (h.nodup p)
    · rw [e]
      exact List.nodup_nil
  · rw [hlock] at hj'
    rw [hbuf]
    by_cases hji : j = i
    · rw [hji, update_self, hv]
    · rw [update_of_ne hji]
      exact (h.fetched p j hj hj').resolve_right fun ⟨k', e⟩ => hread j k' hji e

theorem Sane.root (hi : i < nbuf) (hl : (s.cache.buf i).lock = some p) :
    (s.cache.buf i).dev = rootDev := by
  refine h.faithful.dev i hi ?_
  rw [h.refcnt i hi, Buf.held, hl]
  simp

theorem Sane.lock (hp : p < n) {k : Cont} (hpc : s.pc p = .lock i k)
    (hl : (s.cache.buf i).lock = none) :
    Sane n { s.goto p (.read i k) with
      cache := s.cache.set i { s.cache.buf i with lock := some p } } := by
  have hi : i < nbuf := h.waits p i (by simp [hpc, Pc.waits])
  have hquiet : s.pending i = false := by
    by_contra hne
    exact h.faithful.locked i hi (by simpa using hne) hl
  have hok := h.proc hpc
  refine h.change hp hi rfl rfl ?_ (Or.inr (Or.inl ⟨hl, rfl⟩)) ?_ (fun j hj => ?_)
    (fun hne => absurd hl hne) (fun j => Or.inl rfl)
    ⟨fun j hj => ?_, List.nodup_cons.mpr ⟨fun hmem => ?_, hok.nodup⟩, trivial, fun j hj hl' => ?_,
      fun j hj _ => ?_⟩
  · exact h.faithful.set rfl (fun _ => Iff.rfl) rfl rfl rfl (fun _ _ => rfl) fun hi =>
      { h.faithful.buf hi with locked := fun _ => nofun }
  · simp [hpc, Pc.waits, Buf.held, hl]
  · simp [Pc.waits, hpc, hj.symm]
  · by_cases hji : j = i
    · subst hji
      exact ⟨hi, by simp [Cache.set_self]⟩
    · simp only [Cache.set_of_ne hji]
      exact hok.holds j ((List.mem_cons.mp hj).resolve_left hji)
  · have := (hok.holds i hmem).2
    rw [hl] at this
    cases this
  · by_cases hji : j = i
    · exact Or.inr ⟨k, by rw [hji]⟩
    · simp only [Cache.set_of_ne hji] at hl' ⊢
      exact Or.inl ((hok.fetched j hj hl').resolve_right nofun)
  · rcases List.mem_cons.mp hj with rfl | hj
    · exact hquiet
    · exact hok.quiet j hj nofun

theorem Sane.read (hp : p < n) {k : Cont} (hpc : s.pc p = .read i k) :
    Sane n (if (s.cache.buf i).valid then s.goto p (.got i k)
      else { s.goto p (.got i k) with cache := s.cache.read i }) := by
  have hok := h.proc hpc
  obtain ⟨hi, hl⟩ := hok.holds i List.mem_cons_self
  have hgot : ∀ j ∈ (Pc.got i k).needs, Pc.got i k ≠ .insert j → s.pending j = false :=
    fun j hj _ => hok.quiet j hj nofun
  have hother : ∀ j k', j ≠ i → s.pc p ≠ .read j k' := by
    intro j k' hj e
    rw [hpc] at e
    cases e
    exact hj rfl
  have hwaits : ∀ j, (Pc.got i k).waits j = (s.pc p).waits j := fun j => by rw [hpc]; rfl
  have hneeds : (Pc.got i k).needs.Perm (s.pc p).needs := by rw [hpc]; exact List.Perm.refl _
  split_ifs with hv
  · exact h.mine hp hi hl (update_eq_self i _).symm rfl rfl hv rfl h.faithful hwaits
      (Or.inl hneeds) trivial hother (fun _ _ => rfl) hgot
  · have hclean : (s.cache.buf i).dirty = false := by
      by_contra hd
      exact hv (h.faithful.valid i hi (by simpa using hd))
    refine h.mine hp hi hl rfl rfl rfl rfl rfl ?_ hwaits (Or.inl hneeds) trivial hother
      (fun _ _ => rfl) hgot
    exact h.faithful.set rfl (fun _ => Iff.rfl) rfl rfl rfl (fun _ _ => rfl) fun hi =>
      { h.faithful.buf hi with
        data := fun hd _ _ => (h.faithful.buf hi).clean hd hclean
        valid := fun _ => rfl }

theorem Sane.unlock (hp : p < n) {is : List Nat} (hpc : s.pc p = .brelse (i :: is) k) :
    Sane n { s.goto p (.drop i is k) with
      cache := s.cache.set i { s.cache.buf i with lock := none } } := by
  have hok := h.proc hpc
  obtain ⟨hi, hl⟩ := hok.holds i List.mem_cons_self
  have hpending : s.pending i = false := hok.quiet i List.mem_cons_self nofun
  obtain ⟨hnot, hnodup⟩ := List.nodup_cons.mp hok.nodup
  refine h.change hp hi rfl rfl ?_ (Or.inr (Or.inr ⟨hl, rfl⟩)) ?_ (fun j hj => ?_) (fun _ => id)
    (fun j => Or.inl rfl) ⟨fun j hj => ?_, hnodup, hok.resumes, fun j hj hl' => Or.inl ?_,
      fun j hj _ => hok.quiet j (List.mem_cons_of_mem i hj) nofun⟩
  · exact h.faithful.set rfl (fun _ => Iff.rfl) rfl rfl rfl (fun _ _ => rfl) fun hi =>
      { h.faithful.buf hi with locked := fun hp => nomatch hpending.symm.trans hp }
  · simp [hpc, Pc.waits, Buf.held, hl]
  · simp [Pc.waits, hpc, hj.symm]
  · have hji : j ≠ i := by
      rintro rfl
      exact hnot hj
    simp only [Cache.set_of_ne hji]
    exact hok.holds j (List.mem_cons_of_mem i hj)
  · have hji : j ≠ i := by
      rintro rfl
      simp [Cache.set_self] at hl'
    simp only [Cache.set_of_ne hji] at hl' ⊢
    exact (hok.fetched j hj hl').resolve_right nofun

theorem Sane.drop (hp : p < n) {is : List Nat} (hpc : s.pc p = .drop i is k) :
    Sane n { s.goto p (.brelse is k) with cache := s.cache.drop i } := by
  have hi : i < nbuf := h.waits p i (by simp [hpc, Pc.waits])
  have hpos := h.refcnt_of_waits hp (i := i) (by simp [hpc, Pc.waits])
  -- but for the count, every buffer stays as it is
  have hsame : ∀ j, ((s.cache.drop i).buf j).lock = (s.cache.buf j).lock ∧
      ((s.cache.drop i).buf j).valid = (s.cache.buf j).valid := by
    intro j
    by_cases hji : j = i
    · rw [hji, Cache.drop, Cache.set_self]
      exact ⟨rfl, rfl⟩
    · rw [Cache.drop, Cache.set_of_ne hji]
      exact ⟨rfl, rfl⟩
  have hmru : ∀ j, j ∈ (s.cache.drop i).mru ↔ j ∈ s.cache.mru := by
    intro j
    have hmem : i ∈ s.cache.mru := (h.faithful.mru i).mpr hi
    simp only [Cache.drop]
    split_ifs
    · by_cases hji : j = i
      · simp [hji, hmem]
      · simp [hji, List.mem_erase_of_ne hji]
    · rfl
  have hok := h.proc hpc
  refine h.change hp hi rfl rfl ?_ (Or.inl rfl) ?_ (fun j hj => ?_) (fun _ => id)
    (fun j => Or.inl rfl) ⟨fun j hj => ?_, hok.nodup, hok.resumes, fun j hj hl => Or.inl ?_,
      fun j hj _ => hok.quiet j hj nofun⟩
  · exact h.faithful.set rfl hmru rfl rfl rfl (fun _ _ => rfl) fun hi =>
      { h.faithful.buf hi with dev := fun _ => h.faithful.dev i hi hpos }
  · simp only [hpc, Pc.waits, if_pos, Buf.held]
    omega
  · simp [Pc.waits, hpc, hj.symm]
  · obtain ⟨hj', hl⟩ := hok.holds j hj
    exact ⟨hj', (hsame j).1.trans hl⟩
  · exact (hsame j).2.trans ((hok.fetched j hj ((hsame j).1.symm.trans hl)).resolve_right nofun)

theorem Sane.publish (hp : p < n) (hi : i < nbuf)
    (hl : (s.cache.buf i).lock = some p) {d : Bool} {v : Block}
    (hbuf : t.cache.buf = update s.cache.buf i
      { s.cache.buf i with valid := true, dirty := d, data := v })
    (hmru : t.cache.mru = s.cache.mru)
    (hdisk : t.cache.disk = update s.cache.disk (s.cache.buf i).blockno v ∨
      t.cache.disk = s.cache.disk ∧ d = true)
    (hlast : t.last = update s.last (s.cache.buf i).blockno v)
    (hpending : t.pending = update s.pending i false)
    (hpc : t.pc = update s.pc p k) (hwaits : ∀ j, k.waits j = (s.pc p).waits j)
    (hneeds : k.needs.Perm (s.pc p).needs ∨ k.needs = []) (hres : k.Resumes)
    (hread : ∀ j k', s.pc p ≠ .read j k') (hins : ∀ j, s.pc p ≠ .insert j ∨ k.needs = []) :
    Sane n t := by
  refine h.mine hp hi hl hbuf rfl rfl rfl hpc ?_ hwaits hneeds hres (fun j k' _ => hread j k')
    (fun j hj => by rw [hpending, update_of_ne hj]) fun j hj _ => ?_
  · rw [hlast, hpending]
    exact h.faithful.publish hi (h.root hi hl) hbuf hmru rfl rfl rfl hdisk
  rw [hpending]
  by_cases hji : j = i
  · rw [hji, update_self]
  · rw [update_of_ne hji]
    rcases hneeds with hperm | e
    · refine h.quiet p j (hperm.mem_iff.mp hj) ((hins j).resolve_right fun e => ?_)
      rw [e] at hj
      cases hj
    · rw [e] at hj
      cases hj

theorem Sane.write (hp : p < n) (hi : i < nbuf)
    (hl : (s.cache.buf i).lock = some p) (v : Block) {f : Nat → Block}
    (hwaits : ∀ j, k.waits j = (s.pc p).waits j)
    (hneeds : k.needs.Perm (s.pc p).needs ∨ k.needs = []) (hres : k.Resumes)
    (hread : ∀ j k', s.pc p ≠ .read j k') (hins : ∀ j, s.pc p ≠ .insert j) :
    Sane n { ((s.setData i v).bwrite i).goto p k with published := f } := by
  have hbuf := Function.eq_update_iff.mpr ⟨s.write_self i v, fun j hj => s.write_of_ne v hj⟩
  exact h.publish hp hi hl hbuf rfl (Or.inl (s.write_disk i v)) (s.write_last i v)
    (s.write_pending i v) rfl hwaits hneeds hres hread fun j => Or.inl (hins j)

theorem Sane.got (hp : p < n) {k : Cont} (hpc : s.pc p = .got i k) : Sane n (got s p i k) := by
  have hok := h.proc hpc
  have hread : ∀ j k', s.pc p ≠ .read j k' := by simp [hpc]
  have hins : ∀ j, s.pc p ≠ .insert j := by simp [hpc]
  have hwaits : ∀ j, (s.pc p).waits j = 0 := fun j => by rw [hpc]; rfl
  cases k with
  | user =>
    exact h.goto hp rfl rfl rfl rfl (fun j => (hwaits j).symm) (List.nil_sublist _) hread trivial
      nofun
  | logTo | instLog =>
    refine h.goto hp rfl rfl rfl rfl (fun j => (hwaits j).symm) ?_ hread trivial ?_
    · rw [hpc]
      exact List.Sublist.refl _
    · exact fun j hj _ => hok.quiet j hj nofun
  | logFrom tail toBuf =>
    obtain ⟨hi, hl⟩ := hok.holds toBuf (List.mem_cons_of_mem _ List.mem_cons_self)
    refine h.write hp hi hl _ (fun j => (hwaits j).symm) (Or.inl ?_) ⟨rfl, fun _ => rfl, trivial⟩
      hread hins
    rw [hpc]
    exact List.Perm.refl _
  | head erase =>
    obtain ⟨hi, hl⟩ := hok.holds i List.mem_cons_self
    refine h.write hp hi hl _ (fun j => (hwaits j).symm) (Or.inl ?_) ?_ hread hins
    · rw [hpc]
      exact List.Perm.refl _
    · cases erase <;> exact ⟨rfl, fun _ => rfl, trivial⟩
  | instDst tail lbuf =>
    obtain ⟨hi, hl⟩ := hok.holds i List.mem_cons_self
    refine h.write hp hi hl _ (fun j => (hwaits j).symm) (Or.inl ?_) ⟨rfl, fun _ => rfl, trivial⟩
      hread hins
    rw [hpc]
    exact List.Perm.swap _ _ _

theorem Sane.insert (hp : p < n) (hpc : s.pc p = .insert i) :
    Sane n ((insert s i).goto p .idle) := by
  obtain ⟨hi, hl⟩ := (h.proc hpc).holds i List.mem_cons_self
  have hv : (s.cache.buf i).valid = true := ((h.proc hpc).fetched i hi hl).resolve_right nofun
  refine h.publish hp hi hl ?_ rfl (Or.inr ⟨rfl, rfl⟩) rfl rfl rfl (fun j => by rw [hpc]; rfl)
    (Or.inr rfl) trivial (by simp [hpc]) fun _ => Or.inr rfl
  simp [State.goto, Bio.insert, Cache.set, hv]

theorem Sane.run (hp : p < n) (hstep : RunStep g s p t) : Sane n t := by
  cases hstep with
  | bget hpc hstep => exact h.bget hp hpc hstep
  | lock hpc hl => exact h.lock hp hpc hl
  | read hpc => exact h.read hp hpc
  | got hpc => exact h.got hp hpc
  | resume hpc =>
    have hres := (h.proc hpc).resumes
    refine h.goto hp rfl rfl rfl rfl (fun j => ?_) ?_ (by simp [hpc]) hres.2.2 ?_
    · rw [hpc]
      exact hres.2.1 j
    · rw [hres.1]
      exact List.nil_sublist _
    · rw [hres.1]
      exact nofun
  | unlock hpc => exact h.unlock hp hpc
  | drop hpc => exact h.drop hp hpc
  | insert hpc => exact h.insert hp hpc
  | copy hpc | copied hpc | install hpc | installed hpc | finish hpc =>
    exact h.goto hp rfl rfl rfl rfl (fun j => by rw [hpc]; rfl) (List.nil_sublist _)
      (by simp [hpc]) trivial nofun

theorem Sane.setData (hp : p < n) (hpc : s.pc p = .idle) (hi : i < nbuf)
    (hl : (s.cache.buf i).lock = some p) (data : Block) : Sane n (s.setData i data) := by
  have hv : (s.cache.buf i).valid = true := ((h.proc hpc).fetched i hi hl).resolve_right nofun
  have hpending : (s.setData i data).pending i = true := update_self _ _ _
  refine h.mine hp hi hl rfl rfl rfl hv (update_eq_self p s.pc).symm ?_ (fun _ => rfl)
    (Or.inl (List.Perm.refl _)) (h.resumes p) (by simp [hpc]) (fun j hj => update_of_ne hj _ _)
    (by simp [hpc, Pc.needs])
  refine h.faithful.set rfl (fun _ => Iff.rfl) rfl rfl rfl (fun j hj => update_of_ne hj _ _)
    fun hi => ?_
  rw [hpending]
  exact { h.faithful.buf hi with data := nofun, locked := fun _ e => nomatch hl.symm.trans e }

theorem Sane.call (hp : p < n) (hpc : s.pc p = .idle) (hi : i < nbuf)
    (hl : (s.cache.buf i).lock = some p) (hneeds : k.needs = [i]) (hwaits : ∀ j, k.waits j = 0)
    (hres : k.Resumes) (hquiet : k ≠ .insert i → s.pending i = false) : Sane n (s.goto p k) := by
  have hmem : ∀ {j}, j ∈ k.needs → j = i := fun hj => List.mem_singleton.mp (hneeds ▸ hj)
  refine h.change hp hi (update_eq_self i _).symm rfl h.faithful (Or.inl rfl) ?_ (fun j _ => ?_)
    (fun _ => id) (fun _ => Or.inl rfl) ⟨fun j hj => hmem hj ▸ ⟨hi, hl⟩, ?_, hres, fun j hj hl =>
      Or.inl (((h.proc hpc).fetched j hj hl).resolve_right nofun), fun j hj hne => ?_⟩
  · rw [hwaits, hpc]
    rfl
  · rw [hwaits, hpc]
    rfl
  · rw [hneeds]
    exact List.nodup_singleton i
  · obtain rfl := hmem hj
    exact hquiet hne

/-- **Every action keeps the cache sane.** -/
theorem Sane.step {a : Action} (hstep : ActStep g n s a t) : Sane n t := by
  cases hstep with
  | bread hp hpc =>
    exact h.goto hp rfl rfl rfl rfl (fun j => by rw [hpc]; rfl) (List.nil_sublist _)
      (by simp [hpc]) trivial nofun
  | modify hp hpc hi hl => exact h.setData hp hpc hi hl _
  | @bwrite p i hp hpc hi hl =>
    have hwrite := h.write hp hi hl (s.cache.buf i).data (k := (s.bwrite i).pc p)
      (f := (s.bwrite i).published) (fun _ => rfl) (Or.inl (List.Perm.refl _)) (h.resumes p)
      (by simp [hpc]) (by simp [hpc])
    rwa [State.write_data, State.goto_self] at hwrite
  | logWrite hp hpc hi hl => exact h.call hp hpc hi hl rfl (fun _ => rfl) trivial fun e => (e rfl).elim
  | brelse hp hpc hi hl hpending =>
    exact h.call hp hpc hi hl rfl (fun _ => rfl) ⟨rfl, fun _ => rfl, trivial⟩ fun _ => hpending
  | beginOp | endOp => exact ⟨h.1, h.2, h.3, h.4, h.5, h.6, h.7, h.8⟩
  | commit hp hpc _ _ _ hk =>
    rcases hk with ⟨-, rfl⟩ | ⟨-, rfl⟩ <;>
    exact h.goto hp rfl rfl rfl rfl (fun j => by rw [hpc]; rfl) (List.nil_sublist _)
      (by simp [hpc]) trivial nofun
  | run hp hstep => exact h.run hp hstep

omit h

theorem binit_sane (n : Nat) (disk : Disk) : Sane n (binit disk) := by
  have hnone : ∀ i b, ¬ (binit disk).cache.carries i b := fun i b hc =>
    absurd hc.1 (show 0 ≠ rootDev by decide)
  refine ⟨⟨fun i => by simp [binit], fun i j b hi hj hc _ => ?_, fun i b hi hc => ?_,
    fun i b hi hc => ?_, fun b _ => rfl, ?_, ?_, ?_⟩, fun i hi => ?_, ?_, ?_, ?_, ?_, ?_, ?_⟩
  · exact absurd hc (hnone i b)
  · exact absurd hc (hnone i b)
  · exact absurd hc (hnone i b)
  all_goals simp [binit, Buf.blank, Pc.needs, Pc.waits, Pc.Resumes, Buf.held]

theorem sane {disk : Disk} {as : List Action}
    (h : Transition.run (step g n) (binit disk) as = some s) : Sane n s :=
  run_invariant (fun _ _ _ hs hstep => hs.step (step_inv hstep)) (binit_sane n disk) h

end Xv6.Bio
