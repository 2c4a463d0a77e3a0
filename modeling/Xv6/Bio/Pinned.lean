import Xv6.Bio.Cache
import Mathlib.Data.List.GetD

/-!
# The log pins its blocks

A block that is in the log stays in a dirty buffer until `install_trans` has written it home. No
`log_write` happens during a commit, so what `install_trans` copies from a log block is what the
buffer of the block has. The log area has room for every transaction that gets as far as
`write_log`, because each of its blocks has a buffer of its own and `write_log` needs one more.
-/

namespace Xv6.Bio

open Log Transition
open Function (update update_self update_of_ne update_eq_self)

def Cont.block (g : Geom) (lh : List Nat) : Cont → Nat
  | .user b => b
  | .logTo tail | .instLog tail => g.start + tail + 1
  | .logFrom tail _ | .instDst tail _ => lh.getD tail 0
  | .head _ => g.start

def Cont.commits : Cont → Bool
  | .user _ => false
  | _ => true

def Pc.commits : Pc → Bool
  | .bget _ k | .lock _ k | .read _ k | .got _ k => k.commits
  | .brelse _ k | .drop _ _ k => k.commits
  | .writeLog _ | .install _ | .finish => true
  | .idle | .insert _ => false

def Cont.copied (len : Nat) : Cont → Nat
  | .user _ => 0
  | .logTo tail | .logFrom tail _ => tail
  | .head _ | .instLog _ | .instDst _ _ => len

@[inherit_doc Cont.copied]
def Pc.copied (len : Nat) : Pc → Nat
  | .bget _ k | .lock _ k | .read _ k | .got _ k => k.copied len
  | .brelse _ k | .drop _ _ k => k.copied len
  | .writeLog tail => tail
  | .install _ => len
  | .idle | .insert _ | .finish => 0

def Cont.installed : Cont → Nat
  | .instLog tail | .instDst tail _ => tail
  | _ => 0

@[inherit_doc Cont.installed]
def Pc.installed : Pc → Nat
  | .bget _ k | .lock _ k | .read _ k | .got _ k => k.installed
  | .brelse _ k | .drop _ _ k => k.installed
  | .install tail => tail
  | _ => 0

/-- What a process that calls `bread` knows: how far the loop is, and the block of the buffer in
hand. -/
def Cont.Ok (g : Geom) (s : State) : Cont → Prop
  | .user _ => True
  | .logTo tail => tail < s.lh.length ∧ (0 < tail → s.lh.length < nbuf)
  | .instLog tail => tail < s.lh.length ∧ s.lh.length < nbuf
  | .logFrom tail i | .instDst tail i =>
    tail < s.lh.length ∧ s.lh.length < nbuf ∧ s.cache.carries i (g.start + tail + 1)
  | .head _ => s.lh.length < nbuf

/-- What process `p` knows about its buffers. -/
def Pc.Ok (g : Geom) (s : State) (p : Nat) : Pc → Prop
  | .bget b k => k.Ok g s ∧ b = k.block g s.lh
  | .lock i k | .read i k | .got i k =>
    k.Ok g s ∧ s.cache.carries i (k.block g s.lh) ∧ (k.commits = true → s.lh.length < nbuf)
  | .brelse _ k | .drop _ _ k => k.Ok g s p
  | .insert i => s.inOp p = true ∧ ¬ g.InLog (s.cache.buf i).blockno
  | .writeLog tail =>
    tail ≤ s.lh.length ∧ 0 < s.lh.length ∧ (0 < tail → s.lh.length < nbuf)
  | .install _ => s.lh.length < nbuf
  | .idle | .finish => True

variable {g : Geom} {n : Nat} {s t : State} {p q i b m : Nat} {k : Pc}

def SameBlock (c c' : Cache) (i : Nat) : Prop :=
  (c'.buf i).dev = (c.buf i).dev ∧ (c'.buf i).blockno = (c.buf i).blockno

variable {c : Cache}

theorem SameBlock.carries {c' : Cache} (h : SameBlock c c' i) : c'.carries i b ↔ c.carries i b := by
  rw [Cache.carries, Cache.carries, h.1, h.2]

theorem Cont.Ok.mono {k : Cont} (h : k.Ok g s) (hlh : k.commits = true → t.lh = s.lh)
    (hneeds : ∀ i ∈ k.needs, SameBlock s.cache t.cache i) : k.Ok g t := by
  cases k with
  | user => trivial
  | logTo | instLog | head =>
    simp only [Cont.Ok, hlh rfl]
    exact h
  | logFrom tail i | instDst tail i =>
    simp only [Cont.Ok, hlh rfl]
    exact ⟨h.1, h.2.1, (hneeds i List.mem_cons_self).carries.mpr h.2.2⟩

theorem Cont.block_congr {k : Cont} (hlh : k.commits = true → t.lh = s.lh) :
    k.block g t.lh = k.block g s.lh := by
  cases k with
  | user => rfl
  | logTo | instLog | head | logFrom | instDst => rw [hlh rfl]

theorem Pc.Ok.mono (h : k.Ok g s q) (hlh : k.commits = true → t.lh = s.lh)
    (hop : t.inOp q = s.inOp q) (hneeds : ∀ i ∈ k.needs, SameBlock s.cache t.cache i)
    (hwaits : ∀ i, k.waits i ≠ 0 → SameBlock s.cache t.cache i) (hres : k.Resumes) :
    k.Ok g t q := by
  induction k with
  | idle | finish => trivial
  | bget b k =>
    refine ⟨h.1.mono hlh hneeds, ?_⟩
    rw [Cont.block_congr hlh]
    exact h.2
  | lock i k =>
    refine ⟨h.1.mono hlh hneeds, ?_, fun hk => ?_⟩
    · rw [Cont.block_congr hlh]
      exact (hwaits i (by simp [Pc.waits])).carries.mpr h.2.1
    · rw [hlh hk]
      exact h.2.2 hk
  | read i k | got i k =>
    refine ⟨h.1.mono hlh fun j hj => hneeds j (List.mem_cons_of_mem i hj), ?_, fun hk => ?_⟩
    · rw [Cont.block_congr hlh]
      exact (hneeds i List.mem_cons_self).carries.mpr h.2.1
    · rw [hlh hk]
      exact h.2.2 hk
  | brelse is k ih | drop i is k ih =>
    refine ih h hlh (fun i hi => ?_) (fun i hi => absurd (hres.2.1 i) hi) hres.2.2
    rw [hres.1] at hi
    cases hi
  | insert i =>
    refine ⟨hop.trans h.1, ?_⟩
    rw [(hneeds i List.mem_cons_self).2]
    exact h.2
  | writeLog | install =>
    simp only [Pc.Ok, hlh rfl]
    exact h

/-- Only a process in `commit` has copied anything, and then the transaction has room. -/
theorem Pc.Ok.room (h : k.Ok g s q) (hk : 0 < k.copied s.lh.length) :
    k.commits = true ∧ s.lh.length < nbuf := by
  induction k with
  | idle | finish | insert => cases hk
  | bget b k =>
    cases k with
    | user => cases hk
    | logTo => exact ⟨rfl, h.1.2 hk⟩
    | logFrom | instDst => exact ⟨rfl, h.1.2.1⟩
    | instLog => exact ⟨rfl, h.1.2⟩
    | head => exact ⟨rfl, h.1⟩
  | lock i k | read i k | got i k =>
    cases k with
    | user => cases hk
    | logTo | logFrom | instDst | instLog | head => exact ⟨rfl, h.2.2 rfl⟩
  | brelse is k ih | drop i is k ih => exact ih h hk
  | writeLog => exact ⟨rfl, h.2.2 hk⟩
  | install => exact ⟨rfl, h⟩

theorem Pc.installed_of_commits (h : k.commits = false) : k.installed = 0 := by
  induction k with
  | idle | insert => rfl
  | finish | writeLog | install => cases h
  | bget b k | lock i k | read i k | got i k =>
    cases k with
    | user => rfl
    | logTo | logFrom | instDst | instLog | head => cases h
  | brelse is k ih | drop i is k ih => exact ih h

theorem Pc.copied_of_commits {len : Nat} (h : k.commits = false) : k.copied len = 0 := by
  induction k with
  | idle | insert => rfl
  | finish | writeLog | install => cases h
  | bget b k | lock i k | read i k | got i k =>
    cases k with
    | user => rfl
    | logTo | logFrom | instDst | instLog | head => cases h
  | brelse is k ih | drop i is k ih => exact ih h

/-- The blocks of the log are pinned, the log blocks hold what `write_log` has copied, and
`install_trans` has changed nothing. -/
structure Pinned (g : Geom) (n : Nat) (s : State) : Prop where
  ok : ∀ p, p < n → (s.pc p).Ok g s p
  count : s.outstanding = countBelow n s.inOp
  calm : s.committing = true → s.outstanding = 0
  busy : ∀ p, (s.pc p).commits = true → s.committing = true
  one : ∀ p q, (s.pc p).commits = true → (s.pc q).commits = true → p = q
  nodup : s.lh.Nodup
  logged : ∀ b, b ∈ s.lh ↔ b ∈ s.logged
  outside : ∀ b ∈ s.lh, ¬ g.InLog b
  pin : ∀ m, m < s.lh.length → (∀ p, (s.pc p).installed ≤ m) →
    ∃ i, i < nbuf ∧ s.cache.carries i (s.lh.getD m 0) ∧ (s.cache.buf i).dirty = true
  copied : ∀ p m, p < n → m < s.lh.length → m < (s.pc p).copied s.lh.length →
    s.last (g.start + m + 1) = s.last (s.lh.getD m 0)
  same : s.published = s.last

theorem getD_mem {lh : List Nat} (hm : m < lh.length) : lh.getD m 0 ∈ lh := by
  rw [List.getD_eq_getElem _ _ hm]
  exact List.getElem_mem hm

theorem Sane.refcnt_of_needs (h : Sane n s) (hi : i ∈ (s.pc p).needs) :
    i < nbuf ∧ (s.cache.buf i).refcnt ≠ 0 := by
  obtain ⟨hlt, hl⟩ := h.holds p i hi
  refine ⟨hlt, fun hr => ?_⟩
  rw [h.lock_of_refcnt hlt hr] at hl
  cases hl

/-- What another process knows stays true while buffers in use keep their blocks. -/
theorem Pinned.ok_mono (h : Pinned g n s) (hs : Sane n s) (hq : q < n)
    (hlh : (s.pc q).commits = true → t.lh = s.lh) (hop : t.inOp q = s.inOp q)
    (hbuf : ∀ i, i < nbuf → (s.cache.buf i).refcnt ≠ 0 → SameBlock s.cache t.cache i) :
    (s.pc q).Ok g t q := by
  refine (h.ok q hq).mono hlh hop (fun i hi => ?_) (fun i hi => ?_) (hs.resumes q)
  · obtain ⟨hlt, hr⟩ := hs.refcnt_of_needs hi
    exact hbuf i hlt hr
  · exact hbuf i (hs.waits q i hi) (hs.refcnt_of_waits hq hi)

variable {f : Nat → Bool}

/-- **A step of process `p`** that leaves the header and the counters alone. -/
theorem Pinned.change (h : Pinned g n s) (hs : Sane n s) (hp : p < n) {l o : Nat → Block}
    (ht : t = { s with
      cache := c, pc := update s.pc p k, pending := f, last := l, published := o })
    (hbuf : ∀ i, i < nbuf → (s.cache.buf i).refcnt ≠ 0 → SameBlock s.cache c i)
    (hcommits : k.commits = (s.pc p).commits) (hok : k.Ok g t p)
    (hinst : (s.pc p).installed ≤ k.installed)
    (hpin : ∀ i m, i < nbuf → m < s.lh.length → k.installed ≤ m →
      s.cache.carries i (s.lh.getD m 0) → (s.cache.buf i).dirty = true →
        c.carries i (s.lh.getD m 0) ∧ (c.buf i).dirty = true)
    (hcopied : ∀ q m, q < n → m < s.lh.length →
      m < (update s.pc p k q).copied s.lh.length →
        l (g.start + m + 1) = l (s.lh.getD m 0)) (hsame : o = l) : Pinned g n t := by
  subst ht
  have hself : update s.pc p k p = k := update_self p k s.pc
  have hother : ∀ q, q ≠ p → update s.pc p k q = s.pc q :=
    fun q hq => update_of_ne hq k s.pc
  have hcommits : ∀ q, (update s.pc p k q).commits = (s.pc q).commits := by
    intro q
    by_cases hqp : q = p
    · rw [hqp, hself, hcommits]
    · rw [hother q hqp]
  refine ⟨fun q hq => ?_, h.count, h.calm, fun q hq => ?_, fun q r hq hr => ?_, h.nodup,
    h.logged, h.outside, fun m hm hall => ?_, hcopied, hsame⟩
  · by_cases hqp : q = p
    · subst hqp
      simp only [hself]
      exact hok
    · simp only [hother q hqp]
      exact h.ok_mono hs hq (fun _ => rfl) rfl hbuf
  · exact h.busy q ((hcommits q).symm.trans hq)
  · exact h.one q r ((hcommits q).symm.trans hq) ((hcommits r).symm.trans hr)
  · have hk : k.installed ≤ m := by
      have := hall p
      simp only [hself] at this
      exact this
    obtain ⟨i, hi, hc, hd⟩ := h.pin m hm fun q => by
      by_cases hqp : q = p
      · rw [hqp]
        omega
      · have := hall q
        simp only [hother q hqp] at this
        exact this
    exact ⟨i, hi, hpin i m hi hm hk hc hd⟩

theorem Pinned.keep (h : Pinned g n s) (hs : Sane n s) (hp : p < n)
    (ht : t = { s with cache := c, pc := update s.pc p k, pending := f })
    (hbuf : ∀ i, i < nbuf → (s.cache.buf i).refcnt ≠ 0 ∨ (s.cache.buf i).dirty = true →
      SameBlock s.cache c i)
    (hdirty : ∀ i, i < nbuf → (s.cache.buf i).dirty = true → (c.buf i).dirty = true)
    (hcommits : k.commits = (s.pc p).commits) (hok : k.Ok g t p)
    (hinst : (s.pc p).installed ≤ k.installed)
    (hcopied : k.copied s.lh.length ≤ (s.pc p).copied s.lh.length) : Pinned g n t := by
  refine h.change hs hp (l := s.last) (o := s.published) ht (fun i hi hr => hbuf i hi (Or.inl hr))
    hcommits hok hinst (fun i m hi _ _ hc hd => ?_) (fun q m hq hm hlt => ?_) h.same
  · exact ⟨(hbuf i hi (Or.inr hd)).carries.mpr hc, hdirty i hi hd⟩
  · by_cases hqp : q = p
    · subst hqp
      rw [update_self] at hlt
      exact h.copied q m hq hm (by omega)
    · rw [update_of_ne hqp] at hlt
      exact h.copied q m hq hm hlt

theorem Cache.set_sameBlock (c : Cache) (i : Nat) {x : Buf} (hdev : x.dev = (c.buf i).dev)
    (hblock : x.blockno = (c.buf i).blockno) (hdirty : x.dirty = (c.buf i).dirty) (j : Nat) :
    SameBlock c (c.set i x) j ∧ ((c.set i x).buf j).dirty = (c.buf j).dirty := by
  by_cases hji : j = i
  · rw [hji, SameBlock, Cache.set_self]
    exact ⟨⟨hdev, hblock⟩, hdirty⟩
  · rw [SameBlock, Cache.set_of_ne hji]
    exact ⟨⟨rfl, rfl⟩, rfl⟩

theorem Pinned.touch (h : Pinned g n s) (hs : Sane n s) (hp : p < n) (ht : t = { s with cache := c, pc := update s.pc p k, pending := f })
    (hsame : ∀ j, SameBlock s.cache c j ∧ (c.buf j).dirty = (s.cache.buf j).dirty)
    (hcommits : k.commits = (s.pc p).commits) (hinst : k.installed = (s.pc p).installed)
    (hcopied : k.copied s.lh.length = (s.pc p).copied s.lh.length) (hres : k.Resumes)
    (hok : k.Ok g s p) : Pinned g n t := by
  refine h.keep hs hp ht (fun j _ _ => (hsame j).1) (fun j _ hd => (hsame j).2.trans hd) hcommits ?_
    hinst.ge hcopied.le
  subst ht
  exact hok.mono (fun _ => rfl) rfl (fun j _ => (hsame j).1) (fun j _ => (hsame j).1) hres

theorem Pinned.no_commit (h : Pinned g n s) (hp : p < n) (hop : s.inOp p = true) (q : Nat) :
    (s.pc q).commits = false := by
  by_contra hq
  have hzero := h.calm (h.busy q (by simpa using hq))
  rw [h.count, countBelow_eq_zero_iff] at hzero
  rw [hzero p hp] at hop
  cases hop

theorem Pinned.no_commit_of_not (h : Pinned g n s) (hc : s.committing = false) (q : Nat) :
    (s.pc q).commits = false := by
  by_contra hq
  rw [h.busy q (by simpa using hq)] at hc
  cases hc

theorem Sane.data_of_needs (h : Sane n s) (hi : i ∈ (s.pc p).needs)
    (hread : ∀ k, s.pc p ≠ .read i k) (hins : s.pc p ≠ .insert i) :
    (s.cache.buf i).data = s.last (s.cache.buf i).blockno := by
  obtain ⟨hlt, hl⟩ := h.holds p i hi
  refine h.faithful.data i _ hlt ⟨h.root hlt hl, rfl⟩ ?_ (h.quiet p i hi hins)
  exact (h.fetched p i hlt hl).resolve_right fun ⟨k, e⟩ => hread k e

theorem inLog_of_lt {len : Nat} (hg : logSize ≤ g.size) (hm : m < len) (hlen : len < nbuf) :
    g.InLog (g.start + m + 1) := by
  have : nbuf = logSize := by decide
  exact ⟨by omega, by omega⟩

theorem Pinned.write (h : Pinned g n s) (hs : Sane n s) (hp : p < n) (v : Block)
    {f : Nat → Block} (hcommits : k.commits = (s.pc p).commits)
    (hok : k.Ok g { ((s.setData i v).bwrite i).goto p k with published := f } p)
    (hinst : (s.pc p).installed ≤ k.installed)
    (hpin : ∀ m, m < s.lh.length → k.installed ≤ m → s.lh.getD m 0 ≠ (s.cache.buf i).blockno)
    (hcopied : ∀ q m, q < n → m < s.lh.length →
      m < (update s.pc p k q).copied s.lh.length →
        update s.last (s.cache.buf i).blockno v (g.start + m + 1) =
          update s.last (s.cache.buf i).blockno v (s.lh.getD m 0))
    (hsame : f = update s.last (s.cache.buf i).blockno v) :
    Pinned g n { ((s.setData i v).bwrite i).goto p k with published := f } := by
  have hblock : ∀ j, SameBlock s.cache ((s.setData i v).bwrite i).cache j := by
    intro j
    by_cases hji : j = i
    · rw [hji, SameBlock, s.write_self]
      exact ⟨rfl, rfl⟩
    · rw [SameBlock, s.write_of_ne v hji]
      exact ⟨rfl, rfl⟩
  rw [← s.write_last] at hcopied hsame
  refine h.change hs hp rfl (fun j _ _ => hblock j) hcommits hok hinst
    (fun j m hj hm hk hc hd => ⟨(hblock j).carries.mpr hc, ?_⟩) hcopied hsame
  have hji : j ≠ i := by
    rintro rfl
    exact hpin m hm hk hc.2.symm
  exact (congrArg Buf.dirty (s.write_of_ne v hji)).trans hd

theorem Pinned.writeLog (h : Pinned g n s) (hs : Sane n s) (hp : p < n)
    (hmine : (s.pc p).commits = true) (hcommits : k.commits = true)
    (hin : g.InLog (s.cache.buf i).blockno) (v : Block)
    (hok : k.Ok g (((s.setData i v).bwrite i).goto p k) p)
    (hinst : (s.pc p).installed ≤ k.installed)
    (hcopied : ∀ m, m < s.lh.length → m < k.copied s.lh.length →
      update s.last (s.cache.buf i).blockno v (g.start + m + 1) =
        s.last (s.lh.getD m 0)) : Pinned g n (((s.setData i v).bwrite i).goto p k) := by
  have hne : ∀ m, m < s.lh.length → s.lh.getD m 0 ≠ (s.cache.buf i).blockno := by
    intro m hm e
    exact h.outside _ (getD_mem hm) (e ▸ hin)
  refine h.write hs hp v (hcommits.trans hmine.symm) hok hinst (fun m hm _ => hne m hm)
    (fun q m hq hm hlt => ?_) ?_
  · have hqp : q = p := by
      by_contra hqp
      rw [update_of_ne hqp] at hlt
      exact hqp (h.one q p ((h.ok q hq).room (by omega)).1 hmine)
    rw [hqp, update_self] at hlt
    rw [hcopied m hm hlt, update_of_ne (hne m hm)]
  · rw [← h.same]
    exact s.write_published i v

/-- While a transaction is not installed, its blocks take up buffers. -/
theorem Pinned.length_lt (h : Pinned g n s) (hc : c.carries i b) (hi : i < nbuf)
    (hb : b ∉ s.lh) (hpin : ∀ m, m < s.lh.length →
      ∃ i, i < nbuf ∧ c.carries i (s.lh.getD m 0)) : s.lh.length < nbuf := by
  have hsub : Insert.insert b s.lh.toFinset ⊆ (Finset.range nbuf).image fun i => (c.buf i).blockno := by
    intro x hx
    rw [Finset.mem_image]
    rcases Finset.mem_insert.mp hx with rfl | hx
    · exact ⟨i, Finset.mem_range.mpr hi, hc.2⟩
    · obtain ⟨m, hm, rfl⟩ := List.mem_iff_getElem.mp (List.mem_toFinset.mp hx)
      obtain ⟨j, hj, hcj⟩ := hpin m hm
      refine ⟨j, Finset.mem_range.mpr hj, ?_⟩
      rw [← List.getD_eq_getElem _ 0 hm]
      exact hcj.2
  have hcard := (Finset.card_le_card hsub).trans Finset.card_image_le
  rw [Finset.card_insert_of_notMem (by simpa using hb), List.toFinset_card_of_nodup h.nodup,
    Finset.card_range] at hcard
  exact hcard

/-- `bget` keeps the block of a dirty buffer and of a buffer in use. -/
theorem BgetStep.sameBlock {c' : Cache} {j : Nat} (h : BgetStep c b i c')
    (hj : (c.buf j).refcnt ≠ 0 ∨ (c.buf j).dirty = true) :
    SameBlock c c' j ∧ ((c.buf j).dirty = true → (c'.buf j).dirty = true) ∧
      (c'.buf j).data = (c.buf j).data := by
  by_cases hji : j = i
  · subst hji
    cases h with
    | hit =>
      rw [SameBlock, Cache.set_self]
      exact ⟨⟨rfl, rfl⟩, id, rfl⟩
    | recycle _ _ href hclean =>
      rcases hj with hr | hd
      · exact absurd href hr
      · rw [hclean] at hd
        cases hd
  · rw [SameBlock, h.buf_of_ne hji]
    exact ⟨⟨rfl, rfl⟩, id, rfl⟩

theorem Pinned.installed_le (h : Pinned g n s) (hmine : (s.pc p).commits = true)
    (hm : (s.pc p).installed ≤ m) : (s.pc q).installed ≤ m := by
  by_cases hqp : q = p
  · rwa [hqp]
  · have hq : (s.pc q).commits = false := by
      by_contra hq
      exact hqp (h.one q p (by simpa using hq) hmine)
    rw [Pc.installed_of_commits hq]
    exact Nat.zero_le m

theorem Pinned.bget (hg : logSize ≤ g.size) (h : Pinned g n s) (hs : Sane n s) (hp : p < n)
    {k : Cont} (hpc : s.pc p = .bget b k) (hstep : BgetStep s.cache b i c) :
    Pinned g n { s.goto p (.lock i k) with cache := c } := by
  have hok := h.ok p hp
  rw [hpc] at hok
  obtain ⟨hk, hb⟩ := hok
  have hbuf : ∀ j, j < nbuf → (s.cache.buf j).refcnt ≠ 0 ∨ (s.cache.buf j).dirty = true →
      SameBlock s.cache c j := fun j _ hj => (hstep.sameBlock hj).1
  refine h.keep hs hp rfl hbuf (fun j _ hd => (hstep.sameBlock (Or.inr hd)).2.1 hd)
    (by rw [hpc]; rfl) ⟨hk.mono (fun _ => rfl) fun j hj => ?_, hb ▸ hstep.carries, fun hc => ?_⟩
    (by rw [hpc]; rfl) (by rw [hpc]; rfl)
  · obtain ⟨hlt, hr⟩ := hs.refcnt_of_needs (p := p) (by rw [hpc]; exact hj)
    exact hbuf j hlt (Or.inl hr)
  · cases k with
    | user => cases hc
    | logFrom | instDst => exact hk.2.1
    | instLog => exact hk.2
    | head => exact hk
    | logTo tail =>
      rcases Nat.eq_zero_or_pos tail with rfl | hpos
      · -- the first block of the log is not in the transaction, and gets a buffer
        have hmine : (s.pc p).commits = true := by
          rw [hpc]
          rfl
        have hin : g.InLog (g.start + 0 + 1) := inLog_of_lt hg Nat.zero_lt_one (by decide)
        have hcarries : c.carries i (g.start + 0 + 1) := by
          have := hstep.carries
          rwa [hb] at this
        refine h.length_lt hcarries ?_ (fun hmem => h.outside _ hmem hin) fun m hm => ?_
        · refine (hs.faithful.mru i).mp ?_
          cases hstep <;> assumption
        · obtain ⟨j, hj, hcj, hd⟩ := h.pin m hm fun q => by
            refine h.installed_le hmine ?_
            rw [hpc]
            exact Nat.zero_le m
          exact ⟨j, hj, (hbuf j hj (Or.inr hd)).carries.mpr hcj⟩
      · exact hk.2 hpos

theorem Pinned.got (hg : logSize ≤ g.size) (h : Pinned g n s) (hs : Sane n s) (hp : p < n)
    {k : Cont} (hpc : s.pc p = .got i k) : Pinned g n (got s p i k) := by
  have hok := h.ok p hp
  rw [hpc] at hok
  obtain ⟨hk, hc, hroom⟩ := hok
  have hneeds : ∀ j ∈ i :: k.needs, j < nbuf ∧
      (s.cache.buf j).data = s.last (s.cache.buf j).blockno := by
    intro j hj
    have hj : j ∈ (s.pc p).needs := by
      rw [hpc]
      exact hj
    exact ⟨(hs.holds p j hj).1, hs.data_of_needs hj (by simp [hpc]) (by simp [hpc])⟩
  cases k with
  | user b =>
    exact h.touch hs hp rfl (fun _ => ⟨⟨rfl, rfl⟩, rfl⟩) (by rw [hpc]; rfl) (by rw [hpc]; rfl)
      (by rw [hpc]; rfl) trivial trivial
  | logTo tail | instLog tail =>
    exact h.touch hs hp rfl (fun _ => ⟨⟨rfl, rfl⟩, rfl⟩) (by rw [hpc]; rfl) (by rw [hpc]; rfl)
      (by rw [hpc]; rfl) trivial ⟨⟨hk.1, hroom rfl, hc⟩, rfl⟩
  | logFrom tail toBuf =>
    obtain ⟨htail, hlen, hto⟩ := hk
    have hdata : (s.cache.buf i).data = s.last (s.lh.getD tail 0) := by
      rw [(hneeds i List.mem_cons_self).2, hc.2]
      rfl
    refine h.writeLog hs hp (by rw [hpc]; rfl) rfl ?_ _
      ⟨htail, Nat.zero_lt_of_lt htail, fun _ => hlen⟩ (by rw [hpc]; rfl) fun m hm hlt => ?_
    · rw [hto.2]
      exact inLog_of_lt hg htail hlen
    · rw [hto.2, hdata]
      rcases Nat.lt_succ_iff_lt_or_eq.mp hlt with hlt | rfl
      · rw [update_of_ne (by omega)]
        exact h.copied p m hp hm (by rw [hpc]; exact hlt)
      · rw [update_self]
  | head erase =>
    have hpos : 0 < logSize := by decide
    refine h.writeLog hs hp (by rw [hpc]; rfl) (by cases erase <;> rfl) ?_ _ ?_
      (by rw [hpc]; cases erase <;> exact Nat.le_refl 0) fun m hm hlt => ?_
    · rw [hc.2]
      exact ⟨Nat.le_refl _, Nat.lt_add_of_pos_right (by omega)⟩
    · cases erase
      · exact hk
      · trivial
    · have hne : g.start + m + 1 ≠ g.start := by omega
      rw [hc.2, Cont.block, update_of_ne hne]
      exact h.copied p m hp hm (by rw [hpc]; exact hm)
  | instDst tail lbuf =>
    obtain ⟨htail, hlen, hlog⟩ := hk
    -- the log block has the bytes that the block has: nothing changes
    have hdata : (s.cache.buf lbuf).data = s.last (s.lh.getD tail 0) := by
      rw [(hneeds lbuf (List.mem_cons_of_mem i List.mem_cons_self)).2, hlog.2]
      exact h.copied p tail hp htail (by rw [hpc]; exact htail)
    have hlast : update s.last (s.cache.buf i).blockno (s.cache.buf lbuf).data =
        s.last := by
      rw [hdata, hc.2]
      exact update_eq_self _ _
    refine h.write hs hp _ (by rw [hpc]; rfl) hlen (by rw [hpc]; exact Nat.le_succ tail)
      (fun m hm hk e => ?_) (fun q m hq hm hlt => ?_) (h.same.trans hlast.symm)
    · rw [hc.2, List.getD_eq_getElem _ _ hm] at e
      rw [Cont.block, List.getD_eq_getElem _ _ htail, h.nodup.getElem_inj_iff] at e
      rw [e] at hk
      exact Nat.not_succ_le_self tail hk
    · rw [hlast]
      refine h.copied p m hp hm ?_
      rw [hpc]
      exact hm

theorem Pinned.insert (h : Pinned g n s) (hs : Sane n s) (hp : p < n)
    (hpc : s.pc p = .insert i) : Pinned g n ((insert s i).goto p .idle) := by
  have hok := h.ok p hp
  rw [hpc] at hok
  obtain ⟨hop, hout⟩ := hok
  obtain ⟨hi, hl⟩ := hs.holds p i (by rw [hpc]; exact List.mem_cons_self)
  -- nobody commits while a process is in an operation
  have hfree := h.no_commit (p := p) hp hop
  have hcommits : ∀ q, (((Bio.insert s i).goto p .idle).pc q).commits = false := by
    intro q
    by_cases hqp : q = p
    · rw [hqp, State.goto_pc_self]
      rfl
    · rw [State.goto_pc_of_ne _ _ hqp]
      exact hfree q
  have hmem : ∀ b, b ∈ (Bio.insert s i).lh ↔ b ∈ s.lh ∨ b = (s.cache.buf i).blockno := by
    intro b
    simp only [Bio.insert]
    split_ifs with hin
    · exact ⟨Or.inl, fun e => e.elim id fun e => e ▸ hin⟩
    · simp
  have hdirty : ∀ j, (s.cache.buf j).dirty = true →
      (((Bio.insert s i).cache).buf j).dirty = true := by
    intro j hd
    by_cases hji : j = i
    · subst hji
      simp only [Bio.insert, Cache.set_self]
    · simp only [Bio.insert, Cache.set_of_ne hji]
      exact hd
  have hsame : ∀ j, SameBlock s.cache (Bio.insert s i).cache j := by
    intro j
    by_cases hji : j = i
    · subst hji
      simp only [Bio.insert, SameBlock, Cache.set_self, and_self]
    · simp only [Bio.insert, SameBlock, Cache.set_of_ne hji, and_self]
  refine ⟨fun q hq => ?_, h.count, h.calm, fun q hq => ?_, fun q _ hq => ?_, ?_, fun b => ?_,
    fun b hb => ?_, fun m hm _ => ?_, fun q m _ _ hlt => ?_, ?_⟩
  · by_cases hqp : q = p
    · subst hqp
      simp only [State.goto, update_self]
      trivial
    · simp only [State.goto, update_of_ne hqp]
      exact h.ok_mono hs hq (fun hc => absurd hc (by simp [hfree q])) rfl fun j _ _ => hsame j
  · exact absurd hq (by simp [hcommits q])
  · exact absurd hq (by simp [hcommits q])
  · simp only [State.goto, Bio.insert]
    split_ifs with hin
    · exact h.nodup
    · exact List.nodup_append.mpr ⟨h.nodup, List.nodup_singleton _, fun x hx y hy e =>
        hin (List.mem_singleton.mp hy ▸ e ▸ hx)⟩
  · refine (hmem b).trans ?_
    simp only [State.goto, Bio.insert, List.mem_append, List.mem_singleton, h.logged b]
  · rcases (hmem b).mp hb with hb | rfl
    · exact h.outside b hb
    · exact hout
  · -- an old entry has its buffer, and a new one has this buffer
    have hentry : (Bio.insert s i).lh.getD m 0 = (s.cache.buf i).blockno ∨
        m < s.lh.length ∧ (Bio.insert s i).lh.getD m 0 = s.lh.getD m 0 := by
      simp only [State.goto, Bio.insert] at hm ⊢
      split_ifs at hm ⊢ with hin
      · exact Or.inr ⟨hm, rfl⟩
      · rw [List.length_append, List.length_singleton] at hm
        rcases Nat.lt_succ_iff_lt_or_eq.mp hm with hlt | rfl
        · exact Or.inr ⟨hlt, List.getD_append _ _ _ _ hlt⟩
        · exact Or.inl (by simp)
    rcases hentry with e | ⟨hlt, e⟩
    · refine ⟨i, hi, ?_, ?_⟩
      · refine (hsame i).carries.mpr ⟨hs.root hi hl, ?_⟩
        exact e.symm
      · simp only [State.goto, Bio.insert, Cache.set_self]
    · obtain ⟨j, hj, hc, hd⟩ := h.pin m hlt fun q => by
        rw [Pc.installed_of_commits (hfree q)]
        exact Nat.zero_le m
      refine ⟨j, hj, (hsame j).carries.mpr ?_, hdirty j hd⟩
      exact e.symm ▸ hc
  · rw [Pc.copied_of_commits (hcommits q)] at hlt
    exact absurd hlt (Nat.not_lt_zero m)
  · simp only [State.goto, Bio.insert, State.publish, h.same]

/-- `begin_op`, `end_op` and the end of `commit`: the counters change, and process `p` stops or
starts to commit while nobody else does. -/
theorem Pinned.counters (h : Pinned g n s) (hs : Sane n s) {o : Nat} {op : Nat → Bool} {c : Bool}
    (hop : ∀ q, q ≠ p → op q = s.inOp q) (hfree : ∀ q, q ≠ p → (s.pc q).commits = false)
    (hok : k.Ok g { s.goto p k with outstanding := o, inOp := op, committing := c } p)
    (hcount : o = countBelow n op) (hcalm : c = true → o = 0) (hbusy : k.commits = true → c = true)
    (hcopied : k.copied s.lh.length = 0) (hinst : (s.pc p).installed = 0) :
    Pinned g n { s.goto p k with outstanding := o, inOp := op, committing := c } := by
  have hother : ∀ q, q ≠ p → update s.pc p k q = s.pc q :=
    fun q hq => update_of_ne hq k s.pc
  have hmine : ∀ q, (update s.pc p k q).commits = true → q = p ∧ k.commits = true := by
    intro q hq
    by_cases hqp : q = p
    · rw [hqp, update_self] at hq
      exact ⟨hqp, hq⟩
    · rw [hother q hqp, hfree q hqp] at hq
      cases hq
  refine ⟨fun q hq => ?_, hcount, hcalm, fun q hq => hbusy (hmine q hq).2,
    fun q r hq hr => (hmine q hq).1.trans (hmine r hr).1.symm, h.nodup, h.logged, h.outside,
    fun m hm _ => ?_, fun q m _ _ hlt => ?_, h.same⟩
  · by_cases hqp : q = p
    · subst hqp
      simp only [State.goto, update_self]
      exact hok
    · simp only [State.goto, hother q hqp]
      exact h.ok_mono hs hq (fun _ => rfl) (hop q hqp) fun _ _ _ => ⟨rfl, rfl⟩
  · refine h.pin m hm fun q => ?_
    by_cases hqp : q = p
    · rw [hqp, hinst]
      exact Nat.zero_le m
    · rw [Pc.installed_of_commits (hfree q hqp)]
      exact Nat.zero_le m
  · have hzero : (update s.pc p k q).copied s.lh.length = 0 := by
      by_cases hqp : q = p
      · rw [hqp, update_self, hcopied]
      · rw [hother q hqp, Pc.copied_of_commits (hfree q hqp)]
    exact absurd (hzero ▸ hlt) (Nat.not_lt_zero m)

theorem Pinned.empty (h : Pinned g n s) (hs : Sane n s) (hmine : (s.pc p).commits = true)
    (hcommits : k.commits = true) (hok : k.Ok g { s.goto p k with lh := [], logged := [] } p) :
    Pinned g n { s.goto p k with lh := [], logged := [] } := by
  have hc : ∀ q, ((s.goto p k).pc q).commits = (s.pc q).commits := by
    intro q
    by_cases hqp : q = p
    · rw [hqp, State.goto_pc_self, hcommits, hmine]
    · rw [State.goto_pc_of_ne _ _ hqp]
  refine ⟨fun q hq => ?_, h.count, h.calm, fun q hq => h.busy q ((hc q).symm.trans hq),
    fun q r hq hr => h.one q r ((hc q).symm.trans hq) ((hc r).symm.trans hr), List.nodup_nil,
    fun b => Iff.rfl, nofun, nofun, nofun, h.same⟩
  by_cases hqp : q = p
  · subst hqp
    simp only [State.goto_pc_self]
    exact hok
  · simp only [State.goto_pc_of_ne _ _ hqp]
    refine h.ok_mono hs hq (fun hcq => ?_) rfl fun _ _ _ => ⟨rfl, rfl⟩
    exact absurd (h.one q p hcq hmine) hqp

theorem Pinned.run (hg : logSize ≤ g.size) (h : Pinned g n s) (hs : Sane n s) (hp : p < n)
    (hstep : RunStep g s p t) : Pinned g n t := by
  have hok := h.ok p hp
  have hres := hs.resumes p
  cases hstep with
  | bget hpc hstep => exact h.bget hg hs hp hpc hstep
  | lock hpc hl =>
    rw [hpc] at hok
    exact h.touch hs hp rfl (Cache.set_sameBlock _ _ rfl rfl rfl) (by rw [hpc]; rfl)
      (by rw [hpc]; rfl) (by rw [hpc]; rfl) trivial hok
  | read hpc =>
    rw [hpc] at hok
    split_ifs
    · exact h.touch hs hp rfl (fun _ => ⟨⟨rfl, rfl⟩, rfl⟩) (by rw [hpc]; rfl) (by rw [hpc]; rfl)
        (by rw [hpc]; rfl) trivial hok
    · exact h.touch hs hp rfl (Cache.set_sameBlock _ _ rfl rfl rfl) (by rw [hpc]; rfl)
        (by rw [hpc]; rfl) (by rw [hpc]; rfl) trivial hok
  | got hpc => exact h.got hg hs hp hpc
  | resume hpc =>
    rw [hpc] at hok hres
    exact h.touch hs hp rfl (fun _ => ⟨⟨rfl, rfl⟩, rfl⟩) (by rw [hpc]; rfl) (by rw [hpc]; rfl)
      (by rw [hpc]; rfl) hres.2.2 hok
  | unlock hpc | drop hpc =>
    rw [hpc] at hok hres
    exact h.touch hs hp rfl (Cache.set_sameBlock _ _ rfl rfl rfl) (by rw [hpc]; rfl)
      (by rw [hpc]; rfl) (by rw [hpc]; rfl) hres hok
  | insert hpc => exact h.insert hs hp hpc
  | @copy tail hpc hlt =>
    rw [hpc] at hok
    exact h.touch hs hp rfl (fun _ => ⟨⟨rfl, rfl⟩, rfl⟩) (by rw [hpc]; rfl) (by rw [hpc]; rfl)
      (by rw [hpc]; rfl) trivial ⟨⟨hlt, hok.2.2⟩, rfl⟩
  | @copied tail hpc hlt =>
    rw [hpc] at hok
    obtain ⟨hle, hpos, hroom⟩ := hok
    refine h.touch hs hp rfl (fun _ => ⟨⟨rfl, rfl⟩, rfl⟩) (by rw [hpc]; rfl) (by rw [hpc]; rfl) ?_
      trivial ⟨hroom (by omega), rfl⟩
    rw [hpc]
    simp only [Pc.copied, Cont.copied]
    omega
  | @install tail hpc hlt =>
    rw [hpc] at hok
    exact h.touch hs hp rfl (fun _ => ⟨⟨rfl, rfl⟩, rfl⟩) (by rw [hpc]; rfl) (by rw [hpc]; rfl)
      (by rw [hpc]; rfl) trivial ⟨⟨hlt, hok⟩, rfl⟩
  | installed hpc hlt =>
    exact h.empty hs (by rw [hpc]; rfl) rfl ⟨show 0 < nbuf by decide, rfl⟩
  | finish hpc =>
    have hmine : (s.pc p).commits = true := by
      rw [hpc]
      rfl
    refine h.counters hs (fun _ _ => rfl) (fun q hqp => ?_) trivial h.count nofun nofun rfl
      (by rw [hpc]; rfl)
    by_contra hq
    exact hqp (h.one q p (by simpa using hq) hmine)

/-- A process calls `bwrite` itself only for blocks that the log has nothing to do with. -/
def Apart (g : Geom) (s : State) : Action → Prop
  | .bwrite _ i => ¬ g.InLog (s.cache.buf i).blockno ∧ (s.cache.buf i).blockno ∉ s.lh
  | _ => True

instance (g : Geom) (s : State) (a : Action) : Decidable (Apart g s a) := by
  cases a <;> unfold Apart <;> infer_instance

theorem Pinned.bwrite (hg : logSize ≤ g.size) (h : Pinned g n s) (hs : Sane n s) (hp : p < n)
    (hpc : s.pc p = .idle) (hout : ¬ g.InLog (s.cache.buf i).blockno)
    (hmem : (s.cache.buf i).blockno ∉ s.lh) : Pinned g n (s.bwrite i) := by
  have hne : ∀ m, m < s.lh.length → s.lh.getD m 0 ≠ (s.cache.buf i).blockno :=
    fun m hm e => hmem (e ▸ getD_mem hm)
  have hwrite := h.write hs hp (s.cache.buf i).data (k := (s.bwrite i).pc p)
    (f := (s.bwrite i).published) rfl ?_ (Nat.le_refl _) (fun m hm _ => hne m hm) ?_ ?_
  · rwa [State.write_data, State.goto_self] at hwrite
  · change (s.pc p).Ok g _ p
    rw [hpc]
    trivial
  · intro q m hq hm hlt
    change m < (update s.pc p (s.pc p) q).copied _ at hlt
    rw [update_eq_self] at hlt
    have hin := inLog_of_lt hg hm ((h.ok q hq).room (by omega)).2
    have hlog : g.start + m + 1 ≠ (s.cache.buf i).blockno := fun e => hout (e ▸ hin)
    rw [update_of_ne (hne m hm), update_of_ne hlog]
    exact h.copied q m hq hm hlt
  · rw [← h.same]
    rfl

/-- **Every action keeps the invariant.** -/
theorem Pinned.step (hg : logSize ≤ g.size) (h : Pinned g n s) (hs : Sane n s) {a : Action}
    (ha : Apart g s a) (hstep : ActStep g n s a t) : Pinned g n t := by
  cases hstep with
  | bread hp hpc =>
    exact h.touch hs hp rfl (fun _ => ⟨⟨rfl, rfl⟩, rfl⟩) (by rw [hpc]; rfl) (by rw [hpc]; rfl)
      (by rw [hpc]; rfl) trivial ⟨trivial, rfl⟩
  | @modify p i data hp =>
    refine h.touch hs hp (k := s.pc p) (c := (s.setData i data).cache)
      (f := (s.setData i data).pending) ?_ (Cache.set_sameBlock _ _ rfl rfl rfl) rfl rfl rfl
      (hs.resumes p) (h.ok p hp)
    rw [update_eq_self]
    rfl
  | bwrite hp hpc => exact h.bwrite hg hs hp hpc ha.1 ha.2
  | logWrite hp hpc _ _ hop hout =>
    exact h.touch hs hp rfl (fun _ => ⟨⟨rfl, rfl⟩, rfl⟩) (by rw [hpc]; rfl) (by rw [hpc]; rfl)
      (by rw [hpc]; rfl) trivial ⟨hop, hout⟩
  | brelse hp hpc =>
    exact h.touch hs hp rfl (fun _ => ⟨⟨rfl, rfl⟩, rfl⟩) (by rw [hpc]; rfl) (by rw [hpc]; rfl)
      (by rw [hpc]; rfl) ⟨rfl, fun _ => rfl, trivial⟩ trivial
  | @beginOp p hp hpc hop hc =>
    have hcount : s.outstanding + 1 = countBelow n (update s.inOp p true) := by
      rw [h.count, countBelow_update_true hp hop]
    have hnew := h.counters hs (p := p) (k := .idle) (c := s.committing)
      (fun q hq => update_of_ne hq _ _) (fun q _ => h.no_commit_of_not hc q) trivial hcount
      (fun hc' => by rw [hc] at hc'; cases hc') nofun rfl (by rw [hpc]; rfl)
    rwa [← hpc, State.goto_self] at hnew
  | @endOp p hp hpc hop hc =>
    have hcount : s.outstanding - 1 = countBelow n (update s.inOp p false) := by
      rw [h.count, countBelow_update_false hp hop]
    have hnew := h.counters hs (p := p) (k := .idle) (c := s.committing)
      (fun q hq => update_of_ne hq _ _) (fun q _ => h.no_commit_of_not hc q) trivial hcount
      (fun hc' => by rw [hc] at hc'; cases hc') nofun rfl (by rw [hpc]; rfl)
    rwa [← hpc, State.goto_self] at hnew
  | @commit p k hp hpc hop hc hlast hk =>
    have hcount : s.outstanding - 1 = countBelow n (update s.inOp p false) := by
      rw [h.count, countBelow_update_false hp hop]
    have hinst : (s.pc p).installed = 0 := by
      rw [hpc]
      rfl
    rcases hk with ⟨hpos, rfl⟩ | ⟨-, rfl⟩
    · exact h.counters hs (fun q hq => update_of_ne hq _ _)
        (fun q _ => h.no_commit_of_not hc q) ⟨Nat.zero_le _, hpos, nofun⟩ hcount (fun _ => hlast)
        (fun _ => rfl) rfl hinst
    · exact h.counters hs (fun q hq => update_of_ne hq _ _)
        (fun q _ => h.no_commit_of_not hc q) trivial hcount (fun _ => hlast) (fun _ => rfl) rfl hinst
  | run hp hstep => exact h.run hg hs hp hstep

theorem binit_pinned (g : Geom) (n : Nat) (disk : Disk) : Pinned g n (binit disk) := by
  refine ⟨fun _ _ => trivial, ?_, nofun, nofun, nofun, List.nodup_nil, fun _ => Iff.rfl, nofun,
    nofun, nofun, rfl⟩
  exact (countBelow_eq_zero_iff.mpr fun _ _ => rfl).symm

/-- The invariant holds in every state of every run in which `bwrite` keeps apart from the log. -/
theorem pinned (hg : logSize ≤ g.size) {disk : Disk} {as : List Action}
    (ha : RunMeets (step g n) (Apart g) (binit disk) as)
    (h : Transition.run (step g n) (binit disk) as = some s) : Pinned g n s := by
  have hboth : Sane n s ∧ Pinned g n s := by
    refine ha.invariant (I := fun s => Sane n s ∧ Pinned g n s) (fun s a t hs ha hstep => ?_)
      ⟨binit_sane n disk, binit_pinned g n disk⟩ h
    exact ⟨hs.1.step (step_inv hstep), hs.2.step hg hs.1 ha (step_inv hstep)⟩
  exact hboth.2

/-- The `install_trans` in progress has written block `b` home. -/
def State.Installed (s : State) (b : Nat) : Prop := ∃ p, b ∈ s.lh.take (s.pc p).installed

theorem Pinned.buffer (h : Pinned g n s) (hb : b ∈ s.lh) (hinst : ¬ s.Installed b) :
    ∃ i, i < nbuf ∧ s.cache.carries i b ∧ (s.cache.buf i).dirty = true ∧
      ∀ b' j c, s.cache.bget b' = some (j, c) → c.carries i b ∧ (c.buf i).dirty = true ∧
        (c.buf i).data = (s.cache.buf i).data := by
  obtain ⟨m, hm, rfl⟩ := List.mem_iff_getElem.mp hb
  have hle : ∀ p, (s.pc p).installed ≤ m := by
    intro p
    by_contra hlt
    exact hinst ⟨p, List.mem_take_iff_getElem.mpr ⟨m, by omega, rfl⟩⟩
  obtain ⟨i, hi, hc, hd⟩ := h.pin m hm hle
  rw [List.getD_eq_getElem _ _ hm] at hc
  refine ⟨i, hi, hc, hd, fun b' j c hget => ?_⟩
  obtain ⟨hsame, hdirty, hdata⟩ := (bget_inv hget).sameBlock (Or.inr hd)
  exact ⟨hsame.carries.mpr hc, hdirty hd, hdata⟩

/-- `write_log` writes the bytes last published for a logged block to its log block. -/
theorem Pinned.copies (h : Pinned g n s) (hs : Sane n s) (hp : p < n) {tail toBuf : Nat}
    (hpc : s.pc p = .got i (.logFrom tail toBuf)) :
    (Bio.got s p i (.logFrom tail toBuf)).cache.disk (g.start + tail + 1) =
      s.published (s.lh.getD tail 0) := by
  have hok := h.ok p hp
  rw [hpc] at hok
  obtain ⟨⟨-, -, hto⟩, hc, -⟩ := hok
  have hdata := hs.data_of_needs (p := p) (i := i) (by rw [hpc]; exact List.mem_cons_self)
    (by simp [hpc]) (by simp [hpc])
  have hdisk : (Bio.got s p i (.logFrom tail toBuf)).cache.disk (g.start + tail + 1) =
      (s.cache.buf i).data := by
    have hat := congrFun (s.write_disk toBuf (s.cache.buf i).data) (g.start + tail + 1)
    rwa [hto.2, update_self] at hat
  rw [hdisk, hdata, hc.2, h.same]
  rfl

/-- **The log and its blocks**: the header lists every block passed to `log_write` once, each of
them has a dirty buffer that `bget` does not recycle until `install_trans` has written it home, and
`write_log` copies what was last published. -/
theorem logged_pinned (hg : logSize ≤ g.size) {disk : Disk} {as : List Action}
    (hno : ∀ a ∈ as, ∀ p i, a ≠ .bwrite p i)
    (h : Transition.run (step g n) (binit disk) as = some s) :
    s.lh.Nodup ∧ (∀ b, b ∈ s.lh ↔ b ∈ s.logged) ∧
      (∀ b ∈ s.lh, ¬ s.Installed b →
        ∃ i, i < nbuf ∧ s.cache.carries i b ∧ (s.cache.buf i).dirty = true ∧
          ∀ b' j c, s.cache.bget b' = some (j, c) → c.carries i b ∧ (c.buf i).dirty = true ∧
            (c.buf i).data = (s.cache.buf i).data) ∧
      ∀ p i tail toBuf t, s.pc p = .got i (.logFrom tail toBuf) → step g n s (.run p) = some t →
        tail < s.lh.length ∧ t.cache.disk (g.start + tail + 1) = s.published (s.lh.getD tail 0) := by
  have hs := sane h
  have hp : Pinned g n s := by
    refine pinned hg (RunMeets.of_mem (fun a ha s => ?_) _) h
    cases a with
    | bwrite p i => exact absurd rfl (hno _ ha p i)
    | bread | modify | logWrite | brelse | beginOp | endOp | run => trivial
  refine ⟨hp.nodup, hp.logged, fun b hb hinst => hp.buffer hb hinst, ?_⟩
  intro p i tail toBuf t hpc hstep
  simp only [step] at hstep
  split_ifs at hstep with hlt
  rw [run, hpc, Option.some.injEq] at hstep
  have hok := hp.ok p hlt
  rw [hpc] at hok
  rw [← hstep]
  exact ⟨hok.1.1, hp.copies hs hlt hpc⟩

/-- Process 0 logs a change of block 100 and commits; its `write_log` has the buffer of the block. -/
def commitRun : List Action :=
  [.beginOp 0, .bread 0 100] ++ .replicate 4 (.run 0) ++
    [.modify 0 0 fun _ => 1, .logWrite 0 0, .run 0, .brelse 0 0] ++ .replicate 3 (.run 0) ++
    [.endOp 0] ++ .replicate 8 (.run 0)

theorem logged_pinned_commit : ∃ s, Transition.run (step ⟨2, 30⟩ 1) (binit fun _ _ => 0)
    commitRun = some s ∧ s.pc 0 = .got 0 (.logFrom 0 1) ∧ s.lh.Nodup ∧
      ∀ b, b ∈ s.lh ↔ b ∈ s.logged := by
  have hres : ((Transition.run (step ⟨2, 30⟩ 1) (binit fun _ _ => 0) commitRun).map
      fun s => decide (s.pc 0 = .got 0 (.logFrom 0 1))) = some true := by decide +kernel
  obtain ⟨s, hs, hpc⟩ := Option.map_eq_some_iff.mp hres
  have hpin := logged_pinned (g := ⟨2, 30⟩) (by decide) (by simp [commitRun]) hs
  exact ⟨s, hs, of_decide_eq_true hpc, hpin.1, hpin.2.1⟩

/-- **The cache is transparent**: a block has one buffer, and while `bwrite` keeps apart from the
log, `bread` returns the bytes last published for the block. -/
theorem bread_published (hg : logSize ≤ g.size) {disk : Disk} {as : List Action}
    (h : Transition.run (step g n) (binit disk) as = some s) :
    (∀ i j b, i < nbuf → j < nbuf → s.cache.carries i b → s.cache.carries j b → i = j) ∧
      (RunMeets (step g n) (Apart g) (binit disk) as → ∀ p i b, p < n →
        s.pc p = .got i (.user b) →
          s.cache.carries i b ∧ (s.cache.buf i).data = s.published b) := by
  have hs := sane h
  refine ⟨hs.faithful.uniq, fun ha p i b hp hpc => ?_⟩
  have hpin := pinned hg ha h
  have hok := hpin.ok p hp
  rw [hpc] at hok
  refine ⟨hok.2.1, ?_⟩
  rw [hs.data_of_needs (p := p) (i := i) (by rw [hpc]; exact List.mem_cons_self) (by simp [hpc])
    (by simp [hpc]), hok.2.1.2, hpin.same]
  rfl

def rereadRun : List Action :=
  commitRun ++ .replicate 37 (.run 0) ++ [.bread 0 100] ++ .replicate 3 (.run 0)

theorem bread_published_reread : ∃ s, Transition.run (step ⟨2, 30⟩ 1) (binit fun _ _ => 0)
    rereadRun = some s ∧ s.pc 0 = .got 0 (.user 100) ∧
      (s.cache.buf 0).data = s.published 100 := by
  have hres : ((Transition.run (step ⟨2, 30⟩ 1) (binit fun _ _ => 0) rereadRun).map fun s =>
      decide (s.pc 0 = .got 0 (.user 100))) = some true := by decide +kernel
  obtain ⟨s, hs, hpc⟩ := Option.map_eq_some_iff.mp hres
  have hpc := of_decide_eq_true hpc
  have ha : RunMeets (step ⟨2, 30⟩ 1) (Apart ⟨2, 30⟩) (binit fun _ _ => 0) rereadRun :=
    RunMeets.of_decide (by decide +kernel)
  exact ⟨s, hs, hpc, ((bread_published (by decide) hs).2 ha 0 0 100 (by decide) hpc).2⟩

/-- Process 0 commits a change of block 100, and process 1 changes the block with `bwrite` between
`write_head` and `install_trans`. -/
def overtakenRun : List Action :=
  commitRun ++ .replicate 14 (.run 0) ++ [.bread 1 100] ++ .replicate 4 (.run 1) ++
    [.modify 1 0 fun _ => 2, .bwrite 1 0, .brelse 1 0] ++ .replicate 3 (.run 1) ++
    .replicate 14 (.run 0) ++ [.bread 1 100] ++ .replicate 3 (.run 1)

/-- `install_trans` copies the log block over the newer bytes. -/
theorem install_overtakes : ∃ s, Transition.run (step ⟨2, 30⟩ 2) (binit fun _ _ => 0)
    overtakenRun = some s ∧ s.pc 1 = .got 0 (.user 100) ∧ (s.cache.buf 0).data 0 = 1 ∧
      s.published 100 0 = 2 := by
  have hres : ((Transition.run (step ⟨2, 30⟩ 2) (binit fun _ _ => 0) overtakenRun).map fun s =>
      decide (s.pc 1 = .got 0 (.user 100) ∧ (s.cache.buf 0).data 0 = 1 ∧ s.published 100 0 = 2)) =
      some true := by decide +kernel
  obtain ⟨s, hs, hall⟩ := Option.map_eq_some_iff.mp hres
  exact ⟨s, hs, of_decide_eq_true hall⟩

end Xv6.Bio
