import Xv6.Lib.Count
import Xv6.Lib.Lock
import Xv6.Lib.Transition
import Xv6.Mkfs.Layout

/-!
# Dropping the last reference to an inode

Any number of processes hold references to one cached inode without links and drop them with `iput`,
or take more with `idup`. `iput` reads `ip->ref` in one critical section of `icache.lock` and
decrements it in another. A critical section is one step, and so is what `iput` does to the inode
while it holds `ip->lock`.
-/

namespace Xv6.Icache

open Fs Transition
open Function (update update_self update_of_ne update_eq_self)

inductive Pc
  | idle
  /-- `iput`: `acquiresleep(&ip->lock)` -/
  | acquiresleep
  /-- `iput`: `ip->valid && ip->nlink == 0` -/
  | check
  /-- `iput`: `r = ip->ref`, under `icache.lock` -/
  | readRef
  /-- `iput`: truncate and free -/
  | free
  /-- `iput`: `releasesleep(&ip->lock)` -/
  | releasesleep
  /-- `iput`: `ip->ref--`, under `icache.lock` -/
  | drop
  deriving DecidableEq

/-- The inode in its slot of `icache`, the disk, and the processes. `held` counts the references
of a process, without the one it is about to drop. -/
structure State where
  store : Store
  ref : Int
  valid : Bool
  d : Dinode
  lock : Option Nat
  pc : Nat → Pc
  held : Nat → Nat

inductive Action
  /-- call `iput` -/
  | iput (p : Nat)
  /-- call `idup` -/
  | idup (p : Nat)
  /-- the next step of `iput` -/
  | run (p : Nat)

def State.goto (s : State) (p : Nat) (k : Pc) : State := { s with pc := update s.pc p k }

variable (sb : Superblock) (inum n : Nat)

def iput (s : State) (p : Nat) : Option State :=
  match s.pc p with
  | .idle => none
  | .acquiresleep =>
    if s.lock = none then some { s.goto p .check with lock := some p } else none
  | .check => some (s.goto p (if s.valid ∧ s.d.nlink = 0 then .readRef else .releasesleep))
  | .readRef => some (s.goto p (if s.ref = 1 then .free else .releasesleep))
  | .free =>
    match ifree sb inum s.d s.store with
    | .ok (d, store) => some { s.goto p .releasesleep with d := d, store := store, valid := false }
    | .error _ => none
  | .releasesleep => some { s.goto p .drop with lock := none }
  | .drop => some { s.goto p .idle with ref := s.ref - 1 }

def step (s : State) : Action → Option State
  | .iput p =>
    if p < n ∧ s.pc p = .idle ∧ 0 < s.held p then
      some { s.goto p .acquiresleep with held := update s.held p (s.held p - 1) }
    else none
  | .idup p =>
    if p < n ∧ s.pc p = .idle ∧ 0 < s.held p then
      some { s with held := update s.held p (s.held p + 1), ref := s.ref + 1 }
    else none
  | .run p => if p < n then iput sb inum s p else none

open Finset in
/-- The inode has been read in, and process `p` has `held p` references to it. -/
def start (store : Store) (d : Dinode) (held : Nat → Nat) : State where
  store := store
  ref := (∑ p ∈ range n, held p : Nat)
  valid := true
  d := d
  lock := none
  pc := fun _ => .idle
  held := held

/-- The process has a reference whose `iput` has not read `ip->ref` yet. -/
def State.unread (s : State) (q : Nat) : Prop :=
  0 < s.held q ∨ s.pc q = .acquiresleep ∨ s.pc q = .check ∨ s.pc q = .readRef

instance (s : State) (q : Nat) : Decidable (s.unread q) := by
  unfold State.unread
  infer_instance

/-- **An `iput` that reads `ip->ref` sees only its own reference, or another `iput` is still to
read it.** -/
def OtherLeft (s : State) : Action → Prop
  | .run p => s.pc p = .readRef → s.ref = 1 ∨ 0 < s.held p ∨ ∃ q, q < n ∧ q ≠ p ∧ s.unread q
  | _ => True

instance (s : State) (a : Action) : Decidable (OtherLeft n s a) := by
  unfold OtherLeft
  split <;> infer_instance

def Pc.HoldsLock : Pc → Prop
  | .check | .readRef | .free | .releasesleep => True
  | _ => False

def State.refs (s : State) (q : Nat) : Nat := s.held q + if s.pc q = .idle then 0 else 1

structure Alive (s : State) : Prop where
  disk : DiskOk sb s.store.disk
  copy : s.d = dinode sb s.store.disk inum
  valid : s.valid = true
  nlink : s.d.nlink = 0
  /-- somebody will free it -/
  last : ∃ q, q < n ∧ (s.unread q ∨ s.pc q = .free)

structure Inv (s : State) : Prop where
  ref : s.ref = ∑ q ∈ Finset.range n, s.refs q
  lock : Lock.Held s.lock s.pc Pc.HoldsLock
  valid : s.valid = true → (dinode sb s.store.disk inum).type ≠ 0
  /-- an `iput` past its check works on an allocated inode -/
  checked : ∀ p, s.pc p = .readRef ∨ s.pc p = .free → (dinode sb s.store.disk inum).type ≠ 0
  alive : (dinode sb s.store.disk inum).type ≠ 0 → Alive sb inum n s
  freed : (dinode sb s.store.disk inum).type = 0 → (dinode sb s.store.disk inum).size = 0 ∧
    (dinode sb s.store.disk inum).addrs = fun _ => 0

variable {sb inum n} {s t : State} {p : Nat} {k : Pc}

theorem sum_refs (hp : p < n) (hheld : ∀ q, q ≠ p → t.held q = s.held q)
    (hpc : ∀ q, q ≠ p → t.pc q = s.pc q) :
    ∑ q ∈ Finset.range n, t.refs q + s.refs p = ∑ q ∈ Finset.range n, s.refs q + t.refs p := by
  refine sum_range_change hp fun q _ hq => ?_
  rw [State.refs, State.refs, hheld q hq, hpc q hq]

variable (h : Inv sb inum n s)

include h

theorem Inv.change (hp : p < n) (hstore : t.store = s.store)
    (hd : t.d = s.d) (hvalid : t.valid = s.valid) (hheld : ∀ q, q ≠ p → t.held q = s.held q)
    (hpc : t.pc = update s.pc p k) (href : t.ref + s.refs p = s.ref + t.refs p)
    (hlock : Lock.Held t.lock (update s.pc p k) Pc.HoldsLock)
    (hchecked : k = .readRef ∨ k = .free → (dinode sb s.store.disk inum).type ≠ 0)
    (hlast : (dinode sb s.store.disk inum).type ≠ 0 →
      (s.unread p ∨ s.pc p = .free → t.unread p ∨ t.pc p = .free ∨
        ∃ q, q < n ∧ q ≠ p ∧ s.unread q)) : Inv sb inum n t := by
  have hother : ∀ q, q ≠ p → t.pc q = s.pc q := fun q hq => by rw [hpc, update_of_ne hq]
  refine ⟨?_, hpc ▸ hlock, ?_, fun q hq => ?_, fun ht => ?_, ?_⟩
  · have hsum := sum_refs hp hheld hother
    have := h.ref
    omega
  · rw [hvalid, hstore]
    exact h.valid
  · rw [hstore]
    by_cases hqp : q = p
    · rw [hqp, hpc, update_self] at hq
      exact hchecked hq
    · rw [hother q hqp] at hq
      exact h.checked q hq
  · rw [hstore] at ht
    have ha := h.alive ht
    refine ⟨hstore ▸ ha.disk, by rw [hd, hstore, ha.copy], hvalid.trans ha.valid,
      by rw [hd, ha.nlink], ?_⟩
    have hstay : ∀ q, q ≠ p → s.unread q ∨ s.pc q = .free → t.unread q ∨ t.pc q = .free := by
      intro q hqp hq
      rwa [State.unread, hheld q hqp, hother q hqp]
    obtain ⟨q, hq, hlastq⟩ := ha.last
    by_cases hqp : q = p
    · subst hqp
      rcases hlast ht hlastq with hu | hf | ⟨q', hq', hne, hu⟩
      · exact ⟨q, hq, Or.inl hu⟩
      · exact ⟨q, hq, Or.inr hf⟩
      · exact ⟨q', hq', hstay q' hne (Or.inl hu)⟩
    · exact ⟨q, hq, hstay q hqp hlastq⟩
  · rw [hstore]
    exact h.freed

theorem Inv.ifree (hg : Geometry sb) (hi : inum < sb.ninodes) (hp : p < n)
    (hpc : s.pc p = .free) {d : Dinode} (hfree : ifree sb inum s.d s.store = .ok (d, t.store))
    (hvalid : t.valid = false) (hheld : t.held = s.held) (href : t.ref = s.ref)
    (hlock : t.lock = s.lock) (hpc' : t.pc = update s.pc p .releasesleep) : Inv sb inum n t := by
  have htype := h.checked p (Or.inr hpc)
  have ha := h.alive htype
  have hfreed : Freed sb s.store.disk inum t.store.disk := by
    have hwp := wp_ifree (E := fun _ => True) hg (fun _ _ => trivial) ha.disk hi htype
      (Q := fun _ s' => Freed sb s.store.disk inum s'.disk) fun _ _ hf _ => hf
    rw [← ha.copy] at hwp
    exact hwp.ok hfree
  have hself : t.pc p = .releasesleep := by rw [hpc', update_self]
  have hother : ∀ q, q ≠ p → t.pc q = s.pc q := fun q hq => by rw [hpc', update_of_ne hq]
  refine ⟨?_, ?_, fun e => ?_, fun q hq => ?_, fun ht => absurd hfreed.type ht,
    fun _ => hfreed.empty⟩
  · have hsum := sum_refs (s := s) (t := t) hp (fun q _ => by rw [hheld]) hother
    have hrefs : t.refs p = s.refs p := by
      rw [State.refs, State.refs, hheld, hself, hpc, if_neg (by simp), if_neg (by simp)]
    have := h.ref
    omega
  · rw [hlock, hpc']
    exact h.lock.keep p (by rw [hpc]; exact Iff.rfl)
  · rw [hvalid] at e
    cases e
  · -- nobody else is past its check, for lack of the lock
    have hqp : q = p := by
      by_contra hqp
      rw [hother q hqp] at hq
      refine hqp (h.lock.unique ?_ (by rw [hpc]; trivial))
      rcases hq with e | e <;> rw [e] <;> trivial
    rw [hqp, hself] at hq
    simp at hq

theorem Inv.goto (hp : p < n) (hstore : t.store = s.store) (hd : t.d = s.d)
    (hvalid : t.valid = s.valid) (hheld : t.held = s.held)
    (hpc : t.pc = update s.pc p k) (href : t.ref = s.ref)
    (hlock : Lock.Held t.lock (update s.pc p k) Pc.HoldsLock) (hidle : s.pc p ≠ .idle)
    (hk : k ≠ .idle) (hchecked : k = .readRef ∨ k = .free → (dinode sb s.store.disk inum).type ≠ 0)
    (hlast : (dinode sb s.store.disk inum).type ≠ 0 →
      (s.unread p ∨ s.pc p = .free → t.unread p ∨ t.pc p = .free ∨
        ∃ q, q < n ∧ q ≠ p ∧ s.unread q)) : Inv sb inum n t := by
  refine h.change hp hstore hd hvalid (fun q _ => by rw [hheld]) hpc ?_ hlock hchecked hlast
  rw [State.refs, State.refs, hheld, hpc, update_self, if_neg hidle, if_neg hk, href]

theorem iput_inv (hg : Geometry sb) (hi : inum < sb.ninodes) (hp : p < n)
    (hc : OtherLeft n s (.run p)) (ht : iput sb inum s p = some t) : Inv sb inum n t := by
  cases hpc : s.pc p <;> simp only [iput, hpc, reduceCtorEq] at ht
  case acquiresleep =>
    split_ifs at ht with hl
    cases ht
    refine h.goto hp rfl rfl rfl rfl rfl rfl (h.lock.acquire hl p trivial) (by simp [hpc])
      (by simp) (by simp) fun _ _ => Or.inl ?_
    simp [State.unread, State.goto]
  case check =>
    cases ht
    have hkeep : ∀ {k : Pc}, k.HoldsLock → Lock.Held s.lock (update s.pc p k)
        Pc.HoldsLock := fun hk => h.lock.keep p (by rw [hpc]; exact iff_of_true hk trivial)
    split_ifs with hv
    · refine h.goto hp rfl rfl rfl rfl rfl rfl (hkeep trivial) (by simp [hpc]) (by simp)
        (fun _ => h.valid hv.1) fun _ _ => Or.inl ?_
      simp [State.unread, State.goto]
    · -- an allocated inode passes the check
      refine h.goto hp rfl rfl rfl rfl rfl rfl (hkeep trivial) (by simp [hpc]) (by simp)
        (by simp) fun ht => ?_
      exact absurd ⟨(h.alive ht).valid, (h.alive ht).nlink⟩ hv
  case readRef =>
    cases ht
    have hkeep : ∀ {k : Pc}, k.HoldsLock → Lock.Held s.lock (update s.pc p k)
        Pc.HoldsLock := fun hk => h.lock.keep p (by rw [hpc]; exact iff_of_true hk trivial)
    split_ifs with hr
    · refine h.goto hp rfl rfl rfl rfl rfl rfl (hkeep trivial) (by simp [hpc]) (by simp)
        (fun _ => h.checked p (Or.inl hpc)) fun _ _ => Or.inr (Or.inl ?_)
      simp [State.goto]
    · -- another reference will be the last
      refine h.goto hp rfl rfl rfl rfl rfl rfl (hkeep trivial) (by simp [hpc]) (by simp)
        (by simp) fun _ _ => ?_
      rcases (hc hpc).resolve_left hr with hheld | hq
      · exact Or.inl (Or.inl hheld)
      · exact Or.inr (Or.inr hq)
  case free =>
    split at ht
    · next d store hfree =>
      cases ht
      exact h.ifree hg hi hp hpc hfree rfl rfl rfl rfl rfl
    · cases ht
  case releasesleep =>
    cases ht
    refine h.goto hp rfl rfl rfl rfl rfl rfl (h.lock.release p (by rw [hpc]; trivial) id)
      (by simp [hpc]) (by simp) (by simp) fun _ hu => Or.inl (Or.inl ?_)
    simpa [State.unread, State.goto, hpc] using hu
  case drop =>
    cases ht
    refine h.change hp rfl rfl rfl (fun _ _ => rfl) rfl ?_
      (h.lock.keep p (by rw [hpc]; exact Iff.rfl)) (by simp) fun _ hu => Or.inl (Or.inl ?_)
    · simp only [State.refs, State.goto, update_self, hpc, if_pos]
      simp
    · simpa [State.unread, State.goto, hpc] using hu

theorem Inv.step (hg : Geometry sb) (hi : inum < sb.ninodes) {a : Action}
    (hc : OtherLeft n s a) (ht : step sb inum n s a = some t) : Inv sb inum n t := by
  cases a with
  | iput p =>
    simp only [Icache.step] at ht
    split_ifs at ht with hp
    cases ht
    obtain ⟨hp, hidle, hheld⟩ := hp
    refine h.change (k := .acquiresleep) hp rfl rfl rfl (fun q hq => update_of_ne hq _ _)
      rfl ?_ (h.lock.keep p (by rw [hidle]; exact Iff.rfl)) (by simp) fun _ _ => Or.inl ?_
    · simp only [State.refs, State.goto, update_self, hidle, if_pos]
      simp
      omega
    · simp [State.unread, State.goto]
  | idup p =>
    simp only [Icache.step] at ht
    split_ifs at ht with hp
    cases ht
    obtain ⟨hp, hidle, hheld⟩ := hp
    refine h.change (k := .idle) hp rfl rfl rfl (fun q hq => update_of_ne hq _ _)
      ?_ ?_ (h.lock.keep p (by rw [hidle])) (by simp) fun _ _ => Or.inl ?_
    · rw [← hidle, update_eq_self]
    · simp only [State.refs, update_self]
      omega
    · simp [State.unread]
  | run p =>
    simp only [Icache.step] at ht
    split_ifs at ht with hp
    exact iput_inv h hg hi hp hc ht

omit h

theorem start_inv {store : Store} {d : Dinode} {held : Nat → Nat}
    (hok : DiskOk sb store.disk) (hd : d = dinode sb store.disk inum) (ht : d.type ≠ 0)
    (hn : d.nlink = 0) (hp : ∃ p, p < n ∧ 0 < held p) : Inv sb inum n (start n store d held) := by
  have htype : (dinode sb store.disk inum).type ≠ 0 := hd ▸ ht
  obtain ⟨p, hp, hheld⟩ := hp
  refine ⟨?_, fun q => ⟨nofun, False.elim⟩, fun _ => htype, fun q hq => ?_,
    fun _ => ⟨hok, hd, rfl, hn, p, hp, Or.inl (Or.inl hheld)⟩, fun h => absurd h htype⟩
  · simp [start, State.refs]
  · simp [start] at hq

/-- **The last reference frees the inode.** Processes that hold the references to an inode without
links drop them with `iput`. As long as no `iput` reads `ip->ref` when all other references have
been read but not dropped yet, the inode is truncated and free once all are gone. -/
theorem last_reference_frees (hg : Geometry sb) (hi : inum < sb.ninodes) {store : Store}
    {d : Dinode} {held : Nat → Nat} (hok : DiskOk sb store.disk)
    (hd : d = dinode sb store.disk inum) (ht : d.type ≠ 0) (hn : d.nlink = 0)
    (hp : ∃ p, p < n ∧ 0 < held p) {as : List Action}
    (hr : run (step sb inum n) (start n store d held) as = some s)
    (hc : RunMeets (step sb inum n) (OtherLeft n) (start n store d held) as) (href : s.ref = 0) :
    (dinode sb s.store.disk inum).type = 0 ∧ (dinode sb s.store.disk inum).size = 0 ∧
      (dinode sb s.store.disk inum).addrs = fun _ => 0 := by
  have h : Inv sb inum n s :=
    hc.invariant (fun s a t h hc ht => h.step hg hi hc ht) (start_inv hok hd ht hn hp) hr
  have htype : (dinode sb s.store.disk inum).type = 0 := by
    by_contra hne
    -- whoever is to free the inode has a reference
    obtain ⟨q, hq, hlast⟩ := (h.alive hne).last
    have hzero : s.refs q = 0 := by
      have hsum : ∑ q ∈ Finset.range n, s.refs q = 0 := by
        have := h.ref
        omega
      exact Finset.sum_eq_zero_iff.mp hsum q (Finset.mem_range.mpr hq)
    rw [State.refs] at hzero
    rcases hlast with (hu | hu | hu | hu) | hu
    · omega
    all_goals simp [hu] at hzero
  exact ⟨htype, h.freed htype⟩

/-- An inode without links in an image that is empty otherwise. -/
def orphan : Dinode := { Dinode.zero with type := tFile }

def orphanStore : Store where
  disk := setDinode Mkfs.sb (Mkfs.blank Mkfs.nmeta) 1 orphan
  outstanding := 2
  lh := []
  allocs := []

def oneByOne : List Action :=
  .iput 0 :: List.replicate 5 (.run 0) ++ .iput 1 :: List.replicate 6 (.run 1)

/-- Both read `ip->ref` before either drops its reference. -/
def interleaved : List Action :=
  .iput 0 :: List.replicate 4 (.run 0) ++ .iput 1 :: List.replicate 5 (.run 1) ++ [.run 0]

theorem dinode_orphanStore : dinode Mkfs.sb orphanStore.disk 1 = orphan :=
  dinode_setDinode_self _ _

theorem orphanStore_ok : DiskOk Mkfs.sb orphanStore.disk := by
  have hfree : (dinode Mkfs.sb (Mkfs.blank Mkfs.nmeta) 1).type = 0 := by
    rw [Mkfs.dinode_blank (by decide)]
    rfl
  exact Mkfs.diskOk_blank.ialloc Mkfs.geometry (by decide) hfree (by decide)

theorem last_reference_frees_oneByOne :
    ∃ s, run (step Mkfs.sb 1 2) (start 2 orphanStore orphan fun _ => 1) oneByOne = some s ∧
      s.ref = 0 ∧ (dinode Mkfs.sb s.store.disk 1).type = 0 := by
  have hmeets : RunMeets (step Mkfs.sb 1 2) (OtherLeft 2)
      (start 2 orphanStore orphan fun _ => 1) oneByOne := .of_decide (by rfl)
  refine ⟨_, rfl, rfl, ?_⟩
  exact (last_reference_frees Mkfs.geometry (by decide) orphanStore_ok dinode_orphanStore.symm
    (by decide) (by decide) ⟨0, by decide, by decide⟩ rfl hmeets rfl).1

/-- Two processes drop their references at the same time, and the inode stays allocated. -/
theorem both_read_two :
    ∃ s, run (step Mkfs.sb 1 2) (start 2 orphanStore orphan fun _ => 1) interleaved = some s ∧
      DiskOk Mkfs.sb orphanStore.disk ∧ orphan = dinode Mkfs.sb orphanStore.disk 1 ∧
      s.ref = 0 ∧ s.d.nlink = 0 ∧ (dinode Mkfs.sb s.store.disk 1).type ≠ 0 := by
  refine ⟨_, rfl, orphanStore_ok, dinode_orphanStore.symm, rfl, rfl, ?_⟩
  change (dinode Mkfs.sb orphanStore.disk 1).type ≠ 0
  rw [dinode_orphanStore]
  decide

end Xv6.Icache
