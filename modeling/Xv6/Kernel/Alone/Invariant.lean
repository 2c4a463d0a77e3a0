import Mathlib.Data.Multiset.Count
import Xv6.Kernel.Alone.Rules

/-!
# References and locks of a process that runs alone

While a process runs a system call, reference counts are exact, and the locks that are held are
those the call has taken. The references to an inode are the open files, the current directories,
and the variables of the running call, which are listed in a multiset.

A state in which everything a path can lead to has links or another reference is `Calm`: looking up
paths in it leaves the disk as it is.
-/

namespace Xv6.Kernel

open Fs Hoare Program
open Function (update_self update_of_ne)

def Proc.inCwd (pr : Proc) (k : Nat) : Bool := pr.cwd = some k && !pr.dropped

namespace Tables

/-- The number of processes whose current directory is in slot `k`. -/
def cwdCount (c : Tables) (k : Nat) : Nat := countBelow nproc fun q => (c.proc q).inCwd k

def refs (c : Tables) (k : Nat) : Nat := c.fileCount k + c.cwdCount k

variable {c c' : Tables} {k f q : Nat}

theorem refs_congr (hf : c'.ftable = c.ftable) (hp : c'.proc = c.proc) (k : Nat) :
    c'.refs k = c.refs k := by
  rw [refs, fileCount, cwdCount, hf, hp]
  rfl

theorem refs_pos_of_file (hf : f < nfile) (hk : (c.ftable f).names k = true) : 0 < c.refs k :=
  Nat.add_pos_left (countBelow_pos_iff.mpr ⟨f, hf, hk⟩) _

theorem refs_pos_of_cwd (hq : q < nproc) (hk : (c.proc q).inCwd k = true) : 0 < c.refs k :=
  Nat.add_pos_right _ (countBelow_pos_iff.mpr ⟨q, hq, hk⟩)

end Tables

/-- If the inode is a directory, its entries name inodes in the range of the inode table. -/
def Node.Ranged (sb : Superblock) (n : Node) : Prop :=
  n.type = tDir → ∀ j, j < entryCount n.data → (entryAt n.data j).inum < sb.ninodes

namespace Alone

/-- An open file has an inode that is allocated, and not a directory if the file is writable. -/
structure FileOk (sb : Superblock) (s : Machine) (f : Nat) : Prop where
  lt : f < nfile
  ip : (s.tables.ftable f).ip ≠ none
  type : (s.get sb (s.tables.ftable f).slot).type ≠ 0
  dir : (s.tables.ftable f).writable = true → (s.get sb (s.tables.ftable f).slot).type ≠ tDir

/-- The invariant while process `p` runs: `X` lists the references in its variables, and `L` the
inodes it has locked. -/
structure Inv (sb : Superblock) (p : Nat) (X : Multiset Nat) (L : Finset Nat) (s : Machine) :
    Prop where
  settled : Settled sb s
  root : rootIno < sb.ninodes
  range : ∀ k, 0 < (s.slot k).ref → s.inum k < sb.ninodes
  ref : ∀ k, (s.slot k).ref = s.tables.refs k + X.count k
  lock : ∀ k, (s.slot k).lock = if k ∈ L then some p else none
  locked : ∀ k ∈ L, 0 < (s.slot k).ref ∧ (s.slot k).valid = true
  files : ∀ f, (s.tables.ftable f).type = .inode → FileOk sb s f
  procs : ∀ q, (s.tables.proc q).cwd ≠ none → q < nproc
  ranged : ∀ i, (s.node sb i).Ranged sb

/-- The reference is in a variable, or an open file or a process has it. -/
def Keeps (X : Multiset Nat) (s : Machine) (k : Nat) : Prop := k ∈ X ∨ 0 < s.tables.refs k

/-- Inode `i` has links, or is held by somebody else than a variable that is not in `X`. -/
def Anchored (sb : Superblock) (X : Multiset Nat) (s : Machine) (i : Nat) : Prop :=
  (s.node sb i).nlink ≠ 0 ∨ ∃ k, Keeps X s k ∧ s.inum k = i

/-- No inode that a path can lead to will be freed when a reference to it is dropped. -/
structure Calm (sb : Superblock) (X : Multiset Nat) (s : Machine) : Prop where
  root : Anchored sb X s rootIno
  entries : ∀ i, (s.node sb i).type = tDir → ∀ j, j < entryCount (s.node sb i).data →
    (entryAt (s.node sb i).data j).inum ≠ 0 →
    Anchored sb X s (entryAt (s.node sb i).data j).inum

/-- Files, processes, pipes and file locks stay, and slots that are held keep their inodes. -/
structure Frame (X : Multiset Nat) (s s' : Machine) : Prop where
  ftable : s'.tables.ftable = s.tables.ftable
  proc : s'.tables.proc = s.tables.proc
  pipe : s'.tables.pipe = s.tables.pipe
  flock : ∀ k, (s'.slot k).flock = (s.slot k).flock
  inum : ∀ k, Keeps X s k → s'.inum k = s.inum k

/-- The change of the state by functions that look up paths: inodes without links may be freed if
they are not held. If `C`, the disk stays as it is. -/
structure Walk (sb : Superblock) (C : Prop) (X : Multiset Nat) (s s' : Machine) : Prop
    extends Frame X s s' where
  node : ∀ i, s'.node sb i = s.node sb i ∨ (s.node sb i).nlink = 0 ∧ s'.node sb i = Node.free
  held : ∀ k, Keeps X s k → s'.node sb (s.inum k) = s.node sb (s.inum k)
  disk : C → s'.store.disk = s.store.disk

variable {sb : Superblock} {C : Prop} {p k l i : Nat} {X Y : Multiset Nat} {L M : Finset Nat}
  {s s' s'' : Machine} {sl : Slot}

theorem Keeps.mono (h : Keeps X s k) (hXY : ∀ k ∈ X, k ∈ Y) : Keeps Y s k := h.imp_left (hXY k)

theorem keeps_self (k : Nat) (X : Multiset Nat) (s : Machine) : Keeps (k ::ₘ X) s k :=
  Or.inl (Multiset.mem_cons_self k X)

theorem Anchored.mono (h : Anchored sb X s i) (hXY : ∀ k ∈ X, k ∈ Y) : Anchored sb Y s i :=
  h.imp_right fun ⟨k, hk, hi⟩ => ⟨k, hk.mono hXY, hi⟩

theorem node_eq_of_disk (hdisk : s'.store.disk = s.store.disk) : s'.node sb = s.node sb := by
  funext i
  rw [Machine.node, hdisk, Machine.node]

namespace Frame

variable (h : Frame X s s')

include h in
theorem keeps_iff : Keeps X s' k ↔ Keeps X s k := by
  rw [Keeps, Keeps, Tables.refs_congr h.ftable h.proc]

include h in
theorem trans (h' : Frame X s' s'') : Frame X s s'' where
  ftable := h'.ftable.trans h.ftable
  proc := h'.proc.trans h.proc
  pipe := h'.pipe.trans h.pipe
  flock k := (h'.flock k).trans (h.flock k)
  inum k hk := (h'.inum k (h.keeps_iff.mpr hk)).trans (h.inum k hk)

include h in
theorem mono (hYX : ∀ k ∈ Y, k ∈ X) : Frame Y s s' :=
  ⟨h.ftable, h.proc, h.pipe, h.flock, fun k hk => h.inum k (hk.mono hYX)⟩

include h in
theorem walk (hdisk : s'.store.disk = s.store.disk) : Walk sb C X s s' := by
  have hnode : s'.node sb = s.node sb := node_eq_of_disk hdisk
  exact ⟨h, fun i => Or.inl (by rw [hnode]), fun k _ => by rw [hnode], fun _ => hdisk⟩

end Frame

theorem frame_of_tables (h : s'.tables = s.tables) : Frame X s s' := by
  refine ⟨by rw [h], by rw [h], by rw [h], fun k => ?_, fun k _ => ?_⟩
  · rw [Machine.slot, h, Machine.slot]
  · rw [Machine.inum, h, Machine.inum]

namespace Walk

theorem refl (s : Machine) : Walk sb C X s s := (frame_of_tables rfl).walk rfl

variable (h : Walk sb C X s s')

include h in
theorem keeps_iff : Keeps X s' k ↔ Keeps X s k := h.toFrame.keeps_iff

include h in
theorem trans (h' : Walk sb C X s' s'') : Walk sb C X s s'' where
  toFrame := h.toFrame.trans h'.toFrame
  node i := by
    rcases h.node i with h₁ | ⟨hn, h₁⟩ <;> rcases h'.node i with h₂ | ⟨hn', h₂⟩
    · exact Or.inl (h₂.trans h₁)
    · exact Or.inr ⟨h₁ ▸ hn', h₂⟩
    · exact Or.inr ⟨hn, h₂.trans h₁⟩
    · exact Or.inr ⟨hn, h₂⟩
  held k hk := by
    have h₂ := h'.held k (h.keeps_iff.mpr hk)
    rw [h.inum k hk] at h₂
    exact h₂.trans (h.held k hk)
  disk hc := (h'.disk hc).trans (h.disk hc)

include h in
theorem mono (hYX : ∀ k ∈ Y, k ∈ X) : Walk sb C Y s s' where
  toFrame := h.toFrame.mono hYX
  node := h.node
  held k hk := h.held k (hk.mono hYX)
  disk := h.disk

include h in
theorem get (hk : Keeps X s k) : s'.get sb k = s.get sb k := by
  rw [Machine.get, h.inum k hk, h.held k hk, Machine.get]

include h in
theorem node_eq (hi : (s'.node sb i).type ≠ 0) : s'.node sb i = s.node sb i := by
  rcases h.node i with h₁ | ⟨-, h₁⟩
  · exact h₁
  · rw [h₁] at hi
    exact absurd rfl hi

include h in
theorem anchored_iff (hc : C) : Anchored sb X s' i ↔ Anchored sb X s i := by
  rw [Anchored, Anchored, node_eq_of_disk (h.disk hc)]
  refine or_congr Iff.rfl (exists_congr fun k => ?_)
  rw [h.keeps_iff]
  exact and_congr_right fun hk => by rw [h.inum k hk]

include h in
theorem anchored (hc : C) (ha : Anchored sb X s i) : Anchored sb X s' i := (h.anchored_iff hc).mpr ha

/-- The slot of a reference that the walk keeps has the same inode, anchored as before. -/
theorem drop (h : Walk sb C (k ::ₘ X) s s') : Walk sb C X s s' ∧ s'.inum k = s.inum k ∧
    ((C → Anchored sb X s (s.inum k)) → C → Anchored sb X s' (s'.inum k)) := by
  have hw : Walk sb C X s s' := h.mono fun _ => Multiset.mem_cons_of_mem
  have hinum : s'.inum k = s.inum k := h.inum k (keeps_self k X s)
  refine ⟨hw, hinum, fun ha hc => ?_⟩
  rw [hinum]
  exact hw.anchored hc (ha hc)

include h in
theorem calm_of (hc : C) (hcalm : Calm sb X s) : Calm sb X s' := by
  have hnode : s'.node sb = s.node sb := by
    funext i
    rw [Machine.node, h.disk hc, Machine.node]
  refine ⟨h.anchored hc hcalm.root, fun i hi j hj hne => ?_⟩
  rw [hnode] at hi hj hne ⊢
  exact h.anchored hc (hcalm.entries i hi j hj hne)

end Walk

namespace Inv

variable (h : Inv sb p X L s)

include h in
theorem ref_pos (hk : Keeps X s k) : 0 < (s.slot k).ref := by
  rw [h.ref k]
  rcases hk with hk | hk
  · have := Multiset.count_pos.mpr hk
    omega
  · omega

include h in
theorem keeps_of_pos (hk : 0 < (s.slot k).ref) : Keeps X s k := by
  rw [h.ref k] at hk
  rcases Nat.eq_zero_or_pos (X.count k) with h₀ | h₀
  · exact Or.inr (by omega)
  · exact Or.inl (Multiset.count_pos.mp h₀)

include h in
theorem unique (hk : 0 < (s.slot k).ref) (hl : 0 < (s.slot l).ref) (hkl : s.inum k = s.inum l) :
    k = l := h.settled.unique k l hk hl hkl

include h in
theorem held (hk : k ∈ L) : s.Held p k := by
  refine ⟨(h.locked k hk).1, (h.locked k hk).2, ?_⟩
  rw [h.lock k, if_pos hk]

include h in
theorem lock_eq_none : (s.slot k).lock = none ↔ k ∉ L := by
  rw [h.lock k]
  split <;> simp_all

include h in
theorem lock_ne_none : (s.slot k).lock ≠ none ↔ k ∈ L := by
  rw [ne_eq, h.lock_eq_none, not_not]

include h in
theorem refs_file_pos {f : Nat} (hf : (s.tables.ftable f).type = .inode) :
    0 < s.tables.refs (s.tables.ftable f).slot := by
  have hff := h.files f hf
  refine Tables.refs_pos_of_file hff.lt ?_
  cases hip : (s.tables.ftable f).ip with
  | none => exact absurd hip hff.ip
  | some k => simp [File.names, hf, File.slot, hip]

include h in
theorem isDir (hk : k ∈ L) (hdir : (s.get sb k).type = tDir) : IsDir sb s k :=
  ⟨h.settled, (h.locked k hk).1, (h.locked k hk).2, hdir⟩

end Inv

variable (htab : s'.tables = s.tables.setSlot k sl)

include htab

theorem slot_self : s'.slot k = sl := by
  rw [Machine.slot, htab]
  exact update_self _ _ _

theorem slot_of_ne (hl : l ≠ k) : s'.slot l = s.slot l := by
  rw [Machine.slot, htab]
  exact update_of_ne hl _ _

theorem inum_of_ne (hl : l ≠ k) : s'.inum l = s.inum l := congrArg Slot.inum (slot_of_ne htab hl)

theorem inum_eq (hinum : sl.inum = s.inum k) (l : Nat) : s'.inum l = s.inum l := by
  by_cases hl : l = k
  · subst hl
    exact (congrArg Slot.inum (slot_self htab)).trans hinum
  · exact inum_of_ne htab hl

theorem flock_eq (hflock : sl.flock = (s.slot k).flock) (l : Nat) :
    (s'.slot l).flock = (s.slot l).flock := by
  by_cases hl : l = k
  · rw [hl, slot_self htab, hflock]
  · rw [slot_of_ne htab hl]

theorem refs_eq (l : Nat) : s'.tables.refs l = s.tables.refs l := by
  rw [htab]
  rfl

omit htab

theorem FileOk.congr {f : Nat} (h : FileOk sb s f) (hf : s'.tables.ftable f = s.tables.ftable f)
    (hget : s'.get sb (s.tables.ftable f).slot = s.get sb (s.tables.ftable f).slot) :
    FileOk sb s' f :=
  ⟨h.lt, hf ▸ h.ip, by rw [hf, hget]; exact h.type, by rw [hf, hget]; exact h.dir⟩

theorem Inv.put (h : Inv sb p X L s) (hs : Settled sb s')
    (htab : s'.tables = s.tables.setSlot k sl) (hrange : 0 < sl.ref → sl.inum < sb.ninodes)
    (href : sl.ref = s.tables.refs k + Y.count k) (hother : ∀ l, l ≠ k → Y.count l = X.count l)
    (hlock : sl.lock = if k ∈ M then some p else none) (hM : ∀ l, l ≠ k → (l ∈ M ↔ l ∈ L))
    (hlocked : k ∈ M → 0 < sl.ref ∧ sl.valid = true)
    (hget : ∀ l, 0 < s.tables.refs l → s'.get sb l = s.get sb l)
    (hranged : ∀ i, (s'.node sb i).Ranged sb) : Inv sb p Y M s' := by
  have hself := slot_self htab
  refine ⟨hs, h.root, fun l hl => ?_, fun l => ?_, fun l => ?_, fun l hl => ?_, fun f hf => ?_,
    by rw [htab]; exact h.procs, hranged⟩
  · by_cases hlk : l = k
    · subst hlk
      rw [hself] at hl
      exact (congrArg Slot.inum hself).trans_lt (hrange hl)
    · rw [slot_of_ne htab hlk] at hl
      rw [inum_of_ne htab hlk]
      exact h.range l hl
  · rw [refs_eq htab]
    by_cases hlk : l = k
    · rw [hlk, hself, href]
    · rw [slot_of_ne htab hlk, h.ref l, hother l hlk]
  · by_cases hlk : l = k
    · rw [hlk, hself, hlock]
    · rw [slot_of_ne htab hlk, h.lock l]
      simp only [hM l hlk]
  · by_cases hlk : l = k
    · subst hlk
      rw [hself]
      exact hlocked hl
    · rw [slot_of_ne htab hlk]
      exact h.locked l ((hM l hlk).mp hl)
  · have hft : s'.tables.ftable f = s.tables.ftable f := by rw [htab]; rfl
    rw [hft] at hf
    exact (h.files f hf).congr hft (hget _ (h.refs_file_pos hf))

/-- A slot that keeps its inode changes: its references, its lock, or whether it has been
read. -/
theorem Inv.step (h : Inv sb p X L s) (hs : Settled sb s')
    (htab : s'.tables = s.tables.setSlot k sl) (hdisk : s'.store.disk = s.store.disk)
    (hinum : sl.inum = s.inum k) (hlive : 0 < sl.ref → 0 < (s.slot k).ref)
    (href : sl.ref = s.tables.refs k + Y.count k) (hother : ∀ l, l ≠ k → Y.count l = X.count l)
    (hlock : sl.lock = if k ∈ M then some p else none) (hM : ∀ l, l ≠ k → (l ∈ M ↔ l ∈ L))
    (hlocked : k ∈ M → 0 < sl.ref ∧ sl.valid = true) : Inv sb p Y M s' := by
  have hnode : s'.node sb = s.node sb := node_eq_of_disk hdisk
  refine h.put hs htab (fun hl => ?_) href hother hlock hM hlocked (fun l _ => ?_) ?_
  · rw [hinum]
    exact h.range k (hlive hl)
  · rw [Machine.get, inum_eq htab hinum, hnode, Machine.get]
  · rw [hnode]
    exact h.ranged

theorem walk_step (htab : s'.tables = s.tables.setSlot k sl)
    (hdisk : s'.store.disk = s.store.disk) (hinum : sl.inum = s.inum k)
    (hflock : sl.flock = (s.slot k).flock) : Walk sb C X s s' := by
  exact Frame.walk ⟨by rw [htab]; rfl, by rw [htab]; rfl, by rw [htab]; rfl, flock_eq htab hflock,
    fun l _ => inum_eq htab hinum l⟩ hdisk

theorem count_cons_of_ne (X : Multiset Nat) (h : l ≠ k) : X.count l = (k ::ₘ X).count l :=
  (Multiset.count_cons_of_ne h X).symm

theorem Inv.not_dies (h : Inv sb p (k ::ₘ X) L s) (ha : Anchored sb X s (s.inum k)) :
    ¬ s.Dies sb k := by
  rintro ⟨-, hnlink, hone⟩
  rcases ha with hn | ⟨l, hl, hi⟩
  · exact hn hnlink
  · obtain rfl : l = k := h.unique (h.ref_pos (hl.mono fun _ => Multiset.mem_cons_of_mem))
      (by omega) hi
    have href := h.ref l
    rw [Multiset.count_cons_self] at href
    rcases hl with hl | hl
    · have := Multiset.count_pos.mpr hl
      omega
    · omega

/-- The last reference to an inode without links is dropped, and the inode is freed. -/
theorem Inv.free (h : Inv sb p (k ::ₘ X) L s) (hk : k ∉ L) (hd : s.Dies sb k)
    (hs : Settled sb s') (htab : s'.tables = s.tables.setSlot k
      (((s.slot k).withValid false).withRef ((s.slot k).ref - 1)))
    (hnode : s'.node sb = Function.update (s.node sb) (s.inum k) Node.free)
    (hcalm : C → ¬ s.Dies sb k) : Inv sb p X L s' ∧ Walk sb C X s s' := by
  obtain ⟨hvalid, hnlink, hone⟩ := hd
  have href := h.ref k
  rw [Multiset.count_cons_self] at href
  have hrefs : s.tables.refs k = 0 := by omega
  have hkX : X.count k = 0 := by omega
  have hne : ∀ l, Keeps X s l → l ≠ k := by
    rintro l hl rfl
    rcases hl with hl | hl
    · exact absurd hkX (Multiset.count_ne_zero.mpr hl)
    · omega
  have hpos : ∀ l, Keeps X s l → 0 < (s.slot l).ref := fun l hl =>
    h.ref_pos (hl.mono fun _ => Multiset.mem_cons_of_mem)
  -- no other slot in use has the inode
  have hinum : ∀ l, l ≠ k → 0 < (s.slot l).ref → s.inum l ≠ s.inum k := fun l hl hp he =>
    hl (h.unique hp (by omega) he)
  have heq := inum_eq htab rfl
  have hget : ∀ l, Keeps X s l → s'.get sb l = s.get sb l := by
    intro l hl
    rw [Machine.get, heq, hnode, update_of_ne (hinum l (hne l hl) (hpos l hl)),
      Machine.get]
  refine ⟨h.put hs htab (fun _ => h.range k (by omega)) ?_
    (fun l hl => count_cons_of_ne X hl) (h.lock k) (fun _ _ => Iff.rfl) (fun hl => absurd hl hk)
    (fun l hl => hget l (Or.inr hl)) fun i => ?_, ⟨⟨by rw [htab]; rfl, by rw [htab]; rfl,
    by rw [htab]; rfl, flock_eq htab rfl, fun l _ => heq l⟩, fun i => ?_, fun l hl => ?_,
    fun hc => ?_⟩⟩
  · change (s.slot k).ref - 1 = _
    omega
  · rw [hnode]
    by_cases hi : i = s.inum k
    · rw [hi, update_self]
      exact fun ht => absurd ht (by decide)
    · rw [update_of_ne hi]
      exact h.ranged i
  · rw [hnode]
    by_cases hi : i = s.inum k
    · rw [hi]
      exact Or.inr ⟨hnlink, update_self _ _ _⟩
    · exact Or.inl (update_of_ne hi _ _)
  · rw [hnode, update_of_ne (hinum l (hne l hl) (hpos l hl))]
  · exact absurd ⟨hvalid, hnlink, hone⟩ (hcalm hc)

theorem Inv.fill (h : Inv sb p X L s) {inum : Nat} (hempty : (s.slot k).ref = 0)
    (hi : inum < sb.ninodes) (hs : Settled sb s')
    (htab : s'.tables = s.tables.setSlot k ((s.slot k).filled inum))
    (hdisk : s'.store.disk = s.store.disk) : Inv sb p (k ::ₘ X) L s' ∧ Walk sb C X s s' := by
  have hnode : s'.node sb = s.node sb := node_eq_of_disk hdisk
  have href := h.ref k
  have hne : ∀ l, Keeps X s l → l ≠ k := by
    rintro l hl rfl
    have := h.ref_pos hl
    omega
  refine ⟨h.put hs htab (fun _ => hi) ?_ (fun l hl => Multiset.count_cons_of_ne hl X) (h.lock k)
    (fun _ _ => Iff.rfl) (fun hl => ?_) (fun l hl => ?_) (hnode ▸ h.ranged),
    Frame.walk ⟨by rw [htab]; rfl, by rw [htab]; rfl, by rw [htab]; rfl, flock_eq htab rfl,
      fun l hl => inum_of_ne htab (hne l hl)⟩ hdisk⟩
  · rw [Multiset.count_cons_self]
    change (1 : Int) = _
    omega
  · have := (h.locked k hl).1
    omega
  · rw [Machine.get, inum_of_ne htab (hne l (Or.inr hl)), hnode, Machine.get]

/-- Another inode is put in the place of one that is free or has the same type. -/
theorem Inv.setNode (h : Inv sb p X L s) {n : Node} (hs : Settled sb s')
    (htab : s'.tables = s.tables) (hnode : s'.node sb = Function.update (s.node sb) i n)
    (htype : (s.node sb i).type ≠ 0 → n.type = (s.node sb i).type) (hranged : n.Ranged sb) :
    Inv sb p X L s' := by
  have hne : ∀ j, (s.node sb j).type ≠ 0 → (s'.node sb j).type = (s.node sb j).type := by
    intro j hj
    rw [hnode]
    by_cases hji : j = i
    · subst hji
      rw [update_self, htype hj]
    · rw [update_of_ne hji]
  have hslot : s'.slot = s.slot := by
    funext k
    rw [Machine.slot, htab, Machine.slot]
  have hinum : s'.inum = s.inum := by
    funext k
    rw [Machine.inum, htab, Machine.inum]
  have hget : ∀ k, (s.get sb k).type ≠ 0 → (s'.get sb k).type = (s.get sb k).type := fun k hk => by
    rw [Machine.get, hinum]
    exact hne _ hk
  refine ⟨hs, h.root, ?_, ?_, ?_, ?_, fun f hf => ?_, ?_, fun j => ?_⟩
  · rw [hslot, hinum]
    exact h.range
  · rw [hslot, htab]
    exact h.ref
  · rw [hslot]
    exact h.lock
  · rw [hslot]
    exact h.locked
  · rw [htab] at hf
    obtain ⟨h₁, h₂, h₃, h₄⟩ := h.files f hf
    refine ⟨h₁, by rw [htab]; exact h₂, ?_, ?_⟩
    · rw [htab, hget _ h₃]
      exact h₃
    · rw [htab, hget _ h₃]
      exact h₄
  · rw [htab]
    exact h.procs
  · rw [hnode]
    by_cases hji : j = i
    · rw [hji, update_self]
      exact hranged
    · rw [update_of_ne hji]
      exact h.ranged j

theorem Inv.setAt (h : Inv sb p X L s) {n : Node} (hs : Settled sb s')
    (htab : s'.tables = s.tables) (hnode : s'.node sb = Function.update (s.node sb) (s.inum k) n)
    (htype : n.type = (s.get sb k).type) (hranged : n.Ranged sb) : Inv sb p X L s' :=
  h.setNode hs htab hnode (fun _ => htype) hranged

theorem Inv.congr (h : Inv sb p X L s) (hs : Settled sb s') (htab : s'.tables = s.tables)
    (hdisk : s'.store.disk = s.store.disk) : Inv sb p X L s' := by
  refine h.setNode (i := 0) hs htab ?_ (fun _ => rfl) (h.ranged 0)
  rw [Function.update_eq_self, node_eq_of_disk hdisk]

end Alone

end Xv6.Kernel
