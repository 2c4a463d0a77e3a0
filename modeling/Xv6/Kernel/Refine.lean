import Xv6.Kernel.Ops

/-!
# The kernel refines the inodes without the disk

Every operation of the kernel does to its disk what it does to the records of the inodes, as long as
the latter does not go wrong, and keeps the disk well formed: the free map agrees with the pointers
of the inodes, and the copies in the slots agree with the disk but for the fields still to be
written back. So do programs.
-/

namespace Xv6.Kernel

open Fs Hoare Program
open Function (update_eq_self update_of_ne update_self)

def nodeOf (sb : Superblock) (disk : Disk) (i : Nat) : Node :=
  let d := dinode sb disk i
  if i < sb.ninodes ∧ d.type ≠ 0 then ⟨d.type, d.major, d.minor, d.nlink, content disk d⟩
  else Node.free

def assigned : Option Links → Dinode → Dinode
  | none, d => d
  | some l, d => Links.assign (fun _ => l) d

@[simp] theorem assigned_none (d : Dinode) : assigned none d = d := rfl

/-- Both machines have the same tables and inodes, the disk is well formed, and the slots in use
hold different inodes and agree with the disk. -/
structure Refines (sb : Superblock) (s : Machine) (t : Nodes) : Prop where
  tables : t.tables = s.tables
  nodes : t.node = nodeOf sb s.store.disk
  geometry : Geometry sb
  disk : DiskOk sb s.store.disk
  allocs : AllocsOk sb s.store
  slots : ∀ k, 0 < (s.tables.icache k).ref → k < ninode ∧ (s.tables.icache k).dev = rootDev
  unique : ∀ k l, 0 < (s.tables.icache k).ref → 0 < (s.tables.icache l).ref →
    s.inum k = s.inum l → k = l
  valid : ∀ k, 0 < (s.tables.icache k).ref → (s.tables.icache k).valid = true →
    s.inum k < sb.ninodes ∧ (dinode sb s.store.disk (s.inum k)).type ≠ 0 ∧
      s.copy k = assigned (t.dirty k) (dinode sb s.store.disk (s.inum k))
  dirty : ∀ k, t.dirty k ≠ none →
    0 < (s.tables.icache k).ref ∧ (s.tables.icache k).valid = true

/-- A result of the kernel is explained by one without the disk. -/
abbrev Explains (sb : Superblock) {α : Type} : Except Stop (α × Machine) →
    Except Stop (α × Nodes) → Prop :=
  Matches (Refines sb) Limit .wrong

variable {sb : Superblock} {p : Nat} {s : Machine} {t : Nodes} {disk disk' : Disk} {α : Type}

/-- Slots that are in use were in use before, for the same inode, and those of `D` stay in
use. -/
structure Tables.Keeps (D : Nat → Prop) (c c' : Tables) : Prop where
  used : ∀ k, 0 < (c'.icache k).ref → 0 < (c.icache k).ref
  stay : ∀ k, D k → 0 < (c.icache k).ref → 0 < (c'.icache k).ref
  dev : ∀ k, (c'.icache k).dev = (c.icache k).dev
  inum : ∀ k, (c'.icache k).inum = (c.icache k).inum
  valid : ∀ k, (c'.icache k).valid = (c.icache k).valid

variable {c c' : Tables}

theorem Tables.Keeps.of_icache {D : Nat → Prop} (h : c'.icache = c.icache) : c.Keeps D c' := by
  constructor <;> intro k <;> rw [h]
  · exact id
  · exact fun _ => id

variable {k : Nat}

theorem Tables.Keeps.of_setSlot {D : Nat → Prop} {sl : Slot}
    (hused : 0 < sl.ref → 0 < (c.icache k).ref) (hstay : D k → 0 < (c.icache k).ref → 0 < sl.ref)
    (hdev : sl.dev = (c.icache k).dev) (hinum : sl.inum = (c.icache k).inum)
    (hvalid : sl.valid = (c.icache k).valid) : c.Keeps D (c.setSlot k sl) := by
  constructor <;> intro l <;> by_cases hlk : l = k
  all_goals first
    | subst hlk; simpa only [Tables.setSlot, update_self]
    | simp only [Tables.setSlot, update_of_ne hlk]
  · exact id
  · exact fun _ => id

theorem Refines.keeps (h : Refines sb s t)
    (hc : s.tables.Keeps (fun k => t.dirty k ≠ none) c) :
    Refines sb { s with tables := c } { t with tables := c } where
  tables := rfl
  nodes := h.nodes
  geometry := h.geometry
  disk := h.disk
  allocs := h.allocs
  slots k hk := ⟨(h.slots k (hc.used k hk)).1, (hc.dev k).trans (h.slots k (hc.used k hk)).2⟩
  unique k l hk hl hkl := by
    refine h.unique k l (hc.used k hk) (hc.used l hl) ?_
    simpa only [Machine.inum, hc.inum] using hkl
  valid k hk hv := by
    have := h.valid k (hc.used k hk) ((hc.valid k) ▸ hv)
    simpa only [Machine.inum, hc.inum] using this
  dirty k hk := ⟨hc.stay k hk (h.dirty k hk).1, (hc.valid k).trans (h.dirty k hk).2⟩

variable {inum dev : Nat}

theorem findInode_eq_some (h : c.findInode dev inum = some k) :
    k < ninode ∧ 0 < (c.icache k).ref ∧ (c.icache k).dev = dev ∧ (c.icache k).inum = inum := by
  obtain ⟨hp, -, hlt, -⟩ := findFrom_eq_some.mp h
  simp only [Bool.and_eq_true, decide_eq_true_eq] at hp
  exact ⟨by omega, hp.1.1, hp.1.2, hp.2⟩

theorem findInode_eq_none (h : c.findInode dev inum = none) (hk : k < ninode) (href : 0 < (c.icache k).ref) (hdev : (c.icache k).dev = dev) :
    (c.icache k).inum ≠ inum := by
  have := findFrom_eq_none.mp h k (Nat.zero_le _) (by omega)
  intro hinum
  simp [href, hdev, hinum] at this

theorem findEmpty_eq_some (h : c.findEmpty = some k) : k < ninode ∧ (c.icache k).ref = 0 := by
  obtain ⟨hp, -, hlt, -⟩ := findFrom_eq_some.mp h
  exact ⟨by omega, by simpa using hp⟩

theorem findEmpty_eq_none (h : c.findEmpty = none) (k : Nat) (hk : k < ninode) :
    (c.icache k).ref ≠ 0 := by
  simpa using findFrom_eq_none.mp h k (Nat.zero_le k) (by omega)

theorem Refines.fill (h : Refines sb s t) (hk : k < ninode)
    (hfree : (s.tables.icache k).ref = 0)
    (hnew : ∀ l, 0 < (s.tables.icache l).ref → s.inum l ≠ inum) :
    Refines sb
      { s with tables := s.tables.setSlot k { s.tables.icache k with
          dev := rootDev, inum := inum, ref := 1, valid := false } }
      { t with tables := s.tables.setSlot k { s.tables.icache k with
          dev := rootDev, inum := inum, ref := 1, valid := false } } where
  tables := rfl
  nodes := h.nodes
  geometry := h.geometry
  disk := h.disk
  allocs := h.allocs
  slots l hl := by
    by_cases hlk : l = k
    · subst hlk
      exact ⟨hk, by simp [Tables.setSlot]⟩
    · simp only [Tables.setSlot, update_of_ne hlk] at hl ⊢
      exact h.slots l hl
  unique l m hl hm hlm := by
    by_cases hlk : l = k <;> by_cases hmk : m = k
    · rw [hlk, hmk]
    · subst hlk
      simp only [Machine.inum, Tables.setSlot, update_self, update_of_ne hmk]
        at hm hlm
      exact absurd hlm.symm (hnew m hm)
    · subst hmk
      simp only [Machine.inum, Tables.setSlot, update_self, update_of_ne hlk]
        at hl hlm
      exact absurd hlm (hnew l hl)
    · simp only [Machine.inum, Tables.setSlot, update_of_ne hlk,
        update_of_ne hmk] at hl hm hlm
      exact h.unique l m hl hm hlm
  valid l hl hv := by
    by_cases hlk : l = k
    · subst hlk
      simp [Tables.setSlot] at hv
    · simp only [Machine.inum, Tables.setSlot, update_of_ne hlk] at hl hv ⊢
      exact h.valid l hl hv
  dirty l hl := by
    have hlk : l ≠ k := fun e => by
      have := (h.dirty l hl).1
      rw [e, hfree] at this
      exact absurd this (lt_irrefl 0)
    simp only [Tables.setSlot, update_of_ne hlk]
    exact h.dirty l hl

/-- Does the operation change a slot of `icache`? -/
def TableOp.onSlots : TableOp → Bool
  | iget _ _ | idup _ | unref _ | acquiresleep _ | releasesleep _ | acquireFlock _
  | releaseFlock _ => true
  | _ => false

theorem TableOp.run_icache {o : TableOp} {r : o.Ret} (ho : o.onSlots = false)
    (h : o.run p c = .ok (r, c')) : c'.icache = c.icache := by
  cases o with
  | iget _ _ | idup _ | unref _ | acquiresleep _ | releasesleep _ | acquireFlock _
  | releaseFlock _ => cases ho
  | filealloc =>
    simp only [TableOp.run, Kernel.filealloc] at h
    split at h <;> cases h <;> rfl
  | fileput f =>
    simp only [TableOp.run, Kernel.fileput] at h
    split at h
    · cases h
    · split at h <;> cases h <;> rfl
  | pipePage page =>
    simp only [TableOp.run, Kernel.pipePage] at h
    split at h
    · cases h
      rfl
    · split at h <;> cases h <;> rfl
  | pipeclose π w =>
    simp only [TableOp.run, Kernel.pipeclose] at h
    split at h <;> cases h
    rfl
  | fdalloc f =>
    simp only [TableOp.run, Kernel.fdalloc] at h
    split at h <;> cases h <;> rfl
  | takeProc =>
    simp only [TableOp.run, Kernel.takeProc] at h
    split at h <;> cases h <;> rfl
  | wait =>
    simp only [TableOp.run, Kernel.wait] at h
    split at h
    · cases h
      rfl
    · split at h <;> cases h
      rfl
  | kill pid =>
    simp only [TableOp.run, Kernel.kill] at h
    split at h <;> cases h <;> rfl
  | filedup _ | cwd | dropCwd =>
    simp only [TableOp.run] at h
    split at h <;> cases h
    rfl
  | ref _ | ident _ | valid _ | holdingsleep _ | holdingFlock _ | file _ | openFile _ _ _ _
  | openPipe _ _ _ | setOff _ _ | ofile _ | clearOfile _ | setCwd _ | myproc | freeproc _
  | setParent _ | childOfile _ _ _ | childCwd _ _ | runnable _ | zombie =>
    cases h
    rfl

theorem TableOp.run_keeps {o : TableOp} {r : o.Ret}
    (ho : ∀ dev inum, o ≠ .iget dev inum) (ht : t.tables = c) (hal : Nodes.allowed o t = true)
    (h : o.run p c = .ok (r, c')) : c.Keeps (fun k => t.dirty k ≠ none) c' := by
  subst ht
  cases o with
  | iget dev inum => exact absurd rfl (ho dev inum)
  | idup ip =>
    cases h
    have href : 0 < (t.tables.icache ip).ref := of_decide_eq_true hal
    exact Tables.Keeps.of_setSlot (fun _ => href) (fun _ _ => by simp only; omega) rfl rfl rfl
  | unref ip =>
    cases h
    simp only [Nodes.allowed, Bool.and_eq_true, Bool.or_eq_true, decide_eq_true_eq,
      Option.isNone_iff_eq_none] at hal
    refine Tables.Keeps.of_setSlot (fun _ => hal.1) (fun hd _ => ?_) rfl rfl rfl
    have := hal.2.resolve_right hd
    simp only
    omega
  | acquiresleep ip | acquireFlock ip =>
    simp only [TableOp.run] at h
    split at h
    · cases h
      exact Tables.Keeps.of_setSlot id (fun _ => id) rfl rfl rfl
    · cases h
  | releasesleep ip | releaseFlock ip =>
    cases h
    exact Tables.Keeps.of_setSlot id (fun _ => id) rfl rfl rfl
  | _ => exact Tables.Keeps.of_icache (TableOp.run_icache rfl h)

theorem Refines.iget (h : Refines sb s t) (hdev : dev = rootDev)
    (hget : iget dev inum s.tables = .ok (k, c)) :
    Refines sb { s with tables := c } { t with tables := c } := by
  rw [Kernel.iget] at hget
  cases hfind : s.tables.findInode dev inum with
  | some l =>
    rw [hfind] at hget
    cases hget
    have href := (findInode_eq_some hfind).2.1
    exact h.keeps (Tables.Keeps.of_setSlot (fun _ => href) (fun _ _ => by simp only; omega)
      rfl rfl rfl)
  | none =>
    rw [hfind] at hget
    cases hempty : s.tables.findEmpty with
    | none =>
      rw [hempty] at hget
      cases hget
    | some l =>
      rw [hempty] at hget
      cases hget
      subst hdev
      obtain ⟨hl, hfree⟩ := findEmpty_eq_some hempty
      refine h.fill hl hfree fun m hm => ?_
      exact findInode_eq_none hfind (h.slots m hm).1 hm (h.slots m hm).2

theorem Refines.table (h : Refines sb s t) (o : TableOp) :
    Explains sb (Machine.handler sb p (.table o) s) (Nodes.handler sb p (.table o) t) := by
  simp only [Machine.handler, Nodes.handler, h.tables]
  by_cases hal : Nodes.allowed o t = true
  · rw [if_pos hal]
    cases hrun : o.run p s.tables with
    | error e => exact Or.inr (Or.inr rfl)
    | ok q =>
      obtain ⟨r, c⟩ := q
      refine Or.inr ⟨_, rfl, ?_⟩
      by_cases ho : ∃ dev inum, o = .iget dev inum
      · obtain ⟨dev, inum, rfl⟩ := ho
        exact h.iget (of_decide_eq_true hal) hrun
      · exact h.keeps
          (TableOp.run_keeps (fun dev inum e => ho ⟨dev, inum, e⟩) h.tables hal hrun)
  · rw [if_neg hal]
    exact Or.inl rfl

variable {i : Nat}

theorem nodeOf_of_alloc (hi : i < sb.ninodes) (ht : (dinode sb disk i).type ≠ 0) :
    nodeOf sb disk i = ⟨(dinode sb disk i).type, (dinode sb disk i).major, (dinode sb disk i).minor,
      (dinode sb disk i).nlink, content disk (dinode sb disk i)⟩ :=
  if_pos ⟨hi, ht⟩

theorem nodeOf_type (hi : i < sb.ninodes) : (nodeOf sb disk i).type = (dinode sb disk i).type := by
  rw [nodeOf]
  split
  · rfl
  · next hc =>
    have h0 : (dinode sb disk i).type = 0 := by
      by_contra hne
      exact hc ⟨hi, hne⟩
    rw [h0]
    rfl

/-- All inodes but `i` are as they were. -/
def OthersKept (sb : Superblock) (disk disk' : Disk) (i : Nat) : Prop :=
  ∀ j, j < sb.ninodes → j ≠ i → dinode sb disk' j = dinode sb disk j ∧
    ((dinode sb disk j).type ≠ 0 →
      content disk' (dinode sb disk j) = content disk (dinode sb disk j))

theorem nodeOf_eq_update (hothers : OthersKept sb disk disk' i) :
    nodeOf sb disk' = Function.update (nodeOf sb disk) i (nodeOf sb disk' i) := by
  funext j
  by_cases hji : j = i
  · rw [hji, update_self]
  · rw [update_of_ne hji]
    by_cases hj : j < sb.ninodes
    · obtain ⟨hd, hc⟩ := hothers j hj hji
      simp only [nodeOf, hd]
      by_cases ht : (dinode sb disk j).type ≠ 0
      · rw [if_pos ⟨hj, ht⟩, if_pos ⟨hj, ht⟩, hc ht]
      · rw [if_neg fun h => ht h.2, if_neg fun h => ht h.2]
    · rw [nodeOf, nodeOf, if_neg fun h => hj h.1, if_neg fun h => hj h.1]

variable {ip : Nat}

/-- A process that has locked and read an inode finds its copy in the slot. -/
theorem Refines.locked (h : Refines sb s t) (hl : t.locked p ip = true) :
    0 < (s.tables.icache ip).ref ∧ (s.tables.icache ip).valid = true ∧ s.inum ip < sb.ninodes ∧
      (dinode sb s.store.disk (s.inum ip)).type ≠ 0 ∧
      s.copy ip = assigned (t.dirty ip) (dinode sb s.store.disk (s.inum ip)) := by
  rw [Nodes.locked, h.tables] at hl
  simp only [Bool.and_eq_true, decide_eq_true_eq] at hl
  exact ⟨hl.1.1, hl.1.2, h.valid ip hl.1.1 hl.1.2⟩

theorem Refines.usable (h : Refines sb s t) (hu : t.usable p ip = true) :
    0 < (s.tables.icache ip).ref ∧ s.inum ip < sb.ninodes ∧
      (dinode sb s.store.disk (s.inum ip)).type ≠ 0 ∧
      s.copy ip = dinode sb s.store.disk (s.inum ip) := by
  rw [Nodes.usable, Bool.and_eq_true, Option.isNone_iff_eq_none] at hu
  obtain ⟨href, -, hi, ht, hcopy⟩ := h.locked hu.1
  rw [hu.2, assigned_none] at hcopy
  exact ⟨href, hi, ht, hcopy⟩

theorem Refines.inum_eq (h : Refines sb s t) (ip : Nat) : t.inum ip = s.inum ip := by
  rw [Nodes.inum, Machine.inum, h.tables]

theorem Refines.get_eq (h : Refines sb s t) (hi : s.inum ip < sb.ninodes)
    (ht : (dinode sb s.store.disk (s.inum ip)).type ≠ 0) :
    t.get ip = ⟨(dinode sb s.store.disk (s.inum ip)).type, (dinode sb s.store.disk (s.inum ip)).major,
      (dinode sb s.store.disk (s.inum ip)).minor, (dinode sb s.store.disk (s.inum ip)).nlink,
      content s.store.disk (dinode sb s.store.disk (s.inum ip))⟩ := by
  rw [Nodes.get, h.nodes, h.inum_eq, nodeOf_of_alloc hi ht]

@[simp] theorem Machine.inum_setValid (s : Machine) (ip : Nat) (v : Bool) (k : Nat) :
    (s.setValid ip v).inum k = s.inum k := by
  by_cases hk : k = ip
  · simp [Machine.inum, Machine.setValid, Tables.setSlot, hk]
  · simp [Machine.inum, Machine.setValid, Tables.setSlot, hk]

theorem Machine.icache_setValid_of_ne (s : Machine) (v : Bool) (hk : k ≠ ip) :
    (s.setValid ip v).tables.icache k = s.tables.icache k :=
  update_of_ne hk _ _

theorem Machine.icache_setValid_self (s : Machine) (ip : Nat) (v : Bool) :
    (s.setValid ip v).tables.icache ip = { s.tables.icache ip with valid := v } :=
  update_self _ _ _

theorem Machine.setValid_eq_self (h : (s.tables.icache ip).valid = true) :
    s.setValid ip true = s := by
  have hslot : ({ s.tables.icache ip with valid := true } : Slot) = s.tables.icache ip := by
    rw [← h]
  rw [Machine.setValid, Tables.setSlot, hslot, update_eq_self]

theorem Nodes.setAt_get (t : Nodes) (ip : Nat) : t.setAt ip (t.get ip) = t := by
  rw [Nodes.setAt, Nodes.get, update_eq_self]

theorem Nodes.put_of_clean (h : t.dirty ip = none) (n : Node) : t.put ip n = t.setAt ip n := by
  rw [Nodes.put, ← h, update_eq_self]
  rfl

variable {st : Store}

/-- The inode of a slot changes on the disk, in the copy and in the records, and `valid` says
whether the copy is good. -/
theorem Refines.modify (h : Refines sb s t) (v : Bool) {d : Dinode}
    (href : 0 < (s.tables.icache ip).ref) (hok : DiskOk sb st.disk) (ha : AllocsOk sb st)
    (hv : v = true → s.inum ip < sb.ninodes ∧ d.type ≠ 0 ∧ d = dinode sb st.disk (s.inum ip))
    (hothers : OthersKept sb s.store.disk st.disk (s.inum ip)) :
    Refines sb { s.setValid ip v with store := st, copy := Function.update s.copy ip d }
      ((t.put ip (nodeOf sb st.disk (s.inum ip))).setValid ip v) where
  tables := by
    change t.tables.setSlot ip { t.tables.icache ip with valid := v } = _
    rw [h.tables]
    rfl
  nodes := by
    change Function.update t.node (t.inum ip) _ = nodeOf sb st.disk
    rw [h.inum_eq, h.nodes, ← nodeOf_eq_update hothers]
  geometry := h.geometry
  disk := hok
  allocs := ha
  slots k hk := by
    change 0 < ((s.setValid ip v).tables.icache k).ref at hk
    change k < ninode ∧ ((s.setValid ip v).tables.icache k).dev = rootDev
    by_cases hki : k = ip
    · subst hki
      rw [s.icache_setValid_self]
      exact h.slots k href
    · rw [s.icache_setValid_of_ne v hki] at hk ⊢
      exact h.slots k hk
  unique k l hk hl hkl := by
    have href' : ∀ m, 0 < ((s.setValid ip v).tables.icache m).ref → 0 < (s.tables.icache m).ref := by
      intro m hm
      by_cases hmi : m = ip
      · rwa [hmi]
      · rwa [s.icache_setValid_of_ne v hmi] at hm
    refine h.unique k l (href' k hk) (href' l hl) ?_
    rw [← s.inum_setValid ip v k, ← s.inum_setValid ip v l]
    exact hkl
  valid k hk hvk := by
    change 0 < ((s.setValid ip v).tables.icache k).ref at hk
    change ((s.setValid ip v).tables.icache k).valid = true at hvk
    change (s.setValid ip v).inum k < sb.ninodes ∧
      (dinode sb st.disk ((s.setValid ip v).inum k)).type ≠ 0 ∧
      Function.update s.copy ip d k = assigned (Function.update t.dirty ip none k)
        (dinode sb st.disk ((s.setValid ip v).inum k))
    rw [s.inum_setValid]
    by_cases hki : k = ip
    · subst hki
      rw [s.icache_setValid_self] at hvk
      obtain ⟨hlt, ht, hd⟩ := hv hvk
      rw [update_self, update_self, assigned_none, ← hd]
      exact ⟨hlt, ht, rfl⟩
    · rw [s.icache_setValid_of_ne v hki] at hk hvk
      obtain ⟨hlt, htk, hck⟩ := h.valid k hk hvk
      have hne : s.inum k ≠ s.inum ip := fun e => hki (h.unique k ip hk href e)
      rw [update_of_ne hki, update_of_ne hki, (hothers _ hlt hne).1]
      exact ⟨hlt, htk, hck⟩
  dirty k hk := by
    change Function.update t.dirty ip none k ≠ none at hk
    change 0 < ((s.setValid ip v).tables.icache k).ref ∧
      ((s.setValid ip v).tables.icache k).valid = true
    have hki : k ≠ ip := fun e => hk (by rw [e, update_self])
    rw [update_of_ne hki] at hk
    rw [s.icache_setValid_of_ne v hki]
    exact h.dirty k hk

theorem explains_guarded {x : Except Stop (α × Machine)}
    {m : Nodes → Except Stop (α × Nodes)} (h : t.usable p ip = true → Explains sb x (m t)) :
    Explains sb x (Nodes.guarded p ip m t) := by
  rw [Nodes.guarded]
  split
  · next hu => exact h hu
  · exact Or.inl rfl

theorem explains_withCopy {m : Nat → Dinode → StoreM (α × Dinode)} {y : Except Stop (α × Nodes)}
    (h : wp (m (s.inum ip) (s.copy ip))
      (fun r st => ∃ t', y = .ok (r.1, t') ∧
        Refines sb { s with store := st, copy := Function.update s.copy ip r.2 } t')
      (fun e => Limit e ∨ y = .error e) s.store) : Explains sb (Machine.withCopy ip m s) y := by
  rw [Machine.withCopy]
  cases hm : m (s.inum ip) (s.copy ip) s.store with
  | ok q =>
    obtain ⟨⟨a, d⟩, st⟩ := q
    exact Or.inr (h.ok hm)
  | error e => exact Or.inr (h.error hm)

theorem limit_budget {y : Except Stop (α × Nodes)} {n f : Nat} :
    Budget sb (fun e => Limit e ∨ y = .error e) n f st :=
  Or.inl fun _ he => Or.inl he

variable (h : Refines sb s t)

include h

theorem Refines.load (ip : Nat) : Explains sb (Machine.load sb ip s) (Nodes.load sb p ip t) := by
  rw [Nodes.load, h.tables, h.inum_eq]
  by_cases hc : 0 < (s.tables.icache ip).ref ∧ (s.tables.icache ip).valid = false ∧
      (s.tables.icache ip).lock = some p ∧ s.inum ip < sb.ninodes
  · rw [if_pos hc]
    obtain ⟨href, hinvalid, -, hi⟩ := hc
    -- fields are assigned only after the inode has been read
    have hclean : t.dirty ip = none := by
      by_contra hd
      rw [(h.dirty ip hd).2] at hinvalid
      cases hinvalid
    have hget : t.get ip = nodeOf sb s.store.disk (s.inum ip) := by
      rw [Nodes.get, h.nodes, h.inum_eq]
    rw [hget, nodeOf_type hi, Machine.load]
    by_cases ht : (dinode sb s.store.disk (s.inum ip)).type = 0
    · rw [if_pos ht, if_pos ht]
      exact Or.inr (Or.inr rfl)
    · rw [if_neg ht, if_neg ht]
      have hmod := h.modify true href h.disk h.allocs (fun _ => ⟨hi, ht, rfl⟩)
        fun j _ _ => ⟨rfl, fun _ => rfl⟩
      rw [← hget, Nodes.put_of_clean hclean, t.setAt_get] at hmod
      exact Or.inr ⟨_, rfl, hmod⟩
  · rw [if_neg hc]
    exact Or.inl rfl

theorem Refines.changeLocked (st : Store)
    (hl : t.locked p ip = true) (hok : DiskOk sb st.disk) (ha : AllocsOk sb st)
    (ht : (dinode sb st.disk (s.inum ip)).type ≠ 0)
    (hothers : OthersKept sb s.store.disk st.disk (s.inum ip)) :
    Refines sb
      { s with store := st, copy := Function.update s.copy ip (dinode sb st.disk (s.inum ip)) }
      (t.put ip (nodeOf sb st.disk (s.inum ip))) := by
  obtain ⟨href, hvalid, hi, -, -⟩ := h.locked hl
  have hmod := h.modify true href hok ha (fun _ => ⟨hi, ht, rfl⟩) hothers
  have ht' : (t.put ip (nodeOf sb st.disk (s.inum ip))).setValid ip true =
      t.put ip (nodeOf sb st.disk (s.inum ip)) := by
    have hslot : ({ t.tables.icache ip with valid := true } : Slot) = t.tables.icache ip := by
      rw [h.tables, ← hvalid]
    change Nodes.mk (t.tables.setSlot ip { t.tables.icache ip with valid := true }) _ _ = _
    rw [Tables.setSlot, hslot, update_eq_self]
    rfl
  rw [Machine.setValid_eq_self hvalid, ht'] at hmod
  exact hmod

theorem Refines.change (st : Store)
    (hu : t.usable p ip = true) (hok : DiskOk sb st.disk) (ha : AllocsOk sb st)
    (ht : (dinode sb st.disk (s.inum ip)).type ≠ 0)
    (hothers : OthersKept sb s.store.disk st.disk (s.inum ip)) :
    Refines sb
      { s with store := st, copy := Function.update s.copy ip (dinode sb st.disk (s.inum ip)) }
      (t.setAt ip (nodeOf sb st.disk (s.inum ip))) := by
  rw [Nodes.usable, Bool.and_eq_true, Option.isNone_iff_eq_none] at hu
  rw [← Nodes.put_of_clean hu.2]
  exact h.changeLocked st hu.1 hok ha ht hothers

theorem Refines.attrs (ip : Nat) :
    Explains sb (Machine.handler sb p (.attrs ip) s) (Nodes.handler sb p (.attrs ip) t) := by
  rw [Nodes.handler_attrs]
  refine explains_guarded fun hu => ?_
  obtain ⟨-, hi, ht, hcopy⟩ := h.usable hu
  refine Or.inr ⟨t, ?_, h⟩
  rw [h.get_eq hi ht, hcopy, length_content, UInt32.ofNat_toNat]

theorem Refines.readi (ip : Nat) (off n : UInt32) :
    Explains sb (Machine.handler sb p (.readi ip off n) s)
      (Nodes.handler sb p (.readi ip off n) t) := by
  rw [Machine.handler_readi, Nodes.handler_readi]
  refine explains_guarded fun hu => explains_withCopy ?_
  obtain ⟨-, hi, ht, hcopy⟩ := h.usable hu
  have hget := h.get_eq hi ht
  rw [hcopy, hget, Nodes.readNode]
  by_cases hdev : (dinode sb s.store.disk (s.inum ip)).type = tDev
  · rw [if_pos hdev, Fs.readi, if_pos hdev]
    by_cases hno : noDriver (dinode sb s.store.disk (s.inum ip)).major = true
    · rw [if_pos hno, if_pos hno]
      refine (wp_pure _).mpr ⟨t, rfl, ?_⟩
      rw [← hcopy, update_eq_self]
      exact h
    · rw [if_neg hno, if_neg hno]
      exact Or.inr rfl
  · rw [if_neg hdev]
    refine (wp_of_ok (readi_eq (h.disk.holes _ hi ht) hdev off n)).mpr ⟨t, rfl, ?_⟩
    rw [← hcopy, update_eq_self]
    exact h

theorem Refines.writei (ip : Nat) (src : Nat → UInt8) (off n : UInt32) :
    Explains sb (Machine.handler sb p (.writei ip src off n) s)
      (Nodes.handler sb p (.writei ip src off n) t) := by
  rw [Machine.handler_writei, Nodes.handler_writei]
  refine explains_guarded fun hu => explains_withCopy ?_
  obtain ⟨-, hi, ht, hcopy⟩ := h.usable hu
  have hget := h.get_eq hi ht
  -- an inode that is not written stays as it is
  have hstay : Refines sb { s with copy := Function.update s.copy ip (s.copy ip) }
      (t.setAt ip (t.get ip)) := by
    rw [update_eq_self, t.setAt_get]
    exact h
  rw [hcopy] at hstay ⊢
  by_cases hdev : (dinode sb s.store.disk (s.inum ip)).type = tDev
  · have hnode : Nodes.writeNode (t.get ip) src off n =
        (if noDriver (dinode sb s.store.disk (s.inum ip)).major = true then none else some n,
          t.get ip) := by
      rw [Nodes.writeNode, hget, if_pos hdev]
    rw [hnode, Fs.writei, if_pos hdev]
    by_cases hno : noDriver (dinode sb s.store.disk (s.inum ip)).major = true
    · rw [if_pos hno, if_pos hno]
      exact (wp_pure _).mpr ⟨_, rfl, hstay⟩
    · rw [if_neg hno, if_neg hno]
      exact (wp_pure _).mpr ⟨_, rfl, hstay⟩
  · by_cases hacc : Accepted (dinode sb s.store.disk (s.inum ip)) off n
    · refine wp_writei h.geometry h.disk h.allocs hi ht hdev hacc (Nat.le_refl _) limit_budget
        fun st hw ha _ => ?_
      obtain ⟨addrs, hattrs⟩ := hw.attrs
      have ht' : (dinode sb st.disk (s.inum ip)).type ≠ 0 := by
        rw [hattrs]
        exact ht
      have hnode : (Nodes.writeNode (t.get ip) src off n) =
          (some n, nodeOf sb st.disk (s.inum ip)) := by
        have hacc' : off.toNat ≤ (content s.store.disk
            (dinode sb s.store.disk (s.inum ip))).length ∧ off.toNat + n.toNat ≤ maxFile * bsize := by
          rw [length_content]
          exact hacc
        rw [Nodes.writeNode, hget, if_neg hdev, if_pos hacc', nodeOf_of_alloc hi ht', hw.content_eq,
          hattrs]
      rw [hnode]
      refine ⟨_, rfl, h.change _ hu hw.ok ha ht' fun j hj hne => ⟨hw.table j hj hne, fun htj => ?_⟩⟩
      have := hw.others j hj htj hne
      rwa [hw.table j hj hne] at this
    · have hnode : Nodes.writeNode (t.get ip) src off n = (none, t.get ip) := by
        have hacc' : ¬ (off.toNat ≤ (content s.store.disk
            (dinode sb s.store.disk (s.inum ip))).length ∧ off.toNat + n.toNat ≤ maxFile * bsize) := by
          rw [length_content]
          exact hacc
        rw [Nodes.writeNode, hget, if_neg hdev, if_neg hacc']
      rw [hnode]
      exact (wp_of_ok (writei_refused hdev hacc)).mpr ⟨_, rfl, hstay⟩

omit h

theorem others_of_data (h : DiskOk sb disk) (hdata : ∀ b, sb.nmeta ≤ b → disk' b = disk b)
    (htable : ∀ j, j < sb.ninodes → j ≠ i → dinode sb disk' j = dinode sb disk j) :
    OthersKept sb disk disk' i :=
  fun j hj hne => ⟨htable j hj hne, fun ht =>
    (h.owned.untouched_of_data hdata hj ht).content_eq (h.holes j hj ht)⟩

theorem content_congr_addr {d d' : Dinode} (hsize : d'.size = d.size)
    (haddr : ∀ k, d'.addr k = d.addr k) : content disk d' = content disk d := by
  rw [content, content, hsize]
  exact List.map_congr_left fun o _ => byteAt_congr_addr haddr o

theorem Refines.assign (h : Refines sb s t) (ip : Nat) (f : Links → Links) :
    Explains sb (Machine.handler sb p (.assign ip f) s) (Nodes.handler sb p (.assign ip f) t) := by
  rw [Nodes.handler_assign]
  refine explains_guarded fun hu => Or.inr ⟨_, rfl, ?_⟩
  obtain ⟨href, hi, ht, hcopy⟩ := h.usable hu
  have hvalid : (s.tables.icache ip).valid = true := by
    rw [Nodes.usable, Bool.and_eq_true] at hu
    exact (h.locked hu.1).2.1
  refine ⟨h.tables, h.nodes, h.geometry, h.disk, h.allocs, h.slots, h.unique, fun k hk hv => ?_,
    fun k hk => ?_⟩
  · obtain ⟨hlt, htk, hck⟩ := h.valid k hk hv
    refine ⟨hlt, htk, ?_⟩
    change Function.update s.copy ip (Links.assign f (s.copy ip)) k =
      assigned (Function.update t.dirty ip _ k) (dinode sb s.store.disk (s.inum k))
    by_cases hki : k = ip
    · subst hki
      rw [update_self, update_self, h.get_eq hi ht, hcopy]
      rfl
    · rw [update_of_ne hki, update_of_ne hki]
      exact hck
  · by_cases hki : k = ip
    · rw [hki]
      exact ⟨href, hvalid⟩
    · change Function.update t.dirty ip _ k ≠ none at hk
      rw [update_of_ne hki] at hk
      exact h.dirty k hk

theorem Refines.iupdate (h : Refines sb s t) (ip : Nat) :
    Explains sb (Machine.handler sb p (.iupdate ip) s) (Nodes.handler sb p (.iupdate ip) t) := by
  change Explains sb _ (if t.locked p ip = true then .ok ((), t.writeBack ip) else .error .wrong)
  by_cases hl : t.locked p ip = true
  swap
  · rw [if_neg hl]
    exact Or.inl rfl
  rw [if_pos hl, Machine.handler_iupdate]
  refine explains_withCopy ?_
  obtain ⟨-, -, hi, ht, hcopy⟩ := h.locked hl
  refine wp_bind.mpr (wp_iupdate (n := 0) (f := 0) limit_budget ((wp_pure _).mpr ?_))
  set d := dinode sb s.store.disk (s.inum ip) with hd
  have haddr : ∀ k, (s.copy ip).addr k = d.addr k := by
    rw [hcopy]
    cases t.dirty ip <;> exact fun _ => rfl
  have hsize : (s.copy ip).size = d.size := by
    rw [hcopy]
    cases t.dirty ip <;> rfl
  have htype : (s.copy ip).type = d.type := by
    rw [hcopy]
    cases t.dirty ip <;> rfl
  have hh := h.disk.holes _ hi ht
  have hh' : HoleFree s.store.disk (s.copy ip) := by
    intro bn hbn
    rw [blk, ptr_congr_addr haddr]
    exact hh bn (hsize ▸ hbn)
  have hc : CopyOk sb s.store.disk (s.inum ip) (s.copy ip) :=
    (h.disk.copyOk hi ht).congr_addr htype haddr
  have hdata : ∀ b, sb.nmeta ≤ b →
      setDinode sb s.store.disk (s.inum ip) (s.copy ip) b = s.store.disk b :=
    fun b hb => setDinode_of_ge h.geometry hi hb
  have hnode : nodeOf sb (setDinode sb s.store.disk (s.inum ip) (s.copy ip)) (s.inum ip) =
      ⟨d.type, (s.copy ip).major, (s.copy ip).minor, (s.copy ip).nlink,
        content s.store.disk d⟩ := by
    have hu' := hc.owned.untouched_of_data hdata hi
      (by rw [update_self, htype]; exact ht)
    rw [update_self] at hu'
    rw [nodeOf_of_alloc hi (by rw [dinode_setDinode_self, htype]; exact ht), dinode_setDinode_self,
      hu'.content_eq hh', content_congr_addr hsize haddr, htype]
  have hback : t.writeBack ip = t.put ip ⟨d.type, (s.copy ip).major, (s.copy ip).minor,
      (s.copy ip).nlink, content s.store.disk d⟩ := by
    rw [Nodes.writeBack, hcopy]
    cases hdirty : t.dirty ip with
    | none =>
      rw [Nodes.put_of_clean hdirty, assigned_none, ← h.get_eq hi ht, t.setAt_get]
    | some l =>
      change t.put ip _ = _
      rw [h.get_eq hi ht]
      rfl
  have hch := h.changeLocked (s.store.logged (iblock sb (s.inum ip))
    (setDinode sb s.store.disk (s.inum ip) (s.copy ip) (iblock sb (s.inum ip)))) hl
  rw [Store.logged_iblock_disk, dinode_setDinode_self, hnode, ← hback] at hch
  refine ⟨_, rfl, hch ?_ h.allocs (htype ▸ ht) ?_⟩
  · exact hc.store h.geometry hh' fun j hj htj _ => h.disk.holes j hj htj
  · exact others_of_data h.disk hdata fun j _ hne => dinode_setDinode_of_ne hne _

theorem nodeOf_ialloc {type : Int16} (hi : i < sb.ninodes) (htype : type ≠ 0) :
    nodeOf sb (setDinode sb disk i { Dinode.zero with type := type }) i =
      { Node.free with type := type } := by
  rw [nodeOf_of_alloc hi (by rw [dinode_setDinode_self]; exact htype), dinode_setDinode_self]
  rfl

theorem Refines.allocated (h : Refines sb s t) {type : Int16}
    (hi : i < sb.ninodes) (ht : (dinode sb s.store.disk i).type = 0) (htype : type ≠ 0)
    (hdisk : st.disk = setDinode sb s.store.disk i { Dinode.zero with type := type })
    (hallocs : st.allocs = s.store.allocs) :
    Refines sb { s with store := st }
      { t with node := Function.update t.node i { Node.free with type := type } } := by
  have hok := h.disk.ialloc h.geometry hi ht htype
  have hdata : ∀ b, sb.nmeta ≤ b → setDinode sb s.store.disk i
      { Dinode.zero with type := type } b = s.store.disk b :=
    fun b hb => setDinode_of_ge h.geometry hi hb
  have hothers := others_of_data h.disk hdata fun j _ hne => dinode_setDinode_of_ne hne _
  have hnodes := nodeOf_eq_update hothers
  rw [nodeOf_ialloc hi htype, ← h.nodes] at hnodes
  rw [← hdisk] at hok hothers hnodes
  refine ⟨h.tables, hnodes.symm, h.geometry, hok, fun a ha => h.allocs a (hallocs ▸ ha), h.slots,
    h.unique, fun k hk hv => ?_, h.dirty⟩
  -- no slot has a copy of the inode, since it was free
  obtain ⟨hlt, htk, hck⟩ := h.valid k hk hv
  have hne : s.inum k ≠ i := fun e => htk (by rw [e, ht])
  change s.inum k < sb.ninodes ∧ (dinode sb st.disk (s.inum k)).type ≠ 0 ∧
    s.copy k = assigned (t.dirty k) (dinode sb st.disk (s.inum k))
  rw [(hothers _ hlt hne).1]
  exact ⟨hlt, htk, hck⟩

theorem Refines.ialloc (h : Refines sb s t) (type : Int16) :
    Explains sb (Machine.handler sb p (.ialloc type) s) (Nodes.handler sb p (.ialloc type) t) := by
  simp only [Machine.handler, Nodes.handler]
  by_cases htype : type = 0
  · left
    rw [Nodes.ialloc, if_pos htype]
  · -- both search the same types
    have hsearch : findFrom (fun i => (t.node i).type = 0) 1 (sb.ninodes - 1) =
        findFrom (fun i => (dinode sb s.store.disk i).type = 0) 1 (sb.ninodes - 1) := by
      refine findFrom_congr fun j h₁ h₂ => ?_
      rw [h.nodes, nodeOf_type (by omega)]
    have hwp : wp (iallocDisk sb type)
        (fun i st => ∃ t', Nodes.ialloc sb type t = .ok (i, t') ∧ Refines sb { s with store := st } t')
        (fun e => Limit e ∨ Nodes.ialloc sb type t = .error e) s.store := by
      refine wp_iallocDisk (n := 0) (f := 0) limit_budget (fun hnone => Or.inr ?_) fun i hfind => ?_
      · rw [Nodes.ialloc, if_neg htype, hsearch, hnone]
      · obtain ⟨ht0, h1, hlt, -⟩ := findFrom_eq_some.mp hfind
        refine ⟨{ t with node := Function.update t.node i { Node.free with type := type } }, ?_,
          h.allocated (by omega) (by simpa using ht0) htype (Store.logged_iblock_disk _ _ _) rfl⟩
        rw [Nodes.ialloc, if_neg htype, hsearch, hfind]
    cases hres : iallocDisk sb type s.store with
    | ok q => exact Or.inr (hwp.ok hres)
    | error e => exact Or.inr (hwp.error hres)

theorem Refines.free (h : Refines sb s t) (ip : Nat) :
    Explains sb (Machine.handler sb p (.free ip) s) (Nodes.handler sb p (.free ip) t) := by
  rw [Machine.handler_free, Nodes.handler_free]
  refine explains_guarded fun hu => ?_
  obtain ⟨href, hi, ht, hcopy⟩ := h.usable hu
  have hwp : wp (ifree sb (s.inum ip) (s.copy ip)) (fun d st =>
      Refines sb { s.setValid ip false with store := st, copy := Function.update s.copy ip d }
        ((t.setAt ip Node.free).setValid ip false)) Limit s.store := by
    rw [hcopy]
    refine wp_ifree h.geometry (fun _ he => he) h.disk hi ht fun d st hfreed ha => ?_
    have hnode : nodeOf sb st.disk (s.inum ip) = Node.free := if_neg fun hc => hc.2 hfreed.type
    have hmod := h.modify false (d := d) href hfreed.ok (fun a hmem => h.allocs a (ha ▸ hmem))
      (fun hc => by cases hc) (others_of_data h.disk hfreed.data hfreed.table)
    rw [Nodes.usable, Bool.and_eq_true, Option.isNone_iff_eq_none] at hu
    rwa [hnode, Nodes.put_of_clean hu.2] at hmod
  rw [Machine.free]
  cases hres : ifree sb (s.inum ip) (s.copy ip) s.store with
  | ok q => exact Or.inr ⟨_, rfl, hwp.ok hres⟩
  | error e => exact Or.inr (Or.inl (hwp.error hres))

/-- **Every operation of the kernel does what it does without the disk.** -/
theorem handler_matches (o : Op) (h : Refines sb s t) :
    Explains sb (Machine.handler sb p o s) (Nodes.handler sb p o t) := by
  cases o with
  | table o => exact h.table o
  | panic msg => exact Or.inr (Or.inr rfl)
  | beginOp =>
    change Explains sb (Machine.beginOp s) _
    rw [Machine.beginOp]
    split
    · exact Or.inr (Or.inl (Or.inr (Or.inr (Or.inr rfl))))
    · exact Or.inr ⟨t, rfl, h.tables, h.nodes, h.geometry, h.disk, h.allocs, h.slots, h.unique,
        h.valid, h.dirty⟩
  | endOp =>
    exact Or.inr ⟨t, rfl, h.tables, h.nodes, h.geometry, h.disk, h.allocs, h.slots, h.unique,
      h.valid, h.dirty⟩
  | load ip => exact h.load ip
  | attrs ip => exact h.attrs ip
  | free ip => exact h.free ip
  | ialloc type => exact h.ialloc type
  | assign ip f => exact h.assign ip f
  | iupdate ip => exact h.iupdate ip
  | readi ip off n => exact h.readi ip off n
  | writei ip src off n => exact h.writei ip src off n

/-- **Every program of the kernel does what it does without the disk.** -/
theorem exec_refines (m : Prog α) (h : Refines sb s t) :
    Explains sb (Program.exec (Machine.handler sb p) m s)
      (Program.exec (Nodes.handler sb p) m t) :=
  exec_matches (fun o _ _ h => handler_matches o h) m h

end Xv6.Kernel
