import Xv6.Kernel.Alone.Failing

/-!
# Directories as finite maps

A directory is a finite map from names to inodes: `dirlookup` reads it, `dirlink` adds a binding,
clearing an entry removes one, and `isdirempty` asks whether there is one besides `.` and `..`.
`dirlink` drops the inode that it finds under the name; if the process has locked that inode, it
waits for itself.
-/

namespace Xv6.Kernel

open Fs Hoare Program

structure Holds (data : List UInt8) (j : Nat) (name : Name) (i : Nat) : Prop where
  lt : j < entryCount data
  inum : (entryAt data j).inum = i
  live : i ≠ 0
  name : cut (entryAt data j).name = name

def Binds (data : List UInt8) (name : Name) (i : Nat) : Prop := ∃ j, Holds data j name i

def DistinctNames (data : List UInt8) : Prop :=
  ∀ j k name i i', Holds data j name i → Holds data k name i' → j = k

def Dots (data : List UInt8) : Prop := (∃ i, Holds data 0 dot i) ∧ ∃ i, Holds data 1 dotdot i

/-- The bindings of `data'` are those of `B`; names are distinct, and the first two entries stay. -/
structure Rebound (data data' : List UInt8) (B : Name → Nat → Prop) : Prop where
  binds : ∀ name i, Binds data' name i ↔ B name i
  distinct : DistinctNames data'
  dots : Dots data → Dots data'

variable {data : List UInt8} {n : Node} {j k i i' : Nat} {name m : Name} {src : Nat → UInt8}

theorem Holds.unique (h : Holds data j name i) (h' : Holds data j m i') : name = m ∧ i = i' :=
  ⟨h.name.symm.trans h'.name, h.inum.symm.trans h'.inum⟩

theorem holds_of_lookup (h : lookup data name = some j) :
    Holds data j (cut name) (entryAt data j).inum := by
  obtain ⟨⟨hne, hcmp⟩, hlt, -⟩ := lookup_eq_some.mp h
  exact ⟨hlt, rfl, hne, ((namecmp_iff _ _).mp hcmp).symm⟩

theorem not_binds_of_lookup (h : lookup data name = none) (i : Nat) :
    ¬ Binds data (cut name) i := by
  rintro ⟨j, hj⟩
  have := lookup_eq_none.mp h j hj.lt (hj.inum ▸ hj.live)
  rw [(namecmp_iff _ _).mpr hj.name.symm] at this
  cases this

theorem holds_setEntry {de : Dirent} (hj : direntSize * j ≤ n.data.length)
    (hde : Dirent.ofBytes ((List.range direntSize).map src) = de) :
    Holds (n.setEntry j src).data k name i ↔
      k ≠ j ∧ Holds n.data k name i ∨ k = j ∧ de.inum = i ∧ i ≠ 0 ∧ cut de.name = name := by
  have hcount : entryCount (n.setEntry j src).data = max (entryCount n.data) (j + 1) :=
    entryCount_setEntry hj
  by_cases hkj : k = j
  · subst hkj
    have hself : entryAt (n.setEntry k src).data k = de := (entryAt_setEntry_self hj).trans hde
    constructor
    · rintro ⟨-, hi, hne, hname⟩
      rw [hself] at hi hname
      exact .inr ⟨rfl, hi, hne, hname⟩
    · rintro (⟨hne, -⟩ | ⟨-, hi, hne, hname⟩)
      · exact absurd rfl hne
      · exact ⟨by omega, by rw [hself, hi], hne, by rw [hself, hname]⟩
  · constructor
    · rintro ⟨hlt, hi, hne, hname⟩
      obtain ⟨hlt', heq⟩ := entryAt_setEntry_of_ne hj hkj hlt
      rw [heq] at hi hname
      exact .inl ⟨hkj, hlt', hi, hne, hname⟩
    · rintro (⟨-, hlt, hi, hne, hname⟩ | ⟨he, -⟩)
      · have hlt' : k < entryCount (n.setEntry j src).data := by omega
        have heq := (entryAt_setEntry_of_ne hj hkj hlt').2
        exact ⟨hlt', by rw [heq, hi], hne, by rw [heq, hname]⟩
      · exact absurd he hkj

theorem emptySlot_not_holds : ¬ Holds data (emptySlot data) name i := fun h =>
  h.live (h.inum.symm.trans (emptySlot_free h.lt))

theorem rebound_linkIn {inum : Nat} (hd : DistinctNames n.data) (hdvd : direntSize ∣ n.data.length)
    (hfree : ∀ i, ¬ Binds n.data (cut name) i) (hpos : 0 < inum) (hlt : inum < 2 ^ 16) :
    Rebound n.data (n.linkIn name inum).data
      fun m i => Binds n.data m i ∨ m = cut name ∧ i = inum := by
  have hholds : ∀ k m i, Holds (n.linkIn name inum).data k m i ↔
      Holds n.data k m i ∨ k = emptySlot n.data ∧ m = cut name ∧ i = inum := by
    intro k m i
    rw [Node.linkIn, holds_setEntry (emptySlot_mul_le hdvd) (ofBytes_direntBytes name inum)]
    simp only [Nat.mod_eq_of_lt hlt, cut_strncpy]
    constructor
    · rintro (⟨-, h⟩ | ⟨hk, rfl, -, rfl⟩)
      · exact .inl h
      · exact .inr ⟨hk, rfl, rfl⟩
    · rintro (h | ⟨hk, rfl, rfl⟩)
      · exact .inl ⟨fun hk => emptySlot_not_holds (hk ▸ h), h⟩
      · exact .inr ⟨hk, rfl, by omega, rfl⟩
  refine ⟨fun m i => ?_, fun j k m i i' h h' => ?_, fun ⟨⟨i, h₀⟩, i', h₁⟩ =>
    ⟨⟨i, (hholds _ _ _).mpr (.inl h₀)⟩, i', (hholds _ _ _).mpr (.inl h₁)⟩⟩
  · simp only [Binds, hholds, exists_or, exists_and_right, exists_eq, true_and]
  · rw [hholds] at h h'
    rcases h with h | ⟨hj, rfl, -⟩ <;> rcases h' with h' | ⟨hk, hm, -⟩
    · exact hd _ _ _ _ _ h h'
    · exact absurd ⟨j, hm ▸ h⟩ (hfree i)
    · exact absurd ⟨k, h'⟩ (hfree i')
    · rw [hj, hk]

theorem rebound_clearEntry (hd : DistinctNames n.data) (hj : Holds n.data j name i)
    (hdot : name ≠ dot) (hdotdot : name ≠ dotdot) :
    Rebound n.data (n.clearEntry j).data fun m i' => Binds n.data m i' ∧ m ≠ name := by
  have hlt := lt_entryCount.mp hj.lt
  have hholds : ∀ k m i', Holds (n.clearEntry j).data k m i' ↔ Holds n.data k m i' ∧ m ≠ name := by
    intro k m i'
    rw [Node.clearEntry, holds_setEntry (by omega) ofBytes_zeros]
    constructor
    · rintro (⟨hk, h⟩ | ⟨-, rfl, h, -⟩)
      · exact ⟨h, fun hm => hk (hd _ _ _ _ _ (hm ▸ h) hj)⟩
      · exact absurd rfl h
    · rintro ⟨h, hm⟩
      exact .inl ⟨fun hk => hm ((hk ▸ h).unique hj).1, h⟩
  refine ⟨fun m i' => ?_, fun j k m i i' h h' => ?_, fun ⟨⟨i, h₀⟩, i', h₁⟩ =>
    ⟨⟨i, (hholds _ _ _).mpr ⟨h₀, hdot.symm⟩⟩, i', (hholds _ _ _).mpr ⟨h₁, hdotdot.symm⟩⟩⟩
  · simp only [Binds, hholds, exists_and_right]
  · exact hd _ _ _ _ _ ((hholds _ _ _).mp h).1 ((hholds _ _ _).mp h').1

/-- `isdirempty` looks at the entries from the third on. -/
theorem search_isNone_iff (hd : DistinctNames data) (hdots : Dots data) :
    (search (fun de => decide (de.inum ≠ 0)) data 2).isNone = true ↔
      ∀ m i, Binds data m i → m = dot ∨ m = dotdot := by
  obtain ⟨⟨i₀, h₀⟩, i₁, h₁⟩ := hdots
  rw [Option.isNone_iff_eq_none, search_eq_none]
  constructor
  · rintro hnone m i ⟨j, hj⟩
    have hlt : j < 2 := by
      by_contra hge
      have := hnone j (by omega) hj.lt
      simp only [decide_eq_false_iff_not, not_not] at this
      exact hj.live (hj.inum.symm.trans this)
    rcases (show j = 0 ∨ j = 1 by omega) with rfl | rfl
    · exact .inl (hj.unique h₀).1
    · exact .inr (hj.unique h₁).1
  · intro hall j hj hlt
    by_contra hne
    simp only [decide_eq_false_iff_not, not_not] at hne
    have hholds : Holds data j (cut (entryAt data j).name) _ := ⟨hlt, rfl, hne, rfl⟩
    rcases hall _ _ ⟨j, hholds⟩ with hm | hm
    · have := hd _ _ _ _ _ (hm ▸ hholds) h₀
      omega
    · have := hd _ _ _ _ _ (hm ▸ hholds) h₁
      omega

namespace Alone

variable {sb : Superblock} {p dp inum : Nat} {X : Multiset Nat} {L : Finset Nat} {s s' : Machine}
  {off c : UInt32} {e : Stop}

/-- `writei` stops only for want of room in the log or on the disk. -/
theorem Inv.writei_stop (h : Inv sb p X L s) (hdp : dp ∈ L) (hdev : (s.get sb dp).type ≠ tDev)
    (he : Machine.handler sb p (.writei dp src off c) s = .error e) :
    Limit e ∧ ¬ Room sb s.store (dinode sb s.store.disk (s.inum dp)) off.toNat c.toNat := by
  obtain ⟨hi, ht, hcopy⟩ := h.settled.copy_eq (h.locked dp hdp).1 (h.locked dp hdp).2
  rw [h.settled.get_eq (h.locked dp hdp).1 (h.locked dp hdp).2, hcopy] at hdev
  rw [Machine.handler_writei, Machine.withCopy, hcopy] at he
  split at he
  · cases he
  next hw =>
  cases he
  by_cases hacc : Accepted (dinode sb s.store.disk (s.inum dp)) off c
  · have hwp : ∀ E, Budget sb E _ _ s.store → wp (Fs.writei sb (s.inum dp) _ src off c)
        (fun _ _ => True) E s.store := fun E hb =>
      wp_writei h.settled.geometry h.settled.disk h.settled.allocs hi ht hdev hacc (Nat.le_refl _) hb
        fun _ _ _ _ => trivial
    exact ⟨(hwp Limit (.inl fun _ => id)).error hw, fun hroom =>
      (hwp (fun _ => False) hroom.budget).error hw⟩
  · rw [writei_refused hdev hacc] at hw
    cases hw

def NoRoom (sb : Superblock) (s : Machine) (dp j : Nat) (e : Stop) : Prop :=
  Limit e ∧ ¬ Room sb s.store (dinode sb s.store.disk (s.inum dp)) (direntSize * j) direntSize

structure Only (sb : Superblock) (dp : Nat) (s s' : Machine) : Prop where
  tables : s'.tables = s.tables
  others : ∀ i, i ≠ s.inum dp → s'.node sb i = s.node sb i

theorem only_of_update (htab : s'.tables = s.tables)
    (hnode : s'.node sb = Function.update (s.node sb) (s.inum dp) n) :
    Only sb dp s s' ∧ s'.get sb dp = n := by
  refine ⟨⟨htab, fun i hi => by rw [hnode, Function.update_of_ne hi]⟩, ?_⟩
  have hinum : s'.inum dp = s.inum dp := by rw [Machine.inum, htab, Machine.inum]
  rw [Machine.get, hnode, hinum, Function.update_self]

/-- What the functions on directory `dp` do to its bindings. -/
structure DirectoryMap (sb : Superblock) (p : Nat) (X : Multiset Nat) (L : Finset Nat)
    (s : Machine) (dp : Nat) (name : Name) (inum : Nat) : Prop where
  /-- `dirlookup` returns the inode and the number of its entry -/
  lookup : Wp sb p (dirlookup dp name) (fun r s' => match r with
      | none => s' = s ∧ ∀ i, ¬ Binds (s.get sb dp).data (cut name) i
      | some (ip, j) => Inv sb p (ip ::ₘ X) L s' ∧ s'.store.disk = s.store.disk ∧
        Holds (s.get sb dp).data j (cut name) (s'.inum ip))
    (fun e => e = .panic "iget: no inodes" ∧ Full X s) s
  /-- `dirlink` adds the binding, or refuses to and changes nothing -/
  link : Wp sb p (dirlink dp name inum) (fun r s' => match r with
      | true => (∀ i, ¬ Binds (s.get sb dp).data (cut name) i) ∧ Only sb dp s s' ∧
        Rebound (s.get sb dp).data (s'.get sb dp).data fun m i =>
          Binds (s.get sb dp).data m i ∨ m = cut name ∧ i = inum
      | false => (∃ i, Binds (s.get sb dp).data (cut name) i) ∧ Inv sb p X L s' ∧
        s'.store.disk = s.store.disk)
    (fun e => e = .panic "iget: no inodes" ∧ Full X s ∨
      NoRoom sb s dp (emptySlot (s.get sb dp).data) e) s
  /-- the write of `unlink` removes the binding of an entry -/
  clear : ∀ j m i, Holds (s.get sb dp).data j m i → m ≠ dot → m ≠ dotdot →
    Wp sb p (writeData dp (fun _ => 0) (UInt32.ofNat (direntSize * j)) (UInt32.ofNat direntSize))
      (fun r s' => r = some (UInt32.ofNat direntSize) ∧ Only sb dp s s' ∧
        Rebound (s.get sb dp).data (s'.get sb dp).data fun m' i' =>
          Binds (s.get sb dp).data m' i' ∧ m' ≠ m) (NoRoom sb s dp j) s
  empty : Dots (s.get sb dp).data → Wp sb p (isdirempty dp) (fun r s' => s' = s ∧
      (r = true ↔ ∀ m i, Binds (s.get sb dp).data m i → m = dot ∨ m = dotdot)) (fun _ => False) s

section

variable (h : Inv sb p X L s) (hdp : dp ∈ L) (hdir : (s.get sb dp).type = tDir)
  (hdvd : direntSize ∣ (s.get sb dp).data.length) (hd : DistinctNames (s.get sb dp).data)
  (hmax : (s.get sb dp).data.length < maxFile * bsize)

include hmax hdvd in
theorem entry_le_max {j : Nat} (hj : direntSize * j ≤ (s.get sb dp).data.length) :
    direntSize * j + direntSize ≤ maxFile * bsize := by
  simp only [direntSize, maxFile, ndirect, nindirect, bsize] at *
  omega

include h hdp hdir hdvd in
theorem wp_dirlookup_map (name : Name) : Wp sb p (dirlookup dp name) (fun r s' => match r with
      | none => s' = s ∧ ∀ i, ¬ Binds (s.get sb dp).data (cut name) i
      | some (ip, j) => Inv sb p (ip ::ₘ X) L s' ∧ s'.store.disk = s.store.disk ∧
        Holds (s.get sb dp).data j (cut name) (s'.inum ip))
    (fun e => e = .panic "iget: no inodes" ∧ Full X s) s := by
  refine h.wp_dirlookup (C := True) (fun hn => absurd ⟨hdir, hdvd⟩ hn) (fun hfull _ => ⟨rfl, hfull⟩)
    hdp (fun _ hl => ⟨rfl, not_binds_of_lookup hl⟩) fun ip j s' h' hw _ _ hl hinum _ =>
    ⟨h', hw.disk trivial, ?_⟩
  rw [hinum]
  exact holds_of_lookup hl

include hdir in
theorem offset_lt (h : Inv sb p X L s) (hdp : dp ∈ L) {j : Nat}
    (hj : direntSize * j ≤ (s.get sb dp).data.length) :
    (UInt32.ofNat (direntSize * j)).toNat = direntSize * j :=
  toNat_ofNat_of_lt (by have := (h.isDir hdp hdir).small.lt; omega)

include h hdp hdir in
theorem noRoom_of_writei {j : Nat} (hj : direntSize * j ≤ (s.get sb dp).data.length)
    (he : Machine.handler sb p (.writei dp src (UInt32.ofNat (direntSize * j))
      (UInt32.ofNat direntSize)) s = .error e) : NoRoom sb s dp j e := by
  have := h.writei_stop hdp (by rw [hdir]; decide) he
  rw [offset_lt hdir h hdp hj] at this
  exact this

include h hdp hdir hdvd hd hmax in
theorem wp_dirlink_map (name : Name) (hpos : 0 < inum) (hlt : inum < 2 ^ 16)
    (hfree : ∀ k ∈ L, ¬ Binds (s.get sb dp).data (cut name) (s.inum k)) :
    Wp sb p (dirlink dp name inum) (fun r s' => match r with
      | true => (∀ i, ¬ Binds (s.get sb dp).data (cut name) i) ∧ Only sb dp s s' ∧
        Rebound (s.get sb dp).data (s'.get sb dp).data fun m i =>
          Binds (s.get sb dp).data m i ∨ m = cut name ∧ i = inum
      | false => (∃ i, Binds (s.get sb dp).data (cut name) i) ∧ Inv sb p X L s' ∧
        s'.store.disk = s.store.disk)
    (fun e => e = .panic "iget: no inodes" ∧ Full X s ∨
      NoRoom sb s dp (emptySlot (s.get sb dp).data) e) s := by
  have hslot := emptySlot_mul_le hdvd
  refine h.wp_dirlink (fun e he => ?_) hdp (fun j s' hl _ h' hw => ?_)
    fun s' hl _ htab hnode _ => ?_
  · obtain ⟨-, hn | ⟨rfl, hfull, -⟩ | ⟨j, hl, k, hk, hki, -⟩ | ⟨-, he | hbig⟩⟩ := he
    · exact absurd ⟨hdir, hdvd⟩ hn
    · exact .inl ⟨rfl, hfull⟩
    · exact absurd ⟨j, hki ▸ holds_of_lookup hl⟩ (hfree k hk)
    · exact .inr (noRoom_of_writei h hdp hdir hslot he)
    · have := entry_le_max hdvd hmax hslot
      omega
  · exact ⟨⟨_, j, holds_of_lookup hl⟩, h', hw.disk trivial⟩
  · obtain ⟨honly, hget⟩ := only_of_update htab hnode
    rw [hget]
    exact ⟨not_binds_of_lookup hl, honly,
      rebound_linkIn hd hdvd (not_binds_of_lookup hl) hpos hlt⟩

include h hdp hdir hdvd hd in
/-- `dirlink` waits for an inode that the process has locked. -/
theorem wp_dirlink_locked {k : Nat} (hk : k ∈ L)
    (hbound : Binds (s.get sb dp).data (cut name) (s.inum k)) :
    Wp sb p (dirlink dp name inum) (fun _ _ => False) (fun e => ∃ k, e = .asleep (.inode k)) s := by
  obtain ⟨i, hi⟩ := hbound
  have hfound : ∀ {j}, lookup (s.get sb dp).data name = some j →
      s.inum k = (entryAt (s.get sb dp).data j).inum := fun hl => by
    have hj := holds_of_lookup hl
    obtain rfl := hd _ _ _ _ _ hj hi
    exact (hi.unique hj).2
  have hnone : lookup (s.get sb dp).data name ≠ none := fun hl => not_binds_of_lookup hl _ ⟨i, hi⟩
  refine h.wp_dirlink (fun e he => ?_) hdp (fun j s' hl hne _ _ => hne k hk (hfound hl))
    fun s' hl _ _ _ _ => hnone hl
  obtain ⟨-, hn | ⟨-, -, hnew⟩ | ⟨j, -, k, -, -, rfl⟩ | ⟨hl, -⟩⟩ := he
  · exact absurd ⟨hdir, hdvd⟩ hn
  · obtain ⟨j, hl⟩ := Option.ne_none_iff_exists'.mp hnone
    exact absurd (hfound hl) (hnew j k hl (h.keeps_of_pos (h.locked k hk).1))
  · exact ⟨k, rfl⟩
  · exact absurd hl hnone

include h hdp hdir hdvd hd hmax in
theorem wp_clear_map {j i : Nat} {m : Name} (hj : Holds (s.get sb dp).data j m i) (hdot : m ≠ dot)
    (hdotdot : m ≠ dotdot) : Wp sb p (writeData dp (fun _ => 0) (UInt32.ofNat (direntSize * j))
      (UInt32.ofNat direntSize)) (fun r s' => r = some (UInt32.ofNat direntSize) ∧ Only sb dp s s' ∧
        Rebound (s.get sb dp).data (s'.get sb dp).data fun m' i' =>
          Binds (s.get sb dp).data m' i' ∧ m' ≠ m) (NoRoom sb s dp j) s := by
  have hle : direntSize * j ≤ (s.get sb dp).data.length := by
    have := lt_entryCount.mp hj.lt
    omega
  refine wp_writeData h.settled (fun e he _ => noRoom_of_writei h hdp hdir hle he) (h.held hdp)
    fun s' _ _ htab hnode => ?_
  have hoff : direntSize * j < 2 ^ 32 := by
    have := (h.isDir hdp hdir).small.lt
    omega
  rw [writeNode_entry hdir hoff, if_pos ⟨hle, entry_le_max hdvd hmax hle⟩] at hnode ⊢
  obtain ⟨honly, hget⟩ := only_of_update htab hnode
  rw [hget]
  exact ⟨rfl, honly, rebound_clearEntry hd hj hdot hdotdot⟩

include h hdp hdir hdvd hd hmax in
/-- **Directories are finite maps**, except that `dirlink` waits for ever when the name is bound to
an inode that the process has locked. -/
theorem directoryMap_iff (name : Name) (hpos : 0 < inum) (hlt : inum < 2 ^ 16) :
    DirectoryMap sb p X L s dp name inum ↔
      ∀ k ∈ L, ¬ Binds (s.get sb dp).data (cut name) (s.inum k) := by
  constructor
  · intro hmap k hk hbound
    have hsleep : Wp sb p (dirlink dp name inum) _ _ s :=
      wp_dirlink_locked h hdp hdir hdvd hd hk hbound
    have hlink := hmap.link
    cases hrun : Program.exec (Machine.handler sb p) (dirlink dp name inum) s with
    | ok q => exact hsleep.ok hrun
    | error e =>
      obtain ⟨k, rfl⟩ := hsleep.error hrun
      rcases hlink.error hrun with ⟨he, -⟩ | ⟨hlimit, -⟩
      · cases he
      · simp [Limit] at hlimit
  · intro hfree
    refine ⟨wp_dirlookup_map h hdp hdir hdvd name,
      wp_dirlink_map h hdp hdir hdvd hd hmax name hpos hlt hfree,
      fun j m i hj => wp_clear_map h hdp hdir hdvd hd hmax hj, fun hdots => ?_⟩
    refine (h.isDir hdp hdir).wp_isdirempty (fun hn => absurd hdvd hn) ⟨rfl, ?_⟩
    exact search_isNone_iff hd hdots

end

/-- The root directory is locked, and gets an entry for itself. -/
def linkDot : Prog Bool := do
  beginOp
  ilock 0
  dirlink 0 dot rootIno

/-- A root directory with the entry `.` only. -/
def dotNode : Node := (⟨tDir, 0, 0, 1, []⟩ : Node).linkIn dot rootIno

/-- The root directory is locked and has the entry `.` only. -/
structure HasDot (s : Machine) : Prop where
  inv : Inv Mkfs.sb 0 0 {0} s
  node : s.get Mkfs.sb 0 = dotNode
  inum : s.inum 0 = rootIno

theorem ranged_dotNode : dotNode.Ranged Mkfs.sb := by
  have h : (⟨tDir, 0, 0, 1, []⟩ : Node).Ranged Mkfs.sb := fun _ j hj => absurd hj (Nat.not_lt_zero j)
  exact h.linkIn (by decide) (by decide)

theorem hasDot_of_linkDot (h : Inv Mkfs.sb 0 0 ∅ s) (hkeep : Keeps 0 s 0)
    (hroot : s.inum 0 = rootIno) (hget : s.get Mkfs.sb 0 = ⟨tDir, 0, 0, 1, []⟩)
    (hrun : Program.exec (Machine.handler Mkfs.sb 0) linkDot s = .ok (true, s')) : HasDot s' := by
  have hwp : Wp Mkfs.sb 0 linkDot (fun r s => r = true → HasDot s) (fun _ => True) s := by
    refine Wp.bind (h.wp_beginOp (tame_true trivial) fun s₁ h₁ hsame => Wp.bind ?_)
    have hw₁ : Walk Mkfs.sb True 0 s s₁ := hsame.walk
    have hkeep₁ := hw₁.keeps_iff.mpr hkeep
    refine h₁.wp_ilock (C := True) tame_true hkeep₁ fun s₂ h₂ hw₂ _ _ _ => ?_
    have hget₂ := (hw₂.get hkeep₁).trans ((hw₁.get hkeep).trans hget)
    refine h₂.wp_dirlink (fun _ _ => trivial) (Finset.mem_insert_self 0 ∅)
      (fun _ _ _ _ _ _ hr => absurd hr Bool.false_ne_true) fun s₃ _ hs htab hnode _ _ => ?_
    rw [hget₂] at hnode
    refine ⟨h₂.setNode hs htab hnode (fun _ => ?_) ranged_dotNode, (only_of_update htab hnode).2, ?_⟩
    · exact (congrArg Node.type hget₂).symm
    · rw [Machine.inum, htab]
      exact (hw₂.inum 0 hkeep₁).trans ((hw₁.inum 0 hkeep).trans hroot)
  exact hwp.ok hrun rfl

theorem exists_hasDot : ∃ s, HasDot s := by
  have hinv : Inv Mkfs.sb 0 0 ∅ (fresh (fun _ => noFile) fun _ => none) :=
    (wellformed_fresh fun _ => by decide).inv
  have hroot : (fresh (fun _ => noFile) fun _ => none).inum 0 = rootIno := rfl
  have hrun : (Program.exec (Machine.handler Mkfs.sb 0) linkDot
      (fresh (fun _ => noFile) fun _ => none)).map Prod.fst = .ok true := by
    rw [fresh, Mkfs.blank, Mkfs.balloc_eq]
    decide +kernel
  obtain ⟨s, hres⟩ := exists_of_map_fst hrun
  refine ⟨s, hasDot_of_linkDot hinv (hinv.keeps_of_pos Int.one_pos) hroot ?_ hres⟩
  rw [Machine.get, node_fresh, if_pos hroot]

theorem entryCount_dotNode : entryCount dotNode.data = 1 := by decide +kernel

theorem holds_dotNode {j i : Nat} {name : Name} (h : Holds dotNode.data j name i) :
    j = 0 ∧ name = dot ∧ i = rootIno := by
  have hlt := h.lt
  rw [entryCount_dotNode] at hlt
  obtain rfl : j = 0 := by omega
  have h₀ : Holds dotNode.data 0 dot rootIno := ⟨by decide +kernel, by decide +kernel, by decide,
    by decide +kernel⟩
  exact ⟨rfl, h.unique h₀⟩

theorem distinct_dotNode : DistinctNames dotNode.data := fun _ _ _ _ _ h h' =>
  (holds_dotNode h).1.trans (holds_dotNode h').1.symm

/-- `link` to a new name. -/
theorem directoryMap_iff_newName : ∃ s, HasDot s ∧ DirectoryMap Mkfs.sb 0 0 {0} s 0 [97] 2 := by
  obtain ⟨s, hs⟩ := exists_hasDot
  refine ⟨s, hs, (directoryMap_iff hs.inv (Finset.mem_singleton_self 0) (by rw [hs.node]; rfl)
    (by rw [hs.node]; decide +kernel) (by rw [hs.node]; exact distinct_dotNode)
    (by rw [hs.node]; decide +kernel) [97] (by decide) (by decide)).mpr fun k _ => ?_⟩
  rw [hs.node]
  rintro ⟨j, hj⟩
  exact absurd (holds_dotNode hj).2.1 (by decide)

/-- `link` to the name `.` of a directory: the process waits for the directory's lock, which it
holds. -/
theorem dirlink_dot_sleeps : ∃ s, HasDot s ∧
    (∃ k, Program.exec (Machine.handler Mkfs.sb 0) (dirlink 0 dot 2) s =
      .error (.asleep (.inode k))) ∧ ¬ DirectoryMap Mkfs.sb 0 0 {0} s 0 dot 2 := by
  obtain ⟨s, hs⟩ := exists_hasDot
  have hbinds : Binds (s.get Mkfs.sb 0).data (cut dot) (s.inum 0) := by
    rw [hs.node, hs.inum]
    exact ⟨0, by decide +kernel, by decide +kernel, by decide, by decide +kernel⟩
  have hsleep : Wp Mkfs.sb 0 (dirlink 0 dot 2) _ _ s := wp_dirlink_locked hs.inv
    (Finset.mem_singleton_self 0) (by rw [hs.node]; rfl) (by rw [hs.node]; decide +kernel)
    (by rw [hs.node]; exact distinct_dotNode) (Finset.mem_singleton_self 0) hbinds
  cases hrun : Program.exec (Machine.handler Mkfs.sb 0) (dirlink 0 dot 2) s with
  | ok q => exact (hsleep.ok hrun).elim
  | error e =>
    obtain ⟨k, rfl⟩ := hsleep.error hrun
    refine ⟨s, hs, ⟨k, hrun⟩, fun hmap => ?_⟩
    rcases hmap.link.error hrun with ⟨he, -⟩ | ⟨hlimit, -⟩
    · cases he
    · simp [Limit] at hlimit

end Alone

end Xv6.Kernel
