import Xv6.Kernel.Alone.Invariant

/-!
# Locking, directories and paths

Which inode a path leads to. An inode without links that is passed on the way may be freed when it
is left; but `ilock` panics at a free inode, so a path leads where the directories before the call
say.
-/

namespace Xv6.Kernel

open Fs Hoare Program
open Multiset (count_cons_self mem_cons_of_mem mem_cons)

/-- The inode that the elements of a path lead to from inode `i`, or that of the last directory
on the way and the last element. -/
def follow (N : Nat → Node) (parent : Bool) : List Name → (i : Nat) → Option (Nat × Name)
  | [], i => if parent then none else some (i, [])
  | name :: rest, i =>
    if (N i).type ≠ tDir then none
    else if parent && rest.isEmpty then some (i, name)
    else (lookup (N i).data name).bind fun j =>
      follow N parent rest (entryAt (N i).data j).inum

/-- The inode where process `p` starts to follow a path. -/
def Machine.start (s : Machine) (p : Nat) (path : List UInt8) : Option Nat :=
  if path.head? = some slash then some rootIno else (s.tables.proc p).cwd.map s.inum

/-- The inode that a path leads to for process `p`. -/
def Machine.resolve (sb : Superblock) (s : Machine) (p : Nat) (parent : Bool)
    (path : List UInt8) : Option (Nat × Name) :=
  (s.start p path).bind (follow (s.node sb) parent (elems path))

namespace Alone

variable {sb : Superblock} {C : Prop} {p k ip dp : Nat} {X : Multiset Nat} {L : Finset Nat}
  {s s' : Machine} {E : Stop → Prop}

theorem Settled.congr (h : Settled sb s) (htab : s'.tables = s.tables)
    (hdisk : s'.store.disk = s.store.disk) (hcopy : s'.copy = s.copy)
    (hallocs : s'.store.allocs = s.store.allocs) : Settled sb s' := by
  obtain ⟨-, -, hg, hok, ha, hslots, hunique, hvalid, -⟩ := h
  refine ⟨rfl, rfl, hg, hdisk ▸ hok, fun a hmem => ha a (hallocs ▸ hmem), ?_, ?_, ?_,
    fun _ hd => absurd rfl hd⟩
  · rw [htab]
    exact hslots
  · simp only [Machine.inum, htab]
    exact hunique
  · simp only [Machine.inum, htab, hdisk, hcopy]
    exact hvalid

structure SameState (s s' : Machine) : Prop where
  tables : s'.tables = s.tables
  disk : s'.store.disk = s.store.disk

theorem SameState.walk (h : SameState s s') : Walk sb C X s s' :=
  (frame_of_tables h.tables).walk h.disk

variable {Q : Unit → Machine → Prop}

theorem Inv.wp_beginOp (h : Inv sb p X L s) (hE : Tame E)
    (hQ : ∀ s', Inv sb p X L s' → SameState s s' → Q () s') : Wp sb p beginOp Q E s :=
  Alone.wp_beginOp hE fun s' htab hdisk hcopy hallocs =>
    hQ s' (h.congr (h.settled.congr htab hdisk hcopy hallocs) htab hdisk) ⟨htab, hdisk⟩

theorem Inv.wp_endOp (h : Inv sb p X L s)
    (hQ : ∀ s', Inv sb p X L s' → SameState s s' → Q () s') : Wp sb p endOp Q E s :=
  Alone.wp_endOp fun s' htab hdisk hcopy hallocs =>
    hQ s' (h.congr (h.settled.congr htab hdisk hcopy hallocs) htab hdisk) ⟨htab, hdisk⟩

theorem Inv.wp_attrs (h : Inv sb p X L s) (hk : k ∈ L) {Q : Attrs → Machine → Prop}
    (hQ : Q ⟨(s.get sb k).type, (s.get sb k).major, (s.get sb k).nlink,
      UInt32.ofNat (s.get sb k).data.length⟩ s) : Wp sb p (attrs k) Q E s :=
  Alone.wp_attrs h.settled (h.locked k hk).1 (h.locked k hk).2 hQ

theorem Inv.wp_ilock (h : Inv sb p X L s) (hE : k ∈ L ∨ (s.get sb k).type = 0 → Tame E)
    (hk : Keeps X s k)
    (hQ : ∀ s', Inv sb p X (insert k L) s' → Walk sb C X s s' → s'.node sb = s.node sb →
      k ∉ L → (s.get sb k).type ≠ 0 → Q () s') : Wp sb p (ilock k) Q E s := by
  have hpos := h.ref_pos hk
  refine Alone.wp_ilock h.settled (fun hl => (hE (.inl (h.lock_ne_none.mp hl))).asleep _)
    (fun h0 => (hE (.inr h0)).panic _) hpos (h.range k hpos) fun s' hs htab hstore hnone ht => ?_
  have hdisk : s'.store.disk = s.store.disk := by rw [hstore]
  refine hQ s' ?_ (walk_step htab hdisk rfl rfl) (node_eq_of_disk hdisk) (h.lock_eq_none.mp hnone) ht
  refine h.step hs htab hdisk rfl id (h.ref k) (fun _ _ => rfl) ?_ (fun l hl => ?_)
    fun _ => ⟨hpos, rfl⟩
  · rw [if_pos (Finset.mem_insert_self k L)]
    rfl
  · simp [hl]

theorem Inv.wp_iunlock (h : Inv sb p X (insert k L) s) (hk : k ∉ L)
    (hQ : ∀ s', Inv sb p X L s' → Walk sb C X s s' → s'.node sb = s.node sb → Q () s') :
    Wp sb p (iunlock k) Q E s := by
  have hmem : k ∈ insert k L := Finset.mem_insert_self k L
  refine Alone.wp_iunlock h.settled (h.held hmem) fun hs => ?_
  refine hQ _ ?_ (walk_step rfl rfl rfl rfl) rfl
  refine h.step hs rfl rfl rfl id (h.ref k) (fun _ _ => rfl) ?_ (fun l hl => ?_)
    fun hkL => absurd hkL hk
  · rw [if_neg hk]
    rfl
  · simp [hl]

theorem Inv.wp_iput (h : Inv sb p (k ::ₘ X) L s) (hE : k ∈ L ∨ ¬ C → Tame E)
    (hcalm : C → ¬ s.Dies sb k)
    (hQ : ∀ s', Inv sb p X L s' → Walk sb C X s s' → Q () s') : Wp sb p (iput k) Q E s := by
  have hpos := h.ref_pos (keeps_self k X s)
  refine Alone.wp_iput h.settled (fun hl => (hE (.inl (h.lock_ne_none.mp hl))).asleep _)
    (fun _ hd => hE (.inr fun hc => hcalm hc hd)) hpos (fun hd hnone hs => ?_)
    fun hd hnone s' hs htab hnode => ?_
  · have hkL := h.lock_eq_none.mp hnone
    have href := h.ref k
    rw [count_cons_self] at href
    refine hQ _ ?_ (walk_step rfl rfl rfl rfl)
    refine h.step hs rfl rfl rfl (fun hr => ?_) ?_ (fun l hl => count_cons_of_ne X hl) (h.lock k)
      (fun _ _ => Iff.rfl) fun hl => absurd hl hkL
    · exact hpos
    · change (s.slot k).ref - 1 = _
      omega
  · obtain ⟨hinv, hwalk⟩ := h.free (h.lock_eq_none.mp hnone) hd hs htab hnode hcalm
    exact hQ s' hinv hwalk

/-- `iput` waits for an inode that the process itself has locked. -/
theorem Inv.wp_iput_locked (h : Inv sb p X L s) (hk : k ∈ L) (hE : E (.asleep (.inode k))) : Wp sb p (iput k) Q E s := by
  have hlock : (s.slot k).lock ≠ none := h.lock_ne_none.mpr hk
  exact Alone.wp_iput h.settled (fun _ => hE) (fun hnone => absurd hnone hlock) (h.locked k hk).1
    (fun _ hnone => absurd hnone hlock) fun _ hnone => absurd hnone hlock

theorem Inv.wp_iunlockput (h : Inv sb p (k ::ₘ X) (insert k L) s) (hk : k ∉ L) (hE : ¬ C → Tame E)
    (hcalm : C → Anchored sb X s (s.inum k))
    (hQ : ∀ s', Inv sb p X L s' → Walk sb C X s s' → Q () s') : Wp sb p (iunlockput k) Q E s := by
  rw [iunlockput]
  refine Wp.bind (h.wp_iunlock (C := C) hk fun s₁ h₁ hw₁ _ => ?_)
  obtain ⟨hw₁, -, hkeep⟩ := hw₁.drop
  exact h₁.wp_iput (fun hc => hE (hc.resolve_left hk)) (fun hc => h₁.not_dies (hkeep hcalm hc))
    fun s₂ h₂ hw₂ => hQ s₂ h₂ (hw₁.trans hw₂)

def Full (X : Multiset Nat) (s : Machine) : Prop := ∀ k, k < ninode → Keeps X s k

theorem Inv.wp_iget (h : Inv sb p X L s) {inum : Nat}
    (hfull : Full X s → (∀ k, Keeps X s k → s.inum k ≠ inum) → E (.panic "iget: no inodes"))
    (hi : inum < sb.ninodes) {Q : Nat → Machine → Prop}
    (hQ : ∀ k s', Inv sb p (k ::ₘ X) L s' → Walk sb C X s s' → s'.node sb = s.node sb →
      s'.inum k = inum → ((s'.slot k).valid = true → Keeps X s k) → Q k s') : Wp sb p (table (.iget rootDev inum)) Q E s := by
  have hal : Nodes.allowed (.iget rootDev inum) (s.nodes sb) = true := by simp [Nodes.allowed]
  refine wp_table (fun r c hrun => ?_) fun e hrun => ?_
  · have hs := h.settled.table hal hrun
    simp only [TableOp.run, Kernel.iget] at hrun
    split at hrun
    · next hfind =>
      cases hrun
      obtain ⟨-, hpos, -, hinum⟩ := findInode_eq_some hfind
      have hpos : 0 < (s.slot r).ref := hpos
      refine hQ r _ ?_ (walk_step rfl rfl rfl rfl) rfl ?_ fun _ => h.keeps_of_pos hpos
      refine h.step hs rfl rfl rfl (fun _ => hpos) ?_
        (fun l hl => (count_cons_of_ne X hl).symm) (h.lock r) (fun _ _ => Iff.rfl)
        fun hl => ⟨?_, (h.locked r hl).2⟩
      · have := h.ref r
        rw [count_cons_self]
        change (s.slot r).ref + 1 = _
        omega
      · change 0 < (s.slot r).ref + 1
        omega
      · exact (congrArg Slot.inum (Function.update_self r _ s.tables.icache)).trans hinum
    · next hfind =>
      split at hrun
      · cases hrun
      · next hempty =>
        cases hrun
        obtain ⟨hinv, hwalk⟩ := h.fill (C := C) (findEmpty_eq_some hempty).2 hi hs rfl rfl
        exact hQ r _ hinv hwalk rfl
          (congrArg Slot.inum (Function.update_self r _ s.tables.icache)) fun hv =>
          absurd ((congrArg Slot.valid (Function.update_self r _ s.tables.icache)).symm.trans hv)
            Bool.false_ne_true
  · simp only [TableOp.run, Kernel.iget] at hrun
    split at hrun
    · cases hrun
    · next hfind =>
      split at hrun
      · next hempty =>
        cases hrun
        refine hfull (fun k hk => h.keeps_of_pos ?_) fun k hk =>
          findInode_eq_none hfind (h.settled.slots k (h.ref_pos hk)).1 (h.ref_pos hk)
            (h.settled.slots k (h.ref_pos hk)).2
        have hne : (s.slot k).ref ≠ 0 := findEmpty_eq_none hempty k hk
        have := h.ref k
        omega
      · cases hrun

/-- `dirlookup` returns a reference to the inode that the first entry with the name names. -/
theorem Inv.wp_dirlookup (h : Inv sb p X L s)
    (hE : ¬ ((s.get sb dp).type = tDir ∧ direntSize ∣ (s.get sb dp).data.length) → Tame E)
    {name : Name} (hfull : Full X s → (∀ j k, lookup (s.get sb dp).data name = some j →
      Keeps X s k → s.inum k ≠ (entryAt (s.get sb dp).data j).inum) →
      E (.panic "iget: no inodes")) (hdp : dp ∈ L) {Q : Option (Nat × Nat) → Machine → Prop}
    (hnone : (s.get sb dp).type = tDir → lookup (s.get sb dp).data name = none → Q none s)
    (hsome : ∀ ip j s', Inv sb p (ip ::ₘ X) L s' → Walk sb C X s s' →
      s'.node sb = s.node sb → (s.get sb dp).type = tDir →
      lookup (s.get sb dp).data name = some j →
      s'.inum ip = (entryAt (s.get sb dp).data j).inum →
      ((s'.slot ip).valid = true → Keeps X s ip) → Q (some (ip, j)) s') :
    Wp sb p (dirlookup dp name) Q E s := by
  rw [dirlookup]
  refine Wp.bind (h.wp_attrs hdp (Wp.ite
    (fun hdir => wp_panic ((hE fun hd => hdir hd.1).panic _)) fun hdir => ?_))
  have hdir : (s.get sb dp).type = tDir := not_not.mp hdir
  have hd := h.isDir hdp hdir
  refine Wp.bind ?_
  simp only [hd.size_eq]
  refine hd.wp_scan (fun hn => (hE fun hd => hn hd.2).panic _) _ _ (by omega) ?_
  cases hl : lookup (s.get sb dp).data name with
  | none =>
    rw [lookup] at hl
    rw [hl]
    exact Wp.pure (hnone hdir ‹_›)
  | some j =>
    obtain ⟨-, hj, -⟩ := lookup_eq_some.mp hl
    rw [lookup] at hl
    rw [hl]
    have hdev : (s.slot dp).dev = rootDev := (h.settled.slots dp (h.locked dp hdp).1).2
    refine Wp.bind (wp_ident (Wp.bind ?_))
    rw [hdev]
    refine h.wp_iget (C := C) (fun hf hnew => hfull hf fun i k hi => ?_) (h.ranged _ hdir j hj)
      fun ip s' h' hw hnode hinum hv => ?_
    · obtain rfl : i = j := Option.some.inj (hi.symm.trans ‹_›)
      exact hnew k
    · exact Wp.pure (hsome ip j s' h' hw hnode hdir ‹_› hinum hv)

theorem Calm.entry (h : Calm sb X s) {name : Name} {j : Nat} (hdir : (s.get sb dp).type = tDir)
    (hl : lookup (s.get sb dp).data name = some j) :
    Anchored sb X s (entryAt (s.get sb dp).data j).inum := by
  obtain ⟨⟨hne, -⟩, hj, -⟩ := lookup_eq_some.mp hl
  exact h.entries _ hdir j hj hne

/-- The inodes that are allocated are those of `N`. -/
def Within (sb : Superblock) (N : Nat → Node) (s : Machine) : Prop :=
  ∀ i, (s.node sb i).type ≠ 0 → s.node sb i = N i

theorem Within.walk {N : Nat → Node} (h : Within sb N s) (hw : Walk sb C X s s') :
    Within sb N s' := by
  intro i hi
  have heq := hw.node_eq hi
  rw [heq] at hi ⊢
  exact h i hi

/-- At most one slot of `icache` is free. -/
def Crowded (X : Multiset Nat) (s : Machine) : Prop :=
  ∀ k l, k < ninode → l < ninode → k ≠ l → Keeps X s k ∨ Keeps X s l

/-- The inodes that are held are allocated, and directories have whole entries. -/
structure Sound (sb : Superblock) (X : Multiset Nat) (s : Machine) : Prop where
  held : ∀ k, Keeps X s k → (s.get sb k).type ≠ 0
  size : ∀ i, (s.node sb i).type = tDir → direntSize ∣ (s.node sb i).data.length

/-- All stops of a path lookup are accepted; or the state is sound, and only that `icache` is full
has to be. -/
def Excused (sb : Superblock) (C : Prop) (X : Multiset Nat) (L : Finset Nat) (s : Machine)
    (E : Stop → Prop) : Prop :=
  Tame E ∨ C ∧ L = ∅ ∧ Sound sb X s ∧ (Crowded X s → E (.panic "iget: no inodes"))

theorem Sound.type_ne_zero (h : Sound sb X s) {i : Nat} (ha : Anchored sb X s i) :
    (s.node sb i).type ≠ 0 := by
  rcases ha with hn | ⟨k, hk, rfl⟩
  · intro h0
    rw [Machine.node, nodeOf] at hn h0
    split at hn
    · next hc =>
      rw [if_pos hc] at h0
      exact hc.2 h0
    · exact hn rfl
  · exact h.held k hk

theorem Sound.walk (h : Sound sb X s) (hw : Walk sb C X s s') : Sound sb X s' := by
  refine ⟨fun k hk => ?_, fun i hi => ?_⟩
  · rw [hw.get (hw.keeps_iff.mp hk)]
    exact h.held k (hw.keeps_iff.mp hk)
  · have heq : s'.node sb i = s.node sb i := hw.node_eq (by rw [hi]; decide)
    rw [heq] at hi ⊢
    exact h.size i hi

theorem Walk.crowded_iff (hw : Walk sb C X s s') : Crowded X s' ↔ Crowded X s := by
  simp only [Crowded, hw.keeps_iff]

theorem Full.crowded (h : Full (ip ::ₘ X) s) : Crowded X s := by
  intro k l hk hl hkl
  rcases h k hk with hmem | hk
  · rcases h l hl with hmem' | hl
    · rcases mem_cons.mp hmem with rfl | hk
      · exact .inr (.inl ((mem_cons.mp hmem').resolve_left (Ne.symm hkl)))
      · exact .inl (.inl hk)
    · exact .inr (.inr hl)
  · exact .inl (.inr hk)

namespace Excused

variable (h : Excused sb C X L s E)

include h in
theorem walk (hw : Walk sb C X s s') : Excused sb C X L s' E :=
  h.imp_right fun ⟨hc, hL, hs, hE⟩ => ⟨hc, hL, hs.walk hw, fun hcr => hE (hw.crowded_iff.mp hcr)⟩

include h in
theorem tame (hn : ip ∈ L ∨ ¬ C) : Tame E := by
  rcases h with h | ⟨hc, rfl, -⟩
  · exact h
  · exact absurd hc (hn.resolve_left (Finset.notMem_empty ip))

include h in
theorem tame_of_type (ha : C → Anchored sb X s (s.inum ip))
    (hn : ip ∈ L ∨ (s.get sb ip).type = 0) : Tame E := by
  rcases h with h | ⟨hc, rfl, hs, -⟩
  · exact h
  · exact absurd (hn.resolve_left (Finset.notMem_empty ip)) (hs.type_ne_zero (ha hc))

include h in
theorem tame_of_size {i : Nat}
    (hn : ¬ ((s.node sb i).type = tDir ∧ direntSize ∣ (s.node sb i).data.length))
    (hdir : (s.node sb i).type = tDir) : Tame E := by
  rcases h with h | ⟨-, -, hs, -⟩
  · exact h
  · exact absurd ⟨hdir, hs.size i hdir⟩ hn

include h in
theorem full (hc : Crowded X s) : E (.panic "iget: no inodes") := by
  rcases h with h | ⟨-, -, -, hE⟩
  · exact h.panic _
  · exact hE hc

end Excused

/-- The loop of `namex` holds a reference to the inode it has come to. -/
theorem Inv.wp_namexLoop {parent : Bool} {N : Nat → Node} (es : List Name)
    (h : Inv sb p (ip ::ₘ X) L s) (hE : Excused sb C X L s E) (hN : Within sb N s)
    (hcalm : C → Calm sb X s) (hip : C → Anchored sb X s (s.inum ip))
    {Q : Option (Nat × Name) → Machine → Prop} (hnone : ∀ s', Inv sb p X L s' → Walk sb C X s s' →
      follow N parent es (s.inum ip) = none → Q none s')
    (hsome : ∀ k name s', Inv sb p (k ::ₘ X) L s' → Walk sb C X s s' →
      follow N parent es (s.inum ip) = some (s'.inum k, name) →
      (C → Anchored sb X s' (s'.inum k)) → Q (some (k, name)) s') :
    Wp sb p (namexLoop parent es ip) Q E s := by
  induction es generalizing ip s with
  | nil =>
    rw [namexLoop]
    refine Wp.ite (fun hpar => ?_) fun hpar => Wp.pure ?_
    · exact Wp.bind (h.wp_iput hE.tame (fun hc => h.not_dies (hip hc)) fun s' h' hw =>
        Wp.pure (hnone s' h' hw (by rw [follow, if_pos hpar])))
    · exact hsome ip [] s h (Walk.refl s) (by rw [follow, if_neg hpar]) hip
  | cons name rest ih =>
    rw [namexLoop]
    refine Wp.bind (h.wp_ilock (C := C) (hE.tame_of_type hip) (keeps_self ip X s) ?_)
    intro s₁ h₁ hw₁ hnode₁ hipL htype
    have hget : s₁.get sb ip = s.get sb ip := hw₁.get (keeps_self ip X s)
    obtain ⟨hw₁, hinum, hkeep₁⟩ := hw₁.drop
    have hip₁ : ip ∈ insert ip L := Finset.mem_insert_self ip L
    have hput := hkeep₁ hip
    -- the inode that is locked is allocated, so it is that of `N`
    have hfollow : follow N parent (name :: rest) (s.inum ip) =
        if (s.get sb ip).type ≠ tDir then none
        else if parent && rest.isEmpty then some (s.inum ip, name)
        else (lookup (s.get sb ip).data name).bind fun j =>
          follow N parent rest (entryAt (s.get sb ip).data j).inum := by
      rw [follow, ← hN _ htype]
      rfl
    have hput' : ip ∈ L ∨ ¬ C → Tame E := hE.tame
    have hfree : ¬ C → Tame E := fun hc => hput' (.inr hc)
    refine Wp.bind (h₁.wp_attrs hip₁ ?_)
    rw [hget]
    refine Wp.ite (fun hdir => ?_) fun hdir => Wp.ite (fun hlast => ?_) fun hlast => ?_
    · refine Wp.bind (h₁.wp_iunlockput hipL hfree hput fun s₂ h₂ hw₂ => Wp.pure ?_)
      exact hnone s₂ h₂ (hw₁.trans hw₂) (by rw [hfollow, if_pos hdir])
    · refine Wp.bind (h₁.wp_iunlock (C := C) hipL fun s₂ h₂ hw₂ _ => Wp.pure ?_)
      obtain ⟨hw₂, hinum₂, hkeep₂⟩ := hw₂.drop
      refine hsome ip name s₂ h₂ (hw₁.trans hw₂) ?_ (hkeep₂ hput)
      rw [hinum₂, hinum, hfollow, if_neg hdir, if_pos hlast]
    · refine Wp.bind (h₁.wp_dirlookup (C := C) (fun hn => ?_) (fun hfull _ => ?_) hip₁
        (fun _ hlook => ?_) ?_)
      · rw [hget] at hn
        exact hE.tame_of_size hn (not_not.mp hdir)
      · exact hE.full (hw₁.crowded_iff.mp hfull.crowded)
      · rw [hget] at hlook
        refine Wp.bind (h₁.wp_iunlockput hipL hfree hput fun s₂ h₂ hw₂ => Wp.pure ?_)
        exact hnone s₂ h₂ (hw₁.trans hw₂) (by rw [hfollow, if_neg hdir, if_neg hlast, hlook]; rfl)
      · intro next j s₂ h₂ hw₂ _ hdir₁ hlook hnext _
        obtain ⟨hw₂, -, hkeep₂⟩ := hw₂.drop
        have hcalm₁ : C → Calm sb X s₁ := fun hc => hw₁.calm_of hc (hcalm hc)
        have hanch : C → Anchored sb X s₂ (s₂.inum next) := fun hc => by
          rw [hnext]
          exact hw₂.anchored hc ((hcalm₁ hc).entry hdir₁ hlook)
        rw [Multiset.cons_swap] at h₂
        refine Wp.bind (h₂.wp_iunlockput (C := C) hipL hfree (fun hc => ?_)
          fun s₃ h₃ hw₃ => ?_)
        · exact (hkeep₂ hput hc).mono fun _ => mem_cons_of_mem
        · obtain ⟨hw₃, hinum₃, hkeep₃⟩ := hw₃.drop
          have hw : Walk sb C X s s₃ := hw₁.trans (hw₂.trans hw₃)
          have hstep : follow N parent (name :: rest) (s.inum ip) =
              follow N parent rest (s₃.inum next) := by
            rw [hfollow, if_neg hdir, if_neg hlast, ← hget, hlook, hinum₃, hnext]
            rfl
          refine ih h₃ (hE.walk hw) (hN.walk hw) (fun hc => hw.calm_of hc (hcalm hc)) (hkeep₃ hanch) ?_ ?_
          · intro s' h' hw' hfol
            exact hnone s' h' (hw.trans hw') (hstep.trans hfol)
          · intro k name' s' h' hw' hfol
            exact hsome k name' s' h' (hw.trans hw') (hstep.trans hfol)

theorem Inv.wp_cwd (h : Inv sb p X L s) (hE : (s.tables.proc p).cwd = none → Tame E) (hdrop : (s.tables.proc p).dropped = false)
    {Q : Nat → Machine → Prop} (hQ : ∀ k, (s.tables.proc p).cwd = some k → Keeps X s k → Q k s) :
    Wp sb p (table .cwd) Q E s := by
  refine wp_table (fun r c hrun => ?_) fun e hrun => ?_ <;> simp only [TableOp.run] at hrun
  · split at hrun
    · next k hcwd =>
      cases hrun
      refine hQ _ hcwd (Or.inr (Tables.refs_pos_of_cwd (h.procs p (by simp [hcwd])) ?_))
      simp [Proc.inCwd, hcwd, hdrop]
    · cases hrun
  · split at hrun
    · cases hrun
    · next hcwd =>
      cases hrun
      exact (hE hcwd).panic _

theorem Inv.wp_idup (h : Inv sb p X L s) (hk : Keeps X s k)
    (hQ : ∀ s', Inv sb p (k ::ₘ X) L s' → Walk sb C (k ::ₘ X) s s' →
      s'.node sb = s.node sb → Q () s') : Wp sb p (table (.idup k)) Q E s := by
  have hpos := h.ref_pos hk
  have hal : Nodes.allowed (.idup k) (s.nodes sb) = true := decide_eq_true hpos
  refine wp_table_ok rfl (hQ _ ?_ (walk_step rfl rfl rfl rfl) rfl)
  refine h.step (h.settled.table (p := p) (r := ()) hal rfl) rfl rfl rfl (fun _ => hpos) ?_
    (fun l hl => (count_cons_of_ne X hl).symm) (h.lock k) (fun _ _ => Iff.rfl)
    fun hl => ⟨?_, (h.locked k hl).2⟩
  · have := h.ref k
    rw [count_cons_self]
    change (s.slot k).ref + 1 = _
    omega
  · change 0 < (s.slot k).ref + 1
    omega

/-- **`namex` returns a reference to the inode that the path leads to.** -/
theorem Inv.wp_namex {parent : Bool} {path : List UInt8} (h : Inv sb p X L s)
    (hE : Excused sb C X L s E) (hnocwd : (s.tables.proc p).cwd = none → Tame E)
    (hdrop : (s.tables.proc p).dropped = false) (hcalm : C → Calm sb X s)
    {Q : Option (Nat × Name) → Machine → Prop} (hnone : ∀ s', Inv sb p X L s' → Walk sb C X s s' →
      s.resolve sb p parent path = none → Q none s')
    (hsome : ∀ k name s', Inv sb p (k ::ₘ X) L s' → Walk sb C X s s' →
      s.resolve sb p parent path = some (s'.inum k, name) →
      (C → Anchored sb X s' (s'.inum k)) → Q (some (k, name)) s') :
    Wp sb p (namex path parent) Q E s := by
  have hN : Within sb (s.node sb) s := fun _ _ => rfl
  rw [namex]
  refine Wp.ite (fun hslash => Wp.bind ?_) fun hslash => Wp.bind ?_
  · have hres : s.resolve sb p parent path = follow (s.node sb) parent (elems path) rootIno := by
      rw [Machine.resolve, Machine.start, if_pos hslash]
      rfl
    refine h.wp_iget (C := C) (fun hfull _ => hE.full fun k _ hk _ _ => .inl (hfull k hk)) h.root
      fun ip s₁ h₁ hw₁ _ hinum _ => ?_
    rw [hres, ← hinum] at hnone hsome
    refine h₁.wp_namexLoop (elems path) (hE.walk hw₁) (hN.walk hw₁)
      (fun hc => hw₁.calm_of hc (hcalm hc)) (fun hc => ?_)
      (fun s' h' hw => hnone s' h' (hw₁.trans hw)) fun k name s' h' hw =>
        hsome k name s' h' (hw₁.trans hw)
    rw [hinum]
    exact hw₁.anchored hc (hcalm hc).root
  · refine h.wp_cwd hnocwd hdrop fun ip hcwd hkeep => Wp.bind (h.wp_idup (C := C) hkeep ?_)
    intro s₁ h₁ hw₁ _
    obtain ⟨hw₁, hinum, -⟩ := hw₁.drop
    have hres : s.resolve sb p parent path =
        follow (s.node sb) parent (elems path) (s₁.inum ip) := by
      rw [Machine.resolve, Machine.start, if_neg hslash, hcwd, hinum]
      rfl
    rw [hres] at hnone hsome
    refine h₁.wp_namexLoop (elems path) (hE.walk hw₁) (hN.walk hw₁)
      (fun hc => hw₁.calm_of hc (hcalm hc)) (fun hc => ?_)
      (fun s' h' hw => hnone s' h' (hw₁.trans hw)) fun k name s' h' hw =>
        hsome k name s' h' (hw₁.trans hw)
    exact Or.inr ⟨ip, hw₁.keeps_iff.mpr hkeep, rfl⟩

theorem Inv.wp_namei {path : List UInt8} (h : Inv sb p X L s)
    (hE : Excused sb C X L s E) (hnocwd : (s.tables.proc p).cwd = none → Tame E)
    (hdrop : (s.tables.proc p).dropped = false) (hcalm : C → Calm sb X s)
    {Q : Option Nat → Machine → Prop} (hnone : ∀ s', Inv sb p X L s' → Walk sb C X s s' →
      s.resolve sb p false path = none → Q none s')
    (hsome : ∀ k name s', Inv sb p (k ::ₘ X) L s' → Walk sb C X s s' →
      s.resolve sb p false path = some (s'.inum k, name) →
      (C → Anchored sb X s' (s'.inum k)) → Q (some k) s') : Wp sb p (namei path) Q E s := by
  rw [namei]
  exact Wp.bind (h.wp_namex hE hnocwd hdrop hcalm (fun s' h' hw hr => Wp.pure (hnone s' h' hw hr))
    fun k name s' h' hw hr ha => Wp.pure (hsome k name s' h' hw hr ha))

end Alone

end Xv6.Kernel
