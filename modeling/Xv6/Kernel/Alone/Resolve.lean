import Xv6.Kernel.Alone.Failing

namespace Xv6.Kernel

open Fs Hoare Program

/-- The maximal runs of bytes other than slashes, each cut to `DIRSIZ` bytes. -/
def components (path : List UInt8) : List Name :=
  ((path.splitOnP (· == slash)).filter (· ≠ [])).map (List.take dirSiz)

theorem components_slash (path : List UInt8) : components (slash :: path) = components path := by
  rw [components, List.splitOnP_cons_eq_if_modifyHead, if_pos (by simp)]
  rfl

theorem components_dropWhile (path : List UInt8) :
    components (path.dropWhile (· = slash)) = components path := by
  induction path with
  | nil => rfl
  | cons c path ih =>
    by_cases hc : c = slash
    · subst hc
      rw [List.dropWhile_cons_of_pos (by simp), ih, components_slash]
    · rw [List.dropWhile_cons_of_neg (by simpa using hc)]

theorem components_run {run rest : List UInt8} (hrun : ∀ c ∈ run, c ≠ slash) (hne : run ≠ [])
    (hrest : ∀ c, rest.head? = some c → c = slash) :
    components (run ++ rest) = run.take dirSiz :: components rest := by
  have hno : ∀ c ∈ run, (c == slash) = false := by simpa using hrun
  cases rest with
  | nil =>
    rw [List.append_nil, components, List.splitOnP_eq_singleton hno,
      List.filter_cons_of_pos (by simpa using hne)]
    rfl
  | cons c rest =>
    obtain rfl := hrest c rfl
    rw [components_slash, components,
      List.splitOnP_append_cons_of_forall_mem hno slash (by simp), List.filter_cons_of_pos (by simpa using hne), List.map_cons, components]

theorem elemsUpTo_eq {n : Nat} {path : List UInt8} (h : path.length ≤ n) :
    elemsUpTo n path = components path := by
  induction n generalizing path with
  | zero =>
    obtain rfl := List.length_eq_zero_iff.mp (Nat.le_zero.mp h)
    rfl
  | succ n ih =>
    rw [elemsUpTo, ← components_dropWhile path, skipelem]
    generalize hq : path.dropWhile (· = slash) = q
    have hlen : q.length ≤ path.length := hq ▸ (List.dropWhile_sublist _).length_le
    by_cases hnil : q = []
    · subst hnil
      rfl
    · -- the first byte is not a slash, so the run is not empty
      have hhead : ∃ c t, q = c :: t ∧ c ≠ slash := by
        obtain ⟨c, t, rfl⟩ := List.exists_cons_of_ne_nil hnil
        have := List.head_dropWhile_not (fun c => decide (c = slash)) (l := path)
          (by rw [hq]; exact hnil)
        simp only [hq, List.head_cons, decide_eq_false_iff_not] at this
        exact ⟨c, t, rfl, this⟩
      obtain ⟨c, t, rfl, hc⟩ := hhead
      have hrun : (c :: t).takeWhile (· ≠ slash) ≠ [] := by simp [hc]
      have hsplit := List.takeWhile_append_dropWhile (p := (· ≠ slash)) (l := c :: t)
      rw [if_neg hnil]
      simp only
      rw [ih, components_dropWhile]
      · conv_rhs => rw [← hsplit]
        rw [components_run (fun x hx => by simpa using List.mem_takeWhile_imp hx) hrun]
        intro x hx
        have := List.head?_dropWhile_not (fun x => decide (x ≠ slash)) (c :: t)
        rw [hx] at this
        simpa using this
      · have hpos := List.length_pos_of_ne_nil hrun
        have hle := congrArg List.length hsplit
        have := (List.dropWhile_sublist (· = slash)
          (l := (c :: t).dropWhile (· ≠ slash))).length_le
        rw [List.length_append] at hle
        omega

/-- **`skipelem` finds the components.** -/
theorem elems_eq_components (path : List UInt8) : elems path = components path :=
  elemsUpTo_eq (Nat.le_refl _)

/-- `dirlookup` of a name, if inode `i` is a directory. -/
def dirStep (N : Nat → Node) (i : Nat) (name : Name) : Option Nat :=
  if (N i).type = tDir then (lookup (N i).data name).map fun j => (entryAt (N i).data j).inum
  else none

def Machine.target (sb : Superblock) (s : Machine) (p : Nat) (path : List UInt8) : Option Nat :=
  (s.start p path).bind ((components path).foldlM (dirStep (s.node sb)))

/-- The directory that all components but the last lead to, and the last. -/
def Machine.parentOf (sb : Superblock) (s : Machine) (p : Nat) (path : List UInt8) :
    Option (Nat × Name) :=
  (components path).getLast?.bind fun name =>
    ((s.start p path).bind ((components path).dropLast.foldlM (dirStep (s.node sb)))).bind
      fun i => if (s.node sb i).type = tDir then some (i, name) else none

variable {N : Nat → Node}

variable {i : Nat}

theorem dirStep_of_dir (h : (N i).type = tDir) (name : Name) :
    dirStep N i name = (lookup (N i).data name).map fun j => (entryAt (N i).data j).inum :=
  if_pos h

theorem dirStep_of_not (h : (N i).type ≠ tDir) (name : Name) : dirStep N i name = none :=
  if_neg h

theorem follow_false (es : List Name) (i : Nat) :
    follow N false es i = (es.foldlM (dirStep N) i).map fun j => (j, []) := by
  induction es generalizing i with
  | nil => rfl
  | cons name rest ih =>
    rw [follow, List.foldlM_cons]
    by_cases hdir : (N i).type = tDir
    · rw [if_neg (not_not.mpr hdir), dirStep_of_dir hdir]
      cases lookup (N i).data name with
      | none => rfl
      | some j => exact ih _
    · rw [if_pos hdir, dirStep_of_not hdir]
      rfl

theorem follow_true (es : List Name) (i : Nat) :
    follow N true es i = es.getLast?.bind fun name =>
      (es.dropLast.foldlM (dirStep N) i).bind fun d =>
        if (N d).type = tDir then some (d, name) else none := by
  induction es generalizing i with
  | nil => rfl
  | cons name rest ih =>
    rw [follow]
    cases rest with
    | nil =>
      by_cases hdir : (N i).type = tDir
      · rw [if_neg (not_not.mpr hdir)]
        exact (if_pos hdir).symm
      · rw [if_pos hdir]
        exact (if_neg hdir).symm
    | cons name' rest =>
      rw [List.dropLast_cons_cons, List.foldlM_cons, List.getLast?_cons_cons]
      by_cases hdir : (N i).type = tDir
      · rw [if_neg (not_not.mpr hdir), dirStep_of_dir hdir]
        cases lookup (N i).data name with
        | none => cases (name' :: rest).getLast? <;> rfl
        | some j => exact ih _
      · rw [if_pos hdir, dirStep_of_not hdir]
        cases (name' :: rest).getLast? <;> rfl

theorem Machine.resolve_false (sb : Superblock) (s : Machine) (p : Nat) (path : List UInt8) :
    s.resolve sb p false path = (s.target sb p path).map fun i => (i, []) := by
  rw [resolve, target, elems_eq_components]
  cases s.start p path <;> simp [follow_false]

theorem Machine.resolve_true (sb : Superblock) (s : Machine) (p : Nat) (path : List UInt8) :
    s.resolve sb p true path = s.parentOf sb p path := by
  rw [resolve, parentOf, elems_eq_components]
  cases s.start p path with
  | none => cases (components path).getLast? <;> rfl
  | some i => simp [follow_true]

theorem Machine.target_eq (sb : Superblock) (s : Machine) (p : Nat) {path : List UInt8}
    (h : components path ≠ []) : s.target sb p path =
      (s.parentOf sb p path).bind fun x => dirStep (s.node sb) x.1 x.2 := by
  rw [target, parentOf, List.getLast?_eq_getLast_of_ne_nil h]
  conv_lhs => rw [← List.dropLast_append_getLast h]
  cases s.start p path with
  | none => rfl
  | some i =>
    simp only [Option.bind_some, List.foldlM_append, List.foldlM_cons, List.foldlM_nil, bind_pure]
    cases (components path).dropLast.foldlM (dirStep (s.node sb)) i with
    | none => rfl
    | some d =>
      by_cases hd : (s.node sb d).type = tDir
      · rw [Option.bind_some, if_pos hd]
        rfl
      · rw [Option.bind_some, if_neg hd]
        exact dirStep_of_not hd _

theorem Machine.type_of_parentOf {sb : Superblock} {s : Machine} {p : Nat} {path : List UInt8}
    {name : Name} (h : s.parentOf sb p path = some (i, name)) : (s.node sb i).type = tDir := by
  obtain ⟨_, -, h⟩ := Option.bind_eq_some_iff.mp h
  obtain ⟨d, -, h⟩ := Option.bind_eq_some_iff.mp h
  split at h
  · next hd =>
    cases h
    exact hd
  · cases h

namespace Alone

variable {sb : Superblock} {p : Nat} {s : Machine} {path : List UInt8}

/-- A well-formed directory tree: inodes in use and named by entries are allocated, and directories
have whole entries. -/
structure Tree (sb : Superblock) (p : Nat) (s : Machine) : Prop extends Wellformed sb p s where
  sound : Sound sb 0 s
  cwd : (s.tables.proc p).cwd ≠ none

/-- `icache` has no room for the two inodes that `namex` holds at a time. -/
def NoSlot (s : Machine) (e : Stop) : Prop := e = .panic "iget: no inodes" ∧ Crowded 0 s

/-- The disk is as before, and there is one more reference, to the slot that is returned. -/
structure OneMore (s : Machine) (r : Option Nat) (s' : Machine) : Prop where
  disk : s'.store.disk = s.store.disk
  ref : ∀ k, (s'.slot k).ref = (s.slot k).ref + if r = some k then 1 else 0

/-- `nameiparent`, followed by `dirlookup` of the name in the directory. -/
def lookupInParent (path : List UInt8) : Prog (Option Nat) := do
  match ← nameiparent path with
  | none => return none
  | some (dp, name) =>
    ilock dp
    let r ← dirlookup dp name
    iunlockput dp
    return r.map Prod.fst

theorem Inv.oneMore {X : Multiset Nat} {s' : Machine} {r : Option Nat} (h : Inv sb p 0 ∅ s)
    (h' : Inv sb p X ∅ s') (hw : Walk sb True 0 s s')
    (hX : ∀ k, X.count k = if r = some k then 1 else 0) : OneMore s r s' := by
  refine ⟨hw.disk trivial, fun k => ?_⟩
  rw [h'.ref, h.ref, Tables.refs_congr hw.ftable hw.proc, hX, Multiset.count_zero]
  split <;> omega

theorem Tree.excused (h : Tree sb p s) : Excused sb True 0 ∅ s (NoSlot s) :=
  .inr ⟨trivial, rfl, h.sound, fun hc => ⟨rfl, hc⟩⟩

theorem count_cons_zero (k l : Nat) :
    (k ::ₘ (0 : Multiset Nat)).count l = if some k = some l then 1 else 0 := by
  rw [Multiset.count_cons, Multiset.count_zero, Nat.zero_add]
  simp only [Option.some.injEq, eq_comm]

theorem Tree.wp_namei (h : Tree sb p s) : Wp sb p (namei path)
    (fun r s' => OneMore s r s' ∧ r.map s'.inum = s.target sb p path) (NoSlot s) s := by
  refine h.inv.wp_namei h.excused (fun hn => absurd hn h.cwd) h.dropped (fun _ => h.calm)
    (fun s' h' hw hr => ?_) fun k name s' h' hw hr _ => ?_ <;> rw [Machine.resolve_false] at hr
  · exact ⟨h.inv.oneMore h' hw fun _ => rfl, (Option.map_eq_none_iff.mp hr).symm⟩
  · obtain ⟨i, hi, heq⟩ := Option.map_eq_some_iff.mp hr
    exact ⟨h.inv.oneMore h' hw (count_cons_zero k), by rw [hi, (Prod.mk.inj heq).1]; rfl⟩

theorem Tree.wp_nameiparent (h : Tree sb p s) : Wp sb p (nameiparent path)
    (fun r s' => OneMore s (r.map Prod.fst) s' ∧
      r.map (fun x => (s'.inum x.1, x.2)) = s.parentOf sb p path) (NoSlot s) s := by
  refine h.inv.wp_namex h.excused (fun hn => absurd hn h.cwd) h.dropped (fun _ => h.calm)
    (fun s' h' hw hr => ?_) fun k name s' h' hw hr _ => ?_ <;> rw [Machine.resolve_true] at hr
  · exact ⟨h.inv.oneMore h' hw fun _ => rfl, hr.symm⟩
  · exact ⟨h.inv.oneMore h' hw (count_cons_zero k), hr.symm⟩

theorem Tree.wp_lookupInParent (h : Tree sb p s) (hne : components path ≠ []) :
    Wp sb p (lookupInParent path)
      (fun r s' => OneMore s r s' ∧ r.map s'.inum = s.target sb p path) (NoSlot s) s := by
  rw [lookupInParent, nameiparent, s.target_eq sb p hne]
  refine Wp.bind (h.inv.wp_namex h.excused (fun hn => absurd hn h.cwd) h.dropped (fun _ => h.calm)
    (fun s₁ h₁ hw₁ hr => ?_) fun dp name s₁ h₁ hw₁ hr hanch => ?_) <;>
    rw [Machine.resolve_true] at hr <;> rw [hr]
  · exact Wp.pure ⟨h.inv.oneMore h₁ hw₁ fun _ => rfl, rfl⟩
  have hdir := Machine.type_of_parentOf hr
  have hnode₁ : s₁.node sb = s.node sb := node_eq_of_disk (hw₁.disk trivial)
  have hget₁ : s₁.get sb dp = s.node sb (s₁.inum dp) := congrFun hnode₁ _
  refine Wp.bind (h₁.wp_ilock (C := True) (fun hn => ?_) (keeps_self dp 0 s₁) ?_)
  · rw [hget₁, hdir] at hn
    exact absurd (hn.resolve_left (Finset.notMem_empty dp)) (by decide)
  intro s₂ h₂ hw₂ hnode₂ hdpL _
  have hget₂ : s₂.get sb dp = s.node sb (s₁.inum dp) :=
    (hw₂.get (keeps_self dp 0 s₁)).trans hget₁
  obtain ⟨hw₂, -, hkeep₂⟩ := hw₂.drop
  have hput := hkeep₂ hanch
  have hstep := dirStep_of_dir hdir name
  rw [← hget₂] at hstep
  refine Wp.bind (h₂.wp_dirlookup (C := True) (fun hn => ?_) (fun hfull _ => ?_)
    (Finset.mem_insert_self dp ∅) (fun _ hl => ?_) ?_)
  · rw [hget₂] at hn
    exact absurd ⟨hdir, h.sound.size _ hdir⟩ hn
  · exact ⟨rfl, hw₁.crowded_iff.mp (hw₂.crowded_iff.mp hfull.crowded)⟩
  · refine Wp.bind (h₂.wp_iunlockput hdpL (fun hc => absurd trivial hc) hput
      fun s₃ h₃ hw₃ => Wp.pure ?_)
    rw [hl] at hstep
    exact ⟨h.inv.oneMore h₃ (hw₁.trans (hw₂.trans hw₃)) fun _ => rfl, hstep.symm⟩
  intro ip j s₃ h₃ hw₃ _ _ hl hinum₃ _
  obtain ⟨hw₃, -, hkeep₃⟩ := hw₃.drop
  rw [Multiset.cons_swap] at h₃
  refine Wp.bind (h₃.wp_iunlockput (C := True) hdpL (fun hc => absurd trivial hc) (fun hc => ?_)
    fun s₄ h₄ hw₄ => Wp.pure ?_)
  · exact (hkeep₃ hput hc).mono fun _ => Multiset.mem_cons_of_mem
  · obtain ⟨hw₄, hinum₄, -⟩ := hw₄.drop
    rw [hl] at hstep
    refine ⟨h.inv.oneMore h₄ (hw₁.trans (hw₂.trans (hw₃.trans hw₄))) (count_cons_zero ip), ?_⟩
    exact (congrArg some (hinum₄.trans hinum₃)).trans hstep.symm

/-- **Paths are folds of directory lookups.** `namei` returns the inode that the components lead to,
`nameiparent` the directory before the last one and its name, and `namei` finds what `dirlookup`
finds there; each returns with one more reference if it succeeds, and with none if it fails. They
stop only when `icache` is full. -/
theorem path_resolution (h : Tree sb p s) (path : List UInt8) :
    Wp sb p (namei path)
      (fun r s' => OneMore s r s' ∧ r.map s'.inum = s.target sb p path) (NoSlot s) s ∧
    Wp sb p (nameiparent path)
      (fun r s' => OneMore s (r.map Prod.fst) s' ∧
        r.map (fun x => (s'.inum x.1, x.2)) = s.parentOf sb p path) (NoSlot s) s ∧
    (components path = [] → s.parentOf sb p path = none) ∧
    (components path ≠ [] → Wp sb p (lookupInParent path)
      (fun r s' => OneMore s r s' ∧ r.map s'.inum = s.target sb p path) (NoSlot s) s) := by
  refine ⟨h.wp_namei, h.wp_nameiparent, fun hnil => ?_, h.wp_lookupInParent⟩
  rw [Machine.parentOf, hnil]
  rfl

theorem tree_fresh : Tree Mkfs.sb 0 (fresh (fun _ => noFile) fun _ => none) := by
  have hwf : Wellformed Mkfs.sb 0 (fresh (fun _ => noFile) fun _ => none) :=
    wellformed_fresh fun _ => by decide
  refine ⟨hwf, ⟨fun k hk => ?_, fun i _ => ?_⟩, Option.some_ne_none 0⟩
  · obtain rfl := slot_fresh_pos (hwf.inv.ref_pos hk)
    have hroot : (fresh (fun _ => noFile) fun _ => none).inum 0 = rootIno := rfl
    rw [Machine.get, node_fresh, if_pos hroot]
    decide
  · rw [node_fresh]
    split <;> exact Nat.dvd_zero _

/-- `"//a"` in an empty root directory. -/
theorem path_resolution_fresh : ∃ s',
    Tree Mkfs.sb 0 (fresh (fun _ => noFile) fun _ => none) ∧
    components [slash, slash, 97] = [[97]] ∧
    Program.exec (Machine.handler Mkfs.sb 0) (namei [slash, slash, 97])
      (fresh (fun _ => noFile) fun _ => none) = .ok (none, s') ∧
    OneMore (fresh (fun _ => noFile) fun _ => none) none s' := by
  have hrun : (Program.exec (Machine.handler Mkfs.sb 0) (namei [slash, slash, 97])
      (fresh (fun _ => noFile) fun _ => none)).map Prod.fst = .ok none := by
    rw [fresh, Mkfs.blank, Mkfs.balloc_eq]
    decide +kernel
  obtain ⟨s', hres⟩ := exists_of_map_fst hrun
  have hwp := fun path => And.left (path_resolution tree_fresh path)
  exact ⟨s', tree_fresh, by decide, hres, ((hwp _).ok hres).1⟩

end Alone

end Xv6.Kernel
