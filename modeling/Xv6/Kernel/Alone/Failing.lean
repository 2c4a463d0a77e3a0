import Xv6.Kernel.Alone.Create

/-!
# Calls on paths that fail

`link`, `unlink`, `mkdir`, `mknod` and `chdir` return -1 without having changed anything. No inode
is freed on the way, because every inode that a directory names has links or is in use. Only `link`
has written to the disk when it fails, and it writes the old number of links again.
-/

namespace Xv6.Kernel.Alone

open Fs Hoare Program
open Multiset (mem_cons_of_mem notMem_zero)

/-- A call on paths; a path is `none` if `argstr` or `argint` fails. -/
inductive PathCall
  | link (old new : Option (List UInt8))
  | unlink (path : Option (List UInt8))
  | mkdir (path : Option (List UInt8))
  | mknod (path : Option (List UInt8)) (major minor : Int16)
  | chdir (path : Option (List UInt8))

def PathCall.prog : PathCall → Prog Bool
  | .link (some old) (some new) => sysLink old new
  | .link _ _ => return false
  | .unlink (some path) => sysUnlink path
  | .unlink none => return false
  | .mkdir path => sysMkdir path
  | .mknod path major minor => sysMknod path major minor
  | .chdir path => sysChdir path

/-- No call is under way: no inode is locked and reference counts are exact. The disk has no holes
and the free map agrees with the inodes, entries name inodes in the range of the inode table, and
every inode that is named has links or is in use. -/
structure Wellformed (sb : Superblock) (p : Nat) (s : Machine) : Prop where
  inv : Inv sb p 0 ∅ s
  calm : Calm sb 0 s
  dropped : (s.tables.proc p).dropped = false

/-- The disk, with directories, inodes and the free map, the current directory, and all reference
counts are as before. -/
structure Unchanged (p : Nat) (s s' : Machine) : Prop where
  disk : s'.store.disk = s.store.disk
  cwd : (s'.tables.proc p).cwd = (s.tables.proc p).cwd
  ref : ∀ k, (s'.slot k).ref = (s.slot k).ref
  used : ∀ k, 0 < (s.slot k).ref → s'.inum k = s.inum k ∧ (s'.slot k).dev = (s.slot k).dev

variable {sb : Superblock} {p ip dp i : Nat} {X : Multiset Nat} {L : Finset Nat}
  {s s₁ : Machine} {path : List UInt8}

theorem Wellformed.unchanged (h : Wellformed sb p s) (h₁ : Inv sb p 0 ∅ s₁)
    (hw : Walk sb True 0 s s₁) : Unchanged p s s₁ := by
  have href : ∀ k, (s₁.slot k).ref = (s.slot k).ref := fun k => by
    rw [h₁.ref, h.inv.ref, Tables.refs_congr hw.ftable hw.proc]
  refine ⟨hw.disk trivial, by rw [hw.proc], href, fun k hk => ?_⟩
  refine ⟨hw.inum k (h.inv.keeps_of_pos hk), ?_⟩
  rw [show (s.slot k).dev = rootDev from (h.inv.settled.slots k hk).2]
  exact (h₁.settled.slots k (href k ▸ hk)).2

/-- Nothing is asked of a program that succeeds. -/
theorem wp_of_always {m : Prog Bool} (hm : Always (· = true) m) (s s₁ : Machine) :
    Wp sb p m (fun r s' => r = false → Unchanged p s s') (fun _ => True) s₁ :=
  (hm.wp_exec s₁).mono (fun _ _ hr hf => absurd (hr.symm.trans hf) (by simp)) fun _ _ => trivial

theorem tame_true {P : Prop} (_ : P) : Tame fun _ => True := fun _ _ => trivial

theorem Wellformed.wp_end (h : Wellformed sb p s) (h₁ : Inv sb p 0 ∅ s₁)
    (hw : Walk sb True 0 s s₁) : Wp sb p (do
      endOp
      return false) (fun r s' => r = false → Unchanged p s s') (fun _ => True) s₁ :=
  Wp.bind (h₁.wp_endOp fun _ h₂ hsame => Wp.pure fun _ => h.unchanged h₂ (hw.trans hsame.walk))

theorem always_unlinkEntry (dp j ip : Nat) : Always (· = true) (unlinkEntry dp j ip) := by
  rw [unlinkEntry]
  refine .bind _ fun r => ?_
  split
  · exact fun r => r.elim
  · refine .bind _ fun a => ?_
    split
    · exact .bind _ fun _ => .bind _ fun _ => .bind _ fun _ => .bind _ fun _ => .bind _ fun _ => rfl
    · exact .bind _ fun _ => .bind _ fun _ => .bind _ fun _ => .bind _ fun _ => rfl

theorem Wellformed.wp_unlinkBad (h : Wellformed sb p s) (h₁ : Inv sb p (dp ::ₘ 0) (insert dp ∅) s₁)
    (hw : Walk sb True 0 s s₁) (ha : Anchored sb 0 s₁ (s₁.inum dp)) :
    Wp sb p (unlinkBad dp) (fun r s' => r = false → Unchanged p s s') (fun _ => True) s₁ := by
  rw [unlinkBad]
  exact Wp.bind (h₁.wp_iunlockput (Finset.notMem_empty dp) tame_true
    (fun _ => ha) fun s₂ h₂ hw₂ => h.wp_end h₂ (hw.trans hw₂))

theorem Wellformed.begun (h : Wellformed sb p s) (h₁ : Inv sb p 0 ∅ s₁) (hsame : SameState s s₁) :
    Wellformed sb p s₁ :=
  have hwalk : Walk sb True 0 s s₁ := hsame.walk
  ⟨h₁, hwalk.calm_of trivial h.calm, by
    rw [hsame.tables]
    exact h.dropped⟩

theorem Wellformed.wp_sysUnlink (h : Wellformed sb p s) :
    Wp sb p (sysUnlink path) (fun r s' => r = false → Unchanged p s s') (fun _ => True) s := by
  rw [sysUnlink, nameiparent]
  refine Wp.bind (h.inv.wp_beginOp (tame_true trivial) fun s₀ h₀ hsame => Wp.bind ?_)
  have hwf := h.begun h₀ hsame
  have hw₀ : Walk sb True 0 s s₀ := hsame.walk
  refine h₀.wp_namex (C := True) (.inl (tame_true trivial)) tame_true hwf.dropped (fun _ => hwf.calm) (fun s₁ h₁ hw₁ _ => ?_) ?_
  · exact h.wp_end h₁ (hw₀.trans hw₁)
  intro dp name s₁ h₁ hw₁ _ hanch₁
  refine Wp.bind (h₁.wp_ilock (C := True) tame_true (keeps_self dp 0 s₁) ?_)
  intro s₂ h₂ hw₂ _ hdpL _
  obtain ⟨hw₂, -, hkeep₂⟩ := hw₂.drop
  have hw : Walk sb True 0 s s₂ := hw₀.trans (hw₁.trans hw₂)
  have hdp : dp ∈ insert dp (∅ : Finset Nat) := Finset.mem_insert_self dp ∅
  have hanch := hkeep₂ hanch₁ trivial
  refine Wp.ite (fun _ => h.wp_unlinkBad h₂ hw hanch) fun _ => ?_
  refine Wp.bind (h₂.wp_dirlookup (C := True) tame_true (fun _ _ => trivial) hdp
    (fun _ _ => h.wp_unlinkBad h₂ hw hanch) ?_)
  intro ip j s₃ h₃ hw₃ _ hdir hl hinum₃ _
  obtain ⟨hw₃, -, hkeep₃⟩ := hw₃.drop
  have hanch₃ : True → Anchored sb (dp ::ₘ 0) s₃ (s₃.inum ip) := fun hc => by
    rw [hinum₃]
    exact (hw₃.anchored hc ((hw.calm_of hc h.calm).entry hdir hl)).mono fun _ => mem_cons_of_mem
  refine Wp.bind (h₃.wp_ilock (C := True) tame_true (keeps_self ip _ s₃) ?_)
  intro s₄ h₄ hw₄ _ hipL _
  have hip : ip ∈ insert ip (insert dp (∅ : Finset Nat)) := Finset.mem_insert_self ip _
  refine Wp.bind (h₄.wp_attrs hip (Wp.ite (fun _ => wp_panic trivial) fun _ =>
    Wp.ite (fun hipdir => ?_) fun _ => wp_of_always (always_unlinkEntry dp j ip) s s₄))
  refine Wp.bind ((h₄.isDir hip hipdir).wp_isdirempty tame_true (Wp.ite
    (fun _ => wp_of_always (always_unlinkEntry dp j ip) s s₄) fun _ => Wp.bind ?_))
  -- the directory is not empty
  obtain ⟨hw₄, -, hkeep₄⟩ := hw₄.drop
  refine h₄.wp_iunlockput hipL tame_true (hkeep₄ hanch₃) fun s₅ h₅ hw₅ => ?_
  obtain ⟨hw₃₅, -, hkeep₅⟩ := (hw₄.trans hw₅).drop
  exact h.wp_unlinkBad h₅ (hw.trans (hw₃.trans hw₃₅))
    (hkeep₅ (hkeep₃ fun _ => hanch) trivial)

theorem always_createNew (dp : Nat) (name : Name) (type major minor : Int16) :
    Always (fun r => r ≠ none) (createNew dp name type major minor) := by
  -- the entry in the parent is the last step in both cases
  have hend : ∀ ip inum, Always (fun r : Option Nat => r ≠ none) (do
      let b3 ← dirlink dp name inum
      if !b3 then panic "create: dirlink"
      else
        iunlockput dp
        return some ip : Prog (Option Nat)) := by
    intro ip inum
    refine .bind _ fun b => ?_
    split
    · exact fun r => r.elim
    · exact .bind _ fun _ => Option.some_ne_none ip
  rw [createNew]
  refine .bind _ fun did => .bind _ fun ip => .bind _ fun _ => .bind _ fun _ => .bind _ fun id => ?_
  split
  · refine .bind _ fun _ => .bind _ fun b1 => ?_
    split
    · exact fun r => r.elim
    · refine .bind _ fun b2 => ?_
      split
      · exact fun r => r.elim
      · exact hend ip id.2
  · exact hend ip id.2

theorem Wellformed.wp_sysCreate (h : Wellformed sb p s) (path : Option (List UInt8))
    {type : Int16} (htype : type ≠ tFile) (major minor : Int16) :
    Wp sb p (sysCreate path type major minor) (fun r s' => r = false → Unchanged p s s')
      (fun _ => True) s := by
  rw [sysCreate.eq_def]
  refine Wp.bind (h.inv.wp_beginOp (tame_true trivial) fun s₀ h₀ hsame => ?_)
  have hwf := h.begun h₀ hsame
  have hw₀ : Walk sb True 0 s s₀ := hsame.walk
  cases path with
  | none => exact h.wp_end h₀ hw₀
  | some path =>
    refine Wp.bind (h₀.wp_create (C := True) (tame_true trivial) hwf.dropped (fun _ => hwf.calm)
      (fun s₁ h₁ hw₁ _ => h.wp_end h₁ (hw₀.trans hw₁))
      (fun _ _ _ _ _ _ hfile => absurd hfile htype) fun dp name s₁ _ _ _ _ => ?_)
    refine (Always.wp_exec (always_createNew dp name type major minor) s₁).mono
      (fun r s₂ hr => ?_) fun _ he => he
    cases r with
    | none => exact absurd rfl hr
    | some ip =>
      refine wp_of_always (m := do
        iunlockput ip
        endOp
        return true) ?_ s s₂
      exact .bind _ fun _ => .bind _ fun _ => rfl

theorem Wellformed.wp_sysChdir (h : Wellformed sb p s) (path : Option (List UInt8)) :
    Wp sb p (sysChdir path) (fun r s' => r = false → Unchanged p s s') (fun _ => True) s := by
  rw [sysChdir.eq_def]
  refine Wp.bind (h.inv.wp_beginOp (tame_true trivial) fun s₀ h₀ hsame => ?_)
  have hwf := h.begun h₀ hsame
  have hw₀ : Walk sb True 0 s s₀ := hsame.walk
  cases path with
  | none => exact h.wp_end h₀ hw₀
  | some path =>
    refine Wp.bind (h₀.wp_namei (C := True) (.inl (tame_true trivial)) tame_true hwf.dropped (fun _ => hwf.calm)
      (fun s₁ h₁ hw₁ _ => h.wp_end h₁ (hw₀.trans hw₁)) ?_)
    intro ip name s₁ h₁ hw₁ _ hanch₁
    refine Wp.bind (h₁.wp_ilock (C := True) tame_true (keeps_self ip 0 s₁) ?_)
    intro s₂ h₂ hw₂ _ hipL _
    obtain ⟨hw₂, -, hkeep₂⟩ := hw₂.drop
    refine Wp.bind (h₂.wp_attrs (Finset.mem_insert_self ip ∅) (Wp.ite (fun _ => Wp.bind ?_)
      fun _ => wp_of_always ?_ s s₂))
    · exact h₂.wp_iunlockput hipL tame_true (hkeep₂ hanch₁) fun s₃ h₃ hw₃ =>
        h.wp_end h₃ (hw₀.trans (hw₁.trans (hw₂.trans hw₃)))
    · exact .bind _ fun _ => .bind _ fun _ => .bind _ fun _ => .bind _ fun _ => .bind _ fun _ => rfl

theorem assign_down_up (d : Dinode) : Links.assign Links.down (Links.assign Links.up d) = d := by
  simp [Links.assign, Links.up, Links.down]

/-- The links of inode `i`, which slot `ip` has, have been counted up, and nothing else has
changed. -/
structure CountedUp (sb : Superblock) (ip i : Nat) (s s₁ : Machine) : Prop where
  frame : Frame 0 s s₁
  inum : s₁.inum ip = i
  disk : s₁.store.disk = setDinode sb s.store.disk i
    (Links.assign Links.up (dinode sb s.store.disk i))

theorem CountedUp.walk {s₂ : Machine} (h : CountedUp sb ip i s s₁)
    (hw : Walk sb True (ip ::ₘ X) s₁ s₂) : CountedUp sb ip i s s₂ where
  frame := h.frame.trans (hw.toFrame.mono fun _ hk => absurd hk (notMem_zero _))
  inum := (hw.inum ip (keeps_self ip X s₁)).trans h.inum
  disk := (hw.disk trivial).trans h.disk

theorem Calm.countUp (h : Calm sb 0 s) (htab : s₁.tables = s.tables)
    (hnode : s₁.node sb = Function.update (s.node sb) (s.inum ip)
      ((s.get sb ip).setLinks Links.up))
    (hdir : (s.get sb ip).type ≠ tDir) : Calm sb (ip ::ₘ 0) s₁ := by
  have hinum : s₁.inum = s.inum := by
    funext k
    rw [Machine.inum, htab, Machine.inum]
  have hanch : ∀ i, Anchored sb 0 s i → Anchored sb (ip ::ₘ 0) s₁ i := by
    intro i hi
    by_cases hip : i = s.inum ip
    · exact Or.inr ⟨ip, keeps_self ip 0 s₁, by rw [hinum, hip]⟩
    · rcases hi with hn | ⟨k, hk, hki⟩
      · rw [Anchored, hnode, Function.update_of_ne hip]
        exact Or.inl hn
      · refine Or.inr ⟨k, ?_, by rw [hinum, hki]⟩
        rw [Keeps, htab]
        exact hk.mono fun _ hz => absurd hz (notMem_zero _)
  refine ⟨hanch _ h.root, fun i hi j hj hne => ?_⟩
  have hip : i ≠ s.inum ip := by
    rintro rfl
    rw [hnode, Function.update_self] at hi
    exact hdir hi
  rw [hnode, Function.update_of_ne hip] at hi hj hne ⊢
  exact hanch _ (h.entries i hi j hj hne)

theorem Wellformed.wp_linkBad (h : Wellformed sb p s) (h₁ : Inv sb p (ip ::ₘ 0) ∅ s₁)
    (hup : CountedUp sb ip i s s₁) (hanch : Anchored sb 0 s i) :
    Wp sb p (linkBad ip) (fun r s' => r = false → Unchanged p s s') (fun _ => True) s₁ := by
  rw [linkBad]
  refine Wp.bind (h₁.wp_ilock (C := True) tame_true (keeps_self ip 0 s₁) ?_)
  intro s₂ h₂ hw₂ _ hipL _
  have hup₂ := hup.walk hw₂
  have hip : ip ∈ insert ip (∅ : Finset Nat) := Finset.mem_insert_self ip ∅
  refine Wp.bind (wp_update h₂.settled (tame_true trivial) (h₂.held hip) fun s₃ hs₃ htab hnode hdisk => ?_)
  have hdisk₃ : s₃.store.disk = s.store.disk := by
    rw [hdisk, hup₂.inum, hup₂.disk, dinode_setDinode_self, assign_down_up, setDinode_setDinode,
      setDinode_dinode]
  have h₃ : Inv sb p (ip ::ₘ 0) (insert ip ∅) s₃ :=
    h₂.setAt hs₃ htab hnode rfl (h₂.ranged (s₂.inum ip))
  have hw : Walk sb True 0 s s₃ := (hup₂.frame.trans (frame_of_tables htab)).walk hdisk₃
  have hinum : s₃.inum ip = i := by
    rw [← hup₂.inum, Machine.inum, htab, Machine.inum]
  refine Wp.bind (h₃.wp_iunlockput (C := True) hipL tame_true (fun _ => ?_) fun s₄ h₄ hw₄ =>
    h.wp_end h₄ (hw.trans hw₄))
  rw [hinum]
  exact hw.anchored trivial hanch

theorem Wellformed.wp_sysLink (h : Wellformed sb p s) (old new : List UInt8) :
    Wp sb p (sysLink old new) (fun r s' => r = false → Unchanged p s s') (fun _ => True) s := by
  rw [sysLink, nameiparent]
  refine Wp.bind (h.inv.wp_beginOp (tame_true trivial) fun s₀ h₀ hsame => Wp.bind ?_)
  have hwf := h.begun h₀ hsame
  have hw₀ : Walk sb True 0 s s₀ := hsame.walk
  refine h₀.wp_namei (C := True) (.inl (tame_true trivial)) tame_true hwf.dropped (fun _ => hwf.calm)
    (fun s₁ h₁ hw₁ _ => h.wp_end h₁ (hw₀.trans hw₁)) ?_
  intro ip _ s₁ h₁ hw₁ _ hanch₁
  refine Wp.bind (h₁.wp_ilock (C := True) tame_true (keeps_self ip 0 s₁) ?_)
  intro s₂ h₂ hw₂ _ hipL _
  obtain ⟨hw₂, -, hkeep₂⟩ := hw₂.drop
  have hw : Walk sb True 0 s s₂ := hw₀.trans (hw₁.trans hw₂)
  have hip : ip ∈ insert ip (∅ : Finset Nat) := Finset.mem_insert_self ip ∅
  have hanch₂ := hkeep₂ hanch₁
  refine Wp.bind (h₂.wp_attrs hip (Wp.ite (fun _ => Wp.bind ?_) fun hdir => Wp.bind ?_))
  · exact h₂.wp_iunlockput hipL tame_true hanch₂ fun s₃ h₃ hw₃ =>
      h.wp_end h₃ (hw.trans hw₃)
  refine wp_update h₂.settled (tame_true trivial) (h₂.held hip) fun s₃ hs₃ htab hnode hdisk => ?_
  have h₃ : Inv sb p (ip ::ₘ 0) (insert ip ∅) s₃ :=
    h₂.setAt hs₃ htab hnode rfl (h₂.ranged (s₂.inum ip))
  have hup₃ : CountedUp sb ip (s₂.inum ip) s s₃ := by
    refine ⟨hw.toFrame.trans (frame_of_tables htab), ?_, by rw [hdisk, hw.disk trivial]⟩
    rw [Machine.inum, htab, Machine.inum]
  have hcalm₃ : Calm sb (ip ::ₘ 0) s₃ := (hw.calm_of trivial h.calm).countUp htab hnode hdir
  have hanch : Anchored sb 0 s (s₂.inum ip) := (hw.anchored_iff trivial).mp (hanch₂ trivial)
  refine Wp.bind (h₃.wp_iunlock (C := True) hipL fun s₄ h₄ hw₄ _ => Wp.bind ?_)
  have hup₄ := hup₃.walk hw₄
  have hcalm₄ := hw₄.calm_of trivial hcalm₃
  have hdrop₄ : (s₄.tables.proc p).dropped = false := by
    rw [hup₄.frame.proc]
    exact h.dropped
  refine h₄.wp_namex (C := True) (.inl (tame_true trivial)) tame_true hdrop₄ (fun _ => hcalm₄)
    (fun s₅ h₅ hw₅ _ => h.wp_linkBad h₅ (hup₄.walk hw₅) hanch) ?_
  intro dp name s₅ h₅ hw₅ _ hanch₅
  refine Wp.bind (h₅.wp_ilock (C := True) tame_true (keeps_self dp _ s₅) ?_)
  intro s₆ h₆ hw₆ _ hdpL _
  obtain ⟨hw₆, -, hkeep₆⟩ := hw₆.drop
  refine Wp.bind (wp_ident (Wp.bind (wp_ident (Wp.ite (fun hdev => ?_) fun _ => ?_))))
  · -- there is one device
    have hdp := (h₆.settled.slots dp (h₆.ref_pos (keeps_self dp _ s₆))).2
    have hip₆ := (h₆.settled.slots ip (h₆.ref_pos (Or.inl (by simp)))).2
    exact absurd (hdp.trans hip₆.symm) hdev
  refine Wp.bind (h₆.wp_dirlink (fun _ _ => trivial) (Finset.mem_insert_self dp ∅)
    (fun _ s₇ _ _ h₇ hw₇ => ?_) fun s₇ _ _ _ _ _ => ?_)
  · obtain ⟨hw₇, -, hkeep₇⟩ := hw₇.drop
    refine Wp.bind (h₇.wp_iunlockput hdpL tame_true (hkeep₇ (hkeep₆ hanch₅)) fun s₈ h₈ hw₈ => ?_)
    exact h.wp_linkBad h₈ (hup₄.walk (hw₅.trans (hw₆.trans (hw₇.trans hw₈)))) hanch
  · refine wp_of_always (m := do
      iunlockput dp
      iput ip
      endOp
      return true) ?_ s s₇
    exact .bind _ fun _ => .bind _ fun _ => .bind _ fun _ => rfl

/-- **A call on paths that fails changes nothing.** -/
theorem pathCall_unchanged (h : Wellformed sb p s) (c : PathCall) {s' : Machine}
    (hrun : Program.exec (Machine.handler sb p) c.prog s = .ok (false, s')) : Unchanged p s s' := by
  have hsame : Unchanged p s s := h.unchanged h.inv (Walk.refl s)
  have hwp : Wp sb p c.prog (fun r s' => r = false → Unchanged p s s') (fun _ => True) s := by
    match c with
    | .link (some old) (some new) => exact h.wp_sysLink old new
    | .link none _ | .link (some _) none | .unlink none => exact fun _ => hsame
    | .unlink (some path) => exact h.wp_sysUnlink
    | .mkdir path => exact h.wp_sysCreate path (by decide) 0 0
    | .mknod path major minor => exact h.wp_sysCreate path (by decide) major minor
    | .chdir path => exact h.wp_sysChdir path
  exact hwp.ok hrun rfl

def rootDir : Dinode := { Dinode.zero with type := tDir, nlink := 1 }

/-- The kernel on an image with an empty root directory, which is the current directory of
process 0. -/
def fresh (files : Nat → File) (ofile : Nat → Option Nat) : Machine where
  tables :=
    { icache := fun k => if k = 0 then ⟨rootDev, rootIno, 1, false, none, none⟩
        else ⟨0, 0, 0, false, none, none⟩
      ftable := files
      pipe := fun _ => none
      proc := fun q => if q = 0 then ⟨.live, 1, none, false, ofile, some 0, false⟩
        else ⟨.unused, 0, none, false, fun _ => none, none, false⟩
      nextpid := 2 }
  store := ⟨setDinode Mkfs.sb (Mkfs.blank Mkfs.nmeta) rootIno rootDir, 0, [], []⟩
  copy := fun _ => Dinode.zero

section Fresh

variable {files : Nat → File} {ofile : Nat → Option Nat}

theorem node_fresh (i : Nat) : (fresh files ofile).node Mkfs.sb i =
    if i = rootIno then ⟨tDir, 0, 0, 1, []⟩ else Node.free := by
  rw [Machine.node, nodeOf]
  change (if i < Mkfs.sb.ninodes ∧ (dinode Mkfs.sb (setDinode Mkfs.sb (Mkfs.blank Mkfs.nmeta) rootIno
    rootDir) i).type ≠ 0 then _ else _) = _
  by_cases hi : i = rootIno
  · subst hi
    rw [if_pos rfl, dinode_setDinode_self, if_pos ⟨by decide, by decide⟩]
    change (⟨_, _, _, _, content _ (dinode Mkfs.sb (setDinode Mkfs.sb (Mkfs.blank Mkfs.nmeta) rootIno
      rootDir) rootIno)⟩ : Node) = _
    rw [dinode_setDinode_self]
    rfl
  · rw [if_neg hi, dinode_setDinode_of_ne hi]
    refine if_neg fun hc => hc.2 ?_
    rw [Mkfs.dinode_blank hc.1]
    rfl

theorem slot_fresh_pos {k : Nat} (h : 0 < ((fresh files ofile).slot k).ref) : k = 0 := by
  by_contra hk
  have : ((fresh files ofile).slot k).ref = 0 := by simp [fresh, Machine.slot, hk]
  omega

theorem settled_fresh : Settled Mkfs.sb (fresh files ofile) where
  tables := rfl
  nodes := rfl
  geometry := Mkfs.geometry
  disk := Mkfs.diskOk_blank.take Mkfs.geometry (by decide)
    (by rw [Mkfs.dinode_blank (by decide)]; rfl) (by decide) rfl rfl
  allocs _ ha := absurd ha (by simp [fresh])
  slots k hk := by
    obtain rfl := slot_fresh_pos hk
    exact ⟨by decide, rfl⟩
  unique k l hk hl _ := (slot_fresh_pos hk).trans (slot_fresh_pos hl).symm
  valid k hk hv := by
    obtain rfl := slot_fresh_pos hk
    cases hv
  dirty _ hd := absurd rfl hd

theorem cwdCount_fresh (k : Nat) :
    (fresh files ofile).tables.cwdCount k = if k = 0 then 1 else 0 := by
  have hother : ∀ q, q ≠ 0 → ((fresh files ofile).tables.proc q).inCwd k = false := fun q hq => by
    simp [fresh, hq, Proc.inCwd]
  have hchange := countBelow_change (n := nproc) (P := fun _ => false) (by decide) hother
  have hzero : countBelow nproc (fun _ => false) = 0 := countBelow_eq_zero_iff.mpr fun _ _ => rfl
  have hself : (((fresh files ofile).tables.proc 0).inCwd k).toNat = if k = 0 then 1 else 0 := by
    by_cases hk : k = 0
    · subst hk
      rfl
    · rw [if_neg hk]
      simp [fresh, Proc.inCwd, Ne.symm hk]
  rw [hself, hzero, Bool.toNat_false, Nat.add_zero, Nat.zero_add] at hchange
  rw [Tables.cwdCount, hchange]

theorem wellformed_fresh (hfiles : ∀ f, (files f).type ≠ .inode) :
    Wellformed Mkfs.sb 0 (fresh files ofile) := by
  have hnames : ∀ k, (fresh files ofile).tables.fileCount k = 0 := fun k =>
    countBelow_eq_zero_iff.mpr fun f _ => by
      have : ((fresh files ofile).tables.ftable f).type ≠ .inode := hfiles f
      simp [File.names, this]
  have hentries : ∀ i, entryCount ((fresh files ofile).node Mkfs.sb i).data = 0 := fun i => by
    rw [node_fresh]
    split <;> rfl
  refine ⟨⟨settled_fresh, by decide, fun k hk => ?_, fun k => ?_, fun k => ?_,
    fun k hk => absurd hk (Finset.notMem_empty k), fun f hf => absurd hf (hfiles f), fun q hq => ?_,
    fun i _ j hj => ?_⟩, ⟨Or.inl ?_, fun i _ j hj => ?_⟩, rfl⟩
  · obtain rfl := slot_fresh_pos hk
    exact (by decide : rootIno < Mkfs.sb.ninodes)
  · rw [Tables.refs, hnames, cwdCount_fresh]
    by_cases hk : k = 0
    · subst hk
      rfl
    · simp [fresh, Machine.slot, hk]
  · rw [if_neg (Finset.notMem_empty k)]
    by_cases hk : k = 0 <;> simp [fresh, Machine.slot, hk]
  · by_contra hlt
    have hq0 : q ≠ 0 := fun e => hlt (by rw [e]; decide)
    simp [fresh, hq0] at hq
  · rw [hentries] at hj
    omega
  · rw [node_fresh, if_pos rfl]
    decide
  · rw [hentries] at hj
    omega

end Fresh

def noFile : File := ⟨.none, 0, false, false, 0, none, 0⟩

theorem pathCall_unchanged_unlink : ∃ s',
    Wellformed Mkfs.sb 0 (fresh (fun _ => noFile) fun _ => none) ∧
    Program.exec (Machine.handler Mkfs.sb 0) (PathCall.prog (.unlink (some [slash, 97])))
      (fresh (fun _ => noFile) fun _ => none) = .ok (false, s') ∧
    Unchanged 0 (fresh (fun _ => noFile) fun _ => none) s' := by
  have hwf : Wellformed Mkfs.sb 0 (fresh (fun _ => noFile) fun _ => none) :=
    wellformed_fresh fun _ => by decide
  have hrun : (Program.exec (Machine.handler Mkfs.sb 0) (PathCall.prog (.unlink (some [slash, 97])))
      (fresh (fun _ => noFile) fun _ => none)).map Prod.fst = .ok false := by
    rw [fresh, Mkfs.blank, Mkfs.balloc_eq]
    decide +kernel
  obtain ⟨s', hres⟩ := exists_of_map_fst hrun
  exact ⟨s', hwf, hres, pathCall_unchanged hwf _ hres⟩

theorem exec_refines_fresh : Explains Mkfs.sb
    (exec (Machine.handler Mkfs.sb 0) (sysMkdir (some [97])) (fresh (fun _ => noFile) fun _ => none))
    (exec (Nodes.handler Mkfs.sb 0) (sysMkdir (some [97]))
      ((fresh (fun _ => noFile) fun _ => none).nodes Mkfs.sb)) :=
  exec_refines _ settled_fresh

end Xv6.Kernel.Alone
