import Xv6.Mkfs.Append

/-!
# The images that mkfs leaves

The image keeps to its layout as long as there are inodes for the files, and it has no hole unless
the root directory ends at the end of a block.
-/

namespace Xv6.Mkfs

open Fs Kernel Hoare

variable {s s' : Image} {inum : Nat} {E : Failure → Prop} {g : Nat} {files done : List Input}

/-- The image after bytes have been appended to a file. -/
structure Extended (inum : Nat) (bs : List UInt8) (s s' : Image) : Prop where
  built : Built s'
  freeinode : s'.freeinode = s.freeinode
  written : ∀ i ∈ s'.written, i ∈ s.written ∨ i = inum
  type : (dinode sb s'.view inum).type = (dinode sb s.view inum).type
  nlink : (dinode sb s'.view inum).nlink = (dinode sb s.view inum).nlink
  data : content s'.view (dinode sb s'.view inum) = content s.view (dinode sb s.view inum) ++ bs
  others : ∀ i, i < sb.ninodes → (dinode sb s.view i).type ≠ 0 → i ≠ inum →
    dinode sb s'.view i = dinode sb s.view i ∧
      content s'.view (dinode sb s'.view i) = content s.view (dinode sb s.view i)

theorem Extended.refl (h : Built s) (inum : Nat) : Extended inum [] s s where
  built := h
  freeinode := rfl
  written _ hi := Or.inl hi
  type := rfl
  nlink := rfl
  data := (List.append_nil _).symm
  others _ _ _ _ := ⟨rfl, rfl⟩

theorem Extended.trans {bs cs : List UInt8} {s'' : Image} (h : Extended inum bs s s')
    (h' : Extended inum cs s' s'') : Extended inum (bs ++ cs) s s'' where
  built := h'.built
  freeinode := h'.freeinode.trans h.freeinode
  written i hi := (h'.written i hi).elim (h.written i) Or.inr
  type := h'.type.trans h.type
  nlink := h'.nlink.trans h.nlink
  data := by rw [h'.data, h.data, List.append_assoc]
  others i hi ht hne := by
    obtain ⟨hd, hc⟩ := h.others i hi ht hne
    obtain ⟨hd', hc'⟩ := h'.others i hi (by rwa [hd]) hne
    exact ⟨hd'.trans hd, hc'.trans hc⟩

theorem overwrite_end (c : List UInt8) (src : Nat → UInt8) (n : Nat) :
    overwrite c c.length src n = c ++ (List.range n).map src := by
  refine List.ext_getElem (by simp) fun o h₁ h₂ => ?_
  simp only [overwrite, List.getElem_map, List.getElem_range, List.getElem_append]
  by_cases ho : o < c.length
  · rw [dif_pos ho, if_neg (by omega), List.getD_eq_getElem _ _ ho]
  · have hlt : o < c.length + n := by simpa using h₂
    rw [dif_neg ho, if_pos ⟨by omega, hlt⟩]

theorem Appended.extended {p : Nat → UInt8} {n : Nat} (h : Appended inum p n s s') :
    Extended inum ((List.range n).map p) s s' := by
  obtain ⟨addrs, hattrs⟩ := h.result.attrs
  refine ⟨h.built, h.freeinode, fun i hi => ?_, ?_, ?_, ?_, fun i hi ht hne =>
    ⟨h.result.table i hi hne, h.result.others i hi ht hne⟩⟩
  · rw [h.written, List.mem_cons] at hi
    exact hi.symm
  · rw [hattrs]
  · rw [hattrs]
  · rw [h.result.content_eq, ← length_content s.view, overwrite_end]

theorem wp_appendChunks (h : Built s) (hi : inum < sb.ninodes)
    (ht : (dinode sb s.view inum).type ≠ 0) {cs : List (List UInt8)}
    (hcs : ∀ c ∈ cs, 0 < c.length ∧ c.length ≤ bsize) (hb : (∀ e, E e) ∨ cs = [])
    {Q : Unit → Image → Prop}
    (hQ : ∀ s', Extended inum cs.flatten s s' → (cs = [] → s' = s) → Q () s') :
    wp (appendChunks inum cs) Q E s := by
  induction cs generalizing s with
  | nil => exact hQ s (Extended.refl h inum) fun _ => rfl
  | cons c cs ih =>
    have hE : ∀ e, E e := hb.resolve_right (List.cons_ne_nil _ _)
    obtain ⟨hpos, -⟩ := hcs c List.mem_cons_self
    refine wp_bind.mpr (wp_iappend (f := 0) h hi ht hpos (Or.inl hE) fun s₁ h₁ _ => ?_)
    have hext := h₁.extended
    have hc : (List.range c.length).map (fun i => c.getD i 0) = c := by
      refine List.ext_getElem (by simp) fun i h₁ h₂ => ?_
      rw [List.getElem_map, List.getElem_range, List.getD_eq_getElem _ _ h₂]
    rw [hc] at hext
    refine ih h₁.built (by rwa [hext.type]) (fun c' hc' => hcs c' (List.mem_cons_of_mem _ hc'))
      (Or.inl hE) fun s₂ h₂ _ => hQ s₂ ?_ fun hnil => absurd hnil (List.cons_ne_nil _ _)
    exact hext.trans h₂

def direntOf (name : Name) (inum : Nat) : List UInt8 :=
  (List.range direntSize).map (direntBytes name inum)

def rootData (files : List Input) : List UInt8 :=
  direntOf dot rootIno ++ direntOf dotdot rootIno ++
    (files.zipIdx 2).flatMap fun f => direntOf f.1.base f.2

@[simp] theorem length_direntOf (name : Name) (inum : Nat) :
    (direntOf name inum).length = direntSize := by
  rw [direntOf, List.length_map, List.length_range]

theorem rootData_concat (files : List Input) (f : Input) :
    rootData (files ++ [f]) = rootData files ++ direntOf f.base (files.length + 2) := by
  rw [rootData, List.zipIdx_append, List.flatMap_append, ← List.append_assoc, ← rootData]
  simp [Nat.add_comm]

theorem length_rootData (files : List Input) :
    (rootData files).length = direntSize * (files.length + 2) := by
  induction files using List.reverseRecOn with
  | nil => simp [rootData]
  | append_singleton files f ih =>
    rw [rootData_concat, List.length_append, ih, length_direntOf, List.length_append]
    simp only [List.length_cons, List.length_nil, direntSize]
    omega

/-- The image with the files added so far. -/
structure Filled (files : List Input) (s : Image) : Prop where
  built : Built s
  freeinode : s.freeinode = files.length + 2
  written : ∀ i ∈ s.written, i < files.length + 2
  rootType : (dinode sb s.view rootIno).type = tDir
  rootLinks : (dinode sb s.view rootIno).nlink = 1
  root : content s.view (dinode sb s.view rootIno) = rootData files
  type : ∀ i, i < files.length → i + 2 < sb.ninodes → (dinode sb s.view (i + 2)).type = tFile
  file : ∀ i f, files[i]? = some f → i + 2 < sb.ninodes →
    content s.view (dinode sb s.view (i + 2)) = f.bytes

theorem Filled.rootSize (h : Filled files s) :
    (dinode sb s.view rootIno).size.toNat = direntSize * (files.length + 2) := by
  rw [← length_content s.view, h.root, length_rootData]

/-- The inode of a file is in the table, or the file is empty and the inode is in the slots behind
the table. -/
def HasInode (k : Nat) (f : Input) : Prop :=
  k < sb.ninodes ∨ f.chunks = [] ∧ iblock sb k < sb.bmapstart

/-- The inode blocks have slots for eight inodes more than the table. -/
theorem iblock_lt_iff {k : Nat} : iblock sb k < sb.bmapstart ↔ k < 208 := by
  change k / 8 + 32 < 58 ↔ k < 208
  omega

theorem HasInode.iblock_lt {k : Nat} {f : Input} (h : HasInode k f) : iblock sb k < sb.bmapstart :=
  h.elim (geometry.inodes k) And.right

/-- A file has been added: an inode, an entry in the root directory, and the contents. -/
theorem Filled.add (h : Filled done s) {f : Input} {s₁ s₂ s₃ : Image} (h₁ : Made tFile s s₁)
    (h₂ : Extended rootIno (direntOf f.base (done.length + 2)) s₁ s₂)
    (h₃ : Extended (done.length + 2) f.bytes s₂ s₃) : Filled (done ++ [f]) s₃ := by
  have hself := h₁.self
  rw [h.freeinode] at hself
  -- the inodes that were there before
  have hroot₁ := h₁.others rootIno (by decide) (by rw [h.rootType]; decide)
  have hroot₂ : (dinode sb s₂.view rootIno).type = tDir := by rw [h₂.type, hroot₁.1, h.rootType]
  have hroot₃ := h₃.others rootIno (by decide) (by rw [hroot₂]; decide) (by simp)
  have hfile : ∀ i, i < done.length → i + 2 < sb.ninodes →
      dinode sb s₃.view (i + 2) = dinode sb s.view (i + 2) ∧
        content s₃.view (dinode sb s₃.view (i + 2)) = content s.view (dinode sb s.view (i + 2)) := by
    intro i hi hlt
    have ht := h.type i hi hlt
    obtain ⟨hd₁, hc₁⟩ := h₁.others (i + 2) hlt (by rw [ht]; decide)
    obtain ⟨hd₂, hc₂⟩ := h₂.others (i + 2) hlt (by rw [hd₁, ht]; decide) (by simp)
    obtain ⟨hd₃, hc₃⟩ := h₃.others (i + 2) hlt (by rw [hd₂, hd₁, ht]; decide) (by omega)
    exact ⟨hd₃.trans (hd₂.trans hd₁), hc₃.trans (hc₂.trans hc₁)⟩
  -- the new one
  have hnew : done.length + 2 < sb.ninodes →
      (dinode sb s₃.view (done.length + 2)).type = tFile ∧
        content s₃.view (dinode sb s₃.view (done.length + 2)) = f.bytes := by
    intro hlt
    obtain ⟨hd₂, hc₂⟩ := h₂.others _ hlt (by rw [hself]; decide) (by simp)
    refine ⟨by rw [h₃.type, hd₂, hself]; rfl, ?_⟩
    rw [h₃.data, hc₂, hself]
    rfl
  have hlen : (done ++ [f]).length = done.length + 1 := by simp
  refine ⟨h₃.built, ?_, fun i hi => ?_, ?_, ?_, ?_, fun i hi hlt => ?_, fun i f' hf hlt => ?_⟩
  · rw [h₃.freeinode, h₂.freeinode, h₁.freeinode, h.freeinode, hlen]
  · rw [hlen]
    rcases h₃.written i hi with hi | hi
    · rcases h₂.written i hi with hi | hi
      · rw [h₁.written, List.mem_cons, h.freeinode] at hi
        rcases hi with hi | hi
        · omega
        · have := h.written i hi
          omega
      · rw [hi]
        simp
    · omega
  · rw [hroot₃.1, hroot₂]
  · rw [hroot₃.1, h₂.nlink, hroot₁.1, h.rootLinks]
  · rw [hroot₃.2, h₂.data, hroot₁.2, h.root, rootData_concat]
  · by_cases hin : i = done.length
    · subst hin
      exact (hnew hlt).1
    · rw [(hfile i (by omega) hlt).1]
      exact h.type i (by omega) hlt
  · by_cases hin : i < done.length
    · rw [List.getElem?_append_left hin] at hf
      rw [(hfile i hin hlt).2]
      exact h.file i f' hf hlt
    · have hi := (List.getElem?_eq_some_iff.mp hf).1
      have hin : i = done.length := by omega
      subst hin
      rw [List.getElem?_concat_length] at hf
      rw [← Option.some.inj hf]
      exact (hnew hlt).2

theorem wp_addFile (h : Filled done s) {f : Input} (hf : HasInode (done.length + 2) f)
    (hb : (∀ e, E e) ∨ (slash ∉ f.name ∧ f.chunks = []) ∧ s.freeblock + (g + 3) ≤ fsSize)
    {Q : Unit → Image → Prop}
    (hQ : ∀ s', Filled (done ++ [f]) s' → slash ∉ f.name → Spare E g s' → Q () s') :
    wp (addFile f) Q E s := by
  have hib := hf.iblock_lt
  rw [addFile]
  refine wp_bind.mpr (wp_assert (fun hc => ?_) fun hc => ?_)
  · exact hb.elim id fun hb => absurd hb.1.1 (of_decide_eq_false hc)
  have hslash : slash ∉ f.name := of_decide_eq_true hc
  rw [← h.freeinode] at hib
  refine wp_bind.mpr (wp_ialloc h.built hib (by rw [h.freeinode]; omega) (by decide) fun s₁ h₁ => ?_)
  have hroot := h₁.others rootIno (by decide) (by rw [h.rootType]; decide)
  have hsize : (dinode sb s₁.view rootIno).size.toNat + direntSize ≤ maxFile * bsize := by
    have hle := iblock_lt_iff.mp hf.iblock_lt
    rw [hroot.1, h.rootSize]
    simp only [direntSize, maxFile, ndirect, nindirect, bsize]
    omega
  refine wp_bind.mpr (wp_iappend (f := g) h₁.built (by decide) (by rw [hroot.1, h.rootType]; decide)
    (by decide) (hb.imp_right fun hb => ⟨hsize, ?_⟩) fun s₂ h₂ hg => ?_)
  · rw [h₁.freeblock]
    exact hb.2
  have hext := h₂.extended
  rw [h.freeinode] at hext ⊢
  rcases hf with hlt | ⟨hnil, -⟩
  · have hself := h₁.self
    rw [h.freeinode] at hself
    have hd := (hext.others _ hlt (by rw [hself]; decide) (by simp)).1
    refine wp_appendChunks h₂.built hlt (by rw [hd, hself]; decide) f.chunk
      (hb.imp_right fun hb => hb.1.2) fun s₃ h₃ hsame => hQ s₃ (h.add h₁ hext h₃) hslash ?_
    rcases hg with hE | hg
    · exact Or.inl hE
    · rcases hb with hE | hb
      · exact Or.inl hE
      · rw [hsame hb.1.2]
        exact Or.inr hg
  · have hbytes : f.bytes = [] := by rw [Input.bytes, hnil, List.flatten_nil]
    rw [hnil]
    refine hQ s₂ (h.add h₁ hext ?_) hslash hg
    rw [hbytes]
    exact Extended.refl h₂.built _

theorem wp_addFiles (h : Filled done s)
    (hf : ∀ i f, files[i]? = some f → HasInode (done.length + i + 2) f)
    (hb : (∀ e, E e) ∨ (∀ f ∈ files, slash ∉ f.name ∧ f.chunks = []) ∧
      s.freeblock + (g + 3 * files.length) ≤ fsSize) {Q : Unit → Image → Prop}
    (hQ : ∀ s', Filled (done ++ files) s' → (∀ f ∈ files, slash ∉ f.name) → Spare E g s' → Q () s') :
    wp (addFiles files) Q E s := by
  induction files generalizing done s with
  | nil =>
    rw [List.append_nil] at hQ
    exact hQ s h (fun _ hf => absurd hf List.not_mem_nil) (hb.imp_right fun hb => hb.2)
  | cons f files ih =>
    refine wp_bind.mpr (wp_addFile (g := g + 3 * files.length) h (hf 0 f rfl)
      (hb.imp_right fun hb => ⟨hb.1 f List.mem_cons_self, ?_⟩) fun s₁ h₁ hslash hg => ?_)
    · have := hb.2
      rw [List.length_cons] at this
      omega
    · refine ih h₁ (fun i f' hi => ?_) ?_ fun s₂ h₂ hall hg₂ => hQ s₂ ?_ ?_ hg₂
      · have := hf (i + 1) f' hi
        rwa [List.length_append, List.length_singleton, Nat.add_assoc done.length 1 i,
          Nat.add_comm 1 i]
      · rcases hb with hE | hb
        · exact Or.inl hE
        · exact hg.imp_right fun hg => ⟨fun f' hf' => hb.1 f' (List.mem_cons_of_mem _ hf'), hg⟩
      · rwa [List.append_assoc, List.singleton_append] at h₂
      · intro f' hf'
        rcases List.mem_cons.mp hf' with rfl | hf'
        · exact hslash
        · exact hall f' hf'

theorem wp_wipe {n i : Nat} {Q : Unit → Image → Prop} (hd : s.disk = fun _ => zeroBlock)
    (hs : s.sectors = i) (hle : i + n ≤ fsSize) (hQ : Q () { s with sectors := i + n }) :
    wp (wipe n i) Q E s := by
  induction n generalizing i s with
  | zero =>
    rw [Nat.add_zero, ← hs] at hQ
    rw [wipe_zero]
    exact hQ
  | succ n ih =>
    rw [wipe_succ, wp_bind]
    have hdisk : Function.update s.disk i zeroBlock = s.disk := by
      rw [Function.update_eq_self_iff, hd]
    have hmax : max s.sectors (i + 1) = i + 1 := by omega
    rw [wp, wsect, if_neg (by omega), hdisk, hmax]
    refine ih (s := { s with sectors := i + 1 }) hd rfl (by omega) ?_
    rwa [Nat.add_assoc, Nat.add_comm 1 n]

def wiped : Image where
  disk := Function.update (fun _ => zeroBlock) 1 superBytes
  sectors := fsSize
  freeinode := 1
  freeblock := nmeta
  written := []

theorem disk_wiped : wiped.disk = Function.update (fun _ => zeroBlock) 1 superBytes := rfl

theorem built_wiped : Built wiped := by
  have hzero : ∀ i, iblock sb i < sb.bmapstart → dinode sb wiped.view i = Dinode.zero := by
    intro i hi
    have hne : iblock sb i ≠ 1 := by
      change i / 8 + 32 ≠ 1
      omega
    rw [dinode_view wiped hi, dinode, disk_wiped, Function.update_of_ne hne, getDinode_zeroBlock]
  have hfree : ∀ i, i < sb.ninodes → (dinode sb wiped.view i).type = 0 := by
    intro i hi
    rw [hzero i (geometry.inodes i hi)]
    rfl
  refine ⟨⟨rfl, rfl, rfl, Nat.le_refl _, by decide, fun b hb _ => ?_, fun _ _ => rfl⟩,
    diskOk_of_empty hfree fun b hb => bit_view wiped hb, fun i hi ht => absurd (hfree i hi) ht, ?_,
    fun i _ hb => hzero i hb⟩
  · have hb : 59 ≤ b := hb
    have hne : b ≠ 1 := by omega
    rw [disk_wiped, Function.update_of_ne hne]
  · rw [disk_wiped, Function.update_self]

theorem wp_prepare {Q : Unit → Image → Prop} (hQ : Q () wiped) : wp prepare Q E start := by
  have hset : (fun s : Image => (.ok ((), { s with freeblock := nmeta }) : Except Failure _)) start =
      .ok ((), { start with freeblock := nmeta }) := rfl
  rw [prepare, wp_bind, wp_of_ok hset, wp_bind]
  refine wp_wipe (s := { start with freeblock := nmeta }) rfl rfl (Nat.zero_add _).le ?_
  rw [Nat.zero_add]
  exact wp_wsect rfl (by decide) hQ

theorem filled_nil {s₀ s₁ s₂ s₃ : Image} (hfirst : s₀.freeinode = rootIno) (hw : s₀.written = [])
    (h₁ : Made tDir s₀ s₁) (h₂ : Extended rootIno (direntOf dot rootIno) s₁ s₂)
    (h₃ : Extended rootIno (direntOf dotdot rootIno) s₂ s₃) : Filled [] s₃ := by
  have hext := h₂.trans h₃
  have hself := h₁.self
  rw [hfirst] at hself
  refine ⟨hext.built, ?_, fun i hi => ?_, ?_, ?_, ?_, fun i hi => absurd hi (Nat.not_lt_zero i),
    fun i f hf => by simp at hf⟩
  · rw [hext.freeinode, h₁.freeinode, hfirst]
    rfl
  · rcases hext.written i hi with hi | hi
    · rw [h₁.written, hfirst, hw] at hi
      simp [List.mem_singleton.mp hi]
    · simp [hi]
  · rw [hext.type, hself]
    rfl
  · rw [hext.nlink, hself]
    rfl
  · rw [hext.data, hself]
    simp [rootData, content, newDinode, Dinode.zero]

/-- The dinode of the root directory with its size rounded up. -/
def roundUp (d : Dinode) : Dinode :=
  { d with size := UInt32.ofNat ((d.size.toNat / bsize + 1) * bsize) }

/-- The image at the end: that of the files, the size of the root directory rounded up. -/
structure Finished (files : List Input) (s σ : Image) : Prop where
  filled : Filled files s
  names : ∀ f ∈ files, slash ∉ f.name
  disk : σ.disk = setDinode sb s.view rootIno (roundUp (dinode sb s.view rootIno))
  sectors : σ.sectors = fsSize
  freeblock : σ.freeblock = s.freeblock
  written : σ.written = rootIno :: s.written

theorem wp_finish (h : Filled files s) (hnames : ∀ f ∈ files, slash ∉ f.name)
    {Q : Unit → Image → Prop} (hQ : ∀ σ, Finished files s σ → Q () σ) :
    wp (do
      let din ← rinode rootIno
      winode rootIno { din with size := UInt32.ofNat ((din.size.toNat / bsize + 1) * bsize) }
      let used ← (fun s => .ok (s.freeblock, s) : ImageM Nat)
      Mkfs.assert (used < bsize * 8) "used < BSIZE*8"
      wsect sb.bmapstart (balloc used)) Q E s := by
  have hs := h.built.intact.sectors
  have hroot : iblock sb rootIno < sb.bmapstart := by decide
  refine wp_bind.mpr (wp_rinode hs hroot (wp_bind.mpr (wp_winode hs hroot (wp_bind.mpr ?_))))
  change wp (Mkfs.assert (s.freeblock < bsize * 8) "used < BSIZE*8" >>= fun _ =>
    wsect sb.bmapstart (balloc s.freeblock)) Q E (s.withDinode rootIno _)
  have hused : s.freeblock < bsize * 8 := lt_of_le_of_lt h.built.intact.hi (by decide)
  refine wp_bind.mpr (wp_assert (fun hc => absurd hused (of_decide_eq_false hc)) fun _ => ?_)
  refine wp_wsect hs (by decide) (hQ _ ⟨h, hnames, ?_, hs, rfl, rfl⟩)
  exact view_withDinode s hroot _

theorem wp_fill {s₀ : Image} (h₀ : Built s₀) (hfirst : s₀.freeinode = rootIno)
    (hw : s₀.written = []) (hfree : s₀.freeblock = nmeta)
    (hf : ∀ i f, files[i]? = some f → HasInode (i + 2) f)
    (hb : (∀ e, E e) ∨ (∀ f ∈ files, slash ∉ f.name ∧ f.chunks = []) ∧
      nmeta + (3 * files.length + 3 + 3) ≤ fsSize)
    {Q : Unit → Image → Prop} (hQ : ∀ s σ, Finished files s σ → Q () σ) :
    wp (fill files) Q E s₀ := by
  have hib : iblock sb s₀.freeinode < sb.bmapstart := by
    rw [hfirst]
    decide
  refine wp_bind.mpr (wp_ialloc h₀ hib (by rw [hfirst]; decide) (by decide) fun s₁ h₁ => ?_)
  refine wp_bind.mpr (wp_assert (fun hc => absurd hfirst (of_decide_eq_false hc)) fun _ => ?_)
  have hself := h₁.self
  rw [hfirst] at hself ⊢
  refine wp_bind.mpr (wp_iappend (f := 3 * files.length + 3) h₁.built (by decide)
    (by rw [hself]; decide) (by decide) (hb.imp_right fun hb => ⟨?_, ?_⟩) fun s₂ h₂ hg₂ => ?_)
  · rw [hself]
    decide
  · rw [h₁.freeblock, hfree]
    exact hb.2
  have hsize := h₂.size
  have htype := h₂.extended.type
  rw [hself] at hsize htype
  refine wp_bind.mpr (wp_iappend (f := 3 * files.length) h₂.built (by decide)
    (by rw [htype]; decide) (by decide) (hg₂.imp_right fun hg => ⟨?_, hg⟩) fun s₃ h₃ hg₃ => ?_)
  · rw [hsize]
    decide
  refine wp_bind.mpr (wp_addFiles (g := 0)
    (filled_nil hfirst hw h₁ h₂.extended h₃.extended) (fun i f hi => ?_) ?_ fun s₄ h₄ hnames _ => ?_)
  · rw [List.length_nil, Nat.zero_add]
    exact hf i f hi
  · rcases hb with hE | hb
    · exact Or.inl hE
    · refine hg₃.imp_right fun hg => ⟨hb.1, ?_⟩
      rwa [Nat.zero_add]
  · exact wp_finish h₄ hnames fun σ hσ => hQ s₄ σ hσ

/-- The image that `mkfs` leaves, and that it leaves one for files without contents. -/
theorem wp_main (hf : ∀ i f, files[i]? = some f → HasInode (i + 2) f)
    (hb : (∀ e, E e) ∨ ∀ f ∈ files, slash ∉ f.name ∧ f.chunks = [])
    {Q : Unit → Image → Prop} (hQ : ∀ s σ, Finished files s σ → Q () σ) :
    wp (main files) Q E start := by
  have hlen : files.length < 207 := by
    by_contra hge
    have hlt : 206 < files.length := by omega
    have hle := iblock_lt_iff.mp (hf 206 _ (List.getElem?_eq_getElem hlt)).iblock_lt
    omega
  have hroom : nmeta + (3 * files.length + 3 + 3) ≤ fsSize := by
    have h59 : nmeta = 59 := rfl
    simp only [h59, fsSize]
    omega
  rw [main]
  refine wp_bind.mpr (wp_prepare ?_)
  exact wp_fill built_wiped rfl rfl rfl hf (hb.imp_right fun hb => ⟨hb, hroom⟩) hQ

theorem main_of_ok {σ : Image} (hσ : mkfs files = .ok σ) : main files start = .ok ((), σ) := by
  rw [mkfs] at hσ
  cases hmain : main files start with
  | error e =>
    rw [hmain] at hσ
    cases hσ
  | ok q =>
    rw [hmain] at hσ
    cases hσ
    rfl

theorem finished_of_ok {σ : Image} (hσ : mkfs files = .ok σ) (hlen : files.length ≤ 198) :
    ∃ s, Finished files s σ := by
  have hf : ∀ i f, files[i]? = some f → HasInode (i + 2) f := by
    intro i f hi
    have hi := (List.getElem?_eq_some_iff.mp hi).1
    refine Or.inl ?_
    change i + 2 < 200
    omega
  have hwp : wp (main files) (fun _ σ => ∃ s, Finished files s σ) (fun _ => True) start :=
    wp_main hf (Or.inl fun _ => trivial) fun s σ h => ⟨s, h⟩
  exact hwp.ok (main_of_ok hσ)

/-- `mkfs` does not fail on empty files whose inodes are in the inode blocks. -/
theorem mkfs_empty (hlen : files.length ≤ 206)
    (hfiles : ∀ f ∈ files, slash ∉ f.name ∧ f.chunks = []) :
    ∃ s σ, mkfs files = .ok σ ∧ Finished files s σ := by
  have hf : ∀ i f, files[i]? = some f → HasInode (i + 2) f := by
    intro i f hi
    obtain ⟨hlt, rfl⟩ := List.getElem?_eq_some_iff.mp hi
    exact Or.inr ⟨(hfiles _ (List.getElem_mem hlt)).2, iblock_lt_iff.mpr (by omega)⟩
  have hwp : wp (main files) (fun _ σ => ∃ s, Finished files s σ) (fun _ => False) start :=
    wp_main hf (Or.inr hfiles) fun s σ h => ⟨s, h⟩
  obtain ⟨_, σ, hmain, s, h⟩ := hwp.returns
  refine ⟨s, σ, ?_, h⟩
  rw [mkfs, hmain]
  rfl

/-- The block number with index `x.2` in the inode in slot `x.1` of the inode blocks. -/
def stored (disk : Disk) (x : Nat × Nat) : Nat :=
  if iblock sb x.1 < sb.bmapstart then ptr disk (dinode sb disk x.1) x.2 else 0

/-- The image keeps to its layout: blocks and inodes are in their areas, no block is used twice,
and the free map marks the blocks that have been taken. -/
structure InLayout (σ : Image) : Prop where
  sectors : σ.sectors = fsSize
  range : ∀ x, stored σ.disk x ≠ 0 → nmeta ≤ stored σ.disk x ∧ stored σ.disk x < fsSize
  once : ∀ x y, stored σ.disk x ≠ 0 → stored σ.disk x = stored σ.disk y → x = y
  inodes : ∀ i ∈ σ.written, iblock sb i < sb.bmapstart ∧ i < sb.ninodes
  freeMap : ∀ b, b < bpb → bit sb σ.disk b = decide (b < σ.freeblock)

variable {σ : Image}

theorem Finished.data (h : Finished files s σ) {b : Nat} (hb : sb.nmeta ≤ b) :
    σ.disk b = s.view b := by
  rw [h.disk]
  exact setDinode_of_ge geometry (by decide) hb

theorem Finished.dinode_of_ne (h : Finished files s σ) {i : Nat} (hi : i ≠ rootIno) :
    dinode sb σ.disk i = dinode sb s.view i := by
  rw [h.disk, dinode_setDinode_of_ne hi]

theorem Finished.dinode_root (h : Finished files s σ) :
    dinode sb σ.disk rootIno = roundUp (dinode sb s.view rootIno) := by
  rw [h.disk, dinode_setDinode_self]

theorem Finished.untouched (h : Finished files s σ) {i : Nat} (hi : i < sb.ninodes)
    (ht : (dinode sb s.view i).type ≠ 0) : Untouched s.view σ.disk (dinode sb s.view i) :=
  h.filled.built.ok.owned.untouched_of_data (fun _ hb => h.data hb) hi ht

theorem Filled.type_ne_zero (h : Filled files s) {i : Nat} (h0 : 0 < i) (hi : i < files.length + 2)
    (hlt : i < sb.ninodes) : (dinode sb s.view i).type ≠ 0 := by
  by_cases hroot : i = rootIno
  · rw [hroot, h.rootType]
    decide
  · have hi2 : 2 ≤ i := by
      simp only [rootIno] at hroot
      omega
    have ht := h.type (i - 2) (by omega) (by omega)
    rw [Nat.sub_add_cancel hi2] at ht
    rw [ht]
    decide

theorem Finished.stored_eq (h : Finished files s σ) (hlen : files.length ≤ 198) (x : Nat × Nat) :
    stored σ.disk x = owner sb s.view (dinode sb s.view) x := by
  obtain ⟨i, k⟩ := x
  by_cases huse : i < sb.ninodes ∧ (dinode sb s.view i).type ≠ 0
  · rw [stored, if_pos (geometry.inodes i huse.1), owner, if_pos huse,
      ← (h.untouched huse.1 huse.2).ptr_eq]
    by_cases hroot : i = rootIno
    · rw [hroot, h.dinode_root]
      exact ptr_congr_addr (fun _ => rfl) k
    · rw [h.dinode_of_ne hroot]
  · rw [owner, if_neg huse, stored]
    split
    · next hib =>
      -- a slot that was never written
      have hroot : i ≠ rootIno := by
        rintro rfl
        exact huse ⟨by decide, by rw [h.filled.rootType]; decide⟩
      have hfree : i = 0 ∨ s.freeinode ≤ i := by
        rw [h.filled.freeinode]
        by_contra hc
        have hlt : i < sb.ninodes := by
          change i < 200
          omega
        exact huse ⟨hlt, h.filled.type_ne_zero (by omega) (by omega) hlt⟩
      rw [h.dinode_of_ne hroot, h.filled.built.unused i hfree hib]
      exact ptr_of_no_addr (addr_of_addrs_zero rfl) k
    · rfl

theorem Finished.inLayout (h : Finished files s σ) (hlen : files.length ≤ 198) : InLayout σ := by
  have hown := h.filled.built.ok.owned
  refine ⟨h.sectors, fun x hx => ?_, fun x y hx hxy => ?_, fun i hi => ?_, fun b hb => ?_⟩
  · rw [h.stored_eq hlen] at hx ⊢
    exact hown.range x hx
  · rw [h.stored_eq hlen] at hx hxy
    rw [h.stored_eq hlen] at hxy
    exact hown.inj x y hx hxy
  · have hlt : i < sb.ninodes := by
      rw [h.written, List.mem_cons] at hi
      rcases hi with rfl | hi
      · decide
      · have := h.filled.written i hi
        change i < 200
        omega
    exact ⟨geometry.inodes i hlt, hlt⟩
  · rw [h.disk, bit_setDinode geometry (by decide), h.freeblock]
    exact bit_map _ _ hb

/-- A computation that takes no inode and keeps the record of those written. -/
def NoInode {α : Type} (m : ImageM α) : Prop :=
  ∀ s, wp m (fun _ s' => s'.freeinode = s.freeinode ∧ s.written ⊆ s'.written) (fun _ => True) s

section NoInode

variable {α β : Type} {m : ImageM α}

theorem NoInode.pure (a : α) : NoInode (pure a : ImageM α) :=
  fun s => (wp_pure (s := s) a).mpr ⟨rfl, fun _ hi => hi⟩

theorem NoInode.bind {k : α → ImageM β} (hm : NoInode m) (hk : ∀ a, NoInode (k a)) :
    NoInode (m >>= k) := fun s =>
  (hm s).bind fun a _ h => (hk a _).mono
    (fun _ _ h' => ⟨h'.1.trans h.1, List.Subset.trans h.2 h'.2⟩) fun _ _ => trivial

theorem NoInode.ite {c : Prop} [Decidable c] {m' : ImageM α} (ht : NoInode m) (he : NoInode m') :
    NoInode (if c then m else m') := fun s => wp_ite (fun _ => ht s) fun _ => he s

theorem noInode_wsect (sec : Nat) (buf : Bytes) : NoInode (wsect sec buf) := by
  intro s
  rw [wp, wsect]
  split
  · next h =>
    split at h
    · cases h
    · cases h
      exact ⟨rfl, fun _ hi => hi⟩
  · trivial

theorem noInode_rsect (sec : Nat) : NoInode (rsect sec) := by
  intro s
  rw [wp, rsect]
  split
  · next h =>
    split at h
    · cases h
    · split at h
      · cases h
      · cases h
        exact ⟨rfl, fun _ hi => hi⟩
  · trivial

theorem noInode_takeBlock : NoInode takeBlock := fun _ => ⟨rfl, fun _ hi => hi⟩

theorem noInode_assert (cond : Bool) (text : String) : NoInode (Mkfs.assert cond text) := by
  cases cond with
  | true => exact NoInode.pure ()
  | false => exact fun _ => trivial

theorem noInode_winode (inum : Nat) (d : Dinode) : NoInode (winode inum d) :=
  (noInode_rsect _).bind fun _ => (noInode_wsect _ _).bind fun _ _ =>
    ⟨rfl, fun _ hi => List.mem_cons_of_mem inum hi⟩

theorem noInode_blockFor (d : Dinode) (fbn : Nat) : NoInode (blockFor d fbn) := by
  refine .ite (.ite ?_ (.pure _)) (.bind (.ite ?_ (.pure _)) fun d => ?_)
  · exact noInode_takeBlock.bind fun _ => .pure _
  · exact noInode_takeBlock.bind fun _ => .pure _
  · refine (noInode_rsect _).bind fun _ => .ite ?_ (.pure _)
    exact noInode_takeBlock.bind fun _ => (noInode_wsect _ _).bind fun _ => .pure _

theorem noInode_appendLoop (p : Nat → UInt8) (n fuel tot off : Nat) (d : Dinode) :
    NoInode (appendLoop p n fuel tot off d) := by
  induction fuel generalizing tot off d with
  | zero => exact .pure _
  | succ fuel ih =>
    refine .ite ?_ (.pure _)
    refine (noInode_assert _ _).bind fun _ => (noInode_blockFor _ _).bind fun q => ?_
    exact (noInode_rsect _).bind fun _ => (noInode_wsect _ _).bind fun _ => ih _ _ _

theorem noInode_iappend (inum : Nat) (p : Nat → UInt8) (n : Nat) : NoInode (iappend inum p n) :=
  ((noInode_rsect _).bind fun _ => .pure _).bind fun _ =>
    (noInode_appendLoop p n _ _ _ _).bind fun _ => noInode_winode _ _

theorem noInode_appendChunks (inum : Nat) (cs : List (List UInt8)) :
    NoInode (appendChunks inum cs) := by
  induction cs with
  | nil => exact .pure _
  | cons c cs ih => exact (noInode_iappend _ _ _).bind fun _ => ih

theorem noInode_wipe (n i : Nat) : NoInode (wipe n i) := by
  induction n generalizing i with
  | zero =>
    rw [wipe_zero]
    exact .pure _
  | succ n ih =>
    rw [wipe_succ]
    exact (noInode_wsect _ _).bind fun _ => ih _

end NoInode

theorem wp_ialloc_written (type : Int16) (s : Image) :
    wp (ialloc type) (fun i s' => i = s.freeinode ∧ s'.freeinode = s.freeinode + 1 ∧
      s.freeinode ∈ s'.written ∧ s.written ⊆ s'.written) (fun _ => True) s := by
  rw [ialloc, wp_bind]
  change wp (winode s.freeinode (newDinode type) >>= fun _ => pure s.freeinode) _ _
    { s with freeinode := s.freeinode + 1 }
  refine wp_bind.mpr ?_
  rw [winode, wp_bind]
  refine (noInode_rsect _ _).mono (fun buf s₁ h₁ => wp_bind.mpr ?_) fun _ _ => trivial
  refine (noInode_wsect _ _ _).mono (fun _ s₂ h₂ => ?_) fun _ _ => trivial
  refine ⟨rfl, h₂.1.trans h₁.1, List.mem_cons_self, fun i hi => List.mem_cons_of_mem _ ?_⟩
  exact h₂.2 (h₁.2 hi)

theorem wp_addFiles_written (files : List Input) (s : Image) :
    wp (addFiles files) (fun _ s' => s.written ⊆ s'.written ∧
      ∀ k, k < files.length → s.freeinode + k ∈ s'.written) (fun _ => True) s := by
  induction files generalizing s with
  | nil => exact ⟨fun _ hi => hi, fun k hk => absurd hk (Nat.not_lt_zero k)⟩
  | cons f files ih =>
    rw [addFiles, wp_bind, addFile, wp_bind]
    refine (noInode_assert _ _ s).mono (fun _ s₁ h₁ => wp_bind.mpr ?_) fun _ _ => trivial
    refine (wp_ialloc_written tFile s₁).mono (fun i s₂ h₂ => wp_bind.mpr ?_) fun _ _ => trivial
    obtain ⟨-, hfree₂, hmem₂, hsub₂⟩ := h₂
    refine (noInode_iappend _ _ _ s₂).mono (fun _ s₃ h₃ => ?_) fun _ _ => trivial
    refine (noInode_appendChunks _ _ s₃).mono (fun _ s₄ h₄ => ?_) fun _ _ => trivial
    refine (ih s₄).mono (fun _ s₅ h₅ => ?_) fun _ _ => trivial
    have hsub : s₂.written ⊆ s₅.written := fun i hi => h₅.1 (h₄.2 (h₃.2 hi))
    refine ⟨fun i hi => hsub (hsub₂ (h₁.2 hi)), fun k hk => ?_⟩
    rcases k with _ | k
    · rw [← h₁.1]
      exact hsub hmem₂
    · have hmem := h₅.2 k (by simpa using hk)
      rw [h₄.1, h₃.1, hfree₂, h₁.1] at hmem
      rwa [Nat.add_assoc, Nat.add_comm 1 k] at hmem

theorem noInode_prepare : NoInode prepare := by
  refine .bind (fun _ => ⟨rfl, fun _ hi => hi⟩) fun _ => ?_
  exact (noInode_wipe _ _).bind fun _ => noInode_wsect _ _

/-- The files have the inodes after that of the root directory. -/
theorem written_of_ok (hσ : mkfs files = .ok σ) {k : Nat} (hk : k < files.length) :
    k + 2 ∈ σ.written := by
  have hwp : wp (main files) (fun _ σ => k + 2 ∈ σ.written) (fun _ => True) start := by
    rw [main, wp_bind]
    refine (noInode_prepare start).mono (fun _ s₁ h₁ => ?_) fun _ _ => trivial
    rw [fill, wp_bind]
    refine (wp_ialloc_written tDir s₁).mono (fun i s₂ h₂ => wp_bind.mpr ?_) fun _ _ => trivial
    refine (noInode_assert _ _ s₂).mono (fun _ s₃ h₃ => wp_bind.mpr ?_) fun _ _ => trivial
    refine (noInode_iappend _ _ _ s₃).mono (fun _ s₄ h₄ => wp_bind.mpr ?_) fun _ _ => trivial
    refine (noInode_iappend _ _ _ s₄).mono (fun _ s₅ h₅ => wp_bind.mpr ?_) fun _ _ => trivial
    refine (wp_addFiles_written files s₅).mono (fun _ s₆ h₆ => ?_) fun _ _ => trivial
    have hmem := h₆.2 k hk
    rw [h₅.1, h₄.1, h₃.1, h₂.2.1, h₁.1] at hmem
    have hend : NoInode (do
        let din ← rinode i
        winode i { din with size := UInt32.ofNat ((din.size.toNat / bsize + 1) * bsize) }
        let used ← (fun s => .ok (s.freeblock, s) : ImageM Nat)
        Mkfs.assert (used < bsize * 8) "used < BSIZE*8"
        wsect sb.bmapstart (balloc used)) := by
      refine .bind ((noInode_rsect _).bind fun _ => .pure _) fun _ => ?_
      refine (noInode_winode _ _).bind fun _ => .bind (fun _ => ⟨rfl, fun _ hi => hi⟩) fun _ => ?_
      exact (noInode_assert _ _).bind fun _ => noInode_wsect _ _
    refine (hend s₆).mono (fun _ s₇ h₇ => h₇.2 ?_) fun _ _ => trivial
    rwa [Nat.add_comm k 2]
  exact hwp.ok (main_of_ok hσ)

/-- **`mkfs` keeps to its layout exactly when there are at most 198 files.** -/
theorem mkfs_inLayout_iff (hσ : mkfs files = .ok σ) : InLayout σ ↔ files.length ≤ 198 := by
  refine ⟨fun h => ?_, fun hlen => ?_⟩
  · by_contra hgt
    have hlast := (h.inodes _ (written_of_ok hσ (k := files.length - 1) (by omega))).2
    change files.length - 1 + 2 < 200 at hlast
    omega
  · obtain ⟨s, hs⟩ := finished_of_ok hσ hlen
    exact hs.inLayout hlen

def emptyInput : Input := ⟨[97], [], by decide, by simp⟩

theorem mkfs_replicate {n : Nat} (hn : n ≤ 206) :
    ∃ s σ, mkfs (List.replicate n emptyInput) = .ok σ ∧ Finished (List.replicate n emptyInput) s σ := by
  refine mkfs_empty (by rwa [List.length_replicate]) fun f hf => ?_
  rw [List.eq_of_mem_replicate hf]
  exact ⟨by decide, rfl⟩

/-- With 199 files `mkfs` exits with status 0 and writes inode 200. -/
theorem mkfs_beyond_table : ∃ σ, mkfs (List.replicate 199 emptyInput) = .ok σ ∧ 200 ∈ σ.written ∧
    ¬ InLayout σ := by
  obtain ⟨s, σ, hσ, -⟩ := mkfs_replicate (n := 199) (by decide)
  have hmem := written_of_ok hσ (k := 198) (by rw [List.length_replicate]; decide)
  exact ⟨σ, hσ, hmem, fun h => absurd (h.inodes 200 hmem).2 (by decide)⟩

/-- The layout is kept for one empty file. -/
theorem mkfs_inLayout_one : ∃ σ, mkfs (List.replicate 1 emptyInput) = .ok σ ∧ InLayout σ := by
  obtain ⟨s, σ, hσ, -⟩ := mkfs_replicate (n := 1) (by decide)
  exact ⟨σ, hσ, (mkfs_inLayout_iff hσ).mpr (by decide)⟩

theorem Finished.rootSize (h : Finished files s σ) (hlen : files.length ≤ 198) :
    (dinode sb σ.disk rootIno).size.toNat =
      (direntSize * (files.length + 2) / bsize + 1) * bsize := by
  rw [h.dinode_root, roundUp, h.filled.rootSize]
  refine UInt32.toNat_ofNat_of_lt' ?_
  simp only [direntSize, bsize, UInt32.size]
  omega

/-- Files other than the root directory have no holes. -/
theorem Finished.holeFree (h : Finished files s σ) {i : Nat} (hi : i < sb.ninodes)
    (hroot : i ≠ rootIno) (ht : (dinode sb σ.disk i).type ≠ 0) :
    HoleFree σ.disk (dinode sb σ.disk i) := by
  rw [h.dinode_of_ne hroot] at ht ⊢
  exact (h.untouched hi ht).holeFree (h.filled.built.ok.holes i hi ht)

theorem Finished.root_type (h : Finished files s σ) : (dinode sb σ.disk rootIno).type = tDir := by
  rw [h.dinode_root]
  exact h.filled.rootType

theorem Filled.root_type_ne (h : Filled files s) : (dinode sb s.view rootIno).type ≠ 0 := by
  rw [h.rootType]
  decide

theorem Finished.blk_root (h : Finished files s σ) (bn : Nat) :
    blk σ.disk (dinode sb σ.disk rootIno) bn = blk s.view (dinode sb s.view rootIno) bn := by
  rw [h.dinode_root, ← (h.untouched (by decide) h.filled.root_type_ne).blk_eq]
  exact ptr_congr_addr (fun _ => rfl) _

/-- The root directory has a hole exactly when its entries fill the last block. -/
theorem Finished.root_holeFree_iff (h : Finished files s σ) (hlen : files.length ≤ 198) :
    HoleFree σ.disk (dinode sb σ.disk rootIno) ↔ (files.length + 2) % 32 ≠ 0 := by
  have hin : rootIno < sb.ninodes := by decide
  have ht := h.filled.root_type_ne
  have hsize := h.rootSize hlen
  have hsize₀ := h.filled.rootSize
  have hholes := h.filled.built.ok.holes rootIno hin ht
  have hbeyond := h.filled.built.beyond rootIno hin ht
  rw [HoleFree] at hholes
  rw [HoleFree, hsize]
  simp only [direntSize, bsize, hsize₀, h.blk_root] at hholes hbeyond ⊢
  constructor
  · intro hall hmod
    have hfull := (hall (16 * (files.length + 2) / 512) (by omega)).2
    exact hfull (hbeyond _ (by omega))
  · intro hmod bn hbn
    exact hholes bn (by omega)

/-- **An image is without holes exactly when the root directory does not end at the end of a
block.** -/
theorem mkfs_holeFree_iff (hσ : mkfs files = .ok σ) (hlen : files.length ≤ 198) :
    (∀ i, i < sb.ninodes → (dinode sb σ.disk i).type ≠ 0 → HoleFree σ.disk (dinode sb σ.disk i)) ↔
      (files.length + 2) % 32 ≠ 0 := by
  obtain ⟨s, h⟩ := finished_of_ok hσ hlen
  rw [← h.root_holeFree_iff hlen]
  refine ⟨fun hall => hall rootIno (by decide) ?_, fun hroot i hi ht => ?_⟩
  · rw [h.root_type]
    decide
  · by_cases hin : i = rootIno
    · rw [hin]
      exact hroot
    · exact h.holeFree hi hin ht

/-- With 30 files the root directory fills one block, and its size says two. -/
theorem mkfs_hole : ∃ σ, mkfs (List.replicate 30 emptyInput) = .ok σ ∧
    (dinode sb σ.disk rootIno).type = tDir ∧ ¬ HoleFree σ.disk (dinode sb σ.disk rootIno) := by
  obtain ⟨s, σ, hσ, h⟩ := mkfs_replicate (n := 30) (by decide)
  exact ⟨σ, hσ, h.root_type, fun hh => (h.root_holeFree_iff (by decide)).mp hh (by decide)⟩

/-- The image of one empty file is without holes. -/
theorem mkfs_holeFree_one : ∃ σ, mkfs (List.replicate 1 emptyInput) = .ok σ ∧
    ∀ i, i < sb.ninodes → (dinode sb σ.disk i).type ≠ 0 →
      HoleFree σ.disk (dinode sb σ.disk i) := by
  obtain ⟨s, σ, hσ, -⟩ := mkfs_replicate (n := 1) (by decide)
  exact ⟨σ, hσ, (mkfs_holeFree_iff hσ (by decide)).mpr (by decide)⟩

end Xv6.Mkfs
