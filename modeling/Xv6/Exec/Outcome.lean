import Xv6.Exec.Build

/-!
# How exec ends

At the label `bad`, `exec` tells by `pgdir` and `ip` what it holds, and gives back all of it. If it
does not get there then it has built the image, or it has read an entry of a page table that is not
there, in `copyout`.
-/

namespace Xv6.Exec

open Bytes Hoare Vm

variable {L : Layout} {F : Multiset Nat} {s s₁ s' : State} {ip : File} {path : List UInt8}
  {argv : List (List UInt8)} {pgdir : Option Nat}

/-- A process calls `exec`: no page is in two places, the size of the file is a 32-bit number, and
the process does not hold the lock of an inode. -/
structure Ready (L : Layout) (s : State) : Prop where
  pool : Pool L (pagesOf s.phys s.proc.pgdir)
  size : ∀ f, s.file = some f → f.size < 2 ^ 32
  ref : 0 ≤ s.ref
  held : s.held = false

/-- Process, memory, free pages, inode and log are as they were. -/
structure Restored (s s' : State) : Prop where
  proc : s'.proc = s.proc
  mem : ∀ x, x ∉ s.phys.freelist → s'.phys.mem x = s.phys.mem x
  freelist : s'.phys.freelist.Perm s.phys.freelist
  ref : s'.ref = s.ref
  held : s'.held = s.held
  outstanding : s'.outstanding = s.outstanding

/-- What `exec` holds at the label `bad`: the pages of `pgdir`, and if `ip` then a transaction, a
reference and the lock. -/
structure AtBad (s : State) (pgdir : Option Nat) (ip : Bool) (s₁ : State) : Prop where
  still : Still s.phys.freelist 0 s.phys s₁.phys
  proc : s₁.proc = s.proc
  pages : match pgdir with
    | none => (s₁.phys.freelist : Multiset Nat) = s.phys.freelist
    | some d => ∃ m, Dir s.phys.freelist s₁.phys d 0 m
  inode : if ip then s₁.ref = s.ref + 1 ∧ s₁.held = true ∧ s₁.outstanding = s.outstanding + 1
    else s₁.ref = s.ref ∧ s₁.held = s.held ∧ s₁.outstanding = s.outstanding

theorem Ready.pool_free (h : Ready L s) : Pool L s.phys.freelist :=
  h.pool.mono (by
    rw [pagesOf, add_assoc]
    exact Multiset.le_add_right _ _)

variable {hip : Bool}

theorem wp_freePgdir (h : Ready L s) (hbad : AtBad s pgdir hip s₁) :
    wp (freePgdir L pgdir) (fun _ s' => s' = { s₁ with phys := s'.phys } ∧
        Still s.phys.freelist 0 s.phys s'.phys ∧ s'.phys.freelist.Perm s.phys.freelist)
      (fun _ => False) s₁ := by
  cases pgdir with
  | none => exact ⟨rfl, hbad.still, Multiset.coe_eq_coe.mp hbad.pages⟩
  | some d =>
    obtain ⟨m, hdir⟩ := hbad.pages
    rw [freePgdir, wp_onPhys]
    refine (hdir.wp_freevm h.pool_free).mono ?_ fun _ => False.elim
    rintro _ phys ⟨hstill, -, hfree⟩
    rw [add_zero] at hfree
    exact ⟨rfl, hbad.still.trans hstill fun _ hx => hx, Multiset.coe_eq_coe.mp hfree⟩

theorem AtBad.wp_leave (h : Ready L s) (hbad : AtBad s pgdir hip s₁) :
    wp (leave L (.bad pgdir hip)) (fun r s' => r = -1 ∧ Restored s s') (fun _ => False) s₁ := by
  rw [leave]
  refine (wp_freePgdir h hbad).bind ?_
  rintro _ s₂ ⟨honly, hstill, hfree⟩
  have hmem : ∀ x, x ∉ s.phys.freelist → s₂.phys.mem x = s.phys.mem x := fun x hx =>
    hstill x (.inl (by rwa [Multiset.mem_coe]))
  have hproc : s₂.proc = s.proc := by rw [honly, hbad.proc]
  have href : s₂.ref = s₁.ref := by rw [honly]
  have hheld : s₂.held = s₁.held := by rw [honly]
  have hout : s₂.outstanding = s₁.outstanding := by rw [honly]
  have hinode := hbad.inode
  cases hip with
  | false =>
    rw [if_neg (by decide)] at hinode
    exact ⟨rfl, hproc, hmem, hfree, by rw [href, hinode.1], by rw [hheld, hinode.2.1],
      by rw [hout, hinode.2.2]⟩
  | true =>
    rw [if_pos rfl] at hinode
    have hnonneg := h.ref
    rw [putInode, wp_bind, wp_bind, wp_iunlockput (by rw [hheld, hinode.2.1]) (by omega)]
    exact ⟨rfl, hproc, hmem, hfree, by dsimp only; omega, h.held.symm, by dsimp only; omega⟩

/-- What is true when the body of `exec` ends. -/
def Outcome (s : State) (argv : List (List UInt8)) (e : Exit) (s₁ : State) : Prop :=
  match e with
  | .done => ∃ ip, s.file = some ip ∧ Built ip argv s₁
  | .notFound => Restored s s₁
  | .bad pgdir ip => AtBad s pgdir ip s₁

theorem AtBad.keeps {d : Nat} (hbad : AtBad s pgdir hip s₁)
    (hkeeps : Keeps s.phys.freelist s₁ d s') : AtBad s (some d) hip s' where
  still := hbad.still.trans hkeeps.still fun _ hx => hx
  proc := by rw [hkeeps.only, hbad.proc]
  pages := hkeeps.dir
  inode := by
    have hinode := hbad.inode
    rwa [hkeeps.only]

theorem AtBad.putInode (h : Ready L s) (hbad : AtBad s pgdir true s₁) :
    AtBad s pgdir false { s₁ with
      held := false
      ref := s₁.ref - 1
      outstanding := s₁.outstanding - 1 } where
  still := hbad.still
  proc := hbad.proc
  pages := hbad.pages
  inode := by
    have hinode := hbad.inode
    rw [if_pos rfl] at hinode
    rw [if_neg (by decide)]
    exact ⟨by dsimp only; omega, h.held.symm, by dsimp only; omega⟩

theorem AtBad.pool (h : Ready L s) (hbad : AtBad s pgdir hip s₁) :
    Pool L (s.phys.freelist + dirPages s₁.phys s₁.proc.pgdir) := by
  have hpool := h.pool
  rw [pagesOf, add_zero, ← dirPages] at hpool
  have hsame : dirPages s₁.phys s.proc.pgdir = dirPages s.phys s.proc.pgdir :=
    (lookup_dirPages_congr fun x hx =>
      hbad.still x (.inl fun hx' => hpool.nodup.notMem_right hx' hx)).2
  rwa [hbad.proc, hsame]

/-- `exec` after the file has been found and locked, in state `s₁`. -/
theorem wp_loadProgram (h : Ready L s) (hfile : s.file = some ip) (hbad : AtBad s none true s₁) :
    wp (loadProgram L path argv ip) (Outcome s argv) (fun e => e = .nullEntry) s₁ := by
  have hsize := h.size ip hfile
  have hF := h.pool_free
  have hread : AtBad s none true { s₁ with reads := s₁.reads + 1 } :=
    ⟨hbad.still, hbad.proc, hbad.pages, hbad.inode⟩
  rw [loadProgram, wp_bind]
  refine wp_readStruct (by decide) (by decide) hsize hread ?_
  dsimp only
  rw [← elfHdr]
  refine wp_ite (fun _ => hread) fun _ => ?_
  have hpages : (s₁.phys.freelist : Multiset Nat) + 0 = s.phys.freelist := by
    rw [add_zero]
    exact hbad.pages
  refine wp_onPhys_bind (wp_setupkvm hF hpages) ?_
  rintro (_ | d) phys ⟨hstill, -, hr⟩
  · rw [add_zero] at hr
    exact ⟨hbad.still.trans hstill fun _ hx => hx, hbad.proc, hr.1, hbad.inode⟩
  have hkeeps : Keeps s.phys.freelist s₁ d { s₁ with phys := phys, reads := s₁.reads + 1 } :=
    ⟨rfl, hstill, _, hr⟩
  have hphoff : (elfHdr ip).phoff < 2 ^ 32 := get32_lt ..
  refine ((wp_loadSegments hF hsize hphoff (by decide) (image_of_kernelMap hr _)).mono
    (fun _ _ hs' => hs') fun _ => False.elim).bind ?_
  rintro (_ | sz) s₂ ⟨hkeeps₂, hload⟩
  · exact (hbad.keeps hkeeps).keeps hkeeps₂
  have hbad₂ : AtBad s (some d) true s₂ := (hbad.keeps hkeeps).keeps hkeeps₂
  have hloaded := (hload sz rfl).2
  have hinode := hbad₂.inode
  rw [if_pos rfl] at hinode
  have href := h.ref
  dsimp only
  generalize hm : buildStack L path argv d sz (elfHdr ip).entry = m
  rw [wp_bind, wp_iunlockput hinode.2.1 (by omega), wp_bind, wp_endOp]
  have hbad₃ := hbad₂.putInode h
  refine (wp_buildStack hm (hbad₃.pool h) hloaded).mono ?_ fun _ he => he
  rintro e s₃ (⟨rfl, hkeeps₃⟩ | ⟨rfl, hcommitted⟩)
  · exact hbad₃.keeps hkeeps₃
  · exact ⟨ip, hfile, hcommitted.built hloaded.fits⟩

theorem wp_body (h : Ready L s) :
    wp (body L path argv) (Outcome s argv) (fun e => e = .nullEntry) s := by
  rw [body, wp_bind, wp_beginOp, wp_bind]
  refine wp_namei (fun _ => ?_) fun ip hfile => ?_
  · exact ⟨rfl, fun _ _ => rfl, .refl _, rfl, rfl, by dsimp only; omega⟩
  · have href := h.ref
    dsimp only
    rw [wp_bind, wp_ilock (by dsimp only; omega)]
    exact wp_loadProgram h hfile ⟨fun _ _ => rfl, rfl, rfl, rfl, rfl, rfl⟩

/-- **A failing `exec` leaves everything as it was.** If the body ends otherwise than by committing
to the new image, through the label `bad` or because there is no file, then `exec` returns -1, and
process, memory, free pages, inode and log are as they were. Nothing stops the body but the entry
that `copyout` may not find. -/
theorem exec_restored (h : Ready L s) (path : List UInt8) (argv : List (List UInt8)) :
    (∀ e s₁, body L path argv s = .ok (e, s₁) → e ≠ .done →
      ∃ s', exec L path argv s = .ok (-1, s') ∧ Restored s s') ∧
    ∀ f, body L path argv s = .error f → f = .nullEntry := by
  have hbody : wp (body L path argv) (Outcome s argv) (fun e => e = .nullEntry) s := wp_body h
  refine ⟨fun e s₁ hrun hdone => ?_, fun f hrun => hbody.error hrun⟩
  have hexec : exec L path argv s = leave L e s₁ := by
    change (body L path argv s >>= fun q => leave L q.1 q.2) = _
    rw [hrun]
    rfl
  have houtcome := hbody.ok hrun
  cases e with
  | done => exact absurd rfl hdone
  | notFound => exact ⟨s₁, hexec, houtcome⟩
  | bad pgdir hip =>
    obtain ⟨r, s', hleave, rfl, hrestored⟩ := (AtBad.wp_leave h houtcome).returns
    exact ⟨s', hexec.trans hleave, hrestored⟩

/-- A machine of 32 pages, with one page of the kernel's in every address space. -/
def smallMachine : Layout where
  endPage := 1
  physTop := 32
  kmap := [⟨kernBase, 0, pgSize, permW⟩]
  end_pos := by decide
  top_le := by decide
  ok := by decide
  apart := by decide

/-- An ELF file with one segment of two bytes in the file and four in memory. -/
def smallFile : File where
  size := 86
  data := writeBytes (writeBytes (writeBytes (writeBytes zeros 0 (le32 elfMagic)) 28 (le32 52))
    44 (le16 1)) 52 (wordBytes [1, 84, 0, 0, 2, 4] ++ [0, 0, 0, 0, 0, 0, 0, 0, 0xEB, 0xFE])

def smallState (file : File) : State where
  phys :=
    { mem := fun _ => zeros
      freelist := [2, 3, 4, 5, 6, 7, 8, 9, 10]
      calls := 0
      fail := fun _ => false }
  proc := { pgdir := 1, sz := 0, eip := 0, esp := 0, name := zeros }
  file := some file
  ref := 0
  held := false
  outstanding := 0
  reads := 0
  readFail := fun _ => false

theorem ready_smallState {file : File} (hsize : file.size < 2 ^ 32) :
    Ready smallMachine (smallState file) where
  pool := by
    have hword : ∀ pg i, word (smallState file).phys.mem pg i = 0 := fun _ _ => rfl
    have htables : tables (smallState file).phys.mem 1 = 0 :=
      Multiset.pieces_eq_zero fun i _ => by
        rw [hword]
        rfl
    have hframes : frames (lookup (smallState file).phys.mem 1) = 0 := by
      refine frames_eq_zero fun v _ => lookup_of_not_table ?_
      rw [HasTable, hword]
      decide
    have hpages : pagesOf (smallState file).phys 1 = {2, 3, 4, 5, 6, 7, 8, 9, 10, 1} := by
      rw [pagesOf, htables, hframes]
      rfl
    change Pool smallMachine (pagesOf (smallState file).phys 1)
    rw [hpages]
    exact ⟨by decide, by decide⟩
  size f hf := by
    obtain rfl := Option.some_inj.mp hf
    exact hsize
  ref := le_rfl
  held := rfl

/-- A file that is too short for an ELF header. -/
theorem exec_restored_emptyFile : Ready smallMachine (smallState ⟨0, zeros⟩) ∧
    (∀ e s₁, body smallMachine [97] [] (smallState ⟨0, zeros⟩) = .ok (e, s₁) → e ≠ .done →
      ∃ s', exec smallMachine [97] [] (smallState ⟨0, zeros⟩) = .ok (-1, s') ∧
        Restored (smallState ⟨0, zeros⟩) s') ∧
    ∀ f, body smallMachine [97] [] (smallState ⟨0, zeros⟩) = .error f → f = .nullEntry :=
  ⟨ready_smallState (by decide), exec_restored (ready_smallState (by decide)) [97] []⟩

/-- **A successful `exec` builds the promised image.** -/
theorem exec_built (h : Ready L s) (hrun : exec L path argv s = .ok (0, s')) :
    ∃ ip, s.file = some ip ∧ Built ip argv s' := by
  have hexec : wp (exec L path argv) (fun r s' => r = 0 → ∃ ip, s.file = some ip ∧ Built ip argv s')
      (fun _ => True) s := by
    refine ((wp_body h).mono (fun _ _ ho => ho) fun _ _ => trivial).bind fun e s₁ houtcome => ?_
    cases e with
    | done => exact fun _ => houtcome
    | notFound => exact fun h0 => absurd h0 (by decide)
    | bad pgdir hip =>
      refine (AtBad.wp_leave h houtcome).mono (fun r s' hr h0 => ?_) fun _ => False.elim
      rw [hr.1] at h0
      exact absurd h0 (by decide)
  exact hexec.ok hrun rfl

theorem exec_smallFile :
    (exec smallMachine [47, 97] [[104, 105], []] (smallState smallFile)).map (fun q => q.1) =
      .ok 0 := by
  decide +kernel

/-- The small file is executed with two arguments. -/
theorem exec_built_smallFile : ∃ s', exec smallMachine [47, 97] [[104, 105], []]
    (smallState smallFile) = .ok (0, s') ∧ Built smallFile [[104, 105], []] s' := by
  have hrun := exec_smallFile
  cases hexec : exec smallMachine [47, 97] [[104, 105], []] (smallState smallFile) with
  | error e =>
    rw [hexec] at hrun
    exact absurd hrun (by simp [Except.map])
  | ok q =>
    obtain ⟨r, s'⟩ := q
    rw [hexec] at hrun
    obtain rfl : r = 0 := Except.ok.inj hrun
    obtain ⟨ip, hip, hbuilt⟩ := exec_built (ready_smallState (by decide)) hexec
    obtain rfl := Option.some_inj.mp hip
    exact ⟨s', rfl, hbuilt⟩

end Xv6.Exec
