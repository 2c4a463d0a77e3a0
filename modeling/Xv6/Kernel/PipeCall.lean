import Xv6.Kernel.Calls
import Xv6.Syscall.Args

/-!
# The pipe system call

`sys_pipe` takes two entries of the file table, a page and two descriptors, and can fail to get any
of them. It runs on the kernel together with the list of free pages. What it has taken is given back
through `fileclose`, which relies on the type FD_NONE of a file that is not filled in yet.
-/

namespace Xv6.Kernel

open Fs Bytes Program Syscall Hoare
open Function (update_self update_of_ne)

structure Paged where
  machine : Machine
  /-- `kmem.freelist` -/
  freelist : List Nat

namespace Paged

def tables (s : Paged) : Tables := s.machine.tables

def setTables (s : Paged) (c : Tables) : Paged :=
  { s with machine := { s.machine with tables := c } }

/-- `kalloc()` for a pipe, and the assignments to the pipe. -/
def pipePage : StateT Paged (Except Stop) (Option Nat) := fun s =>
  match s.freelist with
  | [] => .ok (none, s)
  | π :: rest =>
    .ok (some π, { s.setTables (s.tables.setPipe π (some ⟨true, true⟩)) with freelist := rest })

/-- `pipeclose`; `kfree` puts the page in front of the list. -/
def pipeclose (π : Nat) (writable : Bool) : StateT Paged (Except Stop) Unit := fun s =>
  match Kernel.pipeclose π writable s.tables with
  | .ok ((), c) => .ok ((), { s.setTables c with
      freelist := if (c.pipe π).isNone then π :: s.freelist else s.freelist })
  | .error e => .error e

/-- The kernel with its free pages: what process `p` does. The page for a pipe is the first one of
the list. -/
def handler (sb : Superblock) (p : Nat) : Program.Handler Op Op.Ret Paged Stop
  | .table (.pipePage _) => pipePage
  | .table (.pipeclose π writable) => pipeclose π writable
  | o => fun s =>
    match Machine.handler sb p o s.machine with
    | .ok (r, m) => .ok (r, { s with machine := m })
    | .error e => .error e

end Paged

/-- The system call: what it returns, and its stores to user memory. -/
def sysPipeCall (sb : Superblock) (p : Nat) (u : User) :
    StateT Paged (Except Stop) (Int32 × List Syscall.Store) := fun s =>
  match u.argptr 0 8 with
  | none => .ok ((-1, []), s)
  | some fd =>
    match Program.exec (Paged.handler sb p) (sysPipe s.freelist.head?) s with
    | .ok (none, s') => .ok ((-1, []), s')
    | .ok (some (fd0, fd1), s') => .ok ((0, [(fd, le32 fd0), (fd + 4, le32 fd1)]), s')
    | .error e => .error e

def FilesClosed (c : Tables) : Prop := ∀ f, (c.ftable f).ref = 0 → (c.ftable f).type = .none

/-- Files without references are closed, and the page of a file that is a pipe is not free. -/
structure Paged.Wellformed (s : Paged) : Prop where
  closed : FilesClosed s.tables
  used : ∀ f, (s.tables.ftable f).type = .pipe → (s.tables.ftable f).pipe ∉ s.freelist

structure Unpiped (s s' : Paged) : Prop where
  ref : ∀ f, (s'.tables.ftable f).ref = (s.tables.ftable f).ref
  proc : s'.tables.proc = s.tables.proc
  freelist : s'.freelist = s.freelist

/-- The file is an end of the pipe, with one reference. -/
def File.IsEnd (ff : File) (π : Nat) (w : Bool) : Prop :=
  ff.ref = 1 ∧ ff.type = .pipe ∧ ff.pipe = π ∧ ff.writable = w ∧ ff.readable = !w

/-- Process `p` has two new descriptors for the ends of a new pipe. -/
structure Piped (p : Nat) (s s' : Paged) (fd0 fd1 : Nat) : Prop where
  lt : fd0 < nofile ∧ fd1 < nofile ∧ fd0 ≠ fd1
  unused : (s.tables.proc p).ofile fd0 = none ∧ (s.tables.proc p).ofile fd1 = none
  page : ∃ π rf wf, s.freelist = π :: s'.freelist ∧
    s'.tables.pipe π = some ⟨true, true⟩ ∧
    (s.tables.ftable rf).ref = 0 ∧ (s'.tables.ftable rf).IsEnd π false ∧
    (s.tables.ftable wf).ref = 0 ∧ (s'.tables.ftable wf).IsEnd π true ∧
    (s'.tables.proc p).ofile = Function.update (Function.update (s.tables.proc p).ofile fd0
      (some rf)) fd1 (some wf) ∧
    (∀ f, f ≠ rf → f ≠ wf → s'.tables.ftable f = s.tables.ftable f ∧
      ((s'.tables.ftable f).type = .pipe → (s'.tables.ftable f).pipe ≠ π))
  others : ∀ q, q ≠ p → s'.tables.proc q = s.tables.proc q

variable {sb : Superblock} {p : Nat} {s s' : Paged} {f : Nat} {α : Type}

theorem exec_step {o : TableOp} {r : o.Ret} {k : o.Ret → Prog α}
    (ho : Paged.handler sb p (.table o) s = .ok (r, s')) :
    Program.exec (Paged.handler sb p) (table o >>= k) s =
      Program.exec (Paged.handler sb p) (k r) s' := by
  change (Paged.handler sb p (.table o) s >>= fun q =>
    Program.exec (Paged.handler sb p) (k q.1) q.2) = _
  rw [ho]
  rfl

theorem wp_step {o : TableOp} {r : o.Ret} {k : o.Ret → Prog α} {Q : α → Paged → Prop}
    {E : Stop → Prop} (ho : Paged.handler sb p (.table o) s = .ok (r, s'))
    (h : wp (Program.exec (Paged.handler sb p) (k r)) Q E s') :
    wp (Program.exec (Paged.handler sb p) (table o >>= k)) Q E s := by
  rw [wp, exec_step ho]
  exact h

theorem wp_seq {m : Prog α} {β : Type} {k : α → Prog β} {a : α} {Q : β → Paged → Prop}
    {E : Stop → Prop} (hm : Program.exec (Paged.handler sb p) m s = .ok (a, s'))
    (h : wp (Program.exec (Paged.handler sb p) (k a)) Q E s') :
    wp (Program.exec (Paged.handler sb p) (m >>= k)) Q E s :=
  wp_exec_bind.mpr ((wp_of_ok hm).mpr h)

def Paged.setFile (s : Paged) (f : Nat) (ff : File) : Paged := s.setTables (s.tables.setFile f ff)

theorem handler_fileput (href : (s.tables.ftable f).ref = 1) :
    Paged.handler sb p (.table (.fileput f)) s =
      .ok (some { s.tables.ftable f with ref := 0 },
        s.setFile f (s.tables.ftable f).closed) := by
  have hput : fileput f s.machine.tables = .ok (some { s.tables.ftable f with ref := 0 },
      s.tables.setFile f (s.tables.ftable f).closed) := by
    change fileput f s.tables = _
    simp only [fileput, href]
    rfl
  simp only [Paged.handler, Machine.handler, TableOp.run, hput]
  rfl

/-- The last reference to a file that has not been filled in. -/
theorem exec_fileclose_none (href : (s.tables.ftable f).ref = 1)
    (htype : (s.tables.ftable f).type = .none) :
    Program.exec (Paged.handler sb p) (fileclose f) s =
      .ok ((), s.setFile f (s.tables.ftable f).closed) := by
  rw [fileclose, exec_step (handler_fileput href)]
  simp only [htype]
  rfl

theorem exec_fileclose_pipe (href : (s.tables.ftable f).ref = 1)
    (htype : (s.tables.ftable f).type = .pipe) :
    Program.exec (Paged.handler sb p) (fileclose f) s =
      Paged.pipeclose (s.tables.ftable f).pipe (s.tables.ftable f).writable
        (s.setFile f (s.tables.ftable f).closed) := by
  rw [fileclose, exec_step (handler_fileput href)]
  simp only [htype]
  exact congrFun (exec_call _) _

def File.taken (ff : File) : File := { ff with ref := 1 }

theorem handler_filealloc_none
    (h : findFrom (fun f => (s.tables.ftable f).ref = 0) 0 nfile = none) :
    Paged.handler sb p (.table .filealloc) s = .ok (none, s) := by
  have halloc : filealloc s.machine.tables = (none, s.tables) := by
    change filealloc s.tables = _
    simp only [filealloc, h]
  simp only [Paged.handler, Machine.handler, TableOp.run, halloc]
  rfl

theorem handler_filealloc_some
    (h : findFrom (fun f => (s.tables.ftable f).ref = 0) 0 nfile = some f) :
    Paged.handler sb p (.table .filealloc) s =
      .ok (some f, s.setFile f (s.tables.ftable f).taken) := by
  have halloc : filealloc s.machine.tables =
      (some f, s.tables.setFile f (s.tables.ftable f).taken) := by
    change filealloc s.tables = _
    simp only [filealloc, h]
    rfl
  simp only [Paged.handler, Machine.handler, TableOp.run, halloc]
  rfl

theorem setFile_ftable_self (s : Paged) (f : Nat) (ff : File) :
    (s.setFile f ff).tables.ftable f = ff := update_self ..

theorem setFile_ftable_of_ne (s : Paged) {f e : Nat} (ff : File) (he : e ≠ f) :
    (s.setFile f ff).tables.ftable e = s.tables.ftable e := update_of_ne he ..

theorem Unpiped.refl (s : Paged) : Unpiped s s := ⟨fun _ => rfl, rfl, rfl⟩

/-- The call has taken the files of the list and nothing else. -/
structure Holding (s s' : Paged) (fs : List Nat) : Prop where
  taken : ∀ f ∈ fs, (s.tables.ftable f).ref = 0 ∧ s'.tables.ftable f = (s.tables.ftable f).taken
  others : ∀ f, f ∉ fs → s'.tables.ftable f = s.tables.ftable f
  proc : s'.tables.proc = s.tables.proc
  freelist : s'.freelist = s.freelist

theorem Holding.nil (s : Paged) : Holding s s [] :=
  ⟨fun _ h => absurd h List.not_mem_nil, fun _ _ => rfl, rfl, rfl⟩

theorem Holding.unpiped (h : Holding s s' []) : Unpiped s s' :=
  ⟨fun f => by rw [h.others f List.not_mem_nil], h.proc, h.freelist⟩

section Holding

variable {fs : List Nat} {Q : α → Paged → Prop} {E : Stop → Prop}

theorem Holding.take (h : Holding s s' fs) (hf : f ∉ fs) (hfree : (s'.tables.ftable f).ref = 0) :
    Holding s (s'.setFile f (s'.tables.ftable f).taken) (f :: fs) where
  taken e he := by
    by_cases hef : e = f
    · subst hef
      rw [setFile_ftable_self, ← h.others e hf]
      exact ⟨hfree, rfl⟩
    · rw [setFile_ftable_of_ne _ _ hef]
      exact h.taken e ((List.mem_cons.mp he).resolve_left hef)
  others e he := by
    rw [List.mem_cons, not_or] at he
    rw [setFile_ftable_of_ne _ _ he.1, h.others e he.2]
  proc := h.proc
  freelist := h.freelist

theorem Holding.wp_filealloc {k : Option Nat → Prog α} (h : Holding s s' fs)
    (hnone : wp (Program.exec (Paged.handler sb p) (k none)) Q E s')
    (hsome : ∀ f s'', f ∉ fs → Holding s s'' (f :: fs) →
      wp (Program.exec (Paged.handler sb p) (k (some f))) Q E s'') :
    wp (Program.exec (Paged.handler sb p) (table .filealloc >>= k)) Q E s' := by
  cases hfind : findFrom (fun f => (s'.tables.ftable f).ref = 0) 0 nfile with
  | none => exact wp_step (handler_filealloc_none hfind) hnone
  | some f =>
    have hfree : (s'.tables.ftable f).ref = 0 := by simpa using (findFrom_eq_some.mp hfind).1
    have hf : f ∉ fs := by
      intro hf
      rw [(h.taken f hf).2] at hfree
      exact absurd hfree one_ne_zero
    exact wp_step (handler_filealloc_some hfind) (hsome f _ hf (h.take hf hfree))

theorem File.taken_closed {ff : File} (href : ff.ref = 0) (htype : ff.type = .none) :
    ff.taken.closed = ff := by
  cases ff
  simp only at href htype
  subst href htype
  rfl

theorem Holding.giveBack (hs : s.Wellformed) (h : Holding s s' (f :: fs)) (hf : f ∉ fs) :
    Holding s (s'.setFile f (s'.tables.ftable f).closed) fs where
  taken e he := by
    have hef : e ≠ f := fun hef => hf (hef ▸ he)
    rw [setFile_ftable_of_ne _ _ hef]
    exact h.taken e (List.mem_cons_of_mem _ he)
  others e he := by
    by_cases hef : e = f
    · subst hef
      obtain ⟨href, htaken⟩ := h.taken e List.mem_cons_self
      rw [setFile_ftable_self, htaken, File.taken_closed href (hs.closed e href)]
    · rw [setFile_ftable_of_ne _ _ hef, h.others e (by simp [hef, he])]
  proc := h.proc
  freelist := h.freelist

theorem Holding.wp_fileclose {k : Unit → Prog α} (hs : s.Wellformed) (h : Holding s s' (f :: fs))
    (hf : f ∉ fs)
    (hk : ∀ s'', Holding s s'' fs → wp (Program.exec (Paged.handler sb p) (k ())) Q E s'') :
    wp (Program.exec (Paged.handler sb p) (fileclose f >>= k)) Q E s' := by
  obtain ⟨href, htaken⟩ := h.taken f List.mem_cons_self
  refine wp_seq (exec_fileclose_none ?_ ?_) (hk _ (h.giveBack hs hf))
  · rw [htaken]
    rfl
  · rw [htaken]
    exact hs.closed f href

theorem Holding.swap {e : Nat} (h : Holding s s' (f :: e :: fs)) : Holding s s' (e :: f :: fs) where
  taken d hd := h.taken d ((List.Perm.swap e f fs).mem_iff.mpr hd)
  others d hd := h.others d fun hd' => hd ((List.Perm.swap e f fs).mem_iff.mp hd')
  proc := h.proc
  freelist := h.freelist

end Holding

/-- The two files are the ends of a pipe in a page that was free. -/
structure PipeOpen (s s' : Paged) (rf wf π : Nat) : Prop where
  ne : rf ≠ wf
  free : (s.tables.ftable rf).ref = 0 ∧ (s.tables.ftable wf).ref = 0
  read : (s'.tables.ftable rf).IsEnd π false
  write : (s'.tables.ftable wf).IsEnd π true
  file : ∀ f, f ≠ rf → f ≠ wf → s'.tables.ftable f = s.tables.ftable f
  pipe : s'.tables.pipe π = some ⟨true, true⟩
  page : s.freelist = π :: s'.freelist
  proc : s'.tables.proc = s.tables.proc

def PipeallocPost (s : Paged) (r : Option (Nat × Nat)) (s' : Paged) : Prop :=
  match r with
  | none => Unpiped s s'
  | some (rf, wf) => ∃ π, PipeOpen s s' rf wf π

variable {π : Nat}

theorem handler_pipePage_cons {page : Option Nat} {rest : List Nat}
    (h : s.freelist = π :: rest) : Paged.handler sb p (.table (.pipePage page)) s =
      .ok (some π, { s.setTables (s.tables.setPipe π (some ⟨true, true⟩)) with
        freelist := rest }) := by
  simp only [Paged.handler, Paged.pipePage, h]

theorem handler_pipePage_nil {page : Option Nat} (h : s.freelist = []) :
    Paged.handler sb p (.table (.pipePage page)) s = .ok (none, s) := by
  simp only [Paged.handler, Paged.pipePage, h]

def File.piped (ff : File) (π : Nat) (w : Bool) : File :=
  { ff with type := .pipe, readable := !w, writable := w, pipe := π }

theorem handler_openPipe (π : Nat) (w : Bool) :
    Paged.handler sb p (.table (.openPipe f π w)) s =
      .ok ((), s.setFile f ((s.tables.ftable f).piped π w)) := rfl

variable {rf wf : Nat}

theorem Holding.pipeOpen {rest : List Nat} (h : Holding s s' [wf, rf])
    (hne : rf ≠ wf) (hpage : s'.freelist = π :: rest) {s₁ s₂ : Paged}
    (hs₁ : s₁ = { s'.setTables (s'.tables.setPipe π (some ⟨true, true⟩)) with freelist := rest })
    (hs₂ : s₂ = s₁.setFile rf ((s₁.tables.ftable rf).piped π false)) :
    PipeOpen s (s₂.setFile wf ((s₂.tables.ftable wf).piped π true)) rf wf π := by
  have hfile : s₁.tables.ftable = s'.tables.ftable := by
    rw [hs₁]
    rfl
  obtain ⟨hrf, htaken⟩ := h.taken rf (by simp)
  obtain ⟨hwf, htaken'⟩ := h.taken wf (by simp)
  refine ⟨hne, ⟨hrf, hwf⟩, ?_, ?_, fun e he he' => ?_, ?_, ?_, ?_⟩
  · rw [setFile_ftable_of_ne _ _ hne, hs₂, setFile_ftable_self, hfile, htaken]
    exact ⟨rfl, rfl, rfl, rfl, rfl⟩
  · rw [setFile_ftable_self, hs₂, setFile_ftable_of_ne _ _ hne.symm, hfile, htaken']
    exact ⟨rfl, rfl, rfl, rfl, rfl⟩
  · rw [setFile_ftable_of_ne _ _ he', hs₂, setFile_ftable_of_ne _ _ he, hfile]
    exact h.others e (by simp [he, he'])
  · rw [hs₂, hs₁]
    exact update_self ..
  · rw [hs₂, hs₁, ← h.freelist]
    exact hpage
  · rw [hs₂, hs₁]
    exact h.proc

/-- **`pipealloc` opens a pipe or gives everything back.** -/
theorem wp_pipealloc (hs : s.Wellformed) (page : Option Nat) :
    wp (Program.exec (Paged.handler sb p) (pipealloc page)) (PipeallocPost s) (fun _ => False)
      s := by
  rw [pipealloc]
  refine (Holding.nil s).wp_filealloc (Unpiped.refl s) fun rf s₁ _ h₁ => ?_
  refine h₁.wp_filealloc ?_ fun wf s₂ hwf h₂ => ?_
  · exact h₁.wp_fileclose hs List.not_mem_nil fun s₂ h₂ => h₂.unpiped
  · have hne : rf ≠ wf := fun hne => hwf (by simp [hne])
    cases hpage : s₂.freelist with
    | nil =>
      refine wp_step (handler_pipePage_nil hpage) ?_
      refine h₂.swap.wp_fileclose hs (by simpa using hne) fun s₃ h₃ => ?_
      exact h₃.wp_fileclose hs List.not_mem_nil fun s₄ h₄ => h₄.unpiped
    | cons π rest =>
      refine wp_step (handler_pipePage_cons hpage) ?_
      refine wp_step (handler_openPipe π false) (wp_step (handler_openPipe π true) ?_)
      exact ⟨π, h₂.pipeOpen hne hpage rfl rfl⟩

theorem pipeclose_read (h : s.tables.pipe π = some ⟨true, true⟩) :
    Paged.pipeclose π false s =
      .ok ((), s.setTables (s.tables.setPipe π (some ⟨false, true⟩))) := by
  simp [Paged.pipeclose, Kernel.pipeclose, h, Tables.setPipe]
  rfl

theorem pipeclose_write (h : s.tables.pipe π = some ⟨false, true⟩) :
    Paged.pipeclose π true s = .ok ((), { s.setTables (s.tables.setPipe π none) with
      freelist := π :: s.freelist }) := by
  simp [Paged.pipeclose, Kernel.pipeclose, h, Tables.setPipe]

/-- The two ends of a new pipe are closed: its page is free again. -/
theorem PipeOpen.wp_close {k : Unit → Prog α} {Q : α → Paged → Prop}
    {E : Stop → Prop} (h : PipeOpen s s' rf wf π)
    (hk : ∀ s'', Unpiped s s'' → wp (Program.exec (Paged.handler sb p) (k ())) Q E s'') :
    wp (Program.exec (Paged.handler sb p) (fileclose rf >>= fun _ => fileclose wf >>= k)) Q E
      s' := by
  obtain ⟨href, htype, hπ, hw, -⟩ := h.read
  obtain ⟨href', htype', hπ', hw', -⟩ := h.write
  have hread : Program.exec (Paged.handler sb p) (fileclose rf) s' =
      .ok ((), (s'.setFile rf (s'.tables.ftable rf).closed).setTables
        ((s'.tables.setFile rf (s'.tables.ftable rf).closed).setPipe π (some ⟨false, true⟩))) := by
    rw [exec_fileclose_pipe href htype, hπ, hw]
    exact pipeclose_read h.pipe
  refine wp_seq hread ?_
  set s₁ := (s'.setFile rf (s'.tables.ftable rf).closed).setTables
    ((s'.tables.setFile rf (s'.tables.ftable rf).closed).setPipe π (some ⟨false, true⟩)) with hs₁
  have hwf : s₁.tables.ftable wf = s'.tables.ftable wf := update_of_ne h.ne.symm ..
  have hwrite : Program.exec (Paged.handler sb p) (fileclose wf) s₁ =
      .ok ((), { (s₁.setFile wf (s₁.tables.ftable wf).closed).setTables
        ((s₁.tables.setFile wf (s₁.tables.ftable wf).closed).setPipe π none) with
          freelist := π :: s₁.freelist }) := by
    rw [exec_fileclose_pipe (by rw [hwf, href']) (by rw [hwf, htype']), hwf, hπ', hw']
    refine pipeclose_write ?_
    exact update_self ..
  refine wp_seq hwrite (hk _ ⟨fun e => ?_, h.proc, h.page.symm⟩)
  change (Function.update (Function.update s'.tables.ftable rf (s'.tables.ftable rf).closed) wf
    (s₁.tables.ftable wf).closed e).ref = _
  by_cases he' : e = wf
  · subst he'
    rw [update_self, h.free.2]
    rfl
  · rw [update_of_ne he']
    by_cases he : e = rf
    · subst he
      rw [update_self, h.free.1]
      rfl
    · rw [update_of_ne he, h.file e he he']

theorem PipeOpen.congr {c : Tables} (h : PipeOpen s s' rf wf π)
    (hfile : c.ftable = s'.tables.ftable) (hpipe : c.pipe = s'.tables.pipe)
    (hproc : c.proc = s.tables.proc) : PipeOpen s (s'.setTables c) rf wf π where
  ne := h.ne
  free := h.free
  read := hfile ▸ h.read
  write := hfile ▸ h.write
  file f hf hf' := (congrFun hfile f).trans (h.file f hf hf')
  pipe := (congrFun hpipe π).trans h.pipe
  page := h.page
  proc := hproc

theorem handler_fdalloc_none (h : findFrom (fun fd => (s.tables.proc p).ofile fd = none) 0 nofile =
    none) : Paged.handler sb p (.table (.fdalloc f)) s = .ok (none, s) := by
  have halloc : fdalloc p f s.machine.tables = (none, s.tables) := by
    change fdalloc p f s.tables = _
    simp only [fdalloc, h]
  simp only [Paged.handler, Machine.handler, TableOp.run, halloc]
  rfl

def Tables.setOfile (c : Tables) (p fd : Nat) (f : Option Nat) : Tables :=
  c.setProc p { c.proc p with ofile := Function.update (c.proc p).ofile fd f }

theorem handler_fdalloc_some {fd : Nat}
    (h : findFrom (fun fd => (s.tables.proc p).ofile fd = none) 0 nofile = some fd) :
    Paged.handler sb p (.table (.fdalloc f)) s =
      .ok (some fd, s.setTables (s.tables.setOfile p fd (some f))) := by
  have halloc : fdalloc p f s.machine.tables = (some fd, s.tables.setOfile p fd (some f)) := by
    change fdalloc p f s.tables = _
    simp only [fdalloc, h]
    rfl
  simp only [Paged.handler, Machine.handler, TableOp.run, halloc]
  rfl

theorem handler_clearOfile (fd : Nat) : Paged.handler sb p (.table (.clearOfile fd)) s =
    .ok ((), s.setTables (s.tables.setOfile p fd none)) := rfl

theorem setOfile_clear {c : Tables} {fd : Nat} {e : Option Nat} (h : (c.proc p).ofile fd = none) :
    ((c.setOfile p fd e).setOfile p fd none).proc = c.proc := by
  funext q
  by_cases hq : q = p
  · subst hq
    simp [Tables.setOfile, Tables.setProc, ← h]
  · simp [Tables.setOfile, Tables.setProc, hq]

def SysPipePost (p : Nat) (s : Paged) (r : Option (Nat × Nat)) (s' : Paged) : Prop :=
  match r with
  | none => Unpiped s s'
  | some (fd0, fd1) => Piped p s s' fd0 fd1

theorem PipeOpen.piped {fd0 fd1 : Nat} {s₁ s₂ : Paged} (hs : s.Wellformed)
    (h : PipeOpen s s₁ rf wf π)
    (h₀ : findFrom (fun fd => (s₁.tables.proc p).ofile fd = none) 0 nofile = some fd0)
    (hs₂ : s₂ = s₁.setTables (s₁.tables.setOfile p fd0 (some rf)))
    (h₁ : findFrom (fun fd => (s₂.tables.proc p).ofile fd = none) 0 nofile = some fd1) :
    Piped p s (s₂.setTables (s₂.tables.setOfile p fd1 (some wf))) fd0 fd1 := by
  obtain ⟨hfd0, -, hlt0, -⟩ := findFrom_eq_some.mp h₀
  obtain ⟨hfd1, -, hlt1, -⟩ := findFrom_eq_some.mp h₁
  have hofile : (s₂.tables.proc p).ofile =
      Function.update (s.tables.proc p).ofile fd0 (some rf) := by
    rw [hs₂, ← h.proc]
    exact congrArg Proc.ofile (update_self p _ s₁.tables.proc)
  rw [h.proc, decide_eq_true_eq] at hfd0
  rw [hofile, decide_eq_true_eq] at hfd1
  have hne : fd1 ≠ fd0 := by
    rintro rfl
    rw [update_self] at hfd1
    exact absurd hfd1 (by simp)
  rw [update_of_ne hne] at hfd1
  have hfile : s₂.tables.ftable = s₁.tables.ftable := by
    rw [hs₂]
    rfl
  refine ⟨⟨by omega, by omega, hne.symm⟩, ⟨hfd0, hfd1⟩, ⟨π, rf, wf, ?_, ?_, h.free.1, ?_, h.free.2,
    ?_, ?_, fun f hf hf' => ?_⟩, fun q hq => ?_⟩
  · rw [h.page, hs₂]
    rfl
  · rw [hs₂]
    exact h.pipe
  · exact hfile ▸ h.read
  · exact hfile ▸ h.write
  · rw [← hofile]
    exact congrArg Proc.ofile (update_self p _ s₂.tables.proc)
  · have heq : s₂.tables.ftable f = s.tables.ftable f := hfile ▸ h.file f hf hf'
    refine ⟨heq, fun htype hπ => ?_⟩
    change (s₂.tables.ftable f).type = .pipe at htype
    change (s₂.tables.ftable f).pipe = π at hπ
    rw [heq] at htype hπ
    exact hs.used f htype (by simp [hπ, h.page])
  · rw [← h.proc]
    refine (update_of_ne hq _ s₂.tables.proc).trans ?_
    rw [hs₂]
    exact update_of_ne hq _ s₁.tables.proc

/-- **The call installs a pipe or changes nothing.** -/
theorem wp_sysPipe (sb : Superblock) (p : Nat) (hs : s.Wellformed) (page : Option Nat) :
    wp (Program.exec (Paged.handler sb p) (sysPipe page)) (SysPipePost p s) (fun _ => False) s := by
  rw [sysPipe]
  refine wp_exec_bind.mpr ((wp_pipealloc hs page).mono ?_ fun _ => False.elim)
  rintro (_ | ⟨rf, wf⟩) s₁ hpost
  · exact hpost
  obtain ⟨π, hopen⟩ := hpost
  cases h₀ : findFrom (fun fd => (s₁.tables.proc p).ofile fd = none) 0 nofile with
  | none => exact wp_step (handler_fdalloc_none h₀) (hopen.wp_close fun s₂ h₂ => h₂)
  | some fd0 =>
    refine wp_step (handler_fdalloc_some h₀) ?_
    set s₂ := s₁.setTables (s₁.tables.setOfile p fd0 (some rf)) with hs₂
    cases h₁ : findFrom (fun fd => (s₂.tables.proc p).ofile fd = none) 0 nofile with
    | none =>
      -- the first descriptor is cleared, so the process is as it was
      have hfd0 : (s₁.tables.proc p).ofile fd0 = none := by simpa using (findFrom_eq_some.mp h₀).1
      refine wp_step (handler_fdalloc_none h₁) (wp_step (handler_clearOfile fd0) ?_)
      refine PipeOpen.wp_close (hopen.congr rfl rfl ?_) fun s₃ h₃ => h₃
      rw [← hopen.proc]
      exact setOfile_clear hfd0
    | some fd1 => exact wp_step (handler_fdalloc_some h₁) (hopen.piped hs h₀ hs₂ h₁)

/-- **`sys_pipe` returns 0 with two new descriptors for the ends of a new pipe, or -1 with every
file's `ref`, the descriptors and the free pages as they were.** -/
theorem sysPipeCall_allOrNothing (sb : Superblock) (p : Nat) (u : User) (s : Paged)
    (hs : s.Wellformed) : ∃ r ws s', sysPipeCall sb p u s = .ok ((r, ws), s') ∧
      ((r = 0 ∧ ∃ fd fd0 fd1, u.argptr 0 8 = some fd ∧
          ws = [(fd, le32 fd0), (fd + 4, le32 fd1)] ∧ Piped p s s' fd0 fd1) ∨
        (r = -1 ∧ ws = [] ∧ Unpiped s s')) := by
  cases hfd : u.argptr 0 8 with
  | none =>
    refine ⟨-1, [], s, ?_, .inr ⟨rfl, rfl, .refl s⟩⟩
    rw [sysPipeCall, hfd]
  | some fd =>
    obtain ⟨r, s', hrun, hpost⟩ := (wp_sysPipe sb p hs s.freelist.head?).returns
    rcases r with _ | ⟨fd0, fd1⟩
    · refine ⟨-1, [], s', ?_, .inr ⟨rfl, rfl, hpost⟩⟩
      rw [sysPipeCall, hfd]
      simp only [hrun]
    · refine ⟨0, _, s', ?_, .inl ⟨rfl, fd, fd0, fd1, rfl, rfl, hpost⟩⟩
      rw [sysPipeCall, hfd]
      simp only [hrun]

def afterBoot : Paged where
  machine :=
    { tables :=
        { icache := fun _ => ⟨0, 0, 0, false, none, none⟩
          ftable := fun _ => ⟨.none, 0, false, false, 0, none, 0⟩
          pipe := fun _ => none
          proc := fun _ => ⟨.live, 1, none, false, fun _ => none, none, false⟩
          nextpid := 2 }
      store := ⟨fun _ _ => 0, 0, [], []⟩
      copy := fun _ => Dinode.zero }
  freelist := [7, 8]

/-- A process of one page with its stack at the bottom; the argument is address 0. -/
def onePage : User := ⟨4096, 0, fun _ => 0⟩

theorem sysPipeCall_allOrNothing_afterBoot : afterBoot.Wellformed ∧
    ∃ r ws s', sysPipeCall ⟨0, 0, 0, 0, 0, 0, 0⟩ 0 onePage afterBoot = .ok ((r, ws), s') ∧
      ((r = 0 ∧ ∃ fd fd0 fd1, onePage.argptr 0 8 = some fd ∧
          ws = [(fd, le32 fd0), (fd + 4, le32 fd1)] ∧ Piped 0 afterBoot s' fd0 fd1) ∨
        (r = -1 ∧ ws = [] ∧ Unpiped afterBoot s')) :=
  have hboot : afterBoot.Wellformed := ⟨fun _ _ => rfl, fun _ h => nomatch h⟩
  ⟨hboot, sysPipeCall_allOrNothing _ 0 onePage afterBoot hboot⟩

end Xv6.Kernel
