import Xv6.Lib.Protocol
import Xv6.Kernel.Alone.Failing

/-!
# Transactions

Whatever its operations return, a system call on files pairs `begin_op` with `end_op`.
-/

namespace Xv6.Kernel

open Alone (PathCall)
open Program (Protocol Obeys)

/-- A process is outside of a transaction, or inside with the file it has allocated there. -/
inductive Tx
  | outside
  | inside (fresh : Option Nat)

/-- What needs a transaction: to end it, to write to the disk, and the end of `iput`. -/
@[simp] def Op.logs : Op → Bool
  | .endOp | .free _ | .ialloc _ | .iupdate _ | .writei .. | .table (.unref _) => true
  | _ => false

/-- What begins or ends a transaction, or opens a file inside of one. -/
def Op.moves : Op → Tx → Bool
  | .beginOp, _ | .endOp, _ | .table .filealloc, .inside _ | .table (.openFile ..), .inside _
  | .table (.openPipe ..), .inside _ => true
  | _, _ => false

/-- A file that has just been allocated has no type. -/
def transactions : Protocol Op Op.Ret Tx where
  pre
    | .beginOp, g | .table (.openFile ..), g | .table (.openPipe ..), g => g = .outside
    | o, g => o.logs = true → g ≠ .outside
  fact
    | .table (.fileput f), g, some ff => g = .inside (some f) → ff.type = .none
    | _, _, _ => True
  rule
    | .beginOp, _, _, g => g = .inside none
    | .endOp, _, _, g => g = .outside
    | .table .filealloc, .inside _, f, g => g = .inside f
    | _, g, _, g' => g' = g

variable {α β : Type} {g h : Tx} {r : Option Nat} {m : Prog α} {f : α → Prog β}

/-- A process can run the program, and goes from `g` to `h`. -/
structure Goes (g : Tx) (m : Prog α) (h : Tx) : Prop where
  obeys : Obeys transactions m (fun _ d => d = h) g

@[simp] theorem goes_pure (a : α) : Goes g (pure a) g := ⟨rfl⟩

@[simp] theorem goes_panic (msg : String) : Goes g (panic msg : Prog α) h := ⟨nofun, nofun⟩

theorem Goes.bind (hm : Goes g m g) (hf : ∀ a, Goes g (f a) h) : Goes g (m >>= f) h :=
  ⟨Obeys.bind (hm.obeys.mono fun a _ e => e ▸ (hf a).obeys)⟩

theorem goes_begin {f : Unit → Prog α} (hf : Goes (.inside none) (f ()) h) :
    Goes .outside (beginOp >>= f) h := ⟨rfl, fun _ _ => ⟨_, rfl, hf.obeys⟩⟩

theorem goes_end {f : Unit → Prog α} (hf : Goes .outside (f ()) h) :
    Goes (.inside r) (endOp >>= f) h := ⟨nofun, fun _ _ => ⟨_, rfl, hf.obeys⟩⟩

theorem goes_filealloc {f : Option Nat → Prog α} (hf : ∀ r, Goes (.inside r) (f r) h) :
    Goes (.inside r) (table .filealloc >>= f) h := ⟨nofun, fun r _ => ⟨_, rfl, (hf r).obeys⟩⟩

theorem goes_call {o : Op} (h : o.moves g = false) (hg : o.logs = true → g ≠ .outside) :
    Goes g (call o) g := by
  rcases o with o | _ | _
  · cases o <;> cases g <;> first
      | exact ⟨hg, fun _ _ => ⟨_, rfl, rfl⟩⟩ | exact ⟨rfl, fun _ _ => ⟨_, rfl, rfl⟩⟩ | cases h
  all_goals first | exact ⟨hg, fun _ _ => ⟨g, rfl, rfl⟩⟩ | cases h

@[simp] theorem goes_inode (ip : Nat) : (∀ g, Goes g (ilock ip) g) ∧
    (∀ g, Goes g (iunlock ip) g) ∧ ∀ r, Goes (.inside r) (iput ip) (.inside r) := by
  unfold ilock iunlock iput iputFree
  with_reducible repeat' first | apply And.intro | apply Goes.bind | intro _ | split
  all_goals first | simp | exact goes_call rfl (by simp)

@[simp] theorem goes_scan {dp msg q n j} : Goes (.inside r) (scan dp msg q n j) (.inside r) := by
  induction n generalizing j with
  | zero => exact goes_pure _
  | succ n ih =>
    unfold scan readDirent
    with_reducible repeat' first | apply Goes.bind | intro _ | split
    all_goals first | simp [ih]; done | exact goes_call rfl (by simp)

@[simp] theorem goes_dirlookup {dp name} : Goes (.inside r) (dirlookup dp name) (.inside r) := by
  unfold dirlookup
  with_reducible repeat' first | apply Goes.bind | intro _ | split
  all_goals first | simp | exact goes_call rfl (by simp)

@[simp] theorem goes_dirlink {dp name i} : Goes (.inside r) (dirlink dp name i) (.inside r) := by
  unfold dirlink writeData
  with_reducible repeat' first | apply Goes.bind | intro _ | split
  all_goals first | simp; done | exact goes_call rfl (by simp)

theorem goes_namexLoop {p es ip} : Goes (.inside r) (namexLoop p es ip) (.inside r) := by
  induction es generalizing ip with
  | nil =>
    unfold namexLoop
    split <;> simp [Goes.bind]
  | cons e es ih =>
    unfold namexLoop iunlockput
    with_reducible repeat' first | apply Goes.bind | intro _ | split
    all_goals first | simp [ih] | exact goes_call rfl (by simp)

@[simp] theorem goes_namex {path p} : Goes (.inside r) (namex path p) (.inside r) := by
  unfold namex
  with_reducible repeat' first | apply Goes.bind | intro _ | split
  all_goals first | exact goes_namexLoop | exact goes_call rfl (by simp)

@[simp] theorem goes_create {path t a b} : Goes (.inside r) (create path t a b) (.inside r) := by
  unfold create createNew nameiparent ialloc update iunlockput
  with_reducible repeat' first | apply Goes.bind | intro _ | split
  all_goals first | simp | exact goes_call rfl (by simp)

@[simp] theorem goes_openInode {path o} : Goes (.inside r) (openInode path o) (.inside r) := by
  unfold openInode namei iunlockput
  with_reducible repeat' first | apply Goes.bind | intro _ | split
  all_goals first | simp | exact goes_call rfl (by simp)

/-- Outside of a transaction any file can be closed, inside only one that is not opened yet. -/
@[simp] theorem goes_fileclose {i : Nat} (hi : g = .outside ∨ g = .inside (some i)) :
    Goes g (fileclose i) g := by
  refine ⟨nofun, fun ff hff => ⟨g, rfl, ?_⟩⟩
  rcases ff with _ | ⟨_ | _ | _, _⟩
  · rfl
  · rfl
  · exact ⟨nofun, fun _ _ => ⟨g, rfl, rfl⟩⟩
  · rcases hi with rfl | rfl
    · exact (goes_begin (.bind ((goes_inode _).2.2 _) fun _ => goes_end (goes_pure ()))).obeys
    · cases hff rfl

@[simp] theorem goes_filewriteLoop {i addr n k j} :
    Goes .outside (filewriteLoop i addr n k j) .outside := by
  induction k generalizing j with
  | zero => exact goes_pure _
  | succ k ih =>
    unfold filewriteLoop writei writeData
    with_reducible repeat' first
      | apply goes_begin | apply goes_end | apply Goes.bind | intro _ | split
    all_goals first | simp [ih] | exact goes_call rfl (by simp)

theorem goes_eachFile {body fds} (h : ∀ fd f, Goes .outside (body fd f) .outside) :
    Goes .outside (eachFile body fds) .outside := by
  induction fds with
  | nil => exact goes_pure _
  | cons fd fds ih =>
    unfold eachFile
    with_reducible repeat' first | apply Goes.bind | intro _ | split
    all_goals first | simp [h, ih] | exact goes_call rfl (by simp)

/-- **Transactions are balanced.** -/
theorem transactions_balanced : (∀ c : PathCall, Goes .outside c.prog .outside) ∧
    (∀ path omode, Goes .outside (sysOpen path omode) .outside) ∧
    (∀ page, Goes .outside (sysPipe page) .outside) ∧
    (∀ mem, Goes .outside (fork mem) .outside) ∧ Goes .outside exit .outside ∧
    (∀ fd addr n pip, Goes .outside (sysWrite fd addr n pip) .outside) ∧
    (∀ fd n con pip, Goes .outside (sysRead fd n con pip) .outside) ∧
    ∀ fd, Goes .outside (sysClose fd) .outside ∧
    Goes .outside (sysFstat fd) .outside ∧ Goes .outside (sysDup fd) .outside ∧
    Goes .outside (sysFlock fd) .outside ∧ Goes .outside (sysFunlock fd) .outside := by
  unfold PathCall.prog sysLink linkBad sysUnlink unlinkBad unlinkEntry isdirempty sysMkdir sysMknod
    sysCreate sysChdir sysOpen sysPipe pipealloc sysWrite filewrite sysRead fileread readi sysClose
    sysFstat filestat sysDup sysFlock filelock sysFunlock fileunlock nameiparent namei update
    iunlockput writeData fork exit
  with_reducible repeat' first
    | apply And.intro | apply goes_begin | apply goes_end | apply goes_filealloc
    | apply goes_eachFile | apply Goes.bind
    | intro _ | split
  all_goals first | simp [*]; done | exact goes_call rfl (by simp)

end Xv6.Kernel
