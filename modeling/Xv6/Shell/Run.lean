import Xv6.Lib.Search
import Xv6.Lib.Transition
import Xv6.Param
import Xv6.Shell.Defs

/-!
# Running a command

`runcmd` of `sh.c`, as the system calls that a process makes, and what these calls do to its
descriptors. Any number of processes run at once, and each of them makes one call at a time. A
process that has executed a program makes whatever calls it likes. `fork`, `pipe` and `open`
succeed.

`runcmd` comes to a node of the command tree at most once. Its path names the file that it opens or
the pipe that it makes there, and the calls that it makes for the node.
-/

namespace Xv6.Shell

inductive Dir
  | down
  | left
  | right
  deriving DecidableEq

abbrev Path := List Dir

inductive Operand
  | lit (n : Nat)
  | p0
  | p1
  deriving DecidableEq

/-- The system calls that a process of the shell has still to make. A call knows the node that it
is made for. -/
inductive Code (α : Type)
  | exec (x : Path) (argv : List α)
  | close (x : Path) (fd : Operand) (k : Code α)
  | opens (x : Path) (file : α) (mode : Nat) (k : Code α)
  | dup (fd : Operand) (k : Code α)
  | pipe (x : Path) (k : Code α)
  /-- the child is the first process of the subtree at `o` -/
  | fork (o : Path) (child k : Code α)
  | wait (k : Code α)
  | exit

def runcmd {α : Type} (x : Path) : Cmd α → Code α
  | .exec [] => .exit
  | .exec (a :: argv) => .exec x (a :: argv)
  | .redir cmd file mode fd =>
    .close x (.lit fd) (.opens x file mode (runcmd (x ++ [.down]) cmd))
  | .list left right =>
    .fork (x ++ [.left]) (runcmd (x ++ [.left]) left) (.wait (runcmd (x ++ [.right]) right))
  | .pipe left right =>
    .pipe x
      (.fork (x ++ [.left])
        (.close x (.lit 1) (.dup .p1 (.close x .p0 (.close x .p1
          (runcmd (x ++ [.left]) left)))))
      (.fork (x ++ [.right])
        (.close x (.lit 0) (.dup .p0 (.close x .p0 (.close x .p1
          (runcmd (x ++ [.right]) right)))))
      (.close x .p0 (.close x .p1 (.wait (.wait .exit))))))
  | .back cmd => .fork (x ++ [.down]) (runcmd (x ++ [.down]) cmd) .exit

inductive File (α : Type)
  /-- descriptor `fd` of the process that runs the command tree -/
  | inherited (fd : Nat)
  /-- opened by the `REDIR` at `x` -/
  | opened (x : Path) (file : α) (mode : Nat)
  /-- an end of the pipe of the `PIPE` at `x` -/
  | pipe (x : Path) (write : Bool)
  /-- opened by a program -/
  | other (n : Nat)
  deriving DecidableEq

abbrev Table (α : Type) := Nat → Option (File α)

namespace Table

variable {α : Type}

def fdalloc (T : Table α) (f : File α) : Option (Nat × Table α) :=
  (findFrom (fun fd => (T fd).isNone) 0 nofile).map fun fd => (fd, Function.update T fd (some f))

def close (T : Table α) (fd : Nat) : Table α := Function.update T fd none

def dup (T : Table α) (fd : Nat) : Table α :=
  match T fd with
  | none => T
  | some f => ((T.fdalloc f).map Prod.snd).getD T

def pipe (T : Table α) (rf wf : File α) : Option (Nat × Nat × Table α) :=
  (T.fdalloc rf).bind fun y => (y.2.fdalloc wf).map fun z => (y.1, z.1, z.2)

def empty : Table α := fun _ => none

end Table

inductive Control (α : Type)
  | shell (c : Code α)
  | program
  | zombie

structure Proc (α : Type) where
  parent : Nat
  /-- the subtree that it was forked for; its children are of this subtree too -/
  origin : Path
  ofile : Table α
  /-- the array `p` of `runcmd` -/
  p : Nat × Nat
  control : Control α

structure State (α : Type) where
  proc : Nat → Option (Proc α)
  nextpid : Nat

inductive Call
  | close (fd : Nat)
  | dup (fd : Nat)
  | opens (n : Nat)
  | pipe (n m : Nat)
  | fork
  | wait (child : Nat)
  | exit

inductive Action
  /-- the next call of a shell process, other than `exec` and a `wait` for a child -/
  | call (pid : Nat)
  /-- `wait` finds that `child` has exited -/
  | wait (pid child : Nat)
  /-- `exec` succeeds, or it fails -/
  | exec (pid : Nat) (ok : Bool)
  | program (pid : Nat) (c : Call)

def initPid : Nat := 1

section

variable {α : Type}

def Operand.eval (p : Nat × Nat) : Operand → Nat
  | lit n => n
  | p0 => p.1
  | p1 => p.2

namespace State

variable (s : State α)

def set (pid : Nat) (P : Proc α) : State α :=
  { s with proc := Function.update s.proc pid (some P) }

/-- `exit`: the descriptors are closed and the children are passed to `initproc`. -/
def exit (pid : Nat) (P : Proc α) : State α where
  proc q :=
    if q = pid then some { P with ofile := Table.empty, control := .zombie }
    else (s.proc q).map fun Q => if Q.parent = pid then { Q with parent := initPid } else Q
  nextpid := s.nextpid

/-- `fork`: the parent becomes `P`; the child has its descriptors and memory. -/
def fork (pid : Nat) (P : Proc α) (origin : Path) (child : Control α) : State α where
  proc := Function.update (Function.update s.proc pid (some P)) s.nextpid
    (some ⟨pid, origin, P.ofile, P.p, child⟩)
  nextpid := s.nextpid + 1

def childless (pid : Nat) : Prop := ∀ q < s.nextpid, ∀ Q ∈ s.proc q, Q.parent ≠ pid

instance (pid : Nat) : Decidable (s.childless pid) := by
  unfold childless
  infer_instance

def Exited (pid child : Nat) : Prop :=
  ∃ Q ∈ s.proc child, Q.parent = pid ∧ Q.control matches .zombie

instance (pid child : Nat) : Decidable (s.Exited pid child) := by
  unfold Exited
  infer_instance

def reap (child : Nat) : State α := { s with proc := Function.update s.proc child none }

end State

def shellCall (s : State α) (pid : Nat) (P : Proc α) : Code α → Option (State α)
  | .close _ fd k =>
    some (s.set pid { P with ofile := P.ofile.close (fd.eval P.p), control := .shell k })
  | .opens x file mode k =>
    match P.ofile.fdalloc (.opened x file mode) with
    | some y => some (s.set pid { P with ofile := y.2, control := .shell k })
    | none => some (s.exit pid P)
  | .dup fd k =>
    some (s.set pid { P with ofile := P.ofile.dup (fd.eval P.p), control := .shell k })
  | .pipe x k =>
    match P.ofile.pipe (.pipe x false) (.pipe x true) with
    | some y => some (s.set pid { P with ofile := y.2.2, p := (y.1, y.2.1), control := .shell k })
    | none => some (s.exit pid P)
  | .fork o child k => some (s.fork pid { P with control := .shell k } o (.shell child))
  | .wait k => if s.childless pid then some (s.set pid { P with control := .shell k }) else none
  | .exit => some (s.exit pid P)
  | .exec _ _ => none

def programCall (s : State α) (pid : Nat) (P : Proc α) : Call → Option (State α)
  | .close fd => some (s.set pid { P with ofile := P.ofile.close fd })
  | .dup fd => some (s.set pid { P with ofile := P.ofile.dup fd })
  | .opens n => (P.ofile.fdalloc (.other n)).map fun y => s.set pid { P with ofile := y.2 }
  | .pipe n m =>
    (P.ofile.pipe (.other n) (.other m)).map fun y => s.set pid { P with ofile := y.2.2 }
  | .fork => some (s.fork pid P P.origin .program)
  | .wait child => if s.Exited pid child then some (s.reap child) else none
  | .exit => some (s.exit pid P)

def step (s : State α) : Action → Option (State α)
  | .call pid =>
    (s.proc pid).bind fun P => match P.control with
      | .shell c => shellCall s pid P c
      | _ => none
  | .wait pid child =>
    (s.proc pid).bind fun P => match P.control with
      | .shell (.wait k) =>
        if s.Exited pid child then some ((s.reap child).set pid { P with control := .shell k })
        else none
      | _ => none
  | .exec pid ok =>
    (s.proc pid).bind fun P => match P.control with
      | .shell (.exec _ _) =>
        -- A failed `exec` is reported, and `runcmd` exits.
        some (s.set pid { P with control := if ok then .program else .shell .exit })
      | _ => none
  | .program pid c =>
    (s.proc pid).bind fun P => match P.control with
      | .program => programCall s pid P c
      | _ => none

def std (d : Nat → File α) : Table α := fun fd => if fd < 3 then some (d fd) else none

/-- A process `pid` is about to run the tree `t`. -/
def State.start (pid : Nat) (t : Cmd α) : State α where
  proc q :=
    if q = pid then some ⟨initPid, [], std .inherited, (0, 0), .shell (runcmd [] t)⟩ else none
  nextpid := pid + 1

end

end Xv6.Shell
