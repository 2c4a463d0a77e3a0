import Xv6.Sched.Defs
import Xv6.Syscall.Args

/-!
# The nice system call

`syscall` calls the functions of its table without arguments, and `sys_nice` has a parameter, a
`struct proc *`: the word that the kernel stack happens to hold there. From the memory at that
address come the pid and the priority for `proc_nice`; the arguments on the user stack are not read.
`proc_nice` takes its result from the place behind the table, and `sys_nice` returns 0 in any case.
-/

namespace Xv6.Nice

open Sched (ProcState)

variable {F : Type}

/-- `struct proc`; `rest` stands for the other fields. -/
structure Proc (F : Type) where
  state : ProcState
  pid : Int32
  priority : Int32
  rest : F
  deriving DecidableEq

/-- What a word is when it is used as a `struct proc *`. -/
inductive Pointer
  /-- the address of an entry of `ptable.proc` -/
  | entry (i : Nat)
  /-- the address of other memory, which holds these at the places of `pid` and `priority` -/
  | elsewhere (pid priority : Int32)
  /-- an address that is not mapped -/
  | unmapped

/-- Where a `struct proc` is read: an entry of `ptable.proc`, counted on behind the table, or some
other place. -/
inductive Place
  | entry (i : Nat)
  | elsewhere
  deriving DecidableEq

/-- The part of the kernel that the call works on. -/
structure Kernel (F : Type) where
  /-- `ptable.proc`; from `NPROC` on, what the memory behind the table reads as -/
  proc : Nat → Proc F
  /-- `tf->eax` of the processes -/
  eax : Nat → Int32
  /-- `myproc()` -/
  curproc : Nat
  /-- the word on the kernel stack where a function called by `syscall` has its first argument -/
  word : Pointer

/-- A function of the table `syscalls`: the kernel afterwards, the result and the places read. It
has no result if it makes the kernel panic. -/
abbrev Handler (F : Type) := Kernel F → Option (Kernel F × Int32 × List Place)

def procNiceLoop (pid priority : Int32) : (count i : Nat) → (Nat → Proc F) →
    (Nat → Proc F) × List Place
  | 0, _, proc => (proc, [])
  | count + 1, i, proc =>
    let proc' :=
      if (proc i).pid = pid then Function.update proc i { proc i with priority := priority }
      else proc
    let x := procNiceLoop pid priority count (i + 1) proc'
    (x.1, .entry i :: x.2)

/-- `proc_nice`. After the loop `p` is `&ptable.proc[NPROC]`. -/
def procNice (pid priority : Int32) (proc : Nat → Proc F) :
    (Nat → Proc F) × Int32 × List Place :=
  let x := procNiceLoop pid priority nproc 0 proc
  (x.1, (x.1 nproc).priority, x.2 ++ [.entry nproc])

/-- `p->pid` and `p->priority`, with the place read; a fault in the kernel is a panic. -/
def Kernel.load (k : Kernel F) : Pointer → Option (Int32 × Int32 × Place)
  | .entry i => some ((k.proc i).pid, (k.proc i).priority, .entry i)
  | .elsewhere pid priority => some (pid, priority, .elsewhere)
  | .unmapped => none

def sysNiceOf (p : Pointer) : Handler F := fun k =>
  (k.load p).map fun (pid, priority, place) =>
    let x := procNice pid priority k.proc
    ({ k with proc := x.1 }, 0, place :: x.2.2)

def sysNice : Handler F := fun k => sysNiceOf k.word k

def niceNumber : Int32 := 27

/-- `syscall`, for a table of system calls: the kernel afterwards and the places read. -/
def syscall (syscalls : List (Option (Handler F))) (k : Kernel F) :
    Option (Kernel F × List Place) :=
  let num := k.eax k.curproc
  match if num > 0 then (syscalls[num.toInt.toNat]?).join else none with
  | some f => (f k).map fun (k', result, reads) =>
      ({ k' with eax := Function.update k'.eax k.curproc result }, reads)
  | none => some ({ k with eax := Function.update k.eax k.curproc (-1) }, [])

/-- A process shares its pid with no other entry of the table. -/
def DistinctPids (k : Kernel F) : Prop :=
  ∀ i < nproc, ∀ j < nproc, (k.proc i).state ≠ .unused → (k.proc i).pid = (k.proc j).pid → i = j

/-- Process `t` has the new priority, the caller's `eax` holds the old one, and the rest is as
before. -/
structure Reniced (k : Kernel F) (t : Nat) (priority : Int32) (k' : Kernel F) : Prop where
  self : k'.proc t = { k.proc t with priority := priority }
  others : ∀ i < nproc, i ≠ t → k'.proc i = k.proc i
  eax : k'.eax = Function.update k.eax k.curproc (k.proc t).priority

/-- The places read are entries of the table. -/
def Inside (reads : List Place) : Prop := ∀ r ∈ reads, ∃ i < nproc, r = .entry i

/-- The word on the stack points to memory that makes `sys_nice` do the right thing: it holds the
two arguments, or a pid and a priority that change nothing where nothing was to be changed. -/
def Lucky (k : Kernel F) (t : Nat) (priority : Int32) : Prop :=
  (k.proc t).priority = 0 ∧ ∃ q, k.load k.word = some q ∧
    (q.1 = (k.proc t).pid ∧ q.2.1 = priority ∨
      q.1 ≠ (k.proc t).pid ∧ priority = 0 ∧
        ∀ i < nproc, (k.proc i).pid = q.1 → (k.proc i).priority = q.2.1)

section

variable {pid priority : Int32} {proc : Nat → Proc F} {i j count : Nat}

/-- What the loop does to an entry. -/
def renice (pid priority : Int32) (p : Proc F) : Proc F :=
  if p.pid = pid then { p with priority := priority } else p

theorem procNiceLoop_proc : (procNiceLoop pid priority count i proc).1 j =
    if i ≤ j ∧ j < i + count then renice pid priority (proc j) else proc j := by
  induction count generalizing i proc with
  | zero => rw [procNiceLoop, if_neg (by omega)]
  | succ count ih =>
    rw [procNiceLoop, ih]
    by_cases hj : j = i
    · subst hj
      have hbefore : ¬ (j + 1 ≤ j ∧ j < j + 1 + count) := by omega
      have hin : j ≤ j ∧ j < j + (count + 1) := by omega
      rw [if_neg hbefore, if_pos hin, renice]
      by_cases hpid : (proc j).pid = pid
      · rw [if_pos hpid, if_pos hpid, Function.update_self]
      · rw [if_neg hpid, if_neg hpid]
    · have hrest : (if (proc i).pid = pid then
          Function.update proc i { proc i with priority := priority } else proc) j = proc j := by
        split
        · rw [Function.update_of_ne hj]
        · rfl
      rw [hrest]
      exact if_congr (by omega) rfl rfl

theorem renice_eq_self_iff {p : Proc F} :
    renice pid priority p = p ↔ (p.pid = pid → p.priority = priority) := by
  cases p
  simp only [renice]
  split <;> simp_all [eq_comm]

theorem renice_eq_iff {p : Proc F} {new : Int32} :
    renice pid priority p = { p with priority := new } ↔
      p.pid = pid ∧ priority = new ∨ p.pid ≠ pid ∧ p.priority = new := by
  cases p
  simp only [renice]
  split <;> simp_all

end

section

variable {syscalls : List (Option (Handler F))} {k : Kernel F}

/-- The kernel after the call, when the stray word points to `q`. -/
def Kernel.niced (k : Kernel F) (q : Int32 × Int32 × Place) : Kernel F :=
  { k with
    proc := (procNice q.1 q.2.1 k.proc).1
    eax := Function.update k.eax k.curproc 0 }

theorem syscall_niceNumber (htable : syscalls[27]? = some (some sysNice))
    (hnum : k.eax k.curproc = niceNumber) :
    syscall syscalls k = (k.load k.word).map fun q =>
      (k.niced q, q.2.2 :: (procNice q.1 q.2.1 k.proc).2.2) := by
  have hpos : niceNumber > 0 := by decide
  have hindex : niceNumber.toInt.toNat = 27 := by decide
  simp only [syscall, hnum, hpos, hindex, htable, if_true, Option.join_some, sysNice, sysNiceOf,
    Option.map_map, Kernel.niced, Function.comp_def]

theorem not_inside_of_mem {reads : List Place} (hmem : .entry nproc ∈ reads) : ¬ Inside reads := by
  intro h
  obtain ⟨i, hi, heq⟩ := h _ hmem
  exact absurd hi (Place.entry.inj heq ▸ lt_irrefl _)

variable {priority : Int32}

theorem not_inside_procNice {pid : Int32} {proc : Nat → Proc F} {r : Place} :
    ¬ Inside (r :: (procNice pid priority proc).2.2) :=
  not_inside_of_mem
    (List.mem_cons_of_mem _ (List.mem_append_right _ (List.mem_singleton_self _)))

theorem procNice_proc {pid : Int32} {proc : Nat → Proc F} {i : Nat} (hi : i < nproc) :
    (procNice pid priority proc).1 i = renice pid priority (proc i) := by
  rw [procNice, procNiceLoop_proc, if_pos (by omega)]

/-- What `sys_nice` does is right exactly if the stack happens to hold the right word. -/
theorem reniced_iff (hdistinct : DistinctPids k) {t : Nat} (ht : t < nproc)
    (hlive : (k.proc t).state ≠ .unused) {q : Int32 × Int32 × Place} :
    Reniced k t priority (k.niced q) ↔
      (k.proc t).priority = 0 ∧
        (q.1 = (k.proc t).pid ∧ q.2.1 = priority ∨
          q.1 ≠ (k.proc t).pid ∧ priority = 0 ∧
            ∀ i < nproc, (k.proc i).pid = q.1 → (k.proc i).priority = q.2.1) := by
  have hself : (procNice q.1 q.2.1 k.proc).1 t = renice q.1 q.2.1 (k.proc t) := procNice_proc ht
  constructor
  · intro h
    have hold : (k.proc t).priority = 0 := by
      have heax := congrFun h.eax k.curproc
      simp only [Kernel.niced, Function.update_self] at heax
      exact heax.symm
    have hnew := h.self
    simp only [Kernel.niced] at hnew
    rw [hself, renice_eq_iff] at hnew
    refine ⟨hold, hnew.imp (fun ⟨hpid, hprio⟩ => ⟨hpid.symm, hprio⟩) fun ⟨hpid, hprio⟩ => ?_⟩
    refine ⟨Ne.symm hpid, hprio.symm.trans hold, fun i hi hq => ?_⟩
    have hit : i ≠ t := fun hit => hpid (hit ▸ hq)
    have hother := h.others i hi hit
    simp only [Kernel.niced] at hother
    rw [procNice_proc hi, renice_eq_self_iff] at hother
    exact hother hq
  · rintro ⟨hold, hcase⟩
    refine ⟨?_, fun i hi hit => ?_, by rw [hold]; rfl⟩
    · simp only [Kernel.niced]
      rw [hself, renice_eq_iff]
      exact hcase.imp (fun ⟨hpid, hprio⟩ => ⟨hpid.symm, hprio⟩)
        fun ⟨hpid, hprio, _⟩ => ⟨Ne.symm hpid, hold.trans hprio.symm⟩
    · simp only [Kernel.niced]
      rw [procNice_proc hi, renice_eq_self_iff]
      intro hq
      rcases hcase with ⟨hpid, -⟩ | ⟨-, -, hsame⟩
      · exact absurd (hdistinct t ht i hi hlive (hpid.symm.trans hq.symm)).symm hit
      · exact hsame i hi hq

/-- **nice always reads behind the process table, and is otherwise right only by luck.** The call
does to the table and to `eax` what its arguments ask for exactly if the process had priority 0 and
the stray word on the kernel stack points to memory with the right pid and priority. -/
theorem syscall_nice_iff (syscalls : List (Option (Handler F)))
    (htable : syscalls[27]? = some (some sysNice)) (k : Kernel F)
    (hnum : k.eax k.curproc = niceNumber) (hdistinct : DistinctPids k) (u : Syscall.User)
    (pid priority : Int32) (_hpid : u.argint 0 = some pid) (_hpriority : u.argint 1 = some priority)
    (t : Nat) (ht : t < nproc) (hlive : (k.proc t).state ≠ .unused)
    (_htpid : (k.proc t).pid = pid) :
    (∀ k' reads, syscall syscalls k = some (k', reads) → ¬ Inside reads) ∧
      ((∃ k' reads, syscall syscalls k = some (k', reads) ∧ Reniced k t priority k') ↔
        Lucky k t priority) := by
  rw [syscall_niceNumber htable hnum]
  constructor
  · intro k' reads h
    obtain ⟨q, -, hq⟩ := Option.map_eq_some_iff.mp h
    rw [← (Prod.mk.inj hq).2]
    exact not_inside_procNice
  · constructor
    · rintro ⟨k', reads, h, hok⟩
      obtain ⟨q, hload, hq⟩ := Option.map_eq_some_iff.mp h
      rw [← (Prod.mk.inj hq).1] at hok
      obtain ⟨hold, hcase⟩ := (reniced_iff hdistinct ht hlive).mp hok
      exact ⟨hold, q, hload, hcase⟩
    · rintro ⟨hold, q, hload, hcase⟩
      exact ⟨_, _, by rw [hload]; rfl, (reniced_iff hdistinct ht hlive).mpr ⟨hold, hcase⟩⟩

end

/-- A table of system calls with `sys_nice` at its place. -/
def onlyNice : List (Option (Handler Unit)) := List.replicate 27 none ++ [some sysNice]

/-- The first process, of priority 5, calls `nice`; the stray word on the stack points to memory
that holds the two arguments. -/
def oneProcess : Kernel Unit where
  proc := fun i => if i = 0 then ⟨.running, 1, 5, ()⟩ else ⟨.unused, 0, 0, ()⟩
  eax := fun _ => niceNumber
  curproc := 0
  word := .elsewhere 1 7

def oneSeven : Syscall.User where
  sz := 4096
  esp := 0
  mem := fun a => if a = 4 then 1 else if a = 8 then 7 else 0

theorem distinctPids_oneProcess : DistinctPids oneProcess := by
  intro i _ j _ hlive hpid
  simp only [oneProcess] at hlive hpid
  by_cases hi : i = 0
  · by_cases hj : j = 0
    · rw [hi, hj]
    · simp [hi, hj] at hpid
  · simp [hi] at hlive

/-- `nice(1, 7)` for the process 1, of priority 5, returns 0 and reads behind the table. -/
theorem syscall_nice_returns_zero : DistinctPids oneProcess ∧
    oneSeven.argint 0 = some 1 ∧ oneSeven.argint 1 = some 7 ∧
      (oneProcess.proc 0).pid = 1 ∧ (oneProcess.proc 0).priority = 5 ∧
      ∃ k' reads, syscall onlyNice oneProcess = some (k', reads) ∧ k'.eax 0 = 0 ∧
        ¬ Reniced oneProcess 0 7 k' ∧ ¬ Inside reads := by
  refine ⟨distinctPids_oneProcess, by decide +kernel, by decide +kernel, rfl, rfl, _, _,
    syscall_niceNumber rfl rfl, rfl, fun h => ?_, not_inside_procNice⟩
  have heax := congrFun h.eax 0
  exact absurd heax (by decide +kernel)

/-- The same call, as a case of the theorem. -/
theorem syscall_nice_iff_oneProcess :
    (∀ k' reads, syscall onlyNice oneProcess = some (k', reads) → ¬ Inside reads) ∧
      ((∃ k' reads, syscall onlyNice oneProcess = some (k', reads) ∧ Reniced oneProcess 0 7 k') ↔
        Lucky oneProcess 0 7) :=
  syscall_nice_iff onlyNice rfl oneProcess rfl distinctPids_oneProcess oneSeven
    1 7 (by decide +kernel) (by decide +kernel) 0 (by decide) (by decide) rfl

end Xv6.Nice
