import Xv6.Lib.Bytes
import Xv6.Lib.Transition
import Xv6.Param
import Mathlib.Logic.Function.Basic

/-!
# The write-ahead log

`log.c` as a state machine. `log_write` is split where the source splits it, into the checks made
before `log.lock` is taken and the update made under it. A commit and a recovery are sequences of
steps with at most one block write each, and the machine can crash between any two steps. `cache` is
what `bread` returns and `disk` is what survives a crash.
-/

namespace Xv6.Log

open Bytes
open Function (update)

/-- A disk block, as 512 bytes; larger offsets are not used. -/
abbrev Block := Bytes

abbrev Disk := Nat → Block

/-- Where the log lies: `log.start` and `log.size`, from the superblock. -/
structure Geom where
  start : Nat
  size : Nat

/-- A block of the log area: the header or one of the log blocks. -/
def Geom.InLog (g : Geom) (b : Nat) : Prop := g.start ≤ b ∧ b < g.start + g.size

instance (g : Geom) (b : Nat) : Decidable (g.InLog b) :=
  inferInstanceAs (Decidable (_ ∧ _))

/-- `hb->block[i] = lh.block[i]` for the entries from index `i` on. -/
def putBlocks (hb : Block) (i : Nat) : List Nat → Block
  | [] => hb
  | b :: bs => putBlocks (put32 hb (4 + 4 * i) b) (i + 1) bs

def encodeHead (hb : Block) (lh : List Nat) : Block :=
  putBlocks (put32 hb 0 lh.length) 0 lh

/-- The `int n` of a header block, as a bound of the copying loops. -/
def headCount (hb : Block) : Nat :=
  if get32 hb 0 < 2 ^ 31 then get32 hb 0 else 0

def decodeHead (hb : Block) : List Nat :=
  (List.range (headCount hb)).map fun i => get32 hb (4 + 4 * i)

/-- Where an operation is between its `begin_op` and its `end_op`. -/
inductive OpState where
  /-- has not called `begin_op` -/
  | fresh
  /-- between two calls -/
  | running
  /-- in `log_write` on block `b`: the checks passed, `log.lock` not yet taken -/
  | checked (b : Nat)
  /-- has called `end_op`, or was lost in a crash -/
  | ended
  deriving DecidableEq

inductive CommitPc where
  /-- in `write_log`, at this `tail`; `write_head` follows the last one -/
  | writeLog (tail : Nat)
  /-- in `install_trans`, at this `tail`; clearing the header follows the last one -/
  | install (tail : Nat)
  /-- back in `end_op`, about to clear `log.committing` -/
  | finish
  deriving DecidableEq

inductive RecoverPc where
  | readHead
  | install (tail : Nat)
  deriving DecidableEq

/-- What the machine as a whole is doing. -/
inductive Status where
  | recovering (pc : RecoverPc)
  | up
  | panicked (msg : String)
  deriving DecidableEq

structure Write where
  op : Nat
  block : Nat
  data : Block

/-- The state of the log. The last three fields record history for the specification; no
step reads them. -/
structure LogState where
  status : Status
  outstanding : Nat
  committing : Bool
  /-- `log.lh.block[0..log.lh.n)` -/
  lh : List Nat
  /-- the commit in progress, if any -/
  commit : Option CommitPc
  op : Nat → OpState
  /-- the buffer of this block is locked by an operation inside `log_write` -/
  locked : Nat → Bool
  cache : Disk
  disk : Disk
  /-- writes of the transaction being assembled, in order -/
  current : List Write
  /-- transactions whose first `write_head` reached the disk, in order -/
  durable : List (List Write)
  /-- writes of each operation, in order -/
  opWrites : Nat → List Write

def boot (disk : Disk) : LogState where
  status := .recovering .readHead
  outstanding := 0
  committing := false
  lh := []
  commit := none
  op := fun _ => .fresh
  locked := fun _ => false
  cache := disk
  disk := disk
  current := []
  durable := []
  opWrites := fun _ => []

def LogState.bwrite (s : LogState) (b : Nat) (v : Block) : LogState :=
  { s with cache := update s.cache b v, disk := update s.disk b v }

def LogState.writeHead (g : Geom) (s : LogState) : LogState :=
  s.bwrite g.start (encodeHead (s.cache g.start) s.lh)

inductive Action where
  | beginOp (o : Nat)
  | logWriteCheck (o b : Nat) (data : Block)
  | logWriteInsert (o : Nat)
  | endOp (o : Nat)
  | commitStep
  | crash
  | recoverStep

/-- `begin_op` past its waiting loop. Where the source sleeps, the action is not enabled. -/
def beginOp (s : LogState) (o : Nat) : Option LogState :=
  if s.op o = .fresh ∧ s.committing = false ∧
      s.lh.length + (s.outstanding + 1) * maxOpBlocks ≤ logSize then
    some { s with
      outstanding := s.outstanding + 1
      op := update s.op o .running }
  else none

/-- `log_write` up to `acquire(&log.lock)`. The caller holds the buffer and has stored `data`
in it. -/
def logWriteCheck (g : Geom) (s : LogState) (o b : Nat) (data : Block) : Option LogState :=
  if s.op o = .running ∧ s.locked b = false ∧ b < 2 ^ 32 ∧ ¬ g.InLog b then
    if logSize ≤ s.lh.length ∨ g.size - 1 ≤ s.lh.length then
      some { s with status := .panicked "too big a transaction" }
    else if s.outstanding < 1 then
      some { s with status := .panicked "log_write outside of trans" }
    else
      some { s with
        op := update s.op o (.checked b)
        locked := update s.locked b true
        cache := update s.cache b data }
  else none

/-- `log_write` under `log.lock`, and the caller's `brelse`. A block that is already in the
header is absorbed. -/
def logWriteInsert (s : LogState) (o : Nat) : Option LogState :=
  match s.op o with
  | .checked b =>
    let w : Write := ⟨o, b, s.cache b⟩
    some { s with
      lh := if b ∈ s.lh then s.lh else s.lh ++ [b]
      op := update s.op o .running
      locked := update s.locked b false
      current := s.current ++ [w]
      opWrites := update s.opWrites o (s.opWrites o ++ [w]) }
  | _ => none

def endOp (s : LogState) (o : Nat) : Option LogState :=
  if s.op o = .running then
    let s := { s with
      outstanding := s.outstanding - 1
      op := update s.op o .ended }
    if s.committing then some { s with status := .panicked "log.committing" }
    else if s.outstanding = 0 then
      some { s with
        committing := true
        commit := some (if 0 < s.lh.length then .writeLog 0 else .finish) }
    else some s
  else none

/-- The next block write of `commit`, or the end of `end_op` after it. Each block in the header
has a dirty buffer, so with `NBUF` of them `bread` finds no buffer for a block of the log. -/
def commitStep (g : Geom) (s : LogState) : Option LogState :=
  match s.commit with
  | some (.writeLog tail) =>
    if nbuf ≤ s.lh.length then some { s with status := .panicked "bget: no buffers" }
    else match s.lh[tail]? with
    | some b =>
      some { s.bwrite (g.start + tail + 1) (s.cache b) with commit := some (.writeLog (tail + 1)) }
    | none =>
      -- the commit point: from here on the transaction counts as committed
      some { s.writeHead g with
        commit := some (.install 0)
        durable := s.durable ++ [s.current]
        current := [] }
  | some (.install tail) =>
    match s.lh[tail]? with
    | some b =>
      some { s.bwrite b (s.cache (g.start + tail + 1)) with commit := some (.install (tail + 1)) }
    | none => some { LogState.writeHead g { s with lh := [] } with commit := some .finish }
  | some .finish => some { s with committing := false, commit := none }
  | none => none

def crash (s : LogState) : LogState :=
  { s with
    status := .recovering .readHead
    outstanding := 0
    committing := false
    lh := []
    commit := none
    op := fun o => if s.op o = .fresh then .fresh else .ended
    locked := fun _ => false
    cache := s.disk
    current := [] }

/-- The next block read or write of `recover_from_log`. -/
def recoverStep (g : Geom) (s : LogState) (pc : RecoverPc) : LogState :=
  match pc with
  | .readHead =>
    { s with lh := decodeHead (s.cache g.start), status := .recovering (.install 0) }
  | .install tail =>
    match s.lh[tail]? with
    | some b =>
      { s.bwrite b (s.cache (g.start + tail + 1)) with status := .recovering (.install (tail + 1)) }
    | none => { LogState.writeHead g { s with lh := [] } with status := .up }

/-- One step of the machine. A panicked machine can only be restarted. -/
def step (g : Geom) (s : LogState) (a : Action) : Option LogState :=
  match a, s.status with
  | .crash, _ => some (crash s)
  | .beginOp o, .up => beginOp s o
  | .logWriteCheck o b data, .up => logWriteCheck g s o b data
  | .logWriteInsert o, .up => logWriteInsert s o
  | .endOp o, .up => endOp s o
  | .commitStep, .up => commitStep g s
  | .recoverStep, .recovering pc => some (recoverStep g s pc)
  | _, _ => none

/-- `install_trans` on a freshly started machine, for the entries from index `tail` on. -/
def installTrans (g : Geom) (tail : Nat) : List Nat → Disk → Disk
  | [], d => d
  | b :: bs, d => installTrans g (tail + 1) bs (update d b (d (g.start + tail + 1)))

/-- `recover_from_log`, run to its end without a crash. -/
def recoverFromLog (g : Geom) (d : Disk) : Disk :=
  let d' := installTrans g 0 (decodeHead (d g.start)) d
  update d' g.start (encodeHead (d' g.start) [])

def applyWrites (d : Disk) (ws : List Write) : Disk :=
  ws.foldl (fun d w => update d w.block w.data) d

def contentsAfter (d : Disk) (txns : List (List Write)) : Disk :=
  applyWrites d txns.flatten

end Xv6.Log
