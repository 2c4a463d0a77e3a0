import Xv6.Log.Defs

/-!
# The buffer cache and the log

`bio.c` and `log.c` as a state machine: any number of processes read blocks with `bread`, change
them, publish the changes with `bwrite` or `log_write`, and give the buffers back with `brelse`. The
last `end_op` commits: its process runs `write_log`, `write_head` and `install_trans`.

A critical section of `bcache.lock` or `log.lock` is one step, and so are `iderw` and taking or
giving back the sleep lock of a buffer. Where the source panics, there is no step.
-/

namespace Xv6.Bio

open Log
open Function (update)

/-- `struct buf`: the flags `B_VALID` and `B_DIRTY`, and the process that holds the sleep lock. -/
structure Buf where
  valid : Bool
  dirty : Bool
  dev : Nat
  blockno : Nat
  lock : Option Nat
  refcnt : Nat
  data : Block

/-- `bcache`, with its list from `head.next` on, and the disk of device `ROOTDEV`. -/
structure Cache where
  buf : Nat → Buf
  mru : List Nat
  disk : Disk

namespace Cache

def set (c : Cache) (i : Nat) (x : Buf) : Cache := { c with buf := update c.buf i x }

/-- Buffer `i` is for block `b` of `ROOTDEV`. -/
def carries (c : Cache) (i b : Nat) : Prop := (c.buf i).dev = rootDev ∧ (c.buf i).blockno = b

instance (c : Cache) (i b : Nat) : Decidable (c.carries i b) :=
  inferInstanceAs (Decidable (_ ∧ _))

/-- `bget(ROOTDEV, b)` up to `acquiresleep`: the buffer, with one reference more. -/
def bget (c : Cache) (b : Nat) : Option (Nat × Cache) :=
  match c.mru.find? fun i => c.carries i b with
  | some i => some (i, c.set i { c.buf i with refcnt := (c.buf i).refcnt + 1 })
  | none =>
    match c.mru.reverse.find? fun i => (c.buf i).refcnt = 0 ∧ (c.buf i).dirty = false with
    | some i => some (i, c.set i { c.buf i with
        dev := rootDev, blockno := b, valid := false, dirty := false, refcnt := 1 })
    | none => none

/-- `iderw` of a buffer that is not valid. -/
def read (c : Cache) (i : Nat) : Cache :=
  c.set i { c.buf i with data := c.disk (c.buf i).blockno, valid := true }

def bwrite (c : Cache) (i : Nat) : Cache :=
  { c.set i { c.buf i with valid := true, dirty := false } with
    disk := update c.disk (c.buf i).blockno (c.buf i).data }

/-- The part of `brelse` under `bcache.lock`. -/
def drop (c : Cache) (i : Nat) : Cache :=
  { c.set i { c.buf i with refcnt := (c.buf i).refcnt - 1 } with
    mru := if (c.buf i).refcnt - 1 = 0 then i :: c.mru.erase i else c.mru }

end Cache

/-- What a process has called `bread` for. -/
inductive Cont
  /-- block `b`, which the process itself wants -/
  | user (b : Nat)
  /-- `write_log`: `to` -/
  | logTo (tail : Nat)
  /-- `write_log`: `from`, with `to` in hand -/
  | logFrom (tail toBuf : Nat)
  /-- `write_head`; the second one erases the transaction -/
  | head (erase : Bool)
  /-- `install_trans`: `lbuf` -/
  | instLog (tail : Nat)
  /-- `install_trans`: `dbuf`, with `lbuf` in hand -/
  | instDst (tail lbuf : Nat)
  deriving DecidableEq

inductive Pc
  /-- outside `bio.c` and `log.c` -/
  | idle
  /-- `bread`: the loops of `bget` -/
  | bget (b : Nat) (k : Cont)
  /-- `bget`: `acquiresleep(&b->lock)` -/
  | lock (i : Nat) (k : Cont)
  /-- `bread`: `iderw` if the buffer is not valid -/
  | read (i : Nat) (k : Cont)
  /-- `bread` returns buffer `i` -/
  | got (i : Nat) (k : Cont)
  /-- `brelse` of some buffers, one after the other: `releasesleep(&b->lock)` -/
  | brelse (is : List Nat) (k : Pc)
  /-- `brelse`: `b->refcnt--` -/
  | drop (i : Nat) (is : List Nat) (k : Pc)
  /-- `log_write`: past the checks -/
  | insert (i : Nat)
  /-- `write_log`: the loop -/
  | writeLog (tail : Nat)
  /-- `install_trans`: the loop -/
  | install (tail : Nat)
  /-- `end_op`, after `commit` -/
  | finish
  deriving DecidableEq

/-- The machine. No step reads the last four fields: the bytes last published for each block, the
bytes last published or installed, the buffers with changes that are not published yet, and the
blocks passed to `log_write` since the last commit emptied the log. -/
structure State where
  cache : Cache
  outstanding : Nat
  committing : Bool
  /-- `log.lh.block[0..log.lh.n)` -/
  lh : List Nat
  inOp : Nat → Bool
  pc : Nat → Pc
  published : Nat → Block
  last : Nat → Block
  pending : Nat → Bool
  logged : List Nat

namespace State

def goto (s : State) (p : Nat) (k : Pc) : State := { s with pc := update s.pc p k }

def publish (s : State) (i : Nat) : State :=
  { s with
    published := update s.published (s.cache.buf i).blockno (s.cache.buf i).data
    last := update s.last (s.cache.buf i).blockno (s.cache.buf i).data
    pending := update s.pending i false }

def setData (s : State) (i : Nat) (data : Block) : State :=
  { s with
    cache := s.cache.set i { s.cache.buf i with data := data }
    pending := update s.pending i true }

def bwrite (s : State) (i : Nat) : State := { s.publish i with cache := s.cache.bwrite i }

end State

variable (g : Geom) (n : Nat)

/-- What a process does with the buffer that `bread` has returned. -/
def got (s : State) (p i : Nat) : Cont → State
  | .user _ => s.goto p .idle
  | .logTo tail => s.goto p (.bget (s.lh.getD tail 0) (.logFrom tail i))
  | .logFrom tail toBuf =>
    ((s.setData toBuf (s.cache.buf i).data).bwrite toBuf).goto p
      (.brelse [i, toBuf] (.writeLog (tail + 1)))
  | .head erase =>
    ((s.setData i (encodeHead (s.cache.buf i).data s.lh)).bwrite i).goto p
      (.brelse [i] (if erase then .finish else .install 0))
  | .instLog tail => s.goto p (.bget (s.lh.getD tail 0) (.instDst tail i))
  | .instDst tail lbuf =>
    { ((s.setData i (s.cache.buf lbuf).data).bwrite i).goto p
        (.brelse [lbuf, i] (.install (tail + 1))) with published := s.published }

/-- `log_write` under `log.lock`. -/
def insert (s : State) (i : Nat) : State :=
  let b := (s.cache.buf i).blockno
  { s.publish i with
    lh := if b ∈ s.lh then s.lh else s.lh ++ [b]
    logged := s.logged ++ [b]
    cache := s.cache.set i { s.cache.buf i with dirty := true } }

def run (s : State) (p : Nat) : Option State :=
  match s.pc p with
  | .idle => none
  | .bget b k => (s.cache.bget b).map fun ic => { s.goto p (.lock ic.1 k) with cache := ic.2 }
  | .lock i k =>
    if (s.cache.buf i).lock = none then
      some { s.goto p (.read i k) with
        cache := s.cache.set i { s.cache.buf i with lock := some p } }
    else none
  | .read i k =>
    if (s.cache.buf i).valid then some (s.goto p (.got i k))
    else some { s.goto p (.got i k) with cache := s.cache.read i }
  | .got i k => some (got s p i k)
  | .brelse [] k => some (s.goto p k)
  | .brelse (i :: is) k =>
    some { s.goto p (.drop i is k) with
      cache := s.cache.set i { s.cache.buf i with lock := none } }
  | .drop i is k => some { s.goto p (.brelse is k) with cache := s.cache.drop i }
  | .insert i => some ((insert s i).goto p .idle)
  | .writeLog tail =>
    some (s.goto p (if tail < s.lh.length then .bget (g.start + tail + 1) (.logTo tail)
      else .bget g.start (.head false)))
  | .install tail =>
    if tail < s.lh.length then
      some (s.goto p (.bget (g.start + tail + 1) (.instLog tail)))
    else some { s.goto p (.bget g.start (.head true)) with lh := [], logged := [] }
  | .finish => some { s.goto p .idle with committing := false }

inductive Action
  /-- call `bread(ROOTDEV, b)` -/
  | bread (p b : Nat)
  /-- change the data of a buffer in hand -/
  | modify (p i : Nat) (data : Block)
  | bwrite (p i : Nat)
  | logWrite (p i : Nat)
  | brelse (p i : Nat)
  | beginOp (p : Nat)
  | endOp (p : Nat)
  /-- the next step of a process -/
  | run (p : Nat)

/-- One action of one of the first `n` processes. A process changes and gives back only buffers in
hand, publishes its changes before it gives a buffer back, and calls `log_write` within an
operation and for blocks outside the log. -/
def step (s : State) : Action → Option State
  | .bread p b => if p < n ∧ s.pc p = .idle then some (s.goto p (.bget b (.user b))) else none
  | .modify p i data =>
    if p < n ∧ s.pc p = .idle ∧ i < nbuf ∧ (s.cache.buf i).lock = some p then
      some (s.setData i data)
    else none
  | .bwrite p i =>
    if p < n ∧ s.pc p = .idle ∧ i < nbuf ∧ (s.cache.buf i).lock = some p then some (s.bwrite i)
    else none
  | .logWrite p i =>
    if p < n ∧ s.pc p = .idle ∧ i < nbuf ∧ (s.cache.buf i).lock = some p ∧ s.inOp p ∧
        ¬ g.InLog (s.cache.buf i).blockno then
      if s.lh.length ≥ logSize ∨ s.lh.length ≥ g.size - 1 then none
      else if s.outstanding < 1 then none
      else some (s.goto p (.insert i))
    else none
  | .brelse p i =>
    if p < n ∧ s.pc p = .idle ∧ i < nbuf ∧ (s.cache.buf i).lock = some p ∧
        s.pending i = false then
      some (s.goto p (.brelse [i] .idle))
    else none
  | .beginOp p =>
    if p < n ∧ s.pc p = .idle ∧ s.inOp p = false ∧ s.committing = false ∧
        s.lh.length + (s.outstanding + 1) * maxOpBlocks ≤ logSize then
      some { s with outstanding := s.outstanding + 1, inOp := update s.inOp p true }
    else none
  | .endOp p =>
    if p < n ∧ s.pc p = .idle ∧ s.inOp p then
      let s := { s with outstanding := s.outstanding - 1, inOp := update s.inOp p false }
      if s.committing then none
      else if s.outstanding = 0 then
        some { s.goto p (if 0 < s.lh.length then .writeLog 0 else .finish) with
          committing := true }
      else some s
    else none
  | .run p => if p < n then run g s p else none

def Buf.blank : Buf := ⟨false, false, 0, 0, none, 0, fun _ => 0⟩

/-- The machine after `binit`, with an empty log; the list runs from the last buffer to the first. -/
def binit (disk : Disk) : State where
  cache := ⟨fun _ => Buf.blank, (List.range nbuf).reverse, disk⟩
  outstanding := 0
  committing := false
  lh := []
  inOp := fun _ => false
  pc := fun _ => .idle
  published := disk
  last := disk
  pending := fun _ => false
  logged := []

end Xv6.Bio
