import Xv6.Lib.CString
import Xv6.Sched.Defs
import Xv6.Syscall.Args

/-!
# The ps system call

`sys_ps` takes a count and the address of an array of `struct procInfo`, and `proc_ps` stores one
element for each process that is not UNUSED. `argptr` is asked for the size of a pointer, and
`proc_ps` does not look at the count. The share that it reports is a percentage until a hundred
times the number of calls of `sched` is not an `int`.
-/

namespace Xv6.Ps

open Sched (ProcState)
open Bytes Syscall Transition

/-- The part of `struct proc` that `proc_ps` reads. -/
structure Entry where
  state : ProcState
  pid : Int32
  name : Nat → UInt8
  ticksAtStart : Int32
  ticksScheduled : Int32

def stateCode : ProcState → Nat
  | .unused => 0
  | .embryo => 1
  | .sleeping => 2
  | .runnable => 3
  | .running => 4
  | .zombie => 5

def maxProcNameLength : Nat := 16

/-- `sizeof(struct procInfo)`: the fields `state`, `pid` and `cpuPercent`, and `name`. -/
def procInfoSize : Nat := 12 + maxProcNameLength

/-- The loop of `safestrcpy`, from `s[i]` on, with at most `n` rounds: the bytes it stores. -/
def safestrcpyLoop (t : Nat → UInt8) : (n i : Nat) → List UInt8
  | 0, _ => [0]
  | n + 1, i => t i :: if t i ≠ 0 then safestrcpyLoop t n (i + 1) else [0]

/-- Like strncpy but guaranteed to NUL-terminate: the bytes that are stored from `s` on. -/
def safestrcpy (t : Nat → UInt8) (n : Nat) : List UInt8 :=
  if n = 0 then [] else safestrcpyLoop t (n - 1) 0

/-- The share of its time that a process has run. -/
def cpuPercent (currentTicks : Int32) (p : Entry) : Int32 :=
  let elapsedTicks := currentTicks - p.ticksAtStart
  if elapsedTicks > 0 ∧ 1 < p.ticksScheduled then
    let percent := p.ticksScheduled * 100 / elapsedTicks
    if 100 < percent then 100 else percent
  else 0

/-- The stores of `proc_ps` to an element, by offset in the element. -/
def storeInfo (currentTicks : Int32) (p : Entry) : List (Nat × List UInt8) :=
  [(12, safestrcpy p.name maxProcNameLength),
    (4, le32 p.pid.toUInt32.toNat),
    (0, le32 (stateCode p.state)),
    (8, le32 (cpuPercent currentTicks p).toUInt32.toNat)]

/-- The loop of `proc_ps` over the rest of the table: the number of elements in the end, and the
stores. -/
def procPsLoop (currentTicks : Int32) (array : UInt32) : List Entry → (index : Nat) →
    Nat × List Store
  | [], index => (index, [])
  | p :: ps, index =>
    if p.state ≠ .unused then
      let (result, stores) := procPsLoop currentTicks array ps (index + 1)
      (result, (storeInfo currentTicks p).map (fun (o, bs) =>
        (array + UInt32.ofNat (procInfoSize * index + o), bs)) ++ stores)
    else procPsLoop currentTicks array ps index

def entries (ptable : Nat → Entry) : List Entry := (List.range nproc).map ptable

/-- Information about existing processes. The source does not use `numberOfProcs`. -/
def procPs (_numberOfProcs : Int32) (array : UInt32) (currentTicks : Int32)
    (ptable : Nat → Entry) : Int32 × List Store :=
  let (result, stores) := procPsLoop currentTicks array (entries ptable) 0
  (Int32.ofNat result, stores)

def pointerSize : Int32 := 4

/-- The kernel side of the system call: what it returns, and its stores to user memory. -/
def sysPs (u : User) (currentTicks : Int32) (ptable : Nat → Entry) : Int32 × List Store :=
  match u.argint 0 with
  | none => (-1, [])
  | some numberOfProcs =>
    match u.argptr 1 pointerSize with
    | none => (-1, [])
    | some array => procPs numberOfProcs array currentTicks ptable

def live (ptable : Nat → Entry) : List Entry :=
  (entries ptable).filter fun p => p.state ≠ .unused

/-- The name that is reported: at most 15 bytes of the name, up to the NUL. -/
def shortName (p : Entry) : List UInt8 :=
  ((List.range (maxProcNameLength - 1)).map p.name).takeWhile (· ≠ 0)

structure Describes (m : Bytes) (o : Nat) (currentTicks : Int32) (p : Entry) : Prop where
  state : get32 m o = stateCode p.state
  pid : get32 m (o + 4) = p.pid.toUInt32.toNat
  cpuPercent : get32 m (o + 8) = (cpuPercent currentTicks p).toUInt32.toNat
  name : CString.Holds m (o + 12) (shortName p)

/-- The call stores into the first `count` elements of the array only, and these lie in the
process; it reports the first `count` processes and returns how many that are. -/
structure Reported (u : User) (currentTicks : Int32) (ptable : Nat → Entry) (count : Int32)
    (array : UInt32) (result : Int32 × List Store) : Prop where
  array_le : array.toNat + procInfoSize * count.toInt ≤ u.sz.toNat
  inside : ∀ w ∈ result.2, ∀ j < w.2.length, array.toNat ≤ (w.1 + UInt32.ofNat j).toNat ∧
    (w.1 + UInt32.ofNat j).toNat < array.toNat + procInfoSize * count.toInt
  returned : result.1.toInt = min ((live ptable).length : Int) count.toInt
  elements : ∀ (i : Nat) p, (i : Int) < count.toInt → (live ptable)[i]? = some p →
    Describes ((u.mem.storeAll result.2).seen array) (procInfoSize * i) currentTicks p

/-- The call is refused and stores nothing, or keeps to the array. -/
def PsOk (u : User) (currentTicks : Int32) (ptable : Nat → Entry) : Prop :=
  (sysPs u currentTicks ptable).1 = -1 ∧ (sysPs u currentTicks ptable).2 = [] ∨
    ∃ count array, u.argint 0 = some count ∧ u.argint 1 = some array ∧
      Reported u currentTicks ptable count array.toUInt32 (sysPs u currentTicks ptable)

/-- The arguments are refused, or there are at most as many processes as elements and the elements
lie in the process. -/
def PsFits (u : User) (ptable : Nat → Entry) : Prop :=
  ∀ count array, u.argint 0 = some count → u.argptr 1 pointerSize = some array →
    (live ptable).length ≤ count.toInt ∧
      array.toNat + procInfoSize * count.toInt ≤ u.sz.toNat

variable {mem : Memory} {array : UInt32} {k k' o : Nat} {bs : List UInt8} {m m' : Bytes}
  {t : Nat → UInt8} {p : Entry} {currentTicks : Int32}

theorem safestrcpyLoop_spec (t : Nat → UInt8) (n i : Nat) :
    (safestrcpyLoop t n i).length ≤ n + 1 ∧
      ∃ rest, safestrcpyLoop t n i =
        ((List.range n).map fun j => t (i + j)).takeWhile (· ≠ 0) ++ 0 :: rest := by
  induction n generalizing i with
  | zero => exact ⟨le_rfl, [], rfl⟩
  | succ n ih =>
    obtain ⟨hlen, rest, hrest⟩ := ih (i + 1)
    have hshift : ((List.range (n + 1)).map fun j => t (i + j)) =
        t i :: (List.range n).map fun j => t (i + 1 + j) := by
      rw [List.range_succ_eq_map, List.map_cons, List.map_map, Nat.add_zero]
      refine congrArg _ (List.map_congr_left fun j _ => ?_)
      simp only [Function.comp, Nat.succ_eq_add_one]
      rw [Nat.add_right_comm, Nat.add_assoc]
    rw [safestrcpyLoop, hshift]
    by_cases h0 : t i = 0
    · simp only [h0, ne_eq, not_true_eq_false, if_false]
      exact ⟨by simp, [0], by simp⟩
    · simp only [ne_eq, h0, not_false_eq_true, if_true, List.length_cons]
      refine ⟨by omega, rest, ?_⟩
      rw [List.takeWhile_cons_of_pos (by simpa using h0), hrest]
      rfl

theorem zero_notMem_takeWhile (l : List UInt8) : 0 ∉ l.takeWhile (· ≠ 0) := by
  intro h
  have := List.mem_takeWhile_imp h
  simp at this

theorem safestrcpy_name (p : Entry) : (safestrcpy p.name maxProcNameLength).length ≤ 16 ∧
    ∃ rest, safestrcpy p.name maxProcNameLength = shortName p ++ 0 :: rest := by
  obtain ⟨hlen, rest, hrest⟩ := safestrcpyLoop_spec p.name 15 0
  simp only [Nat.zero_add] at hrest
  exact ⟨hlen, rest, hrest⟩

theorem holds_writeBytes {text rest : List UInt8} (h0 : 0 ∉ text)
    (hbs : bs = text ++ 0 :: rest) : CString.Holds (writeBytes m o bs) o text := by
  refine ⟨h0, fun i hi => ?_⟩
  rw [writeBytes_of_mem (by omega) (by simp [hbs]; omega), Nat.add_sub_cancel_left, hbs]
  simp only [List.getD_eq_getElem?_getD]
  rcases Nat.lt_or_eq_of_le hi with hlt | rfl
  · rw [List.getElem?_append_left hlt]
  · simp

theorem get32_le32 {v : Nat} (hv : v < 2 ^ 32) : get32 (writeBytes m o (le32 v)) o = v := by
  have := get32_put32 m o v
  rwa [put32, Nat.mod_eq_of_lt hv] at this

theorem stateCode_lt (st : ProcState) : stateCode st < 2 ^ 32 := by
  cases st <;> decide

theorem shortName_length (p : Entry) : (shortName p).length ≤ 15 := by
  obtain ⟨hlen, rest, hrest⟩ := safestrcpy_name p
  rw [hrest, List.length_append, List.length_cons] at hlen
  omega

theorem Describes.congr (h : Describes m o currentTicks p)
    (hm : ∀ i, o ≤ i → i < o + 28 → m' i = m i) : Describes m' o currentTicks p where
  state := (get32_congr fun i h₁ h₂ => hm i h₁ (by omega)).trans h.state
  pid := (get32_congr fun i h₁ h₂ => hm i (by omega) (by omega)).trans h.pid
  cpuPercent := (get32_congr fun i h₁ h₂ => hm i (by omega) (by omega)).trans h.cpuPercent
  name := by
    refine ⟨h.name.1, fun i hi => ?_⟩
    have := shortName_length p
    rw [hm (o + 12 + i) (by omega) (by omega)]
    exact h.name.2 i hi


def storesAt (array : UInt32) (o : Nat) (rs : List (Nat × List UInt8)) : List Store :=
  rs.map fun (d, bs) => (array + UInt32.ofNat (o + d), bs)

def writeAll (o : Nat) (rs : List (Nat × List UInt8)) (m : Bytes) : Bytes :=
  rs.foldl (fun m (d, bs) => writeBytes m (o + d) bs) m

variable {rs : List (Nat × List UInt8)}

theorem writeAll_congr (h : m k = m' k) : writeAll o rs m k = writeAll o rs m' k := by
  induction rs generalizing m m' with
  | nil => exact h
  | cons r rs ih =>
    refine ih ?_
    simp only [writeBytes, h]

theorem seen_storeAll (hrs : ∀ r ∈ rs, o + r.1 + r.2.length ≤ 2 ^ 31) (hk : k < 2 ^ 31) :
    (mem.storeAll (storesAt array o rs)).seen array k = writeAll o rs (mem.seen array) k := by
  induction rs generalizing mem with
  | nil => rfl
  | cons r rs ih =>
    obtain ⟨d, bs⟩ := r
    have hd := hrs (d, bs) List.mem_cons_self
    refine (ih fun r hr => hrs r (List.mem_cons_of_mem _ hr)).trans (writeAll_congr ?_)
    exact seen_store hd hk

theorem mem_storeInfo {r : Nat × List UInt8} (h : r ∈ storeInfo currentTicks p) :
    r.1 + r.2.length ≤ procInfoSize := by
  have := (safestrcpy_name p).1
  have hsize : procInfoSize = 28 := rfl
  simp only [storeInfo, List.mem_cons, List.not_mem_nil, or_false] at h
  rcases h with rfl | rfl | rfl | rfl <;> simp only [length_le32] <;> omega

theorem writeAll_of_not_mem {n : Nat}
    (hrs : ∀ r ∈ rs, r.1 + r.2.length ≤ n) (hk : k < o ∨ o + n ≤ k) : writeAll o rs m k = m k := by
  induction rs generalizing m with
  | nil => rfl
  | cons r rs ih =>
    obtain ⟨d, bs⟩ := r
    have hd := hrs (d, bs) List.mem_cons_self
    simp only at hd
    refine (ih fun r hr => hrs r (List.mem_cons_of_mem _ hr)).trans ?_
    exact writeBytes_of_not_mem (by omega)

theorem writeAll_describes (o : Nat) (currentTicks : Int32) (p : Entry) (m : Bytes) :
    Describes (writeAll o (storeInfo currentTicks p) m) o currentTicks p := by
  obtain ⟨hlen, rest, hrest⟩ := safestrcpy_name p
  have hall : writeAll o (storeInfo currentTicks p) m =
      writeBytes (writeBytes (writeBytes (writeBytes m
        (o + 12) (safestrcpy p.name maxProcNameLength)) (o + 4) (le32 p.pid.toUInt32.toNat))
        o (le32 (stateCode p.state))) (o + 8)
        (le32 (cpuPercent currentTicks p).toUInt32.toNat) := rfl
  rw [hall]
  refine ⟨?_, ?_, ?_, ?_⟩
  · rw [get32_writeBytes_of_disjoint (by omega), get32_le32 (stateCode_lt _)]
  · rw [get32_writeBytes_of_disjoint (by omega),
      get32_writeBytes_of_disjoint (by rw [length_le32]; omega), get32_le32 (UInt32.toNat_lt _)]
  · rw [get32_le32 (UInt32.toNat_lt _)]
  · have hname := holds_writeBytes (m := m) (o := o + 12)
      (zero_notMem_takeWhile ((List.range (maxProcNameLength - 1)).map p.name)) hrest
    refine ⟨hname.1, fun i hi => ?_⟩
    rw [writeBytes_of_not_mem (by rw [length_le32]; omega),
      writeBytes_of_not_mem (by rw [length_le32]; omega),
      writeBytes_of_not_mem (by rw [length_le32]; omega)]
    exact hname.2 i hi

def Entry.used (p : Entry) : Bool := p.state ≠ .unused

variable {ps : List Entry} {index : Nat}

theorem procPsLoop_used (hp : p.used = true) (ps : List Entry) (index : Nat) :
    procPsLoop currentTicks array (p :: ps) index =
      ((procPsLoop currentTicks array ps (index + 1)).1,
        storesAt array (procInfoSize * index) (storeInfo currentTicks p) ++
          (procPsLoop currentTicks array ps (index + 1)).2) :=
  if_pos (by simpa [Entry.used] using hp)

theorem procPsLoop_unused (hp : p.used = false) (ps : List Entry) (index : Nat) :
    procPsLoop currentTicks array (p :: ps) index = procPsLoop currentTicks array ps index :=
  if_neg (by simpa [Entry.used] using hp)

theorem procPsLoop_count (ps : List Entry) (index : Nat) :
    (procPsLoop currentTicks array ps index).1 = index + (ps.filter Entry.used).length := by
  induction ps generalizing index with
  | nil => rfl
  | cons p ps ih =>
    cases hp : p.used with
    | true =>
      rw [procPsLoop_used hp, List.filter_cons_of_pos hp, List.length_cons, ih]
      omega
    | false =>
      rw [procPsLoop_unused hp, List.filter_cons_of_neg (by simp [hp]), ih]

theorem procPsLoop_stores {w : Store} (hw : w ∈ (procPsLoop currentTicks array ps index).2) :
    ∃ o bs, w = (array + UInt32.ofNat o, bs) ∧ procInfoSize * index ≤ o ∧
      o + bs.length ≤ procInfoSize * (index + (ps.filter Entry.used).length) := by
  induction ps generalizing index with
  | nil => cases hw
  | cons p ps ih =>
    cases hp : p.used with
    | true =>
      rw [procPsLoop_used hp] at hw
      rw [List.filter_cons_of_pos hp, List.length_cons]
      rcases List.mem_append.mp hw with hw | hw
      · obtain ⟨⟨d, bs⟩, hr, rfl⟩ := List.mem_map.mp hw
        have hd := mem_storeInfo hr
        refine ⟨_, bs, rfl, by omega, ?_⟩
        simp only at hd
        calc procInfoSize * index + d + bs.length ≤ procInfoSize * index + procInfoSize := by omega
          _ = procInfoSize * (index + 1) := by ring
          _ ≤ _ := Nat.mul_le_mul_left _ (by omega)
      · obtain ⟨o, bs, rfl, h₁, h₂⟩ := ih hw
        refine ⟨o, bs, rfl, le_trans (Nat.mul_le_mul_left _ (by omega)) h₁, le_trans h₂ ?_⟩
        exact Nat.mul_le_mul_left _ (by omega)
    | false =>
      rw [procPsLoop_unused hp] at hw
      rw [List.filter_cons_of_neg (by simp [hp])]
      exact ih hw

theorem storeAll_append (mem : Memory) (ws ws' : List Store) :
    mem.storeAll (ws ++ ws') = (mem.storeAll ws).storeAll ws' := List.foldl_append

theorem seen_storeInfo (hsize : procInfoSize * (index + 1) ≤ 2 ^ 31) (hk : k < 2 ^ 31) :
    (mem.storeAll (storesAt array (procInfoSize * index) (storeInfo currentTicks p))).seen array k =
      writeAll (procInfoSize * index) (storeInfo currentTicks p) (mem.seen array) k := by
  refine seen_storeAll (fun r hr => ?_) hk
  have := mem_storeInfo hr
  rw [Nat.mul_succ] at hsize
  omega

theorem procPsLoop_before (hsize : procInfoSize * (index + ps.length) ≤ 2 ^ 31)
    (hk : k < procInfoSize * index) :
    (mem.storeAll (procPsLoop currentTicks array ps index).2).seen array k = mem.seen array k := by
  induction ps generalizing index mem with
  | nil => rfl
  | cons p ps ih =>
    have hle : procInfoSize * (index + 1) ≤ procInfoSize * (index + (p :: ps).length) :=
      Nat.mul_le_mul_left _ (by rw [List.length_cons]; omega)
    cases hp : p.used with
    | true =>
      have hnext : procInfoSize * (index + 1 + ps.length) ≤ 2 ^ 31 := by
        rwa [List.length_cons, Nat.add_comm ps.length, ← Nat.add_assoc] at hsize
      have hk' : k < procInfoSize * (index + 1) :=
        lt_of_lt_of_le hk (Nat.mul_le_mul_left _ (by omega))
      rw [procPsLoop_used hp, storeAll_append, ih hnext hk', seen_storeInfo (by omega) (by omega)]
      exact writeAll_of_not_mem (fun r hr => mem_storeInfo hr) (Or.inl hk)
    | false =>
      rw [procPsLoop_unused hp]
      refine ih (le_trans (Nat.mul_le_mul_left _ ?_) hsize) hk
      rw [List.length_cons]
      omega

theorem procPsLoop_elements (hsize : procInfoSize * (index + ps.length) ≤ 2 ^ 31) {i : Nat}
    (hi : (ps.filter Entry.used)[i]? = some p) :
    Describes ((mem.storeAll (procPsLoop currentTicks array ps index).2).seen array)
      (procInfoSize * (index + i)) currentTicks p := by
  induction ps generalizing index mem i with
  | nil => cases hi
  | cons p' ps ih =>
    cases hp : p'.used with
    | true =>
      have hnext : procInfoSize * (index + 1 + ps.length) ≤ 2 ^ 31 := by
        rwa [List.length_cons, Nat.add_comm ps.length, ← Nat.add_assoc] at hsize
      have hle : procInfoSize * (index + 1) ≤ procInfoSize * (index + 1 + ps.length) :=
        Nat.mul_le_mul_left _ (by omega)
      rw [List.filter_cons_of_pos hp] at hi
      rw [procPsLoop_used hp, storeAll_append]
      cases i with
      | zero =>
        cases hi
        refine (writeAll_describes (procInfoSize * index) currentTicks p (mem.seen array)).congr
          fun k h₁ h₂ => ?_
        have hk : k < procInfoSize * (index + 1) := h₂
        rw [procPsLoop_before hnext hk, seen_storeInfo (by omega) (by omega)]
      | succ i =>
        rw [show index + (i + 1) = index + 1 + i by omega]
        exact ih hnext hi
    | false =>
      rw [List.filter_cons_of_neg (by simp [hp])] at hi
      rw [procPsLoop_unused hp]
      refine ih (le_trans (Nat.mul_le_mul_left _ ?_) hsize) hi
      rw [List.length_cons]
      omega

variable {u : User} {ptable : Nat → Entry} {count : Int32} {v : Int32}

theorem live_length_le (ptable : Nat → Entry) : (live ptable).length ≤ nproc := by
  refine le_trans (List.length_filter_le _ _) ?_
  simp [entries]

theorem argptr_eq_some (h : u.argptr 1 pointerSize = some array) :
    ∃ v, u.argint 1 = some v ∧ v.toUInt32 = array := by
  rw [User.argptr] at h
  cases hi : u.argint 1 with
  | none =>
    rw [hi] at h
    cases h
  | some v =>
    rw [hi] at h
    simp only at h
    split at h
    · cases h
    · exact ⟨v, rfl, Option.some.inj h⟩

theorem sysPs_eq (hcount : u.argint 0 = some count) (harray : u.argptr 1 pointerSize = some array) :
    sysPs u currentTicks ptable = (Int32.ofNat (live ptable).length,
      (procPsLoop currentTicks array (entries ptable) 0).2) := by
  have hresult : (procPsLoop currentTicks array (entries ptable) 0).1 = _ := procPsLoop_count _ _
  rw [Nat.zero_add] at hresult
  simp only [sysPs, hcount, harray, procPs, hresult]
  rfl

theorem toInt_ofNat_live (ptable : Nat → Entry) :
    (Int32.ofNat (live ptable).length).toInt = (live ptable).length := by
  have hle := live_length_le ptable
  simp only [nproc] at hle
  exact Int32.toInt_ofNat_of_lt (by omega)

theorem reported_of_fits (hcount : u.argint 0 = some count)
    (harray : u.argptr 1 pointerSize = some array) (hroom : (live ptable).length ≤ count.toInt)
    (hin : array.toNat + procInfoSize * count.toInt ≤ u.sz.toNat) :
    Reported u currentTicks ptable count array (sysPs u currentTicks ptable) := by
  rw [sysPs_eq hcount harray]
  have hle := live_length_le ptable
  have hsize : procInfoSize = 28 := rfl
  have hsz := u.sz.toNat_lt
  refine ⟨hin, fun w hw j hj => ?_, ?_, fun i p _ hp => ?_⟩
  · obtain ⟨o, bs, rfl, -, hend⟩ := procPsLoop_stores hw
    rw [Nat.zero_add] at hend
    have hend : o + bs.length ≤ procInfoSize * (live ptable).length := hend
    simp only [nproc] at hle
    simp only at hj ⊢
    rw [hsize] at hend hin ⊢
    rw [UInt32.toNat_add, UInt32.toNat_add, UInt32.toNat_ofNat', UInt32.toNat_ofNat']
    omega
  · rw [toInt_ofNat_live]
    omega
  · have hfit : procInfoSize * (0 + (entries ptable).length) ≤ 2 ^ 31 := by
      simp [entries, procInfoSize, maxProcNameLength]
    have hdesc : Describes
        ((u.mem.storeAll (procPsLoop currentTicks array (entries ptable) 0).2).seen array)
        (procInfoSize * (0 + i)) currentTicks p := procPsLoop_elements hfit hp
    rwa [Nat.zero_add] at hdesc

/-- A call that keeps to its array was given one with room. -/
theorem fits_of_reported (hcount : u.argint 0 = some count)
    (harray : u.argptr 1 pointerSize = some array)
    (h : Reported u currentTicks ptable count array (sysPs u currentTicks ptable)) :
    (live ptable).length ≤ count.toInt ∧
      array.toNat + procInfoSize * count.toInt ≤ u.sz.toNat := by
  refine ⟨?_, h.array_le⟩
  have hret := h.returned
  rw [sysPs_eq hcount harray] at hret
  rw [toInt_ofNat_live] at hret
  omega

theorem sysPs_ne_error (hcount : u.argint 0 = some count)
    (harray : u.argptr 1 pointerSize = some array) : (sysPs u currentTicks ptable).1 ≠ -1 := by
  rw [sysPs_eq hcount harray]
  intro h
  have := congrArg Int32.toInt h
  rw [toInt_ofNat_live] at this
  have hneg : (-1 : Int32).toInt = -1 := by decide
  rw [hneg] at this
  omega

theorem psFits_of_psOk (h : PsOk u currentTicks ptable) : PsFits u ptable := by
  intro count array hcount harray
  rcases h with ⟨hret, -⟩ | ⟨count', v', hcount', hv', hrep⟩
  · exact absurd hret (sysPs_ne_error hcount harray)
  · obtain ⟨v, hv, rfl⟩ := argptr_eq_some harray
    rw [hcount] at hcount'
    rw [hv] at hv'
    cases hcount'
    cases hv'
    exact fits_of_reported hcount harray hrep

/-- **ps keeps to the array of its caller exactly if the array has room.** -/
theorem psOk_iff_psFits (u : User) (currentTicks : Int32) (ptable : Nat → Entry) :
    PsOk u currentTicks ptable ↔ PsFits u ptable := by
  refine ⟨psFits_of_psOk, fun h => ?_⟩
  cases hcount : u.argint 0 with
  | none =>
    left
    simp [sysPs, hcount]
  | some count =>
    cases harray : u.argptr 1 pointerSize with
    | none =>
      left
      simp [sysPs, hcount, harray]
    | some array =>
      obtain ⟨hroom, hin⟩ := h count array hcount harray
      obtain ⟨v, hv, rfl⟩ := argptr_eq_some harray
      exact Or.inr ⟨count, v, hcount, hv, reported_of_fits hcount harray hroom hin⟩

/-- A process of one page with the arguments 1 and 4088 at the top of its stack. -/
def smallArray : User where
  sz := 4096
  esp := 0
  mem := fun a => if a = 4 then 1 else if a = 8 then 0xf8 else if a = 9 then 0xf else 0

def twoProcesses : Nat → Entry := fun q =>
  ⟨if q < 2 then .runnable else .unused, 1, fun _ => 97, 0, 0⟩

/-- The array has one element at the end of the process, and the kernel stores a second one behind
it. -/
theorem psOk_smallArray : ¬ PsOk smallArray 10 twoProcesses ∧
    (4120, le32 1) ∈ (sysPs smallArray 10 twoProcesses).2 := by
  refine ⟨fun h => ?_, by decide +kernel⟩
  have hroom := (psFits_of_psOk h 1 4088 (by decide +kernel) (by decide +kernel)).1
  exact absurd hroom (by decide +kernel)

structure Clock where
  ticks : UInt32
  ptable : Nat → Entry

inductive Action
  /-- a timer interrupt -/
  | tick
  /-- the end of `fork`, whose child is in slot `np` -/
  | fork (np : Nat)
  /-- process `p` calls `sched` -/
  | sched (p : Nat)
  /-- `wait` frees slot `p` -/
  | reap (p : Nat)

def step (s : Clock) : Action → Option Clock
  | .tick => some { s with ticks := s.ticks + 1 }
  | .fork np =>
    if (s.ptable np).state = .unused then
      some { s with ptable := Function.update s.ptable np { s.ptable np with
        state := .runnable, ticksAtStart := s.ticks.toInt32, ticksScheduled := 0 } }
    else none
  | .sched p =>
    if (s.ptable p).state = .unused then none
    else some { s with ptable := Function.update s.ptable p { s.ptable p with
      ticksScheduled := (s.ptable p).ticksScheduled + 1 } }
  | .reap p =>
    some { s with ptable := Function.update s.ptable p { s.ptable p with state := .unused } }

def booted : Clock where
  ticks := 0
  ptable q := ⟨if q = 0 then .runnable else .unused, 1, fun _ => 0, 0, 0⟩

/-- What `proc_ps` reports for slot `p` is a percentage, and the share of the elapsed time. -/
def ShareOk (s : Clock) (p : Nat) : Prop :=
  let elapsed := (s.ticks.toInt32 - (s.ptable p).ticksAtStart).toInt
  let scheduled := (s.ptable p).ticksScheduled.toInt
  let percent := (cpuPercent s.ticks.toInt32 (s.ptable p)).toInt
  0 ≤ percent ∧ percent ≤ 100 ∧
    (0 < elapsed → 1 < scheduled → percent = min 100 (100 * scheduled / elapsed))

/-- After the call of `sched` a hundred times the counter still fits in an `int`. -/
def FewCalls (s : Clock) : Action → Prop
  | .sched p => (s.ptable p).ticksScheduled < 21474836
  | _ => True

instance (s : Clock) : (a : Action) → Decidable (FewCalls s a)
  | .sched p => inferInstanceAs (Decidable ((s.ptable p).ticksScheduled < 21474836))
  | .tick | .fork _ | .reap _ => inferInstanceAs (Decidable True)

/-- The counter has stayed small. -/
def Entry.Small (p : Entry) : Prop :=
  0 ≤ p.ticksScheduled.toInt ∧ p.ticksScheduled.toInt ≤ 21474836

theorem Entry.small_of_zero {p : Entry} (h : p.ticksScheduled = 0) : p.Small := by
  rw [Small, h]
  decide

theorem toInt_share {x e : Int32} (h0 : 0 ≤ x.toInt) (hx : x.toInt ≤ 21474836)
    (he : 0 < e.toInt) : (x * 100 / e).toInt = 100 * x.toInt / e.toInt := by
  -- the product does not overflow
  have hmul : (x * 100).toInt = 100 * x.toInt := by
    rw [Int32.toInt_mul, Int.bmod_eq_of_le] <;> simp <;> omega
  have hle : 100 * x.toInt / e.toInt ≤ 100 * x.toInt := Int.ediv_le_self _ (by omega)
  have hge : 0 ≤ 100 * x.toInt / e.toInt := Int.ediv_nonneg (by omega) he.le
  rw [Int32.toInt_div, hmul, Int.tdiv_eq_ediv_of_nonneg (by omega), Int.bmod_eq_of_le] <;> omega

theorem shareOk_of_small {s : Clock} {p : Nat} (h : (s.ptable p).Small) : ShareOk s p := by
  obtain ⟨h0, hx⟩ := h
  simp only [ShareOk, cpuPercent, gt_iff_lt, Int32.lt_iff_toInt_lt]
  generalize (s.ptable p).ticksScheduled = x at h0 hx ⊢
  generalize s.ticks.toInt32 - (s.ptable p).ticksAtStart = e
  by_cases h : 0 < e.toInt ∧ 1 < x.toInt
  · have hq := toInt_share h0 hx h.1
    have hge : 0 ≤ 100 * x.toInt / e.toInt := Int.ediv_nonneg (by omega) h.1.le
    rw [if_pos (show (0 : Int32).toInt < _ ∧ (1 : Int32).toInt < _ from h), hq]
    by_cases h100 : 100 < 100 * x.toInt / e.toInt
    · rw [if_pos (show (100 : Int32).toInt < _ from h100), min_eq_left h100.le]
      exact ⟨by decide, by decide, fun _ _ => rfl⟩
    · rw [if_neg (show ¬ (100 : Int32).toInt < _ from h100), hq, min_eq_right (by omega)]
      exact ⟨hge, by omega, fun _ _ => rfl⟩
  · rw [if_neg (show ¬ ((0 : Int32).toInt < _ ∧ (1 : Int32).toInt < _) from h)]
    exact ⟨by decide, by decide, fun he hs => absurd ⟨he, hs⟩ h⟩

/-- The counters stay small as long as `sched` is called few times. -/
theorem step_small {s t : Clock} {a : Action} (h : ∀ q, (s.ptable q).Small) (hc : FewCalls s a)
    (ht : step s a = some t) (q : Nat) : (t.ptable q).Small := by
  -- every action changes one slot, or none
  have hset : ∀ {p : Nat} {x : Entry}, x.Small → (Function.update s.ptable p x q).Small := by
    intro p x hx
    by_cases hqp : q = p
    · rwa [hqp, Function.update_self]
    · rw [Function.update_of_ne hqp]
      exact h q
  cases a with
  | tick =>
    cases ht
    exact h q
  | fork np =>
    simp only [step] at ht
    split_ifs at ht
    cases ht
    exact hset (Entry.small_of_zero rfl)
  | reap p =>
    cases ht
    exact hset (h p)
  | sched p =>
    simp only [step] at ht
    split_ifs at ht
    cases ht
    obtain ⟨h0, -⟩ := h p
    have hlt : (s.ptable p).ticksScheduled.toInt < 21474836 := Int32.lt_iff_toInt_lt.mp hc
    have hadd : ((s.ptable p).ticksScheduled + 1).toInt =
        (s.ptable p).ticksScheduled.toInt + 1 := by
      rw [Int32.toInt_add, Int.bmod_eq_of_le] <;> simp <;> omega
    refine hset ⟨?_, ?_⟩ <;> simp only [hadd] <;> omega

/-- **The reported share is a percentage** in every state that is reached by timer ticks, forks
and calls of `sched`, as long as no process calls `sched` 21474837 times. -/
theorem shares_are_percentages (as : List Action) {s : Clock}
    (hr : run step booted as = some s) (hm : RunMeets step FewCalls booted as) (p : Nat) :
    ShareOk s p :=
  shareOk_of_small (RunMeets.invariant (fun _ _ _ h hc ht => step_small h hc ht)
    (fun _ => Entry.small_of_zero rfl) hm hr p)

/-- Two calls in three ticks. -/
theorem shares_are_percentages_three : ∃ s,
    run step booted [.sched 0, .tick, .tick, .sched 0, .tick] = some s ∧ ShareOk s 0 :=
  ⟨_, rfl, shares_are_percentages [.sched 0, .tick, .tick, .sched 0, .tick] rfl
    (RunMeets.of_decide (by decide)) 0⟩

theorem run_sched (n : Nat) {s : Clock} {p : Nat} (hp : (s.ptable p).state ≠ .unused) :
    run step s (List.replicate n (.sched p)) =
      some { s with ptable := Function.update s.ptable p { s.ptable p with
        ticksScheduled := (s.ptable p).ticksScheduled + Int32.ofNat n } } := by
  induction n generalizing s with
  | zero => simp
  | succ n ih =>
    rw [List.replicate_succ, run_cons, step, if_neg hp, Option.bind_some, ih]
    · rw [Nat.add_comm n 1, Int32.ofNat_add]
      simp only [Function.update_self, Function.update_idem, Int32.add_assoc]
      rfl
    · simpa using hp

theorem run_tick_sched (n : Nat) : ∃ s,
    run step booted (.tick :: List.replicate n (.sched 0)) = some s ∧ s.ticks = 1 ∧
      s.ptable 0 = { booted.ptable 0 with ticksScheduled := 0 + Int32.ofNat n } :=
  ⟨_, run_sched n (s := { booted with ticks := 0 + 1 }) (by decide), rfl, rfl⟩

/-- Within one tick a process calls `sched` 21474837 times, and the share is negative. -/
theorem share_overflows : ∃ as s, run step booted as = some s ∧ (s.ptable 0).state = .runnable ∧
    (cpuPercent s.ticks.toInt32 (s.ptable 0)).toInt = -2147483596 := by
  obtain ⟨s, hr, hticks, hp⟩ := run_tick_sched 21474837
  refine ⟨_, s, hr, ?_, ?_⟩
  · rw [hp]
    rfl
  · rw [hp, hticks]
    decide

end Xv6.Ps
