import Mathlib
import Xv6.Lib.Bytes

/-!
# Processor discovery

`mp.c` looks for the MP configuration table and walks over its entries. An entry of a known type
moves the loop on by the size of the entry. An unknown type clears `ismp` and nothing else, because
the `break` leaves the `switch` only, so that the walk meets it again. The memory is by kernel
address.
-/

namespace Xv6.Mp

def maxCpus : Nat := 8

def p2v (a : Nat) : Nat := (a + 0x80000000) % 2 ^ 32

def sum (mem : Bytes) (addr len : Nat) : UInt8 := (mem.readBytes addr len).sum

/-- `mpsearch1`; `len` is a multiple of `sizeof(struct mp)`. -/
def mpsearch1 (mem : Bytes) (a len : Nat) : Option Nat :=
  (List.range' (p2v a) (len / 16) 16).find? fun p =>
    -- "_MP_"
    mem.readBytes p 4 = [0x5F, 0x4D, 0x50, 0x5F] ∧ sum mem p 16 = 0

def mpsearch (mem : Bytes) : Option Nat :=
  let bda := p2v 0x400
  let p := mem.get16 (bda + 0x0E) * 16
  (if p ≠ 0 then mpsearch1 mem p 1024
    else mpsearch1 mem ((mem.get16 (bda + 0x13) * 1024 + (2 ^ 32 - 1024)) % 2 ^ 32) 1024) <|>
  mpsearch1 mem 0xF0000 0x10000

def length (mem : Bytes) (conf : Nat) : Nat := mem.get16 (conf + 4)

def mpconfig (mem : Bytes) : Option (Nat × Nat) := do
  let mp ← mpsearch mem
  guard (mem.get32 (mp + 4) ≠ 0)
  let conf := p2v (mem.get32 (mp + 4))
  -- "PCMP"
  guard (mem.readBytes conf 4 = [0x50, 0x43, 0x4D, 0x50])
  guard (mem (conf + 6) = 1 ∨ mem (conf + 6) = 4)
  guard (sum mem conf (length mem conf) = 0)
  return (mp, conf)

/-- The entry types of `mp.h`. -/
inductive Entry where
  | proc
  | bus
  | ioapic
  | iointr
  | lintr

def Entry.ofByte (b : UInt8) : Option Entry :=
  [proc, bus, ioapic, iointr, lintr][b.toNat]?

/-- How far the walk goes on over an entry. -/
def Entry.size : Entry → Nat
  | proc => 20
  | bus | ioapic | iointr | lintr => 8

/-- The variables of the loop in `mpinit`; `cpus` has the `apicid`s of the `ncpu` processors. -/
structure Walk where
  p : Nat
  ismp : Bool := true
  cpus : List UInt8 := []
  ioapicid : UInt8 := 0

def body (mem : Bytes) (w : Walk) : Walk :=
  match Entry.ofByte (mem w.p) with
  | some .proc =>
    { w with
      p := w.p + 20
      cpus := if w.cpus.length < maxCpus then w.cpus ++ [mem (w.p + 1)] else w.cpus }
  | some .ioapic => { w with p := w.p + 8, ioapicid := mem (w.p + 1) }
  | some .bus | some .iointr | some .lintr => { w with p := w.p + 8 }
  | none => { w with ismp := false }

def walk (mem : Bytes) (e : Nat) : (fuel : Nat) → Walk → Option Walk
  | 0, _ => none
  | fuel + 1, w => if w.p < e then walk mem e fuel (body mem w) else some w

/-- What `mpinit` finds out, and whether it masks external interrupts in the IMCR. -/
structure Machine where
  lapic : Nat
  cpus : List UInt8
  ioapicid : UInt8
  imcr : Bool

def mpinit (mem : Bytes) (fuel : Nat) : Option (Except String Machine) :=
  match mpconfig mem with
  | none => some (.error "Expect to run on an SMP")
  | some (mp, conf) =>
    (walk mem (conf + length mem conf) fuel { p := conf + 44 }).map fun w =>
      if w.ismp then
        .ok ⟨mem.get32 (conf + 36), w.cpus, w.ioapicid, mem (mp + 12) ≠ 0⟩
      else .error "Didn't find a suitable machine"

/-- The walk from `p` to `e` comes to the entry at `q`: the entries before it have known types. -/
inductive Meets (mem : Bytes) (e : Nat) : (p q : Nat) → Prop
  | here {p : Nat} (h : p < e) : Meets mem e p p
  | next {p q : Nat} {t : Entry} (h : p < e) (ht : Entry.ofByte (mem p) = some t)
      (hq : Meets mem e (p + t.size) q) : Meets mem e p q

variable {mem : Bytes} {e : Nat} {w : Walk}

theorem Meets.lt {p q : Nat} : Meets mem e p q → p < e
  | here h | next h _ _ => h

theorem body_known {t : Entry} (ht : Entry.ofByte (mem w.p) = some t) :
    (body mem w).p = w.p + t.size ∧ (body mem w).ismp = w.ismp := by
  cases t <;> rw [body, ht] <;> exact ⟨rfl, rfl⟩

theorem body_cpus (h : w.cpus.length ≤ maxCpus) : (body mem w).cpus.length ≤ maxCpus := by
  rw [body]
  split
  · split_ifs with hlt
    · rw [List.length_append]
      exact hlt
    · exact h
  all_goals exact h

theorem walk_unknown (hp : w.p < e) (hu : Entry.ofByte (mem w.p) = none) (fuel : Nat) :
    walk mem e fuel w = none := by
  induction fuel generalizing w with
  | zero => rfl
  | succ fuel ih =>
    rw [walk, if_pos hp, body, hu]
    exact ih hp hu

theorem walk_meets {q : Nat} (h : Meets mem e w.p q) (hu : Entry.ofByte (mem q) = none)
    (fuel : Nat) : walk mem e fuel w = none := by
  generalize hwp : w.p = p at h
  induction h generalizing w fuel with
  | here hp => exact walk_unknown (hwp ▸ hp) (hwp ▸ hu) fuel
  | next hp ht _ ih =>
    subst hwp
    cases fuel with
    | zero => rfl
    | succ fuel =>
      rw [walk, if_pos hp]
      exact ih hu fuel (body_known ht).1

/-- A walk over known entries comes to the end, as each of them has a size. -/
theorem walk_ends (h : ∀ q, Meets mem e w.p q → (Entry.ofByte (mem q)).isSome)
    (hw : w.ismp = true) (hcpus : w.cpus.length ≤ maxCpus) :
    ∃ fuel w', walk mem e fuel w = some w' ∧ w'.ismp = true ∧ w'.cpus.length ≤ maxCpus := by
  -- by strong induction on the number of bytes that are left
  induction hd : e - w.p using Nat.strong_induction_on generalizing w with
  | _ d ih =>
    by_cases hp : w.p < e
    · obtain ⟨t, ht⟩ := Option.isSome_iff_exists.mp (h w.p (.here hp))
      obtain ⟨hnext, hismp⟩ := body_known ht
      have hsize : 0 < t.size := by cases t <;> decide
      obtain ⟨fuel, w', hrun, hw'⟩ := ih (e - (body mem w).p) (by omega)
        (fun q hq => h q (.next hp ht (hnext ▸ hq))) (hismp.trans hw) (body_cpus hcpus) rfl
      exact ⟨fuel + 1, w', (if_pos hp).trans hrun, hw'⟩
    · exact ⟨1, w, if_neg hp, hw, hcpus⟩

/-- **Discovery ends exactly for the tables without unknown entries**: `mpinit` finds at most
`NCPU` processors or panics because of an unknown entry. -/
theorem mpinit_ends_iff {mp conf : Nat} (hconf : mpconfig mem = some (mp, conf)) :
    (∃ fuel,
      (∃ m, mpinit mem fuel = some (.ok m) ∧ m.cpus.length ≤ maxCpus) ∨
      (mpinit mem fuel = some (.error "Didn't find a suitable machine") ∧
        ∃ q, Meets mem (conf + length mem conf) (conf + 44) q ∧ Entry.ofByte (mem q) = none)) ↔
      ∀ q, Meets mem (conf + length mem conf) (conf + 44) q → (Entry.ofByte (mem q)).isSome := by
  simp only [mpinit, hconf]
  constructor
  · rintro ⟨fuel, hend⟩ q hq
    by_contra hu
    rw [walk_meets hq (by simpa using hu)] at hend
    rcases hend with ⟨m, h, _⟩ | ⟨h, _⟩ <;> cases h
  · intro h
    obtain ⟨fuel, w, hrun, hismp, hcpus⟩ :=
      walk_ends (w := { p := conf + 44 }) h rfl (Nat.zero_le _)
    exact ⟨fuel, Or.inl ⟨⟨_, w.cpus, w.ioapicid, _⟩, by rw [hrun, Option.map_some, if_pos hismp],
      hcpus⟩⟩

/-- A floating pointer in the EBDA, followed by a table with one entry of type `t`. -/
def firmware (checksum t : UInt8) : Bytes :=
  .writeBytes (.writeBytes (fun _ => 0) (p2v 0x40E) [0xC0, 0x9F]) (p2v 0x9FC00) <|
    [0x5F, 0x4D, 0x50, 0x5F, 0x10, 0xFC, 9, 0, 1, 4, 0x8B, 0, 0, 0, 0, 0] ++
    [0x50, 0x43, 0x4D, 0x50, 52, 0, 4, checksum] ++ List.replicate 36 0 ++
    [t, 0, 0, 0, 0, 0, 0, 0]

theorem mpinit_ends_bus : ∃ fuel,
    (∃ m, mpinit (firmware 151 1) fuel = some (.ok m) ∧ m.cpus.length ≤ maxCpus) ∨
    (mpinit (firmware 151 1) fuel = some (.error "Didn't find a suitable machine") ∧
      ∃ q, Meets (firmware 151 1) 0x8009FC44 0x8009FC3C q ∧
        Entry.ofByte (firmware 151 1 q) = none) := by
  have hconf : mpconfig (firmware 151 1) = some (0x8009FC00, 0x8009FC10) := by decide +kernel
  refine (mpinit_ends_iff hconf).mpr fun q hq => ?_
  cases hq with
  | here => decide +kernel
  | @next _ _ t _ _ hq =>
    have : 0x8009FC3C + t.size < 0x8009FC44 := hq.lt
    cases t <;> simp [Entry.size] at this

/-- The table is accepted, and the walk stays at its entry of type 5. -/
theorem mpinit_hangs : mpconfig (firmware 147 5) = some (0x8009FC00, 0x8009FC10) ∧
    ∀ fuel, mpinit (firmware 147 5) fuel = none := by
  have hconf : mpconfig (firmware 147 5) = some (0x8009FC00, 0x8009FC10) := by decide +kernel
  refine ⟨hconf, fun fuel => ?_⟩
  rw [mpinit, hconf]
  exact Option.map_eq_none_iff.mpr (walk_unknown (by decide +kernel) (by decide +kernel) fuel)

end Xv6.Mp
