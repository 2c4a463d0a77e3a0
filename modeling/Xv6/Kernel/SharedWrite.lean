import Xv6.Kernel.Calls
import Xv6.Lib.Lock
import Xv6.Lib.Protocol

/-!
# Writing through one file at the same time

Any number of processes call `filewrite` on the same `struct file` of an inode that is neither a
device nor written in another way. `f->off` is read, and advanced, by whoever holds the inode's
lock. No operation reads the history of the successful calls of `writei`.
-/

namespace Xv6.Kernel.SharedWrite

open Fs
open Function (update_self update_of_ne update_eq_self)

structure Chunk where
  proc : Nat
  off : UInt32
  bytes : List UInt8

/-- The chunk that an operation of process `p` adds to the history. -/
def record (p : Nat) : (o : Op) → o.Ret → List Chunk
  | .writei _ src off _ => fun r =>
    match r with
    | some r => [⟨p, off, (List.range r.toNat).map src⟩]
    | none => []
  | _ => fun _ => []

structure Write where
  addr : Nat → UInt8
  n : Int32

/-- Processes that call `filewrite` on file `f`. For a negative `n` its loop is not entered. -/
def writers (sb : Superblock) (f : Nat) :
    Interleave.System Op Op.Ret (Machine × List Chunk) Stop Nat Write where
  handler p o x :=
    match Machine.handler sb p o x.1 with
    | .ok (r, s) => .ok (r, (s, x.2 ++ record p o r))
    | .error e => .error e
  prog c := do
    let _ ← filewrite f c.addr c.n.toNatClampNeg none
    return ()
  ready _ _ := true

def total (h : List Chunk) : Nat := (h.map fun c => c.bytes.length).sum

/-- How far a process has come with the inode: it has not locked it, it has locked it, it has found
that the copy is not read, it may use the copy and perhaps knows the offset, or it has written `r`
bytes at `off` and not advanced the offset. -/
inductive Phase
  | out
  | locked
  | unread
  | ready (off : Option UInt32)
  | wrote (off r : UInt32)
  deriving DecidableEq

namespace Phase

variable (f ip : Nat)

def pre : Op → Phase → Prop
  | .table (.file f'), _ => f' = f
  | .table (.ref ip'), _ | .table (.holdingsleep ip'), _ | .table (.acquiresleep ip'), _ => ip' = ip
  | .table (.valid ip'), g => ip' = ip ∧ g = .locked
  | .table (.releasesleep ip'), g => ip' = ip ∧ ∃ o, g = .ready o
  | .table (.setOff f' off), g => f' = f ∧ ∃ o r, g = .wrote o r ∧ off = o + r
  | .load ip', g => ip' = ip ∧ g = .unread
  | .attrs ip', g => ip' = ip ∧ ∃ o, g = .ready o
  | .writei ip' _ off _, g => ip' = ip ∧ g = .ready (some off)
  | .beginOp, _ | .endOp, _ | .panic _, _ => True
  | _, _ => False

def fact : (o : Op) → Phase → o.Ret → Prop
  | .table (.file _), g, ff => (ff.type = .inode ∧ ff.writable = true ∧ ff.slot = ip) ∧
    ∀ o r, g = .wrote o r → ff.off = o
  | .attrs _, _, a => a.type ≠ tDev
  | _, _, _ => True

def rule : (o : Op) → Phase → o.Ret → Phase → Prop
  | .table (.file _), g, ff, g' => g' = g ∨ (∃ o, g = .ready o) ∧ g' = .ready (some ff.off)
  | .table (.acquiresleep _), _, _, g' => g' = .locked
  | .table (.valid _), _, v, g' => g' = if v then .ready none else .unread
  | .table (.releasesleep _), _, _, g' => g' = .out
  | .table (.setOff _ _), _, _, g' | .load _, _, _, g' => g' = .ready none
  | .writei _ _ off _, g, r, g' =>
    match r with
    | some r => g' = .wrote off r
    | none => g' = g
  | _, g, _, g' => g' = g

end Phase

/-- The offset is read and advanced under the lock of the inode. -/
def sharing (f ip : Nat) : Program.Protocol Op Op.Ret Phase where
  pre := Phase.pre f ip
  fact := Phase.fact ip
  rule := Phase.rule

section

open Program

variable {f ip : Nat} {α : Type} {g : Phase}

theorem obeys_call {o : Op} {Q : o.Ret → Phase → Prop} {g' : o.Ret → Phase}
    (hpre : Phase.pre f ip o g) (hrule : ∀ r, Phase.rule o g r (g' r))
    (h : ∀ r, Phase.fact ip o g r → Q r (g' r)) : Obeys (sharing f ip) (call o) Q g :=
  Obeys.call hpre fun r hr => ⟨g' r, hrule r, h r hr⟩

theorem obeys_panic {msg : String} {Q : α → Phase → Prop} : Obeys (sharing f ip) (panic msg) Q g :=
  ⟨trivial, fun r => r.elim⟩

theorem obeys_ilock {Q : Unit → Phase → Prop} (h : Q () (.ready none)) :
    Obeys (sharing f ip) (ilock ip) Q g := by
  refine .bind (obeys_call rfl (fun _ => rfl) fun r _ => ?_)
  split
  · exact obeys_panic
  refine .bind (obeys_call rfl (fun _ => rfl) fun _ _ => ?_)
  refine .bind (obeys_call ⟨rfl, rfl⟩ (fun _ => rfl) fun v _ => ?_)
  cases v with
  | true => exact h
  | false => exact obeys_call ⟨rfl, rfl⟩ (fun _ => rfl) fun _ _ => h

theorem obeys_iunlock {o : Option UInt32} {Q : Unit → Phase → Prop} (h : Q () .out) :
    Obeys (sharing f ip) (iunlock ip) Q (.ready o) := by
  refine .bind (obeys_call rfl (fun _ => rfl) fun b _ => ?_)
  refine .bind (obeys_call rfl (fun _ => rfl) fun r _ => ?_)
  split
  · exact obeys_panic
  · exact obeys_call ⟨rfl, o, rfl⟩ (fun _ => rfl) fun _ _ => h

/-- Each round of `filewrite` reads the offset and advances it under the lock. -/
theorem obeys_filewriteLoop {addr : Nat → UInt8} {n : Nat} (k i : Nat) :
    Obeys (sharing f ip) (filewriteLoop f addr n k i) (fun _ g => g = .out) .out := by
  induction k generalizing i with
  | zero => exact rfl
  | succ k ih =>
    rw [filewriteLoop]
    split
    swap
    · exact rfl
    refine .bind (obeys_call trivial (fun _ => rfl) fun _ _ => ?_)
    refine .bind (obeys_call rfl (fun _ => Or.inl rfl) fun ff hff => ?_)
    rw [hff.1.2.2]
    refine .bind (obeys_ilock ?_)
    refine .bind (obeys_call rfl (fun _ => Or.inr ⟨⟨none, rfl⟩, rfl⟩) fun ff hff => ?_)
    rw [hff.1.2.2]
    -- `writei`; the inode is not a device
    refine .bind (.bind (obeys_call ⟨rfl, _, rfl⟩ (fun _ => rfl) fun a ha => ?_))
    rw [if_neg ha]
    refine Obeys.call ⟨rfl, rfl⟩ fun r _ => ?_
    cases r with
    | none =>
      refine ⟨_, rfl, .bind (obeys_iunlock (.bind ?_))⟩
      exact obeys_call trivial (fun _ => rfl) fun _ _ => rfl
    | some r =>
      refine ⟨_, rfl, ?_⟩
      refine .bind (obeys_call rfl (fun _ => Or.inl rfl) fun ff' hff' => ?_)
      rw [hff'.1.2.2, hff'.2 _ _ rfl]
      refine .bind (obeys_call ⟨rfl, _, _, rfl, rfl⟩ (fun _ => rfl) fun _ _ => ?_)
      refine .bind (obeys_iunlock (.bind ?_))
      refine obeys_call trivial (fun _ => rfl) fun _ _ => ?_
      split
      · exact obeys_panic
      · exact ih _

/-- **`filewrite` touches the offset under the lock only.** -/
theorem obeys_filewrite {addr : Nat → UInt8} {n : Nat} {pip : Option Nat} :
    Obeys (sharing f ip) (filewrite f addr n pip) (fun _ g => g = .out) .out := by
  refine .bind (obeys_call rfl (fun _ => Or.inl rfl) fun ff hff => ?_)
  rw [hff.1.2.1, hff.1.1]
  exact obeys_filewriteLoop _ _

end

def Phase.Reads : Phase → Prop
  | .ready _ | .wrote _ _ => True
  | _ => False

def fileBytes (sb : Superblock) (inum : Nat) (s : Machine) : List UInt8 :=
  content s.store.disk (dinode sb s.store.disk inum)

/-- File `f` has the inode `inum` in slot `ip`. The offset has started at `off₀`, when the file held
`c₀`; it is behind by the bytes that have been written and not counted yet. -/
structure Inv (sb : Superblock) (f ip inum off₀ : Nat) (c₀ : List UInt8) (G : Nat → Phase)
    (x : Machine × List Chunk) : Prop where
  store : StoreOk sb x.1.store
  slot : (x.1.tables.icache ip).inum = inum
  range : inum < sb.ninodes
  file : (x.1.tables.ftable f).type = .inode ∧ (x.1.tables.ftable f).writable = true ∧
    (x.1.tables.ftable f).slot = ip
  type : (dinode sb x.1.store.disk inum).type ≠ 0 ∧ (dinode sb x.1.store.disk inum).type ≠ tDev
  lock : Lock.Held (x.1.tables.icache ip).lock G fun g => g ≠ .out
  copy : (x.1.tables.icache ip).valid = true → x.1.copy ip = dinode sb x.1.store.disk inum
  valid : ∀ p, (G p).Reads → (x.1.tables.icache ip).valid = true
  off : ∀ p o, (G p = .ready (some o) ∨ ∃ r, G p = .wrote o r) → (x.1.tables.ftable f).off = o
  behind : ∀ p o r, G p = .wrote o r → o.toNat + r.toNat = off₀ + total x.2 ∧
    o.toNat + r.toNat ≤ maxFile * bsize
  counted : (∀ p o r, G p ≠ .wrote o r) →
    (x.1.tables.ftable f).off.toNat = off₀ + total x.2
  starts : ∀ k c, x.2[k]? = some c → c.off.toNat = off₀ + total (x.2.take k)
  kept : ∀ c ∈ x.2, ∀ i < c.bytes.length,
    (fileBytes sb inum x.1)[c.off.toNat + i]? = c.bytes[i]?
  rest : ∀ o, o < off₀ ∨ off₀ + total x.2 ≤ o → (fileBytes sb inum x.1)[o]? = c₀[o]?

variable {sb : Superblock} {f ip inum off₀ : Nat} {c₀ : List UInt8} {G : Nat → Phase}
  {x x' : Machine × List Chunk} {p : Nat} {g : Phase}

/-- A step of process `p` that leaves the disk, the offset and the history alone. -/
theorem Inv.step (h : Inv sb f ip inum off₀ c₀ G x) (hstore : StoreOk sb x'.1.store)
    (hdisk : x'.1.store.disk = x.1.store.disk)
    (hinum : (x'.1.tables.icache ip).inum = (x.1.tables.icache ip).inum)
    (hfile : x'.1.tables.ftable f = x.1.tables.ftable f) (hhist : x'.2 = x.2)
    (hlock : Lock.Held (x'.1.tables.icache ip).lock (Function.update G p g) fun g => g ≠ .out)
    (hcopy : (x'.1.tables.icache ip).valid = true →
      x'.1.copy ip = dinode sb x.1.store.disk inum)
    (hvalid : g.Reads ∨ (x.1.tables.icache ip).valid = true →
      (x'.1.tables.icache ip).valid = true)
    (hoff : ∀ o, g = .ready (some o) → (x.1.tables.ftable f).off = o)
    (hold : ∀ o r, G p ≠ .wrote o r) (hnew : ∀ o r, g ≠ .wrote o r) :
    Inv sb f ip inum off₀ c₀ (Function.update G p g) x' := by
  have hself : Function.update G p g p = g := update_self p g G
  have hother : ∀ q, q ≠ p → Function.update G p g q = G q := fun q hq =>
    update_of_ne hq _ _
  have hbytes : fileBytes sb inum x'.1 = fileBytes sb inum x.1 := by rw [fileBytes, hdisk, fileBytes]
  -- nobody else's bytes are counted
  have hwrote : ∀ q o r, Function.update G p g q = .wrote o r → G q = .wrote o r := by
    intro q o r hq
    by_cases hqp : q = p
    · rw [hqp, hself] at hq
      exact absurd hq (hnew o r)
    · rwa [hother q hqp] at hq
  refine ⟨hstore, hinum.trans h.slot, h.range, hfile ▸ h.file, hdisk ▸ h.type, hlock,
    fun hv => by rw [hdisk]; exact hcopy hv, fun q hq => ?_, fun q o hq => ?_,
    fun q o r hq => ?_, fun hq => ?_, ?_, ?_, ?_⟩
  · by_cases hqp : q = p
    · rw [hqp, hself] at hq
      exact hvalid (Or.inl hq)
    · rw [hother q hqp] at hq
      exact hvalid (Or.inr (h.valid q hq))
  · rw [hfile]
    by_cases hqp : q = p
    · rw [hqp, hself] at hq
      exact hoff o (hq.resolve_right fun ⟨r, hr⟩ => hnew o r hr)
    · rw [hother q hqp] at hq
      exact h.off q o hq
  · rw [hhist]
    exact h.behind q o r (hwrote q o r hq)
  · rw [hhist, hfile]
    refine h.counted fun q o r hw => hq q o r ?_
    rw [hother q fun e => hold o r (e ▸ hw)]
    exact hw
  · rw [hhist]
    exact h.starts
  · rw [hhist, hbytes]
    exact h.kept
  · rw [hhist, hbytes]
    exact h.rest

theorem Inv.alone (h : Inv sb f ip inum off₀ c₀ G x) (hp : G p ≠ .out) {q : Nat} (hq : q ≠ p) :
    G q = .out := by
  by_contra hout
  exact hq (h.lock.unique hout hp)

theorem total_snoc (h : List Chunk) (c : Chunk) : total (h ++ [c]) = total h + c.bytes.length := by
  simp [total]

variable (h : Inv sb f ip inum off₀ c₀ G x)

include h

theorem Inv.chunk_le {c : Chunk} (hc : c ∈ x.2) :
    off₀ ≤ c.off.toNat ∧ c.off.toNat + c.bytes.length ≤ off₀ + total x.2 := by
  obtain ⟨k, hk⟩ := List.mem_iff_getElem?.mp hc
  have hstart := h.starts k c hk
  have hlt := (List.getElem?_eq_some_iff.mp hk).1
  have hsplit : total (x.2.take k) + c.bytes.length ≤ total x.2 := by
    have hget : x.2[k] = c := (List.getElem?_eq_some_iff.mp hk).2
    have htake : x.2.take (k + 1) = x.2.take k ++ [c] := by
      rw [List.take_add_one, hk]
      rfl
    have hparts := congrArg total (List.take_append_drop (k + 1) x.2)
    simp only [total, List.map_append, List.sum_append] at hparts
    have hstep := total_snoc (x.2.take k) c
    rw [← htake] at hstep
    simp only [total] at hstep ⊢
    omega
  omega

theorem Inv.write {off r : UInt32} {src : Nat → UInt8} {st : Store} (hp : G p = .ready (some off))
    (hacc : Accepted (dinode sb x.1.store.disk inum) off r)
    (hw : Written sb inum x.1.store.disk src off.toNat r.toNat st.disk) (ha : AllocsOk sb st) :
    Inv sb f ip inum off₀ c₀ (Function.update G p (.wrote off r))
      ({ x.1 with
        store := st
        copy := Function.update x.1.copy ip (dinode sb st.disk inum) },
        x.2 ++ [⟨p, off, (List.range r.toNat).map src⟩]) := by
  have hself : Function.update G p (.wrote off r) p = .wrote off r := update_self p _ G
  have hmine : G p ≠ .out := by rw [hp]; nofun
  have hother : ∀ q, q ≠ p → Function.update G p (.wrote off r) q = .out := fun q hq => by
    rw [update_of_ne hq, h.alone hmine hq]
  have hoff : (x.1.tables.ftable f).off = off := h.off p off (Or.inl hp)
  have hcount : off.toNat = off₀ + total x.2 := by
    rw [← hoff]
    refine h.counted fun q o r' hq => ?_
    by_cases hqp : q = p
    · rw [hqp, hp] at hq
      cases hq
    · rw [h.alone hmine hqp] at hq
      cases hq
  have hlen : (fileBytes sb inum x.1).length = (dinode sb x.1.store.disk inum).size.toNat := by
    simp [fileBytes, content]
  have hbytes : ∀ o, (content st.disk (dinode sb st.disk inum))[o]? =
      if off.toNat ≤ o ∧ o < off.toNat + r.toNat then some (src (o - off.toNat))
      else (fileBytes sb inum x.1)[o]? := by
    intro o
    rw [hw.content_eq, ← fileBytes, overwrite_getElem? (by rw [hlen]; exact hacc.1)]
  obtain ⟨addrs, hattrs⟩ := hw.attrs
  refine ⟨⟨h.store.geometry, hw.ok, ha⟩, h.slot, h.range, h.file, by rw [hattrs]; exact h.type,
    h.lock.keep p (iff_of_true (by rintro ⟨⟩) hmine), fun _ => update_self _ _ _,
    fun q hq => ?_, fun q o hq => ?_, fun q o r' hq => ?_, fun hq => absurd hself (hq p off r),
    fun k c hk => ?_, fun c hc i hi => ?_, fun o ho => ?_⟩
  · exact h.valid p (by rw [hp]; trivial)
  · by_cases hqp : q = p
    · rw [hqp, hself] at hq
      rcases hq with e | ⟨r', e⟩
      · cases e
      · cases e
        exact hoff
    · rw [hother q hqp] at hq
      rcases hq with e | ⟨r', e⟩ <;> cases e
  · by_cases hqp : q = p
    · rw [hqp, hself] at hq
      cases hq
      refine ⟨?_, hacc.2⟩
      rw [total_snoc, List.length_map, List.length_range]
      omega
    · rw [hother q hqp] at hq
      cases hq
  · by_cases hlt : k < x.2.length
    · rw [List.getElem?_append_left hlt] at hk
      rw [List.take_append_of_le_length (Nat.le_of_lt hlt)]
      exact h.starts k c hk
    · have hk' : k = x.2.length := by
        have := (List.getElem?_eq_some_iff.mp hk).1
        simp only [List.length_append, List.length_singleton] at this
        omega
      subst hk'
      rw [List.getElem?_append_right le_rfl, Nat.sub_self] at hk
      cases hk
      rw [List.take_left]
      exact hcount
  · rw [fileBytes, hbytes]
    rcases List.mem_append.mp hc with hc | hc
    · have hle := h.chunk_le hc
      rw [if_neg (by omega)]
      exact h.kept c hc i hi
    · rw [List.mem_singleton] at hc
      subst hc
      rw [List.length_map, List.length_range] at hi
      rw [if_pos (by simp only; omega)]
      simp [hi]
  · rw [total_snoc, List.length_map, List.length_range] at ho
    rw [fileBytes, hbytes, if_neg (by omega)]
    exact h.rest o (by omega)

theorem Inv.advance {off r : UInt32} (hp : G p = .wrote off r) :
    Inv sb f ip inum off₀ c₀ (Function.update G p (.ready none))
      ({ x.1 with tables :=
        (x.1.tables.setFile f { x.1.tables.ftable f with off := off + r }) }, x.2) := by
  have hself : Function.update G p (.ready none) p = .ready none := update_self p _ G
  have hmine : G p ≠ .out := by rw [hp]; nofun
  have hother : ∀ q, q ≠ p → Function.update G p (.ready none) q = .out := fun q hq => by
    rw [update_of_ne hq, h.alone hmine hq]
  have hf : (x.1.tables.setFile f { x.1.tables.ftable f with off := off + r }).ftable f =
      { x.1.tables.ftable f with off := off + r } := update_self _ _ _
  obtain ⟨hcount, hmax⟩ := h.behind p off r hp
  have hsum : (off + r).toNat = off.toNat + r.toNat := by
    rw [UInt32.toNat_add, Nat.mod_eq_of_lt]
    exact lt_of_le_of_lt hmax (by decide)
  have hno : ∀ q o r', Function.update G p (.ready none) q ≠ .wrote o r' := by
    intro q o r' hq
    by_cases hqp : q = p
    · rw [hqp, hself] at hq
      cases hq
    · rw [hother q hqp] at hq
      cases hq
  refine ⟨h.store, h.slot, h.range, ?_, h.type, h.lock.keep p (iff_of_true (by rintro ⟨⟩) hmine),
    h.copy, fun q hq => h.valid p (by rw [hp]; trivial), fun q o hq => ?_,
    fun q o r' hq => absurd hq (hno q o r'), fun _ => ?_, h.starts, h.kept, h.rest⟩
  · simp only [hf]
    exact h.file
  · by_cases hqp : q = p
    · rw [hqp, hself] at hq
      rcases hq with e | ⟨r', e⟩ <;> cases e
    · rw [hother q hqp] at hq
      rcases hq with e | ⟨r', e⟩ <;> cases e
  · simp only [hf]
    rw [hsum]
    exact hcount

theorem Inv.same : Inv sb f ip inum off₀ c₀ (Function.update G p (G p)) x := by
  rw [update_eq_self]
  exact h

theorem Inv.relock {l : Option Nat} (hl : Lock.Held l (Function.update G p g) fun g => g ≠ .out)
    (hg : ¬ g.Reads) (hold : ∀ o r, G p ≠ .wrote o r) :
    Inv sb f ip inum off₀ c₀ (Function.update G p g) ({ x.1 with
      tables := x.1.tables.setSlot ip { x.1.tables.icache ip with lock := l } }, x.2) := by
  have hslot : (x.1.tables.setSlot ip { x.1.tables.icache ip with lock := l }).icache ip =
      { x.1.tables.icache ip with lock := l } := update_self _ _ _
  refine h.step h.store rfl (by simp only [hslot]) rfl rfl ?_ ?_ ?_ ?_ hold ?_
  · simp only [hslot]
    exact hl
  · simp only [hslot]
    exact h.copy
  · simp only [hslot]
    exact fun hv => hv.resolve_left hg
  · rintro o rfl
    exact absurd trivial hg
  · rintro o r rfl
    exact hg trivial

theorem Inv.log {st : Store}
    (hdisk : st.disk = x.1.store.disk) (hallocs : st.allocs = x.1.store.allocs) :
    Inv sb f ip inum off₀ c₀ (Function.update G p (G p)) ({ x.1 with store := st }, x.2) := by
  rw [update_eq_self]
  have hbytes : fileBytes sb inum { x.1 with store := st } = fileBytes sb inum x.1 := by
    simp only [fileBytes, hdisk]
  refine ⟨⟨h.store.geometry, hdisk ▸ h.store.disk, ?_⟩, h.slot, h.range, h.file, hdisk ▸ h.type,
    h.lock, fun hv => by simp only [hdisk]; exact h.copy hv, h.valid, h.off, h.behind, h.counted,
    h.starts, by rw [hbytes]; exact h.kept, by rw [hbytes]; exact h.rest⟩
  have := h.store.allocs
  rw [AllocsOk] at this ⊢
  rw [hallocs]
  exact this

omit h

/-- **The operations keep the invariant.** -/
theorem sharing_keeps : Program.Keeps (sharing f ip) (writers sb f).handler
    (Inv sb f ip inum off₀ c₀) fun _ _ _ => True := by
  intro G x x' p o r h hpre _ hop
  obtain ⟨s', hs', rfl⟩ : ∃ s', Machine.handler sb p o x.1 = .ok (r, s') ∧
      x' = (s', x.2 ++ record p o r) := by
    simp only [writers] at hop
    split at hop
    · next hok =>
      cases hop
      exact ⟨_, hok, rfl⟩
    · cases hop
  cases o with
  | panic msg => exact r.elim
  | beginOp =>
    simp only [Machine.handler, Machine.beginOp] at hs'
    split at hs' <;> cases hs'
    refine ⟨trivial, fun g' hg' => ?_⟩
    cases hg'
    simp only [record, List.append_nil]
    exact h.log rfl rfl
  | endOp =>
    cases hs'
    refine ⟨trivial, fun g' hg' => ?_⟩
    cases hg'
    simp only [record, List.append_nil]
    exact h.log rfl rfl
  | load ip' =>
    obtain ⟨rfl, hp⟩ := hpre
    simp only [Machine.handler, Machine.load] at hs'
    split at hs' <;> cases hs'
    refine ⟨trivial, fun g' hg' => ?_⟩
    cases hg'
    simp only [record, List.append_nil]
    have hslot : (x.1.setValid ip' true).tables.icache ip' =
        { x.1.tables.icache ip' with valid := true } := update_self _ _ _
    refine h.step h.store rfl (by simp only [hslot]) rfl rfl ?_ (fun _ => ?_) (fun _ => ?_) nofun
      (by rw [hp]; nofun) nofun
    · simp only [hslot]
      exact h.lock.keep p (by rw [hp]; exact iff_of_true nofun nofun)
    · simp only [update_self, Machine.inum, h.slot]
    · simp only [hslot]
  | attrs ip' =>
    obtain ⟨rfl, o, hp⟩ := hpre
    cases hs'
    refine ⟨?_, fun g' hg' => ?_⟩
    · change (x.1.copy ip').type ≠ tDev
      rw [h.copy (h.valid p (by rw [hp]; trivial))]
      exact h.type.2
    · cases hg'
      simp only [record, List.append_nil]
      exact h.same
  | writei ip' src off n =>
    obtain ⟨rfl, hp⟩ := hpre
    rw [Machine.handler_writei, Machine.withCopy, Machine.inum, h.slot,
      h.copy (h.valid p (by rw [hp]; trivial))] at hs'
    by_cases hacc : Accepted (dinode sb x.1.store.disk inum) off n
    · -- the range is written, or a limit stops the kernel
      have hwp := wp_writei (E := fun _ => True) h.store.geometry h.store.disk h.store.allocs
        h.range h.type.1 h.type.2 hacc (Nat.le_refl _) (Or.inl fun _ _ => trivial)
        (Q := fun r s' => r = (some n, dinode sb s'.disk inum) ∧
          Written sb inum x.1.store.disk src off.toNat n.toNat s'.disk ∧ AllocsOk sb s')
        fun s' hw ha' _ => ⟨rfl, hw, ha'⟩
      split at hs'
      · next hok =>
        obtain ⟨heq, hw, ha⟩ := hwp.ok hok
        cases heq
        cases hs'
        refine ⟨trivial, fun g' hg' => ?_⟩
        cases hg'
        exact h.write hp hacc hw ha
      · cases hs'
    · rw [writei_refused h.type.2 hacc] at hs'
      cases hs'
      refine ⟨trivial, fun g' hg' => ?_⟩
      cases hg'
      simp only [record, List.append_nil]
      refine h.step h.store rfl rfl rfl rfl ?_ (fun _ => update_self _ _ _) (fun hv => ?_)
        (fun o ho => h.off p o (Or.inl ho)) (by rw [hp]; nofun) (by rw [hp]; nofun)
      · rw [update_eq_self]
        exact h.lock
      · exact hv.elim (h.valid p) id
  | free | ialloc | assign | iupdate | readi => exact hpre.elim
  | table o =>
    cases o with
    | file f' =>
      cases hpre
      cases hs'
      refine ⟨⟨h.file, fun o r hw => h.off p o (Or.inr ⟨r, hw⟩)⟩, fun g' hg' => ?_⟩
      simp only [record, List.append_nil]
      rcases hg' with rfl | ⟨⟨o, hp⟩, rfl⟩
      · exact h.same
      · refine h.step h.store rfl rfl rfl rfl (h.lock.keep p ?_) h.copy (fun hv => ?_) ?_ ?_ nofun
        · rw [hp]
          exact iff_of_true nofun nofun
        · exact hv.elim (fun _ => h.valid p (by rw [hp]; trivial)) id
        · rintro o' ⟨⟩
          rfl
        · rw [hp]
          nofun
    | ref ip' | holdingsleep ip' =>
      cases hs'
      refine ⟨trivial, fun g' hg' => ?_⟩
      cases hg'
      simp only [record, List.append_nil]
      exact h.same
    | acquiresleep ip' =>
      cases hpre
      simp only [Machine.handler, TableOp.run] at hs'
      split at hs'
      · next hrun =>
        cases hs'
        split at hrun <;> cases hrun
        next hfree =>
        refine ⟨trivial, fun g' hg' => ?_⟩
        cases hg'
        simp only [record, List.append_nil]
        refine h.relock (h.lock.acquire hfree p nofun) id fun o r hw => ?_
        exact h.lock.not_of_none hfree p (by rw [hw]; nofun)
      · cases hs'
    | valid ip' =>
      obtain ⟨rfl, hp⟩ := hpre
      cases hs'
      refine ⟨trivial, fun g' hg' => ?_⟩
      change g' = if (x.1.tables.icache ip').valid then .ready none else .unread at hg'
      subst hg'
      simp only [record, List.append_nil]
      refine h.step h.store rfl rfl rfl rfl (h.lock.keep p ?_) h.copy (fun hv => ?_) (fun o ho => ?_)
        ?_ fun o r => ?_
      · rw [hp]
        split <;> exact iff_of_true nofun nofun
      · by_cases hx : (x.1.tables.icache ip').valid = true
        · exact hx
        · rw [if_neg hx] at hv
          exact hv.elim False.elim id
      · split at ho <;> cases ho
      · rw [hp]
        nofun
      · split <;> nofun
    | releasesleep ip' =>
      obtain ⟨rfl, o, hp⟩ := hpre
      cases hs'
      refine ⟨trivial, fun g' hg' => ?_⟩
      cases hg'
      simp only [record, List.append_nil]
      exact h.relock (h.lock.release p (by rw [hp]; nofun) fun hne => hne rfl) id
        (by rw [hp]; nofun)
    | setOff f' off =>
      obtain ⟨rfl, o, r', hp, rfl⟩ := hpre
      cases hs'
      refine ⟨trivial, fun g' hg' => ?_⟩
      cases hg'
      simp only [record, List.append_nil]
      exact h.advance hp
    | _ => exact hpre.elim

theorem writers_sound : Interleave.Sound (writers sb f) (sharing f ip)
    (Inv sb f ip inum off₀ c₀) (fun _ _ _ => True) .out (fun _ => .out) (fun g => g = .out)
    fun _ _ _ => True where
  op := sharing_keeps
  start := by
    intro G x p c h hp _
    rw [← hp]
    exact h.same
  finish := by
    intro G x p h hp
    rw [← hp]
    exact h.same
  obeys _ := .bind (obeys_filewrite.mono fun _ _ hg => hg)
  track_first _ := trivial
  track_op _ _ _ := trivial

/-- File `f` is open for writing, and has the regular inode in slot `ip`, which nobody has
locked. -/
structure OpenForWriting (sb : Superblock) (f ip : Nat) (s : Machine) : Prop where
  store : StoreOk sb s.store
  file : (s.tables.ftable f).type = .inode ∧ (s.tables.ftable f).writable = true ∧
    (s.tables.ftable f).ip = some ip
  range : s.inum ip < sb.ninodes
  type : (dinode sb s.store.disk (s.inum ip)).type = tFile
  lock : (s.tables.icache ip).lock = none
  copy : (s.tables.icache ip).valid = true → s.copy ip = dinode sb s.store.disk (s.inum ip)

theorem OpenForWriting.inv {s : Machine} (h : OpenForWriting sb f ip s) :
    Inv sb f ip (s.inum ip) (s.tables.ftable f).off.toNat (fileBytes sb (s.inum ip) s)
      (fun _ => .out) (s, []) where
  store := h.store
  slot := rfl
  range := h.range
  file := ⟨h.file.1, h.file.2.1, by rw [File.slot, h.file.2.2]; rfl⟩
  type := by rw [h.type]; decide
  lock p := by simp [h.lock]
  copy := h.copy
  valid := nofun
  off := by rintro p o (e | ⟨r, e⟩) <;> cases e
  behind := nofun
  counted _ := rfl
  starts := nofun
  kept := nofun
  rest _ _ := rfl

/-- **Writes through a shared offset do not overlap.** Any number of processes call `filewrite` on
one file, and their rounds interleave in any way. At every time the successful rounds so far lie
one behind the other from the first offset on, the file holds their bytes, and it is unchanged
elsewhere; when the inode is not locked, the offset is behind the last of them. -/
theorem filewrite_shared {s₀ : Machine} (h₀ : OpenForWriting sb f ip s₀)
    {as : List (Interleave.Action Nat Write)}
    {x : Interleave.State Op Op.Ret (Machine × List Chunk) Nat Write}
    (hr : Transition.run (Interleave.step (writers sb f)) (Interleave.initial (s₀, [])) as =
      some x) :
    (∀ k c, x.shared.2[k]? = some c →
      c.off.toNat = (s₀.tables.ftable f).off.toNat + total (x.shared.2.take k)) ∧
    (∀ c ∈ x.shared.2, ∀ i < c.bytes.length,
      (fileBytes sb (s₀.inum ip) x.shared.1)[c.off.toNat + i]? = c.bytes[i]?) ∧
    (∀ o, o < (s₀.tables.ftable f).off.toNat ∨
        (s₀.tables.ftable f).off.toNat + total x.shared.2 ≤ o →
      (fileBytes sb (s₀.inum ip) x.shared.1)[o]? = (fileBytes sb (s₀.inum ip) s₀)[o]?) ∧
    ((x.shared.1.tables.icache ip).lock = none → (x.shared.1.tables.ftable f).off.toNat =
      (s₀.tables.ftable f).off.toNat + total x.shared.2) := by
  have hmeets : Transition.RunMeets (Interleave.step (writers sb f))
      (Interleave.Meets fun _ _ _ => True) (Interleave.initial (s₀, [])) as := by
    refine Transition.RunMeets.of_forall (fun x a => ?_) _ _
    cases a with
    | start => trivial
    | step => exact fun _ _ => trivial
  obtain ⟨G, h, -⟩ := writers_sound.run h₀.inv hmeets hr
  refine ⟨h.starts, h.kept, h.rest, fun hfree => h.counted fun p o r hp => ?_⟩
  exact h.lock.not_of_none hfree p (by rw [hp]; nofun)

def emptyFile : Machine where
  tables :=
    { icache := fun _ => ⟨rootDev, 1, 1, false, none, none⟩
      ftable := fun _ => ⟨.inode, 2, true, true, 0, some 0, 0⟩
      pipe := fun _ => none
      proc := fun _ => ⟨.live, 1, none, false, fun _ => some 0, none, false⟩
      nextpid := 2 }
  store := { oneFile with outstanding := 0 }
  copy := fun _ => Dinode.zero

theorem openForWriting_emptyFile : OpenForWriting Mkfs.sb 0 0 emptyFile where
  store := ⟨storeOk_oneFile.geometry, storeOk_oneFile.disk, storeOk_oneFile.allocs⟩
  file := ⟨rfl, rfl, rfl⟩
  range := by decide
  type := congrArg Dinode.type dinode_oneFile
  lock := rfl
  copy := nofun

/-- Two processes are in `filewrite` at the same time. The second enters its transaction first, and
the first locks the inode first. -/
def twoWrites : List (Interleave.Action Nat Write) :=
  [.start 0 ⟨fun _ => 97, 2⟩, .start 1 ⟨fun _ => 98, 2⟩, .step 0, .step 1, .step 1, .step 0] ++
    List.replicate 15 (.step 0) ++ List.replicate 14 (.step 1)

theorem filewrite_shared_twoWrites : ∃ x,
    Transition.run (Interleave.step (writers Mkfs.sb 0)) (Interleave.initial (emptyFile, []))
      twoWrites = some x ∧
    x.shared.2.map (fun c => (c.proc, c.off, c.bytes)) =
      [(0, 0, [97, 97]), (1, 2, [98, 98])] ∧
    ∀ c ∈ x.shared.2, ∀ i < c.bytes.length,
      (fileBytes Mkfs.sb (emptyFile.inum 0) x.shared.1)[c.off.toNat + i]? = c.bytes[i]? := by
  have hrun : (Transition.run (Interleave.step (writers Mkfs.sb 0))
      (Interleave.initial (emptyFile, [])) twoWrites).map (fun x =>
        x.shared.2.map fun c => (c.proc, c.off, c.bytes)) =
      some [(0, 0, [97, 97]), (1, 2, [98, 98])] := by
    rw [emptyFile, oneFile, Mkfs.blank, Mkfs.balloc_eq]
    decide +kernel
  obtain ⟨x, hx, hh⟩ := Option.map_eq_some_iff.mp hrun
  exact ⟨x, hx, hh, (filewrite_shared openForWriting_emptyFile hx).2.1⟩

end Xv6.Kernel.SharedWrite
