import Xv6.Kernel.Paths
import Xv6.Mkfs.Wellformed

/-!
# The kernel reads what mkfs has written

The kernel is started on an image and looks up a file by its name. The directory of the image may
end in a hole; the loop of `dirlookup` stops before it comes to the hole.
-/

namespace Xv6.Kernel

open Fs Hoare

variable {sb : Superblock} {p : Nat} {α β : Type} {m : Machine} {ip dp : Nat}

/-- From `m` the kernel runs the program to its end, with `Q`. -/
abbrev Runs (sb : Superblock) (p : Nat) (prog : Prog α) (Q : α → Machine → Prop) (m : Machine) :
    Prop :=
  wp (Program.exec (Machine.handler sb p) prog) Q (fun _ => False) m

/-- The kernel after one slot has changed. -/
structure Changed (ip : Nat) (sl : Slot) (m m' : Machine) : Prop where
  slot : m'.slot ip = sl
  others : ∀ k, k ≠ ip → m'.slot k = m.slot k
  store : m'.store = m.store
  copies : ∀ k, k ≠ ip → m'.copy k = m.copy k

theorem changed_withSlot (m : Machine) (ip : Nat) (sl : Slot) : Changed ip sl m (m.withSlot ip sl) where
  slot := m.slot_withSlot_self ip sl
  others _ hk := m.slot_withSlot_of_ne sl hk
  store := rfl
  copies _ _ := rfl

theorem Runs.bind {prog : Prog α} {f : α → Prog β} {Q : β → Machine → Prop}
    (h : Runs sb p prog (fun a m' => Runs sb p (f a) Q m') m) : Runs sb p (prog >>= f) Q m :=
  Program.wp_exec_bind.mpr h

theorem Runs.pure {a : α} {Q : α → Machine → Prop} (h : Q a m) :
    Runs sb p (Pure.pure a : Prog α) Q m := h

theorem runs_call {o : Op} {Q : o.Ret → Machine → Prop}
    (h : wp (Machine.handler sb p o) Q (fun _ => False) m) : Runs sb p (call o) Q m := by
  rw [Runs, call, Program.exec_call]
  exact h

theorem runs_table {o : TableOp} {Q : o.Ret → Machine → Prop} {r : o.Ret} {c : Tables}
    (hrun : o.run p m.tables = .ok (r, c)) (hQ : Q r { m with tables := c }) :
    Runs sb p (table o) Q m := by
  refine runs_call ?_
  simp only [wp, Machine.handler, hrun]
  exact hQ

theorem runs_attrs {Q : Attrs → Machine → Prop}
    (hQ : Q ⟨(m.copy ip).type, (m.copy ip).major, (m.copy ip).nlink, (m.copy ip).size⟩ m) :
    Runs sb p (attrs ip) Q m := runs_call hQ

theorem runs_readi {off n : UInt32} {Q : Option (List UInt8) → Machine → Prop}
    (hdev : (m.copy ip).type ≠ tDev)
    (hh : ∀ bn, bn * bsize < off.toNat + n.toNat → bn * bsize < (m.copy ip).size.toNat →
      bn < maxFile ∧ blk m.store.disk (m.copy ip) bn ≠ 0)
    (hQ : Q (readResult (content m.store.disk (m.copy ip)) off n) m) :
    Runs sb p (readData ip off n) Q m := by
  refine runs_call ?_
  have hsame : Function.update m.copy ip (m.copy ip) = m.copy := Function.update_eq_self _ _
  rw [Machine.handler_readi, wp, Machine.withCopy, readi_eq_of_range hdev off n hh]
  dsimp only
  rw [hsame]
  exact hQ

variable {Q : Unit → Machine → Prop}

theorem runs_acquiresleep (hlock : (m.slot ip).lock = none)
    (hQ : Q () (m.withSlot ip { m.slot ip with lock := some p })) :
    Runs sb p (table (.acquiresleep ip)) Q m := runs_table (if_pos hlock) hQ

theorem runs_releasesleep (hQ : Q () (m.withSlot ip { m.slot ip with lock := none })) :
    Runs sb p (table (.releasesleep ip)) Q m := runs_table rfl hQ

theorem runs_unref (hQ : Q () (m.withSlot ip { m.slot ip with ref := (m.slot ip).ref - 1 })) :
    Runs sb p (table (.unref ip)) Q m := runs_table rfl hQ

theorem runs_iget {dev inum k : Nat} {Q : Nat → Machine → Prop}
    (hnone : m.tables.findInode dev inum = none) (hempty : m.tables.findEmpty = some k)
    (hQ : ∀ m', Changed k ⟨dev, inum, 1, false, (m.slot k).lock, (m.slot k).flock⟩ m m' → Q k m') :
    Runs sb p (table (.iget dev inum)) Q m := by
  refine runs_table
    (c := m.tables.setSlot k ⟨dev, inum, 1, false, (m.slot k).lock, (m.slot k).flock⟩) ?_
    (hQ _ (changed_withSlot m k _))
  rw [TableOp.run, Kernel.iget, hnone, hempty]
  rfl

theorem runs_ilock (href : (m.slot ip).ref = 1)
    (hlock : (m.slot ip).lock = none) (hvalid : (m.slot ip).valid = false)
    (htype : (dinode sb m.store.disk (m.slot ip).inum).type ≠ 0) (hQ : ∀ m', Changed ip
      ⟨(m.slot ip).dev, (m.slot ip).inum, 1, true, some p, (m.slot ip).flock⟩ m m' →
      m'.copy ip = dinode sb m.store.disk (m.slot ip).inum → Q () m') :
    Runs sb p (ilock ip) Q m := by
  have hslot := m.slot_withSlot_self ip { m.slot ip with lock := some p }
  have hinum : (m.withSlot ip { m.slot ip with lock := some p }).inum ip = (m.slot ip).inum := by
    change ((m.withSlot ip { m.slot ip with lock := some p }).slot ip).inum = _
    rw [hslot]
  rw [ilock]
  refine .bind (runs_table rfl ?_)
  change Runs sb p (if (m.slot ip).ref < 1 then _ else _) Q m
  rw [if_neg (by rw [href]; decide)]
  refine .bind (runs_acquiresleep hlock (.bind (runs_table rfl ?_)))
  change Runs sb p (if ((m.withSlot ip { m.slot ip with lock := some p }).slot ip).valid
    then _ else _) Q (m.withSlot ip { m.slot ip with lock := some p })
  rw [hslot, if_neg (by simp [hvalid])]
  refine runs_call ?_
  change wp (Machine.load sb ip) Q _ _
  have hset : (m.withSlot ip { m.slot ip with lock := some p }).setValid ip true =
      m.withSlot ip { m.slot ip with lock := some p, valid := true } := by
    change (m.withSlot ip { m.slot ip with lock := some p }).withSlot ip
      { (m.withSlot ip { m.slot ip with lock := some p }).slot ip with valid := true } = _
    rw [hslot, Machine.withSlot_withSlot]
  rw [wp, Machine.load, hinum, hset]
  have htype' : ¬ (dinode sb (m.withSlot ip { m.slot ip with lock := some p }).store.disk
    (m.slot ip).inum).type = 0 := htype
  dsimp only
  rw [if_neg htype', href]
  obtain ⟨hslot', hothers, hstore, -⟩ :=
    changed_withSlot m ip
      ⟨(m.slot ip).dev, (m.slot ip).inum, 1, true, some p, (m.slot ip).flock⟩
  exact hQ _ ⟨hslot', hothers, hstore, fun k hk => Function.update_of_ne hk _ _⟩
    (Function.update_self _ _ _)

theorem runs_iunlockput (href : (m.slot ip).ref = 1)
    (hlock : (m.slot ip).lock = some p) (hvalid : (m.slot ip).valid = true)
    (hlink : (m.copy ip).nlink ≠ 0) (hQ : ∀ m', Changed ip
      ⟨(m.slot ip).dev, (m.slot ip).inum, 0, true, none, (m.slot ip).flock⟩ m m' → Q () m') :
    Runs sb p (iunlockput ip) Q m := by
  rw [iunlockput, iunlock]
  refine .bind (.bind (runs_table rfl (.bind (runs_table rfl ?_))))
  have hcond : (!decide ((m.slot ip).lock = some p) || decide ((m.slot ip).ref < 1)) = false := by
    rw [hlock, href]
    simp
  change Runs sb p (if (!decide ((m.slot ip).lock = some p) || decide ((m.slot ip).ref < 1)) = true
    then _ else _) _ m
  rw [hcond, if_neg Bool.false_ne_true]
  refine runs_table rfl ?_
  change Runs sb p (iput ip) Q (m.withSlot ip { m.slot ip with lock := none })
  -- the lock has been released
  have hslot₁ := m.slot_withSlot_self ip { m.slot ip with lock := none }
  rw [iput]
  refine .bind (runs_acquiresleep (by rw [hslot₁]) (.bind ?_))
  rw [hslot₁, Machine.withSlot_withSlot]
  have hslot₂ := m.slot_withSlot_self ip { m.slot ip with lock := some p }
  rw [iputFree]
  refine .bind (runs_table rfl ?_)
  change Runs sb p (if ((m.withSlot ip { m.slot ip with lock := some p }).slot ip).valid
    then _ else _) _ (m.withSlot ip { m.slot ip with lock := some p })
  rw [hslot₂, if_pos hvalid]
  refine .bind (runs_attrs ?_)
  have hlink' : ¬ ((m.withSlot ip { m.slot ip with lock := some p }).copy ip).nlink = 0 := hlink
  dsimp only
  rw [if_neg hlink']
  refine .pure (.bind (runs_releasesleep (runs_unref ?_)))
  simp only [Machine.withSlot_withSlot, Machine.slot_withSlot_self, href, Int.sub_self, hvalid]
  exact hQ _ (changed_withSlot m ip _)

/-- The loops over a directory stop at the first entry they look for, and what is behind it need
not be there. -/
theorem runs_scan {msg : String} {q : Dirent → Bool} {Q : Option (Nat × Dirent) → Machine → Prop}
    (hdir : (m.copy dp).type ≠ tDev) {j₀ : Nat}
    (hj₀ : j₀ < entryCount (content m.store.disk (m.copy dp)))
    (hsize : (m.copy dp).size.toNat ≤ maxFile * bsize)
    (hh : ∀ bn, bn * bsize < direntSize * (j₀ + 1) → blk m.store.disk (m.copy dp) bn ≠ 0)
    (hbefore : ∀ j, j < j₀ → q (entryAt (content m.store.disk (m.copy dp)) j) = false)
    (hq : q (entryAt (content m.store.disk (m.copy dp)) j₀) = true)
    (hQ : Q (some (j₀, entryAt (content m.store.disk (m.copy dp)) j₀)) m)
    (n j : Nat) (hj : j ≤ j₀) (hn : j₀ < n + j) : Runs sb p (scan dp msg q n j) Q m := by
  have hlen := lt_entryCount.mp hj₀
  rw [length_content] at hlen
  have hmax : (m.copy dp).size.toNat < 2 ^ 31 := lt_of_le_of_lt hsize (by decide)
  induction n generalizing j with
  | zero => omega
  | succ n ih =>
    have hoff : (UInt32.ofNat (direntSize * j)).toNat = direntSize * j := by
      refine UInt32.toNat_ofNat_of_lt' ?_
      simp only [direntSize, UInt32.size] at hlen ⊢
      omega
    have hread : readResult (content m.store.disk (m.copy dp)) (UInt32.ofNat (direntSize * j))
        (UInt32.ofNat direntSize) =
        some (((content m.store.disk (m.copy dp)).drop (direntSize * j)).take direntSize) := by
      have hsum : ¬ UInt32.ofNat (direntSize * j) + UInt32.ofNat direntSize <
          UInt32.ofNat (direntSize * j) := by
        rw [UInt32.lt_iff_toNat_lt, UInt32.toNat_add, hoff]
        simp only [direntSize] at hlen ⊢
        change ¬ (16 * j + 16) % 2 ^ 32 < 16 * j
        omega
      have hle : ¬ direntSize * j > (m.copy dp).size.toNat := by
        simp only [direntSize] at hlen ⊢
        omega
      rw [readResult, hoff, length_content, if_neg fun h => h.elim hle hsum]
      rfl
    rw [scan]
    refine .bind (runs_attrs ?_)
    dsimp only
    rw [if_pos (by simp only [direntSize] at hlen ⊢; omega), readDirent]
    refine .bind (.bind (runs_readi hdir (fun bn hbn hbs => ⟨?_, hh bn ?_⟩) ?_))
    · by_contra hge
      have : maxFile * bsize ≤ bn * bsize := Nat.mul_le_mul_right _ (by omega)
      omega
    · rw [hoff] at hbn
      refine lt_of_lt_of_le hbn ?_
      change direntSize * j + direntSize ≤ direntSize * (j₀ + 1)
      simp only [direntSize]
      omega
    · have hfull : (((content m.store.disk (m.copy dp)).drop (direntSize * j)).take
          direntSize).length = direntSize := by
        rw [List.length_take, List.length_drop, length_content]
        simp only [direntSize] at hlen ⊢
        omega
      rw [hread]
      dsimp only
      rw [if_pos hfull]
      change Runs sb p (if q (entryAt (content m.store.disk (m.copy dp)) j) = true then _ else _) Q m
      by_cases hjj : j = j₀
      · subst hjj
        rw [if_pos hq]
        exact hQ
      · rw [hbefore j (by omega), if_neg Bool.false_ne_true]
        exact ih (j + 1) (by omega) (by omega)

variable {name : Name} {root : Dinode}

theorem runs_dirlookup (hcopy : m.copy dp = root) (hdir : root.type = tDir)
    (hsize : root.size.toNat ≤ maxFile * bsize) {j k : Nat}
    (hj : j < entryCount (content m.store.disk root))
    (hh : ∀ bn, bn * bsize < direntSize * (j + 1) → blk m.store.disk root bn ≠ 0)
    (hbefore : ∀ i, i < j → (entryAt (content m.store.disk root) i).inum ≠ 0 →
      namecmp name (entryAt (content m.store.disk root) i).name = false)
    (hname : namecmp name (entryAt (content m.store.disk root) j).name = true)
    (hinum : (entryAt (content m.store.disk root) j).inum ≠ 0)
    (hnone : m.tables.findInode (m.slot dp).dev (entryAt (content m.store.disk root) j).inum = none)
    (hempty : m.tables.findEmpty = some k) {Q : Option (Nat × Nat) → Machine → Prop}
    (hQ : ∀ m', Changed k ⟨(m.slot dp).dev, (entryAt (content m.store.disk root) j).inum, 1, false,
      (m.slot k).lock, (m.slot k).flock⟩ m m' → Q (some (k, j)) m') : Runs sb p (dirlookup dp name) Q m := by
  subst hcopy
  have hdev : (m.copy dp).type ≠ tDev := by
    rw [hdir]
    decide
  have hlen := lt_entryCount.mp hj
  rw [length_content] at hlen
  rw [dirlookup]
  refine .bind (runs_attrs ?_)
  dsimp only
  rw [if_neg (not_not.mpr hdir)]
  refine .bind (runs_scan hdev hj hsize hh (fun i hi => ?_) ?_ ?_ _ 0 (Nat.zero_le j) ?_)
  · by_cases h0 : (entryAt (content m.store.disk (m.copy dp)) i).inum = 0
    · simp [h0]
    · simp [hbefore i hi h0]
  · simp [hname, hinum]
  · exact .bind (runs_table rfl (.bind (runs_iget hnone hempty fun m' h' => .pure (hQ m' h'))))
  · simp only [direntSize] at hlen
    omega

theorem elems_slash (h0 : name ≠ []) (hslash : slash ∉ name) :
    elems (slash :: name) = [name.take dirSiz] := by
  obtain ⟨a, rest, rfl⟩ := List.exists_cons_of_ne_nil h0
  have hall : ∀ x ∈ a :: rest, decide (x ≠ slash) = true := fun x hx =>
    decide_eq_true fun e => hslash (e ▸ hx)
  have ha : a ≠ slash := fun e => hslash (e ▸ List.mem_cons_self)
  have hdrop : (slash :: a :: rest).dropWhile (· = slash) = a :: rest := by
    simp [List.dropWhile, ha]
  have hskip : skipelem (slash :: a :: rest) = some ((a :: rest).take dirSiz, []) := by
    rw [skipelem, hdrop, if_neg (List.cons_ne_nil _ _), List.takeWhile_eq_self_iff.mpr hall,
      List.dropWhile_eq_nil_iff.mpr hall]
    rfl
  simp only [elems, List.length_cons, elemsUpTo, hskip]
  rfl

/-- Look up a file and read it: its type, its size and its bytes. -/
def readFile (path : List UInt8) : Prog (Option (Int16 × UInt32 × Option (List UInt8))) := do
  let ip ← namei path
  match ip with
  | none => return none
  | some ip =>
    ilock ip
    let a ← attrs ip
    let bs ← readData ip 0 a.size
    return some (a.type, a.size, bs)

theorem readResult_whole (disk : Disk) (d : Dinode) :
    readResult (content disk d) 0 d.size = some (content disk d) := by
  have hcond : ¬ ((0 : UInt32).toNat > (content disk d).length ∨ (0 : UInt32) + d.size < 0) := by
    rintro (h | h)
    · exact absurd h (Nat.not_lt_zero _)
    · rw [UInt32.lt_iff_toNat_lt] at h
      exact absurd h (Nat.not_lt_zero _)
  rw [readResult, if_neg hcond, UInt32.toNat_zero, List.drop_zero,
    List.take_of_length_le (Nat.le_of_eq (length_content disk d))]

theorem runs_readWhole {d : Dinode} (hcopy : m.copy ip = d) (hdev : d.type ≠ tDev)
    (hfile : HoleFree m.store.disk d) : Runs sb p (do
      let a ← attrs ip
      let bs ← readData ip 0 a.size
      return some (a.type, a.size, bs))
      (fun r _ => r = some (d.type, d.size, some (content m.store.disk d))) m := by
  subst hcopy
  refine .bind (runs_attrs (.bind (runs_readi hdev (fun bn _ hbn => hfile bn hbn) (.pure ?_))))
  rw [readResult_whole]

def Machine.Empty (m : Machine) : Prop := ∀ k, (m.slot k).ref = 0 ∧ (m.slot k).lock = none

theorem Machine.Empty.findInode (h : m.Empty) (dev inum : Nat) :
    m.tables.findInode dev inum = none := by
  refine findFrom_eq_none.mpr fun k _ _ => ?_
  have href : (m.tables.icache k).ref = 0 := (h k).1
  simp [href]

theorem Machine.Empty.findEmpty (h : m.Empty) : m.tables.findEmpty = some 0 := by
  refine findFrom_eq_some.mpr ⟨?_, Nat.le_refl _, by decide, fun j _ hj => by omega⟩
  exact decide_eq_true (h 0).1

/-- The kernel with an empty cache finds a file that an entry of the root directory names, and
reads it. -/
theorem runs_readFile (hm : m.Empty) (h0 : name ≠ []) (hslash : slash ∉ name)
    {d : Dinode} (hroot : dinode sb m.store.disk rootIno = root) (hdir : root.type = tDir)
    (hlink : root.nlink ≠ 0) (hsize : root.size.toNat ≤ maxFile * bsize) {j : Nat}
    (hj : j < entryCount (content m.store.disk root))
    (hh : ∀ bn, bn * bsize < direntSize * (j + 1) → blk m.store.disk root bn ≠ 0)
    (hbefore : ∀ i, i < j → (entryAt (content m.store.disk root) i).inum ≠ 0 →
      namecmp (name.take dirSiz) (entryAt (content m.store.disk root) i).name = false)
    (hname : namecmp (name.take dirSiz) (entryAt (content m.store.disk root) j).name = true)
    (hinum : (entryAt (content m.store.disk root) j).inum ≠ 0)
    (hother : (entryAt (content m.store.disk root) j).inum ≠ rootIno)
    (hd : dinode sb m.store.disk (entryAt (content m.store.disk root) j).inum = d)
    (htype : d.type ≠ 0) (hdev : d.type ≠ tDev) (hfile : HoleFree m.store.disk d) :
    Runs sb p (readFile (slash :: name))
      (fun r _ => r = some (d.type, d.size, some (content m.store.disk d))) m := by
  have hhead : (slash :: name).head? = some slash := rfl
  rw [readFile, namei, namex, if_pos hhead, elems_slash h0 hslash]
  refine .bind (.bind (.bind (runs_iget (hm.findInode _ _) hm.findEmpty fun m₁ h₁ => ?_)))
  rw [(hm 0).2] at h₁
  -- the root directory is in slot 0
  rw [namexLoop]
  refine .bind (runs_ilock (by rw [h₁.slot]) (by rw [h₁.slot]) (by rw [h₁.slot]) ?_ fun m₂ h₂ hcopy => ?_)
  · rw [h₁.slot, h₁.store, hroot, hdir]
    decide
  rw [h₁.slot, h₁.store, hroot] at hcopy
  rw [h₁.slot] at h₂
  have hstore₂ : m₂.store = m.store := h₂.store.trans h₁.store
  have hrest₂ : ∀ k, k ≠ 0 → (m₂.slot k).ref = 0 ∧ (m₂.slot k).lock = none := by
    intro k hk
    rw [h₂.others k hk, h₁.others k hk]
    exact hm k
  refine .bind (runs_attrs ?_)
  have hdir₂ : ¬ (m₂.copy 0).type ≠ tDir := by
    rw [hcopy]
    exact not_not.mpr hdir
  dsimp only
  rw [if_neg hdir₂, if_neg (by simp)]
  rw [← hstore₂] at hj hh hbefore hname hinum hother hd hfile ⊢
  have hnone : m₂.tables.findInode (m₂.slot 0).dev
      (entryAt (content m₂.store.disk root) j).inum = none := by
    refine findFrom_eq_none.mpr fun k _ _ => ?_
    by_cases hk : k = 0
    · subst hk
      have hin : (m₂.tables.icache 0).inum = rootIno := congrArg Slot.inum h₂.slot
      rw [hin, decide_eq_false (Ne.symm hother), Bool.and_false]
    · have href : (m₂.tables.icache k).ref = 0 := (hrest₂ k hk).1
      simp [href]
  have hempty : m₂.tables.findEmpty = some 1 := by
    refine findFrom_eq_some.mpr ⟨decide_eq_true (hrest₂ 1 one_ne_zero).1, by omega, by decide, ?_⟩
    intro l _ hl
    have hl0 : l = 0 := by omega
    have href : (m₂.tables.icache 0).ref = 1 := congrArg Slot.ref h₂.slot
    simp [hl0, href]
  refine .bind (runs_dirlookup hcopy hdir hsize hj hh hbefore hname hinum hnone hempty fun m₃ h₃ => ?_)
  rw [(hrest₂ 1 one_ne_zero).2] at h₃
  -- the file is in slot 1, and the root directory is given back
  have hslot₃ := h₃.others 0 (by decide)
  refine .bind (runs_iunlockput (by rw [hslot₃, h₂.slot]) (by rw [hslot₃, h₂.slot])
    (by rw [hslot₃, h₂.slot]) ?_ fun m₄ h₄ => ?_)
  · rw [h₃.copies 0 (by decide), hcopy]
    exact hlink
  have hslot₄ := (h₄.others 1 (by decide)).trans h₃.slot
  have hstore₄ : m₄.store = m₂.store := h₄.store.trans h₃.store
  refine .pure (.pure (.bind (runs_ilock (by rw [hslot₄]) (by rw [hslot₄]) (by rw [hslot₄]) ?_
    fun m₅ h₅ hcopy₅ => ?_)))
  · rw [hslot₄, hstore₄, hd]
    exact htype
  rw [hslot₄, hstore₄, hd] at hcopy₅
  have hstore₅ : m₅.store = m₂.store := h₅.store.trans hstore₄
  rw [← hstore₅] at hfile ⊢
  exact runs_readWhole hcopy₅ hdev hfile

/-- The kernel reads the root directory as it reads a file. -/
theorem runs_readRoot (hm : m.Empty)
    (hroot : dinode sb m.store.disk rootIno = root) (htype : root.type ≠ 0)
    (hdev : root.type ≠ tDev) (hfile : HoleFree m.store.disk root) :
    Runs sb p (readFile [slash])
      (fun r _ => r = some (root.type, root.size, some (content m.store.disk root))) m := by
  have hhead : [slash].head? = some slash := rfl
  rw [readFile, namei, namex, if_pos hhead]
  refine .bind (.bind (.bind (runs_iget (hm.findInode _ _) hm.findEmpty fun m₁ h₁ => ?_)))
  rw [(hm 0).2] at h₁
  refine .pure (.pure (.bind (runs_ilock (by rw [h₁.slot]) (by rw [h₁.slot]) (by rw [h₁.slot]) ?_
    fun m₂ h₂ hcopy => ?_)))
  · rw [h₁.slot, h₁.store, hroot]
    exact htype
  rw [h₁.slot, h₁.store, hroot] at hcopy
  have hstore : m₂.store = m.store := h₂.store.trans h₁.store
  rw [← hstore] at hfile ⊢
  exact runs_readWhole hcopy hdev hfile

end Xv6.Kernel

namespace Xv6.Mkfs

open Fs Kernel Hoare

variable {files : List Input} {s σ : Image}

theorem entryAt_append_left {a : List UInt8} (b : List UInt8) {j : Nat} (hj : j < entryCount a) :
    entryAt (a ++ b) j = entryAt a j := by
  have hlen := lt_entryCount.mp hj
  rw [entryAt, entryAt, List.drop_append_of_le_length (by omega), List.take_append_of_le_length]
  rw [List.length_drop]
  omega

theorem entryAt_direntOf (name : Name) (inum : Nat) :
    entryAt (direntOf name inum) 0 = ⟨inum % 2 ^ 16, strncpy name⟩ := by
  rw [entryAt, Nat.mul_zero, List.drop_zero,
    List.take_of_length_le (Nat.le_of_eq (length_direntOf name inum)), direntOf, ofBytes_direntBytes]

theorem entryAt_append_right {a : List UInt8} (b : List UInt8) {k : Nat}
    (ha : a.length = direntSize * k) (j : Nat) : entryAt (a ++ b) (k + j) = entryAt b j := by
  rw [entryAt, entryAt, Nat.mul_add, ← ha, List.drop_length_add_append]

theorem entryCount_rootData (files : List Input) : entryCount (rootData files) = files.length + 2 := by
  rw [entryCount, length_rootData]
  simp

/-- The entries of the root directory: the two for itself, and one for each file. -/
theorem entryAt_rootData (files : List Input) :
    entryAt (rootData files) 0 = ⟨rootIno, strncpy dot⟩ ∧
      entryAt (rootData files) 1 = ⟨rootIno, strncpy dotdot⟩ ∧
      ∀ i f, files[i]? = some f → entryAt (rootData files) (i + 2) = ⟨(i + 2) % 2 ^ 16, strncpy f.base⟩ := by
  induction files using List.reverseRecOn with
  | nil => exact ⟨by decide, by decide, fun i f hf => by simp at hf⟩
  | append_singleton files f ih =>
    obtain ⟨h0, h1, hfile⟩ := ih
    rw [rootData_concat]
    refine ⟨?_, ?_, fun i f' hf => ?_⟩
    · rw [entryAt_append_left _ (by rw [entryCount_rootData]; omega), h0]
    · rw [entryAt_append_left _ (by rw [entryCount_rootData]; omega), h1]
    · by_cases hi : i < files.length
      · rw [List.getElem?_append_left hi] at hf
        rw [entryAt_append_left _ (by rw [entryCount_rootData]; omega), hfile i f' hf]
      · have hlt := (List.getElem?_eq_some_iff.mp hf).1
        rw [List.length_append, List.length_singleton] at hlt
        have hin : i = files.length := by omega
        subst hin
        rw [List.getElem?_concat_length, Option.some.injEq] at hf
        have hright := entryAt_append_right (direntOf f.base (files.length + 2))
          (length_rootData files) 0
        rw [Nat.add_zero] at hright
        rw [hright, entryAt_direntOf, hf]

/-- What is in the root directory of the image before the part added by rounding up. -/
theorem Finished.root_prefix (h : Finished files s σ) (hlen : files.length ≤ 198) :
    ∃ rest, content σ.disk (dinode sb σ.disk rootIno) = rootData files ++ rest := by
  have hin : rootIno < sb.ninodes := by decide
  have ht := h.filled.root_type_ne
  have hsize := h.rootSize hlen
  have hbytes : ∀ o, o < (rootData files).length →
      byteAt σ.disk (dinode sb σ.disk rootIno) o = byteAt s.view (dinode sb s.view rootIno) o := by
    intro o ho
    have hne := (h.filled.built.ok.holes rootIno hin ht (o / bsize) (by
      rw [h.filled.rootSize, ← length_rootData files]
      exact lt_of_le_of_lt (Nat.div_mul_le_self o bsize) ho)).2
    rw [byteAt, h.blk_root, byteAt]
    exact congrFun (h.untouched hin ht _ hne) _
  refine ⟨(content σ.disk (dinode sb σ.disk rootIno)).drop (rootData files).length, ?_⟩
  have htake : (content σ.disk (dinode sb σ.disk rootIno)).take (rootData files).length =
      rootData files := by
    refine List.ext_getElem ?_ fun o h₁ h₂ => ?_
    · rw [List.length_take, length_content, hsize, length_rootData]
      simp only [direntSize, bsize]
      omega
    · rw [List.getElem_take, getElem_content, hbytes o h₂]
      have hroot := h.filled.root
      have hlt : o < (content s.view (dinode sb s.view rootIno)).length := by rwa [hroot]
      rw [← getElem_content hlt]
      exact getElem_congr_coll hroot
  conv_lhs => rw [← List.take_append_drop (rootData files).length
    (content σ.disk (dinode sb σ.disk rootIno)), htake]

theorem Finished.entryAt_root (h : Finished files s σ) (hlen : files.length ≤ 198) {j : Nat}
    (hj : j < files.length + 2) :
    entryAt (content σ.disk (dinode sb σ.disk rootIno)) j = entryAt (rootData files) j := by
  obtain ⟨rest, hrest⟩ := h.root_prefix hlen
  rw [hrest, entryAt_append_left _ (by rwa [entryCount_rootData])]

theorem readsb_of_mkfs (hσ : mkfs files = .ok σ) (hlen : files.length ≤ 198) :
    readsb σ.disk = sb := by
  obtain ⟨s, h⟩ := finished_of_ok hσ hlen
  have hone : σ.disk 1 = superBytes := by
    rw [h.disk, ← h.filled.built.super]
    rfl
  rw [readsb, hone]
  decide

theorem cut_of_noNul {name : Name} (h : 0 ∉ name) : cut name = name.take dirSiz := by
  rw [cut, cutAt, List.takeWhile_eq_self_iff]
  intro x hx
  exact decide_eq_true fun e => h (e ▸ List.mem_of_mem_take hx)

theorem Input.noNul_base (f : Input) : 0 ∉ f.base := by
  rw [Input.base]
  split
  · exact fun h => f.noNul (List.mem_of_mem_tail h)
  · exact f.noNul

theorem cut_take (name : Name) : cut (name.take dirSiz) = cut name := by
  rw [cut, cutAt, List.take_take, Nat.min_self, cut, cutAt]

/-- The name of a file in the image: without a leading `'_'`, and cut to `DIRSIZ` bytes. -/
def Input.cutName (f : Input) : Name := f.base.take dirSiz

theorem cut_base (f : Input) : cut f.base = f.cutName := cut_of_noNul f.noNul_base

theorem namecmp_before {f : Input} {i k : Nat} {name : Name} (hi : files[i]? = some f)
    (hdistinct : (files.map Input.cutName).Nodup) (hplain : f.cutName ∉ [[], dot, dotdot])
    (hcut : cut name = f.cutName) (hk : k < i + 2) :
    namecmp name (entryAt (rootData files) k).name = false := by
  obtain ⟨hdot, hdotdot, hentry⟩ := entryAt_rootData files
  have hilt := (List.getElem?_eq_some_iff.mp hi).1
  have hcmp : ∀ x : Name, cut x ≠ f.cutName → namecmp name (strncpy x) = false := by
    intro x hx
    rw [← Bool.not_eq_true, namecmp_iff, hcut, cut_strncpy]
    exact Ne.symm hx
  rcases k with _ | _ | k
  · rw [hdot]
    exact hcmp dot fun e => hplain (by simp [← e]; decide)
  · rw [hdotdot]
    exact hcmp dotdot fun e => hplain (by simp [← e]; decide)
  · have hklt : k < files.length := by omega
    rw [hentry k _ (List.getElem?_eq_getElem hklt)]
    refine hcmp _ fun e => ?_
    rw [cut_base] at e
    -- two files with one name
    have hsame : (files.map Input.cutName)[k]? = (files.map Input.cutName)[i]? := by
      rw [List.getElem?_map, List.getElem?_map, List.getElem?_eq_getElem hklt, hi, Option.map_some,
        Option.map_some, e]
    have := (List.getElem?_inj (by rwa [List.length_map]) hdistinct).mp hsame
    omega

/-- **The kernel finds every file that `mkfs` has put into the image, with its bytes.** -/
theorem readFile_of_mkfs (hσ : mkfs files = .ok σ) (hlen : files.length ≤ 198)
    (hdistinct : (files.map Input.cutName).Nodup)
    (hplain : ∀ f ∈ files, f.cutName ∉ [[], dot, dotdot]) {f : Input} (hf : f ∈ files)
    {name : Name} (hslash : slash ∉ name) (hname : name.take dirSiz = f.cutName) (p : Nat)
    {m : Machine} (hm : m.Empty) (hdisk : m.store.disk = σ.disk) :
    ∃ size m', size.toNat = f.bytes.length ∧
      Program.exec (Machine.handler (readsb σ.disk) p) (readFile (slash :: name)) m =
        .ok (some (tFile, size, some f.bytes), m') := by
  obtain ⟨i, hi⟩ := List.mem_iff_getElem?.mp hf
  have hilt := (List.getElem?_eq_some_iff.mp hi).1
  obtain ⟨s, h⟩ := finished_of_ok hσ hlen
  have hinum : i + 2 < sb.ninodes := by
    change i + 2 < 200
    omega
  have hmod : (i + 2) % 2 ^ 16 = i + 2 := Nat.mod_eq_of_lt (by omega)
  -- the file
  have htype₀ := h.filled.type i hilt hinum
  have hd : dinode sb σ.disk (i + 2) = dinode sb s.view (i + 2) := h.dinode_of_ne (by simp)
  have hholes := h.filled.built.ok.holes (i + 2) hinum (by rw [htype₀]; decide)
  have hu := h.untouched hinum (by rw [htype₀]; decide)
  have hcontent : content σ.disk (dinode sb s.view (i + 2)) = f.bytes := by
    rw [hu.content_eq hholes, h.filled.file i f hi hinum]
  -- its entry
  have hat : entryAt (content σ.disk (dinode sb σ.disk rootIno)) (i + 2) =
      ⟨i + 2, strncpy f.base⟩ := by
    rw [h.entryAt_root hlen (by omega), (entryAt_rootData files).2.2 i f hi, hmod]
  have hcut : cut (name.take dirSiz) = f.cutName := by
    rw [hname, Input.cutName, cut_take, cut_base, Input.cutName]
  have hplain' := hplain f hf
  have hne : name ≠ [] := by
    rintro rfl
    exact hplain' (by rw [← hname]; exact List.mem_cons_self)
  have hsize := h.rootSize hlen
  have hlinks : (dinode sb σ.disk rootIno).nlink ≠ 0 := by
    rw [h.dinode_root]
    change (dinode sb s.view rootIno).nlink ≠ 0
    rw [h.filled.rootLinks]
    decide
  have hcount : i + 2 < entryCount (content σ.disk (dinode sb σ.disk rootIno)) := by
    rw [lt_entryCount, length_content, hsize]
    simp only [direntSize, bsize]
    omega
  have hblk : ∀ bn, bn * bsize < direntSize * (i + 2 + 1) →
      blk σ.disk (dinode sb σ.disk rootIno) bn ≠ 0 := by
    intro bn hbn
    rw [h.blk_root]
    refine (h.filled.built.ok.holes rootIno (by decide) h.filled.root_type_ne bn ?_).2
    rw [h.filled.rootSize]
    refine hbn.trans_le ?_
    simp only [direntSize]
    omega
  have hbefore : ∀ k, k < i + 2 →
      namecmp (name.take dirSiz) (entryAt (content σ.disk (dinode sb σ.disk rootIno)) k).name =
        false := by
    intro k hk
    rw [h.entryAt_root hlen (by omega)]
    exact namecmp_before hi hdistinct hplain' hcut hk
  have hroot : dinode sb m.store.disk rootIno = dinode sb σ.disk rootIno := by rw [hdisk]
  have hruns := runs_readFile (p := p) (d := dinode sb s.view (i + 2)) (j := i + 2) hm hne hslash hroot
    h.root_type hlinks
  rw [hdisk, hat] at hruns
  have hruns := hruns (by rw [hsize]; simp only [direntSize, maxFile, ndirect, nindirect, bsize]; omega)
    hcount hblk (fun k hk _ => hbefore k hk) ((namecmp_iff _ _).mpr (by rw [hcut, cut_strncpy, cut_base]))
    (by simp) (by simp) hd (by rw [htype₀]; decide) (by rw [htype₀]; decide) (hu.holeFree hholes)
  obtain ⟨_, m', hexec, rfl⟩ := hruns.returns
  rw [readsb_of_mkfs hσ hlen]
  refine ⟨(dinode sb s.view (i + 2)).size, m', ?_, ?_⟩
  · rw [← hcontent, length_content]
  · rw [hexec, htype₀, hcontent]

def freshMachine (disk : Disk) : Machine where
  tables := ⟨fun _ => ⟨0, 0, 0, false, none, none⟩, fun _ => ⟨.none, 0, false, false, 0, none, 0⟩,
    fun _ => none, fun _ => ⟨.unused, 0, none, false, fun _ => none, none, false⟩, 1⟩
  store := ⟨disk, 0, [], []⟩
  copy := fun _ => Dinode.zero

theorem empty_freshMachine (disk : Disk) : (freshMachine disk).Empty := fun _ => ⟨rfl, rfl⟩

/-- The image of one empty file. -/
theorem readFile_of_mkfs_one : ∃ σ, mkfs (List.replicate 1 emptyInput) = .ok σ ∧
    ∃ size m', size.toNat = 0 ∧
      Program.exec (Machine.handler (readsb σ.disk) 0) (readFile [slash, 97]) (freshMachine σ.disk) =
        .ok (some (tFile, size, some []), m') := by
  obtain ⟨s, σ, hσ, -⟩ := mkfs_replicate (n := 1) (by decide)
  have hslash : slash ∉ ([97] : Name) := by decide
  have hread := readFile_of_mkfs hσ (by decide) (by decide) (by decide) (f := emptyInput)
    List.mem_cons_self hslash (by decide) 0 (empty_freshMachine _) rfl
  exact ⟨σ, hσ, hread⟩

/-- An empty file with the name `_`. -/
def underscoreInput : Input := ⟨[underscore], [], by decide, List.forall_mem_nil _⟩

/-- The file with the name `_` has an entry with an empty name, and its path is that of the root
directory. -/
theorem readFile_underscore : ∃ σ, mkfs [underscoreInput] = .ok σ ∧
    ∃ size bs m', Program.exec (Machine.handler (readsb σ.disk) 0)
      (readFile (slash :: underscoreInput.base)) (freshMachine σ.disk) =
        .ok (some (tDir, size, bs), m') := by
  have hlen : [underscoreInput].length ≤ 206 := by decide
  obtain ⟨s, σ, hσ, h⟩ := mkfs_empty hlen (by decide)
  have hroot : dinode sb (freshMachine σ.disk).store.disk rootIno = dinode sb σ.disk rootIno := rfl
  have hruns := runs_readRoot (p := 0) (empty_freshMachine σ.disk) hroot
    (by rw [h.root_type]; decide)
    (by rw [h.root_type]; decide) ((h.root_holeFree_iff (by decide)).mpr (by decide))
  obtain ⟨_, m', hexec, rfl⟩ := hruns.returns
  rw [h.root_type] at hexec
  rw [← readsb_of_mkfs hσ (by decide)] at hexec
  exact ⟨σ, hσ, _, _, m', hexec⟩

end Xv6.Mkfs
