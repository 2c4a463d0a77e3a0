import Xv6.Log.Defs
import Mathlib.Tactic.Common

/-!
# Recovery of a crashed disk

A disk is `Recoverable` to the contents `D` if the header lists blocks whose log copies hold `D`,
and every other home block already holds `D`. Memory is not mentioned, so this can be required after
every block write.
-/

namespace Xv6.Log

open Bytes
open Function (update update_self update_of_ne)

variable {g : Geom}

theorem get32_zero_putBlocks (hb : Block) (i : Nat) (bs : List Nat) :
    get32 (putBlocks hb i bs) 0 = get32 hb 0 := by
  induction bs generalizing hb i with
  | nil => rfl
  | cons b bs ih =>
    rw [putBlocks, ih]
    exact get32_writeBytes_of_disjoint (by omega)

theorem get32_putBlocks_of_lt (hb : Block) {i j : Nat} (bs : List Nat) (h : j < i) :
    get32 (putBlocks hb i bs) (4 + 4 * j) = get32 hb (4 + 4 * j) := by
  induction bs generalizing hb i with
  | nil => rfl
  | cons b bs ih =>
    rw [putBlocks, ih _ (by omega)]
    exact get32_writeBytes_of_disjoint (by omega)

theorem get32_putBlocks (hb : Block) (i j : Nat) (bs : List Nat) (h : j < bs.length) :
    get32 (putBlocks hb i bs) (4 + 4 * (i + j)) = bs[j] % 2 ^ 32 := by
  induction bs generalizing hb i j with
  | nil => simp at h
  | cons b bs ih =>
    rw [putBlocks]
    cases j with
    | zero =>
      rw [get32_putBlocks_of_lt _ _ (by omega : i + 0 < i + 1)]
      exact get32_put32 hb (4 + 4 * i) b
    | succ j =>
      have := ih (put32 hb (4 + 4 * i) b) (i + 1) j (by simpa using h)
      rw [show i + (j + 1) = i + 1 + j by omega, this]
      rfl

variable {lh : List Nat}

theorem headCount_encodeHead (hb : Block) (hlen : lh.length < 2 ^ 31) :
    headCount (encodeHead hb lh) = lh.length := by
  have hn : get32 (encodeHead hb lh) 0 = lh.length := by
    rw [encodeHead, get32_zero_putBlocks, get32_put32]
    omega
  rw [headCount, hn, if_pos hlen]

theorem decodeHead_encodeHead (hb : Block) (hlen : lh.length < 2 ^ 31)
    (hlt : ∀ b ∈ lh, b < 2 ^ 32) : decodeHead (encodeHead hb lh) = lh := by
  apply List.ext_getElem
  · simp [decodeHead, headCount_encodeHead hb hlen]
  · intro i h₁ h₂
    have hb := get32_putBlocks (put32 hb 0 lh.length) 0 i lh h₂
    rw [Nat.zero_add, Nat.mod_eq_of_lt (hlt _ (List.getElem_mem h₂))] at hb
    simpa [decodeHead, encodeHead] using hb

@[simp] theorem decodeHead_encodeHead_nil (hb : Block) : decodeHead (encodeHead hb []) = [] :=
  decodeHead_encodeHead hb (by decide) (by simp)

theorem applyWrites_append (d : Disk) (ws vs : List Write) :
    applyWrites d (ws ++ vs) = applyWrites (applyWrites d ws) vs :=
  List.foldl_append

theorem applyWrites_concat (d : Disk) (ws : List Write) (w : Write) :
    applyWrites d (ws ++ [w]) = update (applyWrites d ws) w.block w.data :=
  applyWrites_append d ws [w]

variable {d : Disk} {b : Nat}

theorem applyWrites_of_not_mem {ws : List Write}
    (h : ∀ w ∈ ws, w.block ≠ b) : applyWrites d ws b = d b := by
  induction ws generalizing d with
  | nil => rfl
  | cons w ws ih =>
    have hne : b ≠ w.block := fun e => h w List.mem_cons_self e.symm
    calc applyWrites d (w :: ws) b
        = applyWrites (update d w.block w.data) ws b := rfl
      _ = update d w.block w.data b := ih fun v hv => h v (List.mem_cons_of_mem w hv)
      _ = d b := update_of_ne hne _ _

theorem contentsAfter_concat (d : Disk) (txns : List (List Write)) (t : List Write) :
    contentsAfter d (txns ++ [t]) = applyWrites (contentsAfter d txns) t := by
  simp [contentsAfter, applyWrites_append]

/-- The header block itself and the log block of every entry lie in the log area. -/
theorem Geom.inLog_start (h : 0 < g.size) : g.InLog g.start := ⟨le_rfl, by omega⟩

variable {tail : Nat}

theorem Geom.inLog_logBlock (h : tail + 1 < g.size) :
    g.InLog (g.start + tail + 1) := ⟨by omega, by omega⟩

/-- A disk whose log `lh` holds `D` on the listed blocks, and which holds `D` on all other
home blocks. -/
structure Holds (g : Geom) (D d : Disk) (lh : List Nat) : Prop where
  room : lh.length < g.size
  home : ∀ b ∈ lh, ¬ g.InLog b
  logged : ∀ i b, lh[i]? = some b → d (g.start + i + 1) = D b
  rest : ∀ b, ¬ g.InLog b → b ∉ lh → d b = D b

def Recoverable (g : Geom) (D d : Disk) : Prop := Holds g D d (decodeHead (d g.start))

variable {D : Disk}

/-- Copying one entry home keeps everything the log promises. -/
theorem Holds.install (h : Holds g D d lh) (hb : lh[tail]? = some b) :
    Holds g D (update d b (d (g.start + tail + 1))) lh := by
  have hmem : b ∈ lh := List.mem_of_getElem? hb
  have hval : d (g.start + tail + 1) = D b := h.logged tail b hb
  refine ⟨h.room, h.home, ?_, ?_⟩
  · intro i c hc
    have hi : i < lh.length := (List.getElem?_eq_some_iff.mp hc).1
    have hroom := h.room
    have hne : g.start + i + 1 ≠ b := fun e =>
      h.home b hmem (e ▸ Geom.inLog_logBlock (by omega))
    rw [update_of_ne hne]
    exact h.logged i c hc
  · intro c hc hn
    have hne : c ≠ b := fun e => hn (e ▸ hmem)
    rw [update_of_ne hne]
    exact h.rest c hc hn

theorem Holds.install_inLog (h : Holds g D d lh) {c : Nat}
    (hb : lh[tail]? = some b) (hc : g.InLog c) (v : Block) : update d b v c = d c := by
  have hne : c ≠ b := fun e => h.home b (List.mem_of_getElem? hb) (e ▸ hc)
  exact update_of_ne hne _ _

/-- Every home block that is not among the entries still to be copied holds `D`. -/
def Installed (g : Geom) (D d : Disk) (lh : List Nat) (tail : Nat) : Prop :=
  ∀ b, ¬ g.InLog b → b ∉ lh.drop tail → d b = D b

theorem Holds.installed_zero (h : Holds g D d lh) : Installed g D d lh 0 := by
  intro b hb hn
  exact h.rest b hb (by simpa using hn)

theorem Installed.succ (h : Holds g D d lh)
    (hi : Installed g D d lh tail) (hb : lh[tail]? = some b) :
    Installed g D (update d b (d (g.start + tail + 1))) lh (tail + 1) := by
  intro c hc hn
  by_cases hcb : c = b
  · subst hcb
    rw [update_self]
    exact h.logged tail c hb
  · rw [update_of_ne hcb]
    apply hi c hc
    obtain ⟨ht, hbt⟩ := List.getElem?_eq_some_iff.mp hb
    rw [List.drop_eq_getElem_cons ht, List.mem_cons, not_or]
    exact ⟨fun e => hcb (e.trans hbt), hn⟩

/-- `install_trans` from entry `tail` on brings all home blocks up to date. -/
theorem installTrans_spec (tail : Nat) (h : Holds g D d lh)
    (hi : Installed g D d lh tail) (hb : ¬ g.InLog b) :
    installTrans g tail (lh.drop tail) d b = D b := by
  -- induction on the entries that are left
  generalize hn : lh.length - tail = n
  induction n generalizing d tail with
  | zero =>
    have hdrop : lh.drop tail = [] := List.drop_eq_nil_of_le (by omega)
    rw [hdrop]
    exact hi b hb (by simp [hdrop])
  | succ n ih =>
    have ht : tail < lh.length := by omega
    have hbt : lh[tail]? = some lh[tail] := List.getElem?_eq_getElem ht
    rw [List.drop_eq_getElem_cons ht]
    exact ih (tail + 1) (h.install hbt) (hi.succ h hbt) (by omega)

/-- **Recovery restores the home blocks** of a recoverable disk. -/
theorem Recoverable.recover (h : Recoverable g D d)
    (hb : ¬ g.InLog b) : recoverFromLog g d b = D b := by
  have hroom := h.room
  have hne : b ≠ g.start := fun e => hb (e ▸ Geom.inLog_start (by omega))
  have hspec := installTrans_spec 0 h h.installed_zero hb
  rw [List.drop_zero] at hspec
  rw [recoverFromLog, update_of_ne hne, hspec]

end Xv6.Log
