import Xv6.Vm.Map

/-!
# `mappages` on the flat map

`mappages` adds the pages of a range to the map from page addresses to frames and flags. It leaves
its loop at the last page, also where that is the last one there is.
-/

namespace Xv6.Vm

open Hoare

variable {P : Multiset Nat} {s : Phys} {d perm n a pa last fuel : Nat}

/-- The loop of `mappages` with its own test. -/
def mapFor (pgdir perm last : Nat) : (fuel a pa : Nat) → PhysM Bool
  | 0, _, _ => stop .loops
  | fuel + 1, a, pa => do
    if ← mapPage pgdir a pa perm then
      if a = last then return true
      else mapFor pgdir perm last fuel ((a + pgSize) % 2 ^ 32) ((pa + pgSize) % 2 ^ 32)
    else return false

def mappagesFor (fuel pgdir va size pa perm : Nat) : PhysM Bool :=
  mapFor pgdir perm (pgRoundDown ((va + size + (2 ^ 32 - 1)) % 2 ^ 32)) fuel (pgRoundDown va) pa

theorem mapFor_eq_mapLoop (hfuel : n < fuel) (hlast : a + n * pgSize = last)
    (htop : last < 2 ^ 32) : mapFor d perm last fuel a pa = mapLoop d perm n a pa := by
  induction n generalizing fuel a pa with
  | zero =>
    obtain ⟨fuel, rfl⟩ := Nat.exists_eq_add_one_of_ne_zero (Nat.ne_zero_of_lt hfuel)
    rw [mapFor, mapLoop]
    simp only [show a = last by omega, if_true]
    refine (bind_congr fun ok => ?_).trans (bind_pure _)
    cases ok <;> rfl
  | succ n ih =>
    obtain ⟨fuel, rfl⟩ := Nat.exists_eq_add_one_of_ne_zero (Nat.ne_zero_of_lt hfuel)
    simp only [pgSize] at hlast
    have hnext : (a + pgSize) % 2 ^ 32 = a + pgSize := by
      simp only [pgSize]
      omega
    rw [mapFor, mapLoop, hnext]
    simp only [show a ≠ last by omega, if_false]
    rw [ih (by omega) (by simp only [pgSize]; omega)]

/-- The frame and the flags of page address `a`. -/
def flat (mem : Nat → Bytes) (d a : Nat) : Option (Nat × Nat) :=
  (lookup mem d (a / pgSize)).map fun pte => (pteAddr pte * pgSize, pteFlags pte)

/-- **`mappages` adds the pages of the range to the map**, or those before the page for which a
page table is missing and `kalloc` fails. -/
theorem mappages_flat (d va size pa perm : Nat) (h : Formed P s d (lookup s.mem d))
    (hva : va % pgSize = 0) (hpa : pa % pgSize = 0) (hlt : pa < 2 ^ 32) (hperm : perm < 4096)
    (hpos : 1 ≤ size) (htop : va + size - 1 < 2 ^ 32)
    (hfree : ∀ a, a % pgSize = 0 → va ≤ a → a ≤ va + size - 1 → flat s.mem d a = none) :
    ∃ ok s' k, mappages d va size pa perm s = .ok (ok, s') ∧
      (∀ fuel, 2 ^ 20 ≤ fuel → mappagesFor fuel d va size pa perm s = .ok (ok, s')) ∧
      (if ok then k = (size - 1) / pgSize + 1 else k ≤ (size - 1) / pgSize) ∧
      Formed P s' d (lookup s'.mem d) ∧
      ∀ a, a < 2 ^ 32 → a % pgSize = 0 → flat s'.mem d a =
        if va ≤ a ∧ a < va + k * pgSize then some ((pa + (a - va)) % 2 ^ 32, perm ||| 1)
        else flat s.mem d a := by
  obtain ⟨v, rfl⟩ : ∃ v, va = v * pgSize :=
    ⟨_, (Nat.div_mul_cancel (Nat.dvd_of_mod_eq_zero hva)).symm⟩
  obtain ⟨q, rfl⟩ : ∃ q, pa = q * pgSize :=
    ⟨_, (Nat.div_mul_cancel (Nat.dvd_of_mod_eq_zero hpa)).symm⟩
  obtain ⟨n, hn⟩ : ∃ n, (size - 1) / pgSize = n := ⟨_, rfl⟩
  have hvn : v + n < 2 ^ 20 := by
    simp only [pgSize] at *
    omega
  have hq : q < 2 ^ 20 := by
    simp only [pgSize] at hlt
    omega
  have hm : ∀ j, j ≤ n → lookup s.mem d (v + j) = none := fun j hj => by
    have hnone := hfree ((v + j) * pgSize) (Nat.mul_mod_left ..)
    simp only [flat, Option.map_eq_none_iff, Nat.mul_div_cancel _ (show 0 < pgSize by decide)]
      at hnone
    simp only [pgSize] at *
    exact hnone (by omega) (by omega)
  have heq := mappages_eq d perm n (q * pgSize) hpos hn hvn
  obtain ⟨ok, s', hrun, -, -, k, h', hk⟩ := (h.wp_mapLoop hperm hvn hq hm).returns
  rw [hn]
  refine ⟨ok, s', k, by rw [heq, hrun], fun fuel hfuel => ?_, ?_, ?_, fun a ha hmod => ?_⟩
  · have hdown : pgRoundDown (v * pgSize) = v * pgSize := by
      simp only [pgRoundDown, pgSize]
      omega
    have hlast : v * pgSize + n * pgSize =
        pgRoundDown ((v * pgSize + size + (2 ^ 32 - 1)) % 2 ^ 32) := by
      simp only [pgRoundDown, pgSize] at hn htop ⊢
      omega
    rw [mappagesFor, hdown, mapFor_eq_mapLoop (by omega) hlast, hrun]
    rw [← hlast]
    simp only [pgSize]
    omega
  · cases ok with
    | true => exact hk
    | false => exact hk.1
  · exact ⟨fun _ _ => rfl, h'.pages, h'.nodup, h'.le_kernBase⟩
  · rw [flat, h'.map _ (by simp only [pgSize]; omega), fill, apply_ite (Option.map _)]
    refine if_ctx_congr ?_ (fun hin => ?_) fun _ => rfl
    · simp only [pgSize] at hmod ⊢
      omega
    · rw [Option.map_some, pteAddr_mkPte hperm, pteFlags_mkPte hperm]
      simp only [pgSize] at hmod ⊢
      congr 2
      omega

def blankDir : Phys := ⟨fun _ => zeros, [3, 4], 0, fun _ => false⟩

/-- The last two pages there are, with frames that go round the address space. -/
theorem mappages_flat_top : ∃ ok s' k,
    mappages 2 0xFFFFE000 4097 0xFFFFF000 permWU blankDir = .ok (ok, s') ∧
      (if ok then k = 2 else k ≤ 1) ∧ flat s'.mem 2 0xFFFFF000 =
        if 0xFFFFF000 < 0xFFFFE000 + k * pgSize then some (0, 7) else none := by
  have hnone : ∀ v, lookup blankDir.mem 2 v = none := fun v =>
    lookup_of_not_table (by rw [HasTable, word_of_zeros rfl]; decide)
  have h : Formed {3, 4, 2} blankDir 2 (lookup blankDir.mem 2) :=
    ⟨fun _ _ => rfl, by rw [tables_of_zeros rfl]; rfl, by decide, by decide⟩
  obtain ⟨ok, s', k, hrun, -, hk, -, hflat⟩ := mappages_flat 2 0xFFFFE000 4097 0xFFFFF000
    permWU h (by decide) (by decide) (by decide) (by decide) (by decide) (by decide)
    fun a _ _ _ => by rw [flat, hnone]; rfl
  refine ⟨ok, s', k, hrun, hk, (hflat 0xFFFFF000 (by decide) (by decide)).trans ?_⟩
  rw [flat, hnone]
  exact if_congr (and_iff_right (by decide)) rfl rfl

end Xv6.Vm
