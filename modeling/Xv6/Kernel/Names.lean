import Mathlib.Data.List.TakeWhile
import Xv6.Fs.Layout

/-!
# Names and paths

The functions of `fs.c` and `string.c` on names and paths. A string is the list of its bytes before
the NUL; the `name` field of a directory entry is padded with NULs to `DIRSIZ` bytes.
-/

namespace Xv6.Kernel

open Fs

abbrev Name := List UInt8

def slash : UInt8 := 47

def dot : Name := [46]

def dotdot : Name := [46, 46]

def strncmp : (n : Nat) → Name → Name → Bool
  | 0, _, _ => true
  | n + 1, s, t =>
    if s.headD 0 ≠ 0 ∧ s.headD 0 = t.headD 0 then strncmp n s.tail t.tail
    else s.headD 0 = t.headD 0

def namecmp (s t : Name) : Bool := strncmp dirSiz s t

def strncpy (t : Name) : Name :=
  let c := (t.take dirSiz).takeWhile (· ≠ 0)
  c ++ List.replicate (dirSiz - c.length) 0

def cutAt (n : Nat) (s : Name) : Name := (s.take n).takeWhile (· ≠ 0)

def cut (s : Name) : Name := cutAt dirSiz s

/-- Copy the next path element from path. The result is the element and the rest of the path
without leading slashes. -/
def skipelem (path : List UInt8) : Option (Name × List UInt8) :=
  let path := path.dropWhile (· = slash)
  if path = [] then none
  else some ((path.takeWhile (· ≠ slash)).take dirSiz,
    (path.dropWhile (· ≠ slash)).dropWhile (· = slash))

def elemsUpTo : (n : Nat) → List UInt8 → List Name
  | 0, _ => []
  | n + 1, path =>
    match skipelem path with
    | none => []
    | some (name, rest) => name :: elemsUpTo n rest

/-- The elements of a path. Every one takes at least a byte. -/
def elems (path : List UInt8) : List Name := elemsUpTo path.length path

theorem strncmp_iff (n : Nat) (s t : Name) : strncmp n s t = true ↔ cutAt n s = cutAt n t := by
  induction n generalizing s t with
  | zero => simp [strncmp, cutAt]
  | succ n ih =>
    rw [strncmp]
    cases s with
    | nil =>
      cases t with
      | nil => simp [cutAt]
      | cons b t =>
        by_cases hb : b = 0
        · simp [cutAt, hb]
        · simp [cutAt, hb, Ne.symm hb]
    | cons a s =>
      by_cases ha : a = 0
      · cases t with
        | nil => simp [cutAt, ha]
        | cons b t =>
          by_cases hb : b = 0
          · simp [cutAt, ha, hb]
          · simp [cutAt, ha, hb, Ne.symm hb]
      · cases t with
        | nil => simp [cutAt, ha]
        | cons b t =>
          by_cases hab : a = b
          · subst hab
            have := ih s t
            simpa [cutAt, ha] using this
          · by_cases hb : b = 0
            · simp [cutAt, ha, hb]
            · simp [cutAt, ha, hb, hab]

theorem namecmp_iff (s t : Name) : namecmp s t = true ↔ cut s = cut t := strncmp_iff dirSiz s t

theorem length_strncpy (t : Name) : (strncpy t).length = dirSiz := by
  have h : ((t.take dirSiz).takeWhile (· ≠ 0)).length ≤ dirSiz :=
    (List.takeWhile_prefix _).length_le.trans (List.length_take_le _ _)
  rw [strncpy, List.length_append, List.length_replicate]
  omega

theorem cut_strncpy (t : Name) : cut (strncpy t) = cut t := by
  have hlen : (strncpy t).length = dirSiz := length_strncpy t
  rw [cut, cutAt, List.take_of_length_le (Nat.le_of_eq hlen), strncpy]
  change (cut t ++ List.replicate _ 0).takeWhile _ = cut t
  have hall : ∀ x ∈ cut t, decide (x ≠ 0) = true := by
    intro x hx
    exact List.mem_takeWhile_imp (p := fun x => decide (x ≠ 0)) hx
  rw [List.takeWhile_append_of_pos hall]
  simp

end Xv6.Kernel
