import Xv6.Ide.Defs

namespace Xv6.Ide

open Monitor

variable {ι β : Type}

variable {x : Buf}

theorem regs_sector (h : x.Fits) : (regs x).sector = x.blockno := by
  have hlt : x.blockno < 2000 := h.2.2
  have hand : ∀ n, n &&& 255 = n % 256 := fun n => Nat.and_two_pow_sub_one_eq_mod n 8
  have hhigh : x.blockno >>> 24 = 0 := by
    rw [Nat.shiftRight_eq_div_pow]
    omega
  simp only [Regs.sector, regs, h.2.1, hand, bsize, sectorSize, Nat.reduceDiv, Nat.mul_one, hhigh,
    Nat.shiftRight_eq_div_pow]
  simp
  omega

theorem regs_dev (h : x.Fits) : (regs x).dev = 1 := by
  have hlt : x.blockno < 2000 := h.2.2
  have hhigh : x.blockno >>> 24 = 0 := by
    rw [Nat.shiftRight_eq_div_pow]
    omega
  simp [Regs.dev, regs, h.2.1, hhigh]

theorem regs_writes (x : Buf) : (regs x).writes = x.dirty := by
  cases hx : x.dirty <;> simp [Regs.writes, regs, hx]

variable {c : Controller}

theorem idestart_eq (hx : x.Fits) (hc : c.busy = none) :
    idestart c x = some { c with
      busy := some (regs x)
      port := if x.dirty then x.bytes else c.port
      commands := c.commands ++ [regs x] } := by
  have hblock : ¬ (fsSize ≤ x.blockno ∨ 7 < bsize / sectorSize) := by
    have := hx.2.2
    simp only [bsize, sectorSize]
    omega
  rw [idestart, if_neg hblock, hc]
  rfl

variable {disksize : Nat}

/-- A transfer does to the disk and to the buffer what `iderw` of `memide.c` does. -/
theorem transfer_regs (hsize : fsSize ≤ disksize)
    (hx : x.Fits) (hport : x.dirty = true → c.port = x.bytes) :
    Memide.iderw disksize true (c.image 1) x =
      some ((c.transfer (regs x)).image 1, x.finish (c.transfer (regs x)).port) := by
  obtain ⟨hdone, hdev, hblock⟩ := hx
  have hlt : ¬ disksize ≤ x.blockno := by omega
  have hcount : (regs x).count * sectorSize = bsize := by simp [regs]
  have haddr : (regs x).sector * sectorSize = x.blockno * bsize := by
    rw [regs_sector ⟨hdone, hdev, hblock⟩, sectorSize, bsize]
  simp only [Memide.iderw, hdone, hdev, hlt, Controller.transfer, regs_dev ⟨hdone, hdev, hblock⟩,
    regs_writes, haddr, hcount]
  cases hd : x.dirty with
  | true => simp [hport hd, Buf.finish, hd, hdev]
  | false => simp [Buf.finish, hd, hdev]

theorem transfer_image (hx : x.Fits) {n : Nat} (hn : n ≠ 1) :
    (c.transfer (regs x)).image n = c.image n := by
  simp only [Controller.transfer, regs_dev hx]
  split
  · exact Function.update_of_ne hn _ _
  · rfl

theorem Memide.run_snoc {m₀ m m' : Image} {xs ys : List (β × Buf)} {b : β}
    {y : Buf} (h : Memide.run disksize m₀ xs = some (m, ys))
    (hb : Memide.iderw disksize true m x = some (m', y)) :
    Memide.run disksize m₀ (xs ++ [(b, x)]) = some (m', ys ++ [(b, y)]) := by
  induction xs generalizing m₀ ys with
  | nil =>
    cases h
    simp [Memide.run, hb]
  | cons e xs ih =>
    obtain ⟨a, z⟩ := e
    simp only [Memide.run, Option.bind_eq_bind, Option.bind_eq_some_iff, List.cons_append,
      Option.pure_def, Option.some.injEq] at h ⊢
    obtain ⟨⟨m₁, z'⟩, hz, ⟨m₂, ys'⟩, hrest, heq⟩ := h
    cases heq
    exact ⟨(m₁, z'), hz, (m', ys' ++ [(b, y)]), ih hrest, rfl⟩

theorem Memide.run_fst {m₀ m : Image} {xs ys : List (β × Buf)}
    (h : Memide.run disksize m₀ xs = some (m, ys)) : ys.map Prod.fst = xs.map Prod.fst := by
  induction xs generalizing m₀ ys with
  | nil =>
    cases h
    rfl
  | cons e xs ih =>
    obtain ⟨a, z⟩ := e
    simp only [Memide.run, Option.bind_eq_bind, Option.bind_eq_some_iff, Option.pure_def,
      Option.some.injEq] at h
    obtain ⟨⟨m₁, z'⟩, hz, ⟨m₂, ys'⟩, hrest, heq⟩ := h
    cases heq
    exact congrArg (a :: ·) (ih hrest)

end Xv6.Ide
