import Xv6.Exec.Load

/-!
# The user stack

The stack is the last page of the image, above a guard page. The address of an argument is the stack
pointer less a length from the user, modulo 2^32; a push that leaves the stack page touches the
guard page, so `copyout` does not return 0.
-/

namespace Xv6.Exec

open Bytes Hoare Vm

variable {L : Layout} {F : Multiset Nat} {s s' : State} {d u n sp : Nat} {img img' : Bytes}
  {argv : List (List UInt8)} {ustack : List Nat}

/-- The pages of the user: all but the guard page. -/
def notGuard (u v : Nat) : Prop := v ≠ u - 2

/-- The stack pointer is in the last of the `u` pages or at its end. -/
structure InStack (u sp : Nat) : Prop where
  ge : (u - 1) * pgSize ≤ sp
  le : sp ≤ u * pgSize
  align : sp % 4 = 0

theorem subSp_lt (sp n : Nat) : subSp sp n < 2 ^ 32 := Nat.mod_lt _ (by decide)

theorem push_below {g t : Nat} (hg : g + 2 ≤ 2 ^ 19) (hge : (g + 1) * 4096 ≤ sp)
    (hle : sp ≤ (g + 2) * 4096) (halign : sp % 4 = 0) (hn : 0 < n)
    (ht : (sp + 2 ^ 32 - n % 2 ^ 32) % 2 ^ 32 / 4 * 4 = t)
    (h : ∀ j, j < n → (t + j) % 2 ^ 32 / 4096 ≠ g) :
    (g + 1) * 4096 ≤ t ∧ t + n ≤ sp ∧ t % 4 = 0 := by
  by_cases hbig : 2 ^ 32 ≤ n
  · -- the range goes round the address space
    refine absurd ?_ (h ((g * 4096 + 2 ^ 32 - t) % 2 ^ 32) (by omega))
    omega
  · have hmod : n % 2 ^ 32 = n := Nat.mod_eq_of_lt (by omega)
    rw [hmod] at ht
    by_cases hfits : n ≤ sp - (g + 1) * 4096
    · omega
    · -- the last byte of the guard page is in the range, or the last byte of the range in the page
      by_cases hlast : (t + (n - 1)) % 2 ^ 32 < (g + 1) * 4096
      · refine absurd ?_ (h (n - 1) (by omega))
        omega
      · refine absurd ?_ (h (((g + 1) * 4096 - 1 + 2 ^ 32 - t) % 2 ^ 32) ?_)
        · omega
        · omega

/-- A push of `n` bytes that spares the guard page stays in the stack. -/
theorem alignSp_inStack (hu : 2 ≤ u) (hu' : u ≤ userPages) (hsp : InStack u sp) (hn : 0 < n)
    (h : ∀ j, j < n → notGuard u (virt (alignSp sp n) j / pgSize)) :
    InStack u (alignSp sp n) ∧ alignSp sp n + n ≤ sp := by
  obtain ⟨g, rfl⟩ : ∃ g, u = g + 2 := ⟨u - 2, by omega⟩
  have hbelow := push_below (by rwa [userPages] at hu') hsp.ge hsp.le hsp.align hn rfl h
  refine ⟨⟨hbelow.1, ?_, hbelow.2.2⟩, hbelow.2.1⟩
  have hle := hsp.le
  have hsum : alignSp sp n + n ≤ sp := hbelow.2.1
  omega

/-- The strings of the arguments are between `sp'` and `sp`, at the addresses `ptrs`. -/
structure Pushed (img img' : Bytes) (argv : List (List UInt8)) (sp sp' : Nat) (ptrs : List Nat) :
    Prop where
  le : sp' ≤ sp
  length : ptrs.length = argv.length
  string : ∀ (k : Nat) (arg : List UInt8), argv[k]? = some arg → ∃ p, ptrs[k]? = some p ∧
    sp' ≤ p ∧ p + (arg.length + 1) ≤ sp ∧ readBytes img' p (arg.length + 1) = arg ++ [0]
  still : ∀ a, a < sp' ∨ sp ≤ a → img' a = img a

theorem Pushed.nil : Pushed img img [] sp sp [] :=
  ⟨le_rfl, rfl, nofun, fun _ _ => rfl⟩

theorem Pushed.cons {arg : List UInt8} {sp₁ sp' : Nat} {ptrs : List Nat}
    (hle : sp₁ + (arg ++ [0]).length ≤ sp)
    (h : Pushed (writeBytes img sp₁ (arg ++ [0])) img' argv sp₁ sp' ptrs) :
    Pushed img img' (arg :: argv) sp sp' (sp₁ :: ptrs) := by
  have hlen : (arg ++ [0]).length = arg.length + 1 := List.length_append
  have hle₁ := h.le
  refine ⟨by omega, by rw [List.length_cons, h.length, List.length_cons], ?_, fun a ha => ?_⟩
  · intro k a hk
    cases k with
    | zero =>
      obtain rfl := Option.some_inj.mp hk
      refine ⟨sp₁, rfl, by omega, by omega, ?_⟩
      have hsame : readBytes img' sp₁ (arg.length + 1) =
          readBytes (writeBytes img sp₁ (arg ++ [0])) sp₁ (arg.length + 1) :=
        readBytes_congr fun i _ => h.still _ (.inr (by omega))
      rw [hsame, ← hlen, readBytes_writeBytes]
    | succ k =>
      obtain ⟨p, hp, hge, hend, hread⟩ := h.string k a hk
      exact ⟨p, hp, hge, by omega, hread⟩
  · rw [h.still a (by omega), writeBytes_of_not_mem (by omega)]

theorem wp_pushArgs (hF : Pool L F) (hu : 2 ≤ u) (hsp : InStack u sp)
    (h : Image L F s.phys d u (notGuard u) img) :
    wp (pushArgs d argv sp ustack) (fun r s' => Keeps F s d s' ∧ ∀ sp' ustack',
      r = some (sp', ustack') → ∃ ptrs img', ustack' = ustack ++ ptrs ∧ InStack u sp' ∧
        Pushed img img' argv sp sp' ptrs ∧ Image L F s'.phys d u (notGuard u) img')
      (fun e => e = .nullEntry) s := by
  induction argv generalizing s sp ustack img with
  | nil =>
    rw [pushArgs]
    refine ⟨.refl ⟨_, h.dir⟩, fun sp' ustack' heq => ?_⟩
    obtain ⟨rfl, rfl⟩ := Prod.mk.inj (Option.some_inj.mp heq)
    exact ⟨[], img, (List.append_nil _).symm, hsp, .nil, h⟩
  | cons arg argv ih =>
    rw [pushArgs]
    refine wp_ite (fun _ => ⟨.refl ⟨_, h.dir⟩, nofun⟩) fun _ => ?_
    have hva : alignSp sp (arg.length + 1) < 2 ^ 32 :=
      (Nat.div_mul_le_self _ 4).trans_lt (subSp_lt ..)
    rw [wp_bind, wp_onPhys]
    refine (h.wp_copyout hF hva (arg ++ [0])).mono ?_ fun _ he => he
    rintro (_ | _) phys ⟨hstill, hdir, hok⟩
    · exact ⟨⟨rfl, hstill, hdir⟩, nofun⟩
    · obtain ⟨hreach, himage⟩ := hok rfl
      have hlen : (arg ++ [0]).length = arg.length + 1 := List.length_append
      rw [hlen] at hreach himage
      obtain ⟨hsp₁, hle⟩ := alignSp_inStack (n := arg.length + 1) hu h.le hsp (by omega)
        fun j hj => (hreach j hj).2
      have htop : sp ≤ 2 ^ 32 := by
        have h₁ := hsp.le
        have h₂ := h.le
        simp only [pgSize, userPages] at h₁ h₂
        omega
      rw [if_pos rfl]
      refine (ih (s := { s with phys := phys }) hsp₁ (himage (by omega))).mono ?_ fun _ he => he
      rintro r s' ⟨hkeeps, hr⟩
      refine ⟨Keeps.trans ⟨rfl, hstill, hdir⟩ hkeeps, fun sp' ustack' heq => ?_⟩
      obtain ⟨ptrs, img', rfl, hsp', hpushed, himage'⟩ := hr sp' ustack' heq
      exact ⟨_ :: ptrs, img', by rw [List.append_assoc, List.singleton_append], hsp',
        hpushed.cons (by omega), himage'⟩

end Xv6.Exec
