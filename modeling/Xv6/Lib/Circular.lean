import Mathlib.Data.List.Nodup
import Mathlib.Data.Nat.Find
import Mathlib.Logic.Function.Iterate

/-!
# Circular linked lists

A linked list is a function that gives the next node of each node. It is related to the list of the
nodes.
-/

namespace Circular

open Function (update update_self update_of_ne)
open List (cons_append forall_mem_cons mem_cons_self headD_cons append_of_mem mem_cons nodup_cons)

variable {α : Type*} {ptr ptr' : α → α} {xs ys : List α} {b x y z : α}

/-- Each node points to the next one, and the last one to `z`. -/
def Path (ptr : α → α) : List α → α → Prop
  | [], _ => True
  | x :: xs, z => ptr x = xs.headD z ∧ Path ptr xs z

theorem path_append : Path ptr (xs ++ ys) z ↔ Path ptr xs (ys.headD z) ∧ Path ptr ys z := by
  induction xs with
  | nil => simp [Path]
  | cons x xs ih =>
    have hhead : (xs ++ ys).headD z = xs.headD (ys.headD z) := by cases xs <;> rfl
    simp only [cons_append, Path, ih, hhead, and_assoc]

theorem Path.redirect {f : α → α} (h : Path ptr xs z) (hptr : ∀ x ∈ xs, ptr' x = f (ptr x))
    (hf : ∀ x ∈ xs, f x = x) : Path ptr' xs (f z) := by
  induction xs with
  | nil => trivial
  | cons x xs ih =>
    rw [forall_mem_cons] at hptr hf
    refine ⟨?_, ih h.2 hptr.2 hf.2⟩
    rw [hptr.1, h.1]
    cases xs with
    | nil => rfl
    | cons y xs => exact hf.2 y mem_cons_self

theorem Path.congr (h : Path ptr xs z) (hptr : ∀ x ∈ xs, ptr' x = ptr x) : Path ptr' xs z :=
  h.redirect (f := id) hptr fun _ _ => rfl

theorem Path.reverse (h : Path ptr (x :: xs) z) (hback : ∀ y ∈ x :: xs, ptr' (ptr y) = y) :
    Path ptr' (z :: xs.reverse) x := by
  rw [forall_mem_cons, h.1] at hback
  induction xs generalizing x with
  | nil => exact ⟨hback.1, trivial⟩
  | cons y xs ih =>
    have hpath := h.2
    rw [forall_mem_cons, hpath.1] at hback
    rw [List.reverse_cons, ← cons_append, path_append]
    exact ⟨ih hpath hback.2, hback.1, trivial⟩

theorem Path.iterate (h : Path ptr (xs ++ y :: ys) z) :
    ptr^[xs.length] ((xs ++ y :: ys).headD z) = y := by
  induction xs with
  | nil => rfl
  | cons x xs ih =>
    rw [cons_append, headD_cons, List.length_cons, Function.iterate_succ_apply, h.1]
    exact ih h.2

theorem Path.iterate_end (h : Path ptr (x :: xs) z) : ptr^[xs.length + 1] x = z := by
  induction xs generalizing x with
  | nil => exact h.1
  | cons y xs ih =>
    rw [Function.iterate_succ_apply, h.1]
    exact ih h.2

/-- The circle of `b` and the nodes `xs` after it. -/
def Ring (ptr : α → α) (b : α) (xs : List α) : Prop := Path ptr (b :: xs) b

theorem ring_append :
    Ring ptr b (xs ++ ys) ↔ Path ptr (b :: xs) (ys.headD b) ∧ Path ptr ys b := by
  rw [Ring, ← cons_append, path_append]

namespace Ring

theorem split (h : Ring ptr b xs) (hx : x ∈ b :: xs) :
    ∃ pre post, b :: xs = pre ++ x :: post ∧ ptr x = post.headD b := by
  obtain ⟨pre, post, heq⟩ := append_of_mem hx
  rw [Ring, heq, path_append] at h
  exact ⟨pre, post, heq, h.2.1⟩

theorem ptr_mem (h : Ring ptr b xs) (hx : x ∈ b :: xs) : ptr x ∈ b :: xs := by
  obtain ⟨pre, post, heq, hptr⟩ := h.split hx
  rw [hptr, heq]
  cases post with
  | nil =>
    rw [← heq]
    exact mem_cons_self
  | cons y post => simp

theorem reach (h : Ring ptr b xs) (hx : x ∈ b :: xs) (hy : y ∈ b :: xs) :
    ∃ k, ptr^[k + 1] x = y := by
  obtain ⟨pre, post, hsplit⟩ := append_of_mem hx
  have hb : ptr^[post.length + 1] x = b := by
    have hpath := h
    rw [Ring, hsplit, path_append] at hpath
    exact hpath.2.iterate_end
  obtain ⟨pre', post', hsplit'⟩ := append_of_mem hy
  have hy' : ptr^[pre'.length] b = y := by
    have hpath := h
    rw [Ring, hsplit'] at hpath
    have hiter := hpath.iterate
    rwa [← hsplit', headD_cons] at hiter
  exact ⟨pre'.length + post.length, by
    rw [Nat.add_assoc, Function.iterate_add_apply, hb, hy']⟩

theorem snoc (h : Ring ptr b xs) (hnodup : (b :: xs).Nodup) (hx : x ∈ b :: xs) (hlast : ptr x = b)
    (hy : y ∉ b :: xs) (hxy : ptr' x = y) (hyb : ptr' y = b)
    (hsame : ∀ z ∈ b :: xs, z ≠ x → ptr' z = ptr z) : Ring ptr' b (xs ++ [y]) := by
  obtain ⟨pre, post, heq, hptr⟩ := h.split hx
  rw [heq] at hnodup
  have hpost : post = [] := by
    cases post with
    | nil => rfl
    | cons z post =>
      -- only the last node points to the first one
      have hz : z = b := hptr.symm.trans hlast
      subst hz
      cases pre with
      | nil =>
        cases heq
        simp at hnodup
      | cons z' pre =>
        cases heq
        simp at hnodup
  subst hpost
  have hnew : b :: (xs ++ [y]) = pre ++ [x, y] := by
    rw [← cons_append, heq, List.append_assoc]
    rfl
  rw [Ring, heq, path_append] at h
  rw [Ring, hnew, path_append]
  refine ⟨h.1.congr fun z hz => hsame z ?_ ?_, hxy, hyb, trivial⟩
  · rw [heq]
    exact List.mem_append_left _ hz
  · rintro rfl
    exact (List.nodup_append.mp hnodup).2.2 z hz z (List.mem_singleton_self z) rfl

theorem tail (h : Ring ptr b (x :: xs)) (hbx : ptr' b = ptr x)
    (hsame : ∀ z ∈ xs, ptr' z = ptr z) : Ring ptr' b xs :=
  ⟨hbx.trans h.2.1, h.2.2.congr hsame⟩

theorem iterate_mem (h : Ring ptr b xs) (hx : x ∈ b :: xs) (k : Nat) : ptr^[k] x ∈ b :: xs := by
  induction k with
  | zero => exact hx
  | succ k ih =>
    rw [Function.iterate_succ_apply']
    exact h.ptr_mem ih

end Ring

variable {next prev : α → α}

/-- The circle of `b` and the nodes `xs`, with pointers back. -/
structure Linked (next prev : α → α) (b : α) (xs : List α) : Prop where
  ring : Ring next b xs
  nodup : (b :: xs).Nodup
  prev_next : ∀ x ∈ b :: xs, prev (next x) = x

namespace Linked

theorem next_prev (h : Linked next prev b xs) (hx : x ∈ b :: xs) : next (prev x) = x := by
  obtain ⟨k, hk⟩ := h.ring.reach mem_cons_self hx
  rw [Function.iterate_succ_apply'] at hk
  rw [← hk, h.prev_next _ (h.ring.iterate_mem mem_cons_self k)]

theorem ring_prev (h : Linked next prev b xs) : Ring prev b xs.reverse :=
  Path.reverse h.ring h.prev_next

variable [DecidableEq α]

theorem insert (h : Linked next prev b xs) (hy : y ∉ b :: xs) :
    Linked (update (update next y (next b)) b y) (update (update prev y b) (next b) y) b
      (y :: xs) := by
  obtain ⟨hyb, hyxs⟩ := not_or.mp (mt mem_cons.mpr hy)
  obtain ⟨hb, hxs⟩ := nodup_cons.mp h.nodup
  have hnext {x : α} (hx : x ∈ xs) : update (update next y (next b)) b y x = next x := by
    rw [update_of_ne (ne_of_mem_of_not_mem hx hb), update_of_ne (ne_of_mem_of_not_mem hx hyxs)]
  have hy' : update (update next y (next b)) b y y = next b := by
    rw [update_of_ne hyb, update_self]
  refine ⟨⟨update_self .., hy'.trans h.ring.1, h.ring.2.congr fun x hx => hnext hx⟩, ?_, ?_⟩
  · simp only [nodup_cons, mem_cons, not_or]
    exact ⟨⟨Ne.symm hyb, hb⟩, hyxs, hxs⟩
  · rw [forall_mem_cons, forall_mem_cons, update_self, hy', update_self]
    refine ⟨?_, rfl, fun x hx => ?_⟩
    · rw [update_of_ne, update_self]
      exact (ne_of_mem_of_not_mem (h.ring.ptr_mem mem_cons_self) hy).symm
    · have hmem := List.mem_cons_of_mem b hx
      have hne : next x ≠ next b := fun e => ne_of_mem_of_not_mem hx hb <| by
        rw [← h.prev_next x hmem, e, h.prev_next b mem_cons_self]
      rw [hnext hx, update_of_ne hne, update_of_ne, h.prev_next x hmem]
      exact ne_of_mem_of_not_mem (h.ring.ptr_mem hmem) hy

theorem erase (h : Linked next prev b (xs ++ x :: ys)) :
    Linked (update next (prev x) (next x)) (update prev (next x) (prev x)) b (xs ++ ys) := by
  have hsub : b :: xs ++ ys ⊆ b :: xs ++ x :: ys :=
    ((List.sublist_cons_self x ys).append_left (b :: xs)).subset
  have hmem : x ∈ b :: xs ++ x :: ys := by simp
  have hall : (b :: xs ++ x :: ys).Nodup := h.nodup
  obtain ⟨hx, hnodup⟩ := nodup_cons.mp (List.nodup_middle.mp hall)
  have hprev {y : α} (hy : y ∈ b :: xs ++ ys) : prev (next y) = y := h.prev_next y (hsub hy)
  have hid (y : α) (hy : y ∈ b :: xs ++ ys) : update id x (next x) y = y :=
    update_of_ne (ne_of_mem_of_not_mem hy hx) ..
  have hptr (y : α) (hy : y ∈ b :: xs ++ ys) :
      update next (prev x) (next x) y = update id x (next x) (next y) := by
    by_cases hyx : y = prev x
    · rw [hyx, update_self, h.next_prev hmem, update_self]
    · rw [update_of_ne hyx, update_of_ne, id]
      rintro rfl
      exact hyx (hprev hy).symm
  obtain ⟨h₁, h₂, h₃⟩ := ring_append.mp h.ring
  refine ⟨ring_append.mpr ⟨?_, ?_⟩, hnodup, fun y hy => ?_⟩
  · have hpath := h₁.redirect (fun y hy => hptr y (List.mem_append_left ys hy))
      fun y hy => hid y (List.mem_append_left ys hy)
    rw [headD_cons, update_self] at hpath
    rwa [← h₂]
  · have hpath := h₃.redirect (fun y hy => hptr y (List.mem_append_right _ hy))
      fun y hy => hid y (List.mem_append_right _ hy)
    rwa [hid b mem_cons_self] at hpath
  · by_cases hyx : y = prev x
    · rw [hyx, update_self, update_self]
    · rw [update_of_ne hyx, update_of_ne, hprev hy]
      intro e
      exact ne_of_mem_of_not_mem hy hx (by rw [← hprev hy, e, h.prev_next x hmem])

end Linked

theorem exists_first {p : α → Prop} (h : ∃ k, p (ptr^[k] x)) :
    ∃ k, p (ptr^[k] x) ∧ ∀ j < k, ¬p (ptr^[j] x) := by
  classical
  exact ⟨Nat.find h, Nat.find_spec h, fun j hj => Nat.find_min h hj⟩

end Circular
