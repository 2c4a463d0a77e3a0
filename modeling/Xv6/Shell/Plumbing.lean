import Xv6.Shell.Run

/-!
# Descriptor plumbing

The descriptors that a command has are fixed by its place in the tree (`plumb`).

What a process of the shell has still to do is `Ready` for the descriptors that it has when it comes
to an `exec` with descriptors 0, 1 and 2 and no others, and at every point before holds a write end
only if it is of the left subtree of the pipe or has still to close it. Every call keeps this, and
it holds of `runcmd` by induction on the tree.
-/

namespace Xv6.Shell

open Function (update update_of_ne update_apply)

variable {α : Type}

/-- The command at a node, and its descriptors 0, 1 and 2; `x` is the path so far. -/
def plumbFrom (x : Path) (d : Nat → File α) : Cmd α → Path → Option ((Nat → File α) × Cmd α)
  | c, [] => some (d, c)
  | .redir cmd file mode fd, .down :: y =>
    plumbFrom (x ++ [.down]) (update d fd (.opened x file mode)) cmd y
  | .pipe left _, .left :: y =>
    plumbFrom (x ++ [.left]) (update d 1 (.pipe x true)) left y
  | .pipe _ right, .right :: y =>
    plumbFrom (x ++ [.right]) (update d 0 (.pipe x false)) right y
  | .list left _, .left :: y => plumbFrom (x ++ [.left]) d left y
  | .list _ right, .right :: y => plumbFrom (x ++ [.right]) d right y
  | .back cmd, .down :: y => plumbFrom (x ++ [.down]) d cmd y
  | _, _ => none

/-- The command at a node of the tree, and its descriptors 0, 1 and 2. -/
def plumb (t : Cmd α) (x : Path) : Option ((Nat → File α) × Cmd α) :=
  plumbFrom [] .inherited t x

def Cmd.StdFds : Cmd α → Prop
  | exec _ => True
  | redir cmd _ _ fd => fd ≤ 1 ∧ cmd.StdFds
  | pipe left right => left.StdFds ∧ right.StdFds
  | list left right => left.StdFds ∧ right.StdFds
  | back cmd => cmd.StdFds

/-- The process has still to make calls of `close` for node `x`. -/
def Code.Closes (x : Path) : Code α → Prop
  | exec _ _ => False
  | close y _ k => y = x ∨ k.Closes x
  | opens _ _ _ k => k.Closes x
  | dup _ k => k.Closes x
  | pipe _ k => k.Closes x
  | fork _ _ k => k.Closes x
  | wait k => k.Closes x
  | exit => False

def Control.Closes (x : Path) : Control α → Prop
  | shell c => c.Closes x
  | program => False
  | zombie => False

/-- The process has the write end of the pipe of node `x`. -/
def Table.Writes (T : Table α) (x : Path) : Prop := ∃ fd, T fd = some (.pipe x true)

def OfLeft (o x : Path) : Prop := x ++ [.left] <+: o

/-- Whoever has a write end is of the left subtree, or will close it. -/
def Tidy (o : Path) (closes : Path → Prop) (T : Table α) : Prop :=
  ∀ x, T.Writes x → OfLeft o x ∨ closes x

/-- The code is safe for a process of the subtree at `o` with the descriptors `T`. -/
def Ready (t : Cmd α) (o : Path) : Code α → Table α → Nat × Nat → Prop
  | .exec x argv, T, _ =>
    Tidy o (fun _ => False) T ∧ ∃ d, plumb t x = some (d, .exec argv) ∧ T = std d
  | .close x fd k, T, p =>
    Tidy o (fun y => (Code.close x fd k).Closes y) T ∧ Ready t o k (T.close (fd.eval p)) p
  | .opens x file mode k, T, p =>
    Tidy o (fun y => k.Closes y) T ∧
      ∀ y, T.fdalloc (.opened x file mode) = some y → Ready t o k y.2 p
  | .dup fd k, T, p => Tidy o (fun y => k.Closes y) T ∧ Ready t o k (T.dup (fd.eval p)) p
  | .pipe x k, T, _ =>
    Tidy o (fun y => k.Closes y) T ∧
      ∀ y, T.pipe (.pipe x false) (.pipe x true) = some y → Ready t o k y.2.2 (y.1, y.2.1)
  | .fork o' child k, T, p =>
    Tidy o (fun y => k.Closes y) T ∧ Ready t o' child T p ∧ Ready t o k T p
  | .wait k, T, p => Tidy o (fun y => k.Closes y) T ∧ Ready t o k T p
  | .exit, T, _ => Tidy o (fun _ => False) T

variable {T : Table α} {o : Path}

theorem Ready.tidy {t : Cmd α} {c : Code α} {p : Nat × Nat}
    (h : Ready t o c T p) : Tidy o (fun y => c.Closes y) T := by
  cases c <;> first | exact h.1 | exact h

theorem Table.fdalloc_eq (fd : Nat) (f : File α) (hfree : T fd = none)
    (hlt : fd < nofile) (hused : ∀ i < fd, T i ≠ none) :
    T.fdalloc f = some (fd, update T fd (some f)) := by
  have hfind : findFrom (fun fd => (T fd).isNone) 0 nofile = some fd := by
    rw [findFrom_eq_some]
    refine ⟨by simp [hfree], Nat.zero_le _, by omega, fun j _ hj => ?_⟩
    have := hused j hj
    cases hT : T j
    · exact absurd hT this
    · rfl
  rw [fdalloc, hfind]
  rfl

@[simp] theorem Table.close_self (T : Table α) (fd : Nat) : T.close fd fd = none := by
  simp [close]

variable {y : Path} {fd : Nat}

theorem Table.writes_close (h : (T.close fd).Writes y) : T.Writes y := by
  obtain ⟨i, hi⟩ := h
  rw [Table.close, update_apply] at hi
  split at hi
  · cases hi
  · exact ⟨i, hi⟩

variable {f : File α}

theorem Table.writes_update
    (h : Table.Writes (update T fd (some f)) y) : T.Writes y ∨ f = .pipe y true := by
  obtain ⟨i, hi⟩ := h
  rw [update_apply] at hi
  split at hi
  · exact .inr (Option.some.inj hi)
  · exact .inl ⟨i, hi⟩

theorem Table.writes_fdalloc {z : Nat × Table α}
    (hz : T.fdalloc f = some z) (h : z.2.Writes y) : T.Writes y ∨ f = .pipe y true := by
  rw [fdalloc, Option.map_eq_some_iff] at hz
  obtain ⟨fd, -, rfl⟩ := hz
  exact writes_update h

theorem Table.writes_dup (h : (T.dup fd).Writes y) : T.Writes y := by
  rw [dup] at h
  split at h
  · exact h
  · next f hf =>
    cases hz : T.fdalloc f with
    | none => rwa [hz] at h
    | some z =>
      rw [hz] at h
      rcases writes_fdalloc hz h with hT | rfl
      · exact hT
      · exact ⟨fd, hf⟩

theorem Table.writes_pipe {n m : Nat} {z : Nat × Nat × Table α}
    (hz : T.pipe (.other n) (.other m) = some z) (h : z.2.2.Writes y) : T.Writes y := by
  rw [pipe, Option.bind_eq_some_iff] at hz
  obtain ⟨u, hu, hz⟩ := hz
  obtain ⟨v, hv, rfl⟩ := Option.map_eq_some_iff.mp hz
  rcases writes_fdalloc hv h with h | h
  · rcases writes_fdalloc hu h with h | h
    · exact h
    · cases h
  · cases h

def piped (d : Nat → File α) (x : Path) : Table α :=
  update (update (std d) 3 (some (.pipe x false))) 4 (some (.pipe x true))

theorem pipe_std (d : Nat → File α) (x : Path) :
    (std d).pipe (.pipe x false) (.pipe x true) = some (3, 4, piped d x) := by
  have h3 := Table.fdalloc_eq (T := std d) 3 (.pipe x false) rfl (by decide)
    (fun i hi => by simp [std, hi])
  have h4 := Table.fdalloc_eq (T := update (std d) 3 (some (.pipe x false))) 4
    (.pipe x true) rfl (by decide) (fun i hi => by
      rw [update_apply]
      split
      · simp
      · simp [std]; omega)
  rw [Table.pipe, h3, Option.bind_some, h4]
  rfl

variable {d : Nat → File α} {x : Path}

theorem writes_piped (h : (piped d x).Writes y) : (std d).Writes y ∨ y = x := by
  rcases Table.writes_update h with h | h
  · rcases Table.writes_update h with h | h
    · exact .inl h
    · cases h
  · cases h
    exact .inr rfl

variable {i : Nat}

theorem dup_close (hfd : T fd = some f) (hne : fd ≠ i)
    (hi : i < nofile) (hused : ∀ j < i, T j ≠ none) : (T.close i).dup fd = update T i (some f) := by
  have hopen : (T.close i) fd = some f := by
    rw [Table.close, update_of_ne hne, hfd]
  have halloc := Table.fdalloc_eq (T := T.close i) i f (T.close_self i) hi
    (fun j hj => by rw [Table.close, update_of_ne (by omega)]; exact hused j hj)
  rw [Table.dup, hopen]
  simp only [halloc, Option.map_some, Option.getD_some]
  simp [Table.close]

theorem close_close_update (d : Nat → File α) (x : Path) (hi : i < 3) (f : File α) :
    ((Table.close (update (piped d x) i (some f)) 3).close 4) =
      std (update d i f) := by
  funext fd
  simp only [Table.close, piped, std, update_apply]
  split_ifs <;> first | rfl | omega

theorem close_close (d : Nat → File α) (x : Path) : ((piped d x).close 3).close 4 = std d := by
  funext fd
  simp only [Table.close, piped, std, update_apply]
  split_ifs <;> first | rfl | omega

theorem fdalloc_close_std (d : Nat → File α) (hfd : fd ≤ 1) (f : File α) :
    ((std d).close fd).fdalloc f = some (fd, std (update d fd f)) := by
  rw [Table.fdalloc_eq fd f (Table.close_self _ fd) (by simp; omega)
    (fun i hi => by rw [Table.close, update_of_ne (by omega)]; simp [std]; omega)]
  congr 2
  funext i
  simp only [Table.close, std, update_apply]
  split_ifs <;> first | rfl | omega

theorem plumbFrom_append (x : Path) (d : Nat → File α) (c : Cmd α) (y : Path) (e : Dir) :
    plumbFrom x d c (y ++ [e]) =
      (plumbFrom x d c y).bind fun z => plumbFrom (x ++ y) z.1 z.2 [e] := by
  induction y generalizing x d c with
  | nil => simp [plumbFrom]
  | cons e' y ih =>
    cases c <;> cases e' <;> simp [plumbFrom, ih]

theorem plumb_append {t : Cmd α} {c : Cmd α}
    (h : plumb t x = some (d, c)) (e : Dir) : plumb t (x ++ [e]) = plumbFrom x d c [e] := by
  rw [plumb, plumbFrom_append, ← plumb, h]
  rfl

theorem Tidy.of_closes {closes : Path → Prop}
    (h : ∀ y, T.Writes y → OfLeft o y ∨ y = x) (hx : closes x) : Tidy o closes T := by
  intro y hy
  rcases h y hy with h | rfl
  · exact .inl h
  · exact .inr hx

theorem Tidy.of_left {closes : Path → Prop} (h : ∀ y, T.Writes y → OfLeft o y) : Tidy o closes T :=
  fun y hy => .inl (h y hy)

theorem writes_std_update
    (h : (std (update d i f)).Writes y) : (std d).Writes y ∨ f = .pipe y true := by
  obtain ⟨fd, hfd⟩ := h
  simp only [std, update_apply] at hfd
  split at hfd
  · next hlt =>
    split at hfd
    · exact .inr (Option.some.inj hfd)
    · exact .inl ⟨fd, by rw [std, if_pos hlt]; exact hfd⟩
  · cases hfd

theorem ready_child {t : Cmd α} {k : Code α} {v : Operand} (hi : i ≤ 1) (hf : piped d x (v.eval (3, 4)) = some f)
    (hv : v.eval (3, 4) ≠ i) (hd : ∀ y, (piped d x).Writes y → OfLeft o y ∨ y = x)
    (hk : Ready t o k (std (update d i f)) (3, 4)) :
    Ready t o (.close x (.lit i) (.dup v (.close x .p0 (.close x .p1 k)))) (piped d x) (3, 4) := by
  have hclose : ∀ y, ((piped d x).close i).Writes y → OfLeft o y ∨ y = x :=
    fun y hy => hd y (Table.writes_close hy)
  have hdup : ∀ y, (((piped d x).close i).dup (v.eval (3, 4))).Writes y → OfLeft o y ∨ y = x :=
    fun y hy => hclose y (Table.writes_dup hy)
  refine ⟨Tidy.of_closes hd (.inl rfl), Tidy.of_closes hclose (.inl rfl),
    Tidy.of_closes hdup (.inl rfl),
    Tidy.of_closes (fun y hy => hdup y (Table.writes_close hy)) (.inl rfl), ?_⟩
  have hused : ∀ j < i, piped d x j ≠ none := by
    intro j hj
    rw [piped, update_of_ne (by omega), update_of_ne (by omega), std,
      if_pos (by omega)]
    simp
  change Ready t o k (((((piped d x).close i).dup (v.eval (3, 4))).close 3).close 4) (3, 4)
  rw [dup_close hf hv (by simp; omega) hused, close_close_update d x (by omega)]
  exact hk

theorem ready_runcmd {t c : Cmd α} (p : Nat × Nat)
    (hplumb : plumb t x = some (d, c)) (hox : o <+: x)
    (hd : ∀ y, (std d).Writes y → OfLeft o y) (hc : c.StdFds) :
    Ready t o (runcmd x c) (std d) p := by
  induction c generalizing x o d p with
  | exec argv =>
    cases argv with
    | nil => exact Tidy.of_left hd
    | cons a argv => exact ⟨Tidy.of_left hd, d, hplumb, rfl⟩
  | redir cmd file mode fd ih =>
    refine ⟨Tidy.of_left hd, Tidy.of_left fun y hy => hd y (Table.writes_close hy), ?_⟩
    rintro z hz
    simp only [Operand.eval, fdalloc_close_std d hc.1, Option.some.injEq] at hz
    subst hz
    refine ih p (plumb_append hplumb .down) (hox.trans (List.prefix_append _ _)) ?_ hc.2
    intro y hy
    rcases writes_std_update hy with hy | hy
    · exact hd y hy
    · cases hy
  | list left right ihl ihr =>
    have hchild : ∀ e y, (std d).Writes y → OfLeft (x ++ [e]) y := fun e y hy =>
      ((hd y hy).trans hox).trans (List.prefix_append _ _)
    refine ⟨Tidy.of_left hd, ?_, Tidy.of_left hd, ?_⟩
    · exact ihl p (plumb_append hplumb .left) (List.prefix_refl _) (hchild .left) hc.1
    · exact ihr p (plumb_append hplumb .right) (hox.trans (List.prefix_append _ _)) hd hc.2
  | back cmd ih =>
    refine ⟨Tidy.of_left hd, ?_, Tidy.of_left hd⟩
    exact ih p (plumb_append hplumb .down) (List.prefix_refl _)
      (fun y hy => ((hd y hy).trans hox).trans (List.prefix_append _ _)) hc
  | pipe left right ihl ihr =>
    have hchild : ∀ e y, (std d).Writes y → OfLeft (x ++ [e]) y := fun e y hy =>
      ((hd y hy).trans hox).trans (List.prefix_append _ _)
    have hpiped : ∀ y, (piped d x).Writes y → OfLeft o y ∨ y = x := fun y hy =>
      (writes_piped hy).imp (hd y) id
    refine ⟨Tidy.of_left hd, fun z hz => ?_⟩
    rw [pipe_std, Option.some.injEq] at hz
    subst hz
    refine ⟨Tidy.of_closes hpiped (.inl rfl), ?_, Tidy.of_closes hpiped (.inl rfl), ?_, ?_⟩
    · refine ready_child (by decide) rfl (by decide)
        (fun y hy => (writes_piped hy).imp (hchild .left y) id) ?_
      refine ihl _ (plumb_append hplumb .left) (List.prefix_refl _) (fun y hy => ?_) hc.1
      rcases writes_std_update hy with hy | hy
      · exact hchild .left y hy
      · cases hy
        exact List.prefix_refl _
    · refine ready_child (by decide) rfl (by decide)
        (fun y hy => (writes_piped hy).imp (hchild .right y) id) ?_
      refine ihr _ (plumb_append hplumb .right) (List.prefix_refl _) (fun y hy => ?_) hc.2
      rcases writes_std_update hy with hy | hy
      · exact hchild .right y hy
      · cases hy
    · refine ⟨Tidy.of_closes hpiped (.inl rfl),
        Tidy.of_closes (fun y hy => hpiped y (Table.writes_close hy)) (.inl rfl), ?_⟩
      simp only [Operand.eval, close_close]
      exact ⟨Tidy.of_left hd, Tidy.of_left hd, Tidy.of_left hd⟩

/-- What a process does is safe for the descriptors that it has. -/
def Control.Safe (t : Cmd α) (o : Path) (T : Table α) (p : Nat × Nat) : Control α → Prop
  | shell c => Ready t o c T p
  | program => ∀ y, T.Writes y → OfLeft o y
  | zombie => T = Table.empty

def Inv (t : Cmd α) (s : State α) : Prop :=
  ∀ q, ∀ P ∈ s.proc q, P.control.Safe t P.origin P.ofile P.p

namespace Inv

variable {t : Cmd α} {s : State α} {pid : Nat} {P : Proc α}

theorem set (h : Inv t s) (hP : P.control.Safe t P.origin P.ofile P.p) : Inv t (s.set pid P) := by
  intro q Q hQ
  simp only [State.set, update_apply] at hQ
  split at hQ
  · cases hQ
    exact hP
  · exact h q Q hQ

theorem exit (h : Inv t s) : Inv t (s.exit pid P) := by
  intro q Q hQ
  simp only [State.exit] at hQ
  split at hQ
  · cases hQ
    rfl
  · obtain ⟨Q', hQ', rfl⟩ := Option.map_eq_some_iff.mp hQ
    split <;> exact h q Q' hQ'

theorem fork (h : Inv t s) {c : Control α}
    (hP : P.control.Safe t P.origin P.ofile P.p) (hc : c.Safe t o P.ofile P.p) :
    Inv t (s.fork pid P o c) := by
  intro q Q hQ
  simp only [State.fork, update_apply] at hQ
  split at hQ
  · cases hQ
    exact hc
  · split at hQ
    · cases hQ
      exact hP
    · exact h q Q hQ

theorem reap (h : Inv t s) (child : Nat) : Inv t (s.reap child) := by
  intro q Q hQ
  simp only [State.reap, update_apply] at hQ
  split at hQ
  · cases hQ
  · exact h q Q hQ

variable {s' : State α}

theorem shellCall (h : Inv t s) {c : Code α} (hP : Ready t P.origin c P.ofile P.p) (hs : shellCall s pid P c = some s') : Inv t s' := by
  cases c with
  | exec x argv => cases hs
  | close x fd k => cases hs; exact h.set hP.2
  | opens x file mode k | pipe x k =>
    simp only [Shell.shellCall] at hs
    split at hs
    · next y hy => cases hs; exact h.set (hP.2 y hy)
    · cases hs; exact h.exit
  | dup fd k => cases hs; exact h.set hP.2
  | fork o child k => cases hs; exact h.fork hP.2.2 hP.2.1
  | wait k =>
    simp only [Shell.shellCall] at hs
    split at hs
    · cases hs; exact h.set hP.2
    · cases hs
  | exit => cases hs; exact h.exit

theorem programCall (h : Inv t s) {c : Call} (hcontrol : P.control = .program)
    (hP : ∀ y, P.ofile.Writes y → OfLeft P.origin y) (hs : programCall s pid P c = some s') : Inv t s' := by
  have hset {T : Table α} (hT : ∀ y, T.Writes y → P.ofile.Writes y) :
      Inv t (s.set pid { P with ofile := T }) := by
    refine h.set ?_
    simp only [hcontrol]
    exact fun y hy => hP y (hT y hy)
  cases c with
  | close fd => cases hs; exact hset fun y => Table.writes_close
  | dup fd => cases hs; exact hset fun y => Table.writes_dup
  | opens n =>
    obtain ⟨z, hz, rfl⟩ := Option.map_eq_some_iff.mp hs
    refine hset fun y hy => ?_
    rcases Table.writes_fdalloc hz hy with hy | hy
    · exact hy
    · cases hy
  | pipe n m =>
    obtain ⟨z, hz, rfl⟩ := Option.map_eq_some_iff.mp hs
    exact hset fun y => Table.writes_pipe hz
  | fork =>
    cases hs
    exact h.fork (by rw [hcontrol]; exact hP) hP
  | wait child =>
    simp only [Shell.programCall] at hs
    split at hs
    · cases hs; exact h.reap child
    · cases hs
  | exit => cases hs; exact h.exit

theorem step (h : Inv t s) {a : Action} (hs : step s a = some s') : Inv t s' := by
  cases a with
  | call pid =>
    obtain ⟨P, hP, hs⟩ := Option.bind_eq_some_iff.mp hs
    have hsafe := h pid P hP
    cases hc : P.control with
    | shell c =>
      rw [hc] at hs hsafe
      exact h.shellCall hsafe hs
    | program => rw [hc] at hs; cases hs
    | zombie => rw [hc] at hs; cases hs
  | wait pid child =>
    obtain ⟨P, hP, hs⟩ := Option.bind_eq_some_iff.mp hs
    have hsafe := h pid P hP
    split at hs
    · next k hc =>
      rw [hc] at hsafe
      split at hs
      · cases hs
        exact (h.reap child).set hsafe.2
      · cases hs
    · cases hs
  | exec pid ok =>
    obtain ⟨P, hP, hs⟩ := Option.bind_eq_some_iff.mp hs
    have hsafe := h pid P hP
    split at hs
    · next x argv hc =>
      rw [hc] at hsafe
      cases hs
      refine h.set ?_
      cases ok with
      | true => exact fun y hy => (hsafe.1 y hy).resolve_right id
      | false => exact hsafe.1
    · cases hs
  | program pid c =>
    obtain ⟨P, hP, hs⟩ := Option.bind_eq_some_iff.mp hs
    have hsafe := h pid P hP
    split at hs
    · next hc =>
      rw [hc] at hsafe
      exact h.programCall hc hsafe hs
    · cases hs

theorem start (pid : Nat) (ht : t.StdFds) : Inv t (.start pid t) := by
  intro q P hP
  simp only [State.start] at hP
  split at hP
  · cases hP
    refine ready_runcmd (0, 0) rfl (List.prefix_refl _) (fun y hy => ?_) ht
    obtain ⟨fd, hfd⟩ := hy
    simp only [std] at hfd
    split at hfd <;> cases hfd
  · cases hP

end Inv

/-- A command tree that redirects descriptors 0 and 1 is run by a process with descriptors 0, 1
and 2. In every state of every run a process that is about to execute a command has descriptors 0,
1 and 2 and no others, and they are those that the tree prescribes for the command. When no process
has calls of `close` to make for a `PIPE` node, only processes of its left subtree have its write
end; when all of these have exited, nobody has. -/
theorem runcmd_plumbing (t : Cmd α) (ht : t.StdFds) (pid : Nat) (as : List Action) (s : State α)
    (hs : Transition.run step (.start pid t) as = some s) :
    (∀ q, ∀ P ∈ s.proc q, ∀ x argv, P.control = .shell (.exec x argv) →
      ∃ d, plumb t x = some (d, .exec argv) ∧ P.ofile = std d) ∧
    ∀ x, (∀ q, ∀ P ∈ s.proc q, ¬P.control.Closes x) →
      (∀ q, ∀ P ∈ s.proc q, P.ofile.Writes x → OfLeft P.origin x) ∧
      ((∀ q, ∀ P ∈ s.proc q, OfLeft P.origin x → P.control = .zombie) →
        ∀ q, ∀ P ∈ s.proc q, ¬P.ofile.Writes x) := by
  have hinv : Inv t s := Transition.run_invariant (fun _ _ _ h => h.step) (Inv.start pid ht) hs
  refine ⟨fun q P hP x argv hc => ?_, fun x hx => ?_⟩
  · have hsafe := hinv q P hP
    rw [hc] at hsafe
    exact hsafe.2
  · have hleft : ∀ q, ∀ P ∈ s.proc q, P.ofile.Writes x → OfLeft P.origin x := by
      intro q P hP hw
      have hsafe := hinv q P hP
      have hcloses := hx q P hP
      cases hc : P.control with
      | shell c =>
        rw [hc] at hsafe hcloses
        exact (Ready.tidy hsafe x hw).resolve_right hcloses
      | program =>
        rw [hc] at hsafe
        exact hsafe x hw
      | zombie =>
        rw [hc] at hsafe
        obtain ⟨fd, hfd⟩ := hw
        rw [show P.ofile = Table.empty from hsafe] at hfd
        cases hfd
    refine ⟨hleft, fun hdone q P hP hw => ?_⟩
    have hsafe := hinv q P hP
    rw [hdone q P hP (hleft q P hP hw)] at hsafe
    obtain ⟨fd, hfd⟩ := hw
    rw [show P.ofile = Table.empty from hsafe] at hfd
    cases hfd

/-- `0 | 1 > 2`, with numbers for the strings. -/
def twoStages : Cmd Nat := .pipe (.exec [0]) (.redir (.exec [1]) 2 (oWronly ||| oCreate) 1)

/-- The parent makes the pipe, forks and closes, and both children come to their `exec`. -/
def twoStagesRun : List Action :=
  List.replicate 5 (.call 2) ++ List.replicate 4 (.call 3) ++ List.replicate 6 (.call 4)

theorem runcmd_plumbing_twoStages :
    ∃ s, Transition.run step (.start 2 twoStages) twoStagesRun = some s ∧
      (∀ P ∈ s.proc 3, P.control = .shell (.exec [.left] [0]) → P.ofile =
        std (update .inherited 1 (.pipe [] true))) ∧
      ∀ q, ∀ P ∈ s.proc q, ∀ x argv, P.control = .shell (.exec x argv) →
        ∃ d, plumb twoStages x = some (d, .exec argv) ∧ P.ofile = std d := by
  obtain ⟨s, hs⟩ : ∃ s, Transition.run step (.start 2 twoStages) twoStagesRun = some s :=
    Option.isSome_iff_exists.mp (by decide +kernel)
  have h := runcmd_plumbing twoStages ⟨trivial, by decide, trivial⟩ 2 twoStagesRun s hs
  refine ⟨s, hs, fun P hP hc => ?_, h.1⟩
  obtain ⟨d, hd, hofile⟩ := h.1 3 P hP _ _ hc
  cases hd
  exact hofile

end Xv6.Shell
