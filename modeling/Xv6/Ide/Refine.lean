import Xv6.Ide.Transfer
import Xv6.Lib.Circular
import Xv6.Lib.Places

/-!
# The interrupt-driven driver refines the one in memory

The requests that are not finished are those in the queue, in order. The disk is where the driver in
memory would be after the finished requests, except that it may already have done the first transfer
of the queue.
-/

namespace Xv6.Ide

open Monitor
open Function (update update_self update_of_ne)

variable {ι β : Type}

/-- What the disk and the interrupt handler are doing: nothing, the first transfer of the queue, it
is done and no cpu has taken the interrupt, a cpu has taken it, or the handler is about to start
the next command. -/
inductive Stage (ι : Type)
  | quiet
  | busy
  | irq
  | trap (p : ι)
  | next (p : ι)

def Stage.started : Stage ι → Nat
  | .busy | .irq | .trap _ => 1
  | .quiet | .next _ => 0

def Stage.irqs : Stage ι → Nat
  | .irq => 1
  | _ => 0

/-- The disk, where the driver in memory is at `m` after the finished requests. -/
def Stage.Disk (disksize : Nat) (c : Controller) (m : Image) (pending : List (β × Buf)) :
    Stage ι → Prop
  | .quiet => pending = [] ∧ c.busy = none ∧ c.image 1 = m
  | .busy => ∃ b x rest, pending = (b, x) :: rest ∧ c.busy = some (regs x) ∧
      (x.dirty = true → c.port = x.bytes) ∧ c.image 1 = m
  | .irq | .trap _ => ∃ b x rest, pending = (b, x) :: rest ∧ c.busy = none ∧
      Memide.iderw disksize true m x = some (c.image 1, x.finish c.port)
  | .next _ => c.busy = none ∧ c.image 1 = m

/-- Request `k` of buffer `b` is finished, and the buffer is as it was then. -/
def Served (d : Driver ι β) (b : β) (k : Nat) : Prop :=
  d.replies[k]? = some (b, d.buf b) ∧ (d.buf b).done = true

/-- Process `p` has buffer `b`, and its request has number `k`. -/
def Requested (d : Driver ι β) (p : ι) (b : β) (k : Nat) : Prop :=
  d.owner b = some p ∧ ∃ x, d.requests[k]? = some (b, x)

/-- What holds for a process, depending on where it is. -/
def Local (d : Driver ι β) (q : List β) (st : Stage ι) (p : ι) : Place (Out β) (In β) → Prop
  | .out .idle | .out .cpu | .out .disk => True
  | .out (.returned b k) => Requested d p b k ∧ Served d b k
  | .out .trap | .wait .intr | .hold .intr => st = .trap p
  | .wait (.append b) | .hold (.append b) => d.owner b = some p ∧ (d.buf b).Fits
  | .hold (.scan b pp) =>
    (d.owner b = some p ∧ (d.buf b).Fits) ∧ d.qnext b = none ∧ pp ∈ none :: q.map some
  | .wait (.wait b k) | .hold (.wait b k) =>
    Requested d p b k ∧ (d.replies.length ≤ k ∨ Served d b k)
  | .hold .next => st = .next p
  | .wait (.scan _ _) | .wait .next => False

/-- The process waits for its request, number `k`. -/
def Flight (x : Place (Out β) (In β)) (b : β) (k : Nat) : Prop :=
  x = .wait (.wait b k) ∨ x = .hold (.wait b k)

def Handles (x : Place (Out β) (In β)) : Prop :=
  x = .out .trap ∨ x = .wait .intr ∨ x = .hold .intr

/-- The invariant: the finished requests, the pending ones, and where the driver in memory is. -/
structure Inv (disksize : Nat) (image : Nat → Image) (d : Driver ι β)
    (f : ι → Place (Out β) (In β)) (st : Stage ι) (done pending : List (β × Buf)) (m : Image) :
    Prop where
  ring : Circular.Ring d.cell none ((pending.map Prod.fst).map some)
  nodup : (pending.map Prod.fst).Nodup
  requests : d.requests = done ++ pending
  same : ∀ e ∈ pending, d.buf e.1 = e.2 ∧ e.2.Fits
  mem : Memide.run disksize (image 1) done = some (m, d.replies)
  flight : ∀ b ∈ pending.map Prod.fst, ∃ p k, d.owner b = some p ∧ Flight (f p) b k
  places : ∀ p, Local d (pending.map Prod.fst) st p (f p)
  trapped : ∀ p, st = .trap p → Handles (f p)
  starts : ∀ p, st = .next p → f p = .hold .next
  irq : d.ctl.irq = st.irqs
  commands : d.ctl.commands = ((done ++ pending).take (done.length + st.started)).map (regs ·.2)
  disk : st.Disk disksize d.ctl m pending
  other : ∀ n, n ≠ 1 → d.ctl.image n = image n

section

variable {disksize : Nat} {image : Nat → Image} {d d' : Driver ι β}
  {f : ι → Place (Out β) (In β)} {st st' : Stage ι} {done pending : List (β × Buf)} {m : Image}
  {p p' : ι} {b : β} {k : Nat} {q q' : List β} {x : Place (Out β) (In β)}

theorem Local.mono (h : Local d q st p x)
    (hown : ∀ b, d.owner b = some p → d'.owner b = some p ∧ d'.buf b = d.buf b)
    (hscan : ∀ b pp, x = .hold (.scan b pp) →
      d'.qnext b = d.qnext b ∧ (pp ∈ none :: q.map some → pp ∈ none :: q'.map some))
    (hreq : d.requests <+: d'.requests) (hrep : d'.replies = d.replies)
    (htrap : st = .trap p → st' = .trap p) (hnext : st = .next p → st' = .next p) :
    Local d' q' st' p x := by
  have hrequested : ∀ {b k}, Requested d p b k → Requested d' p b k := by
    rintro b k ⟨ho, y, hy⟩
    obtain ⟨t, ht⟩ := hreq
    refine ⟨(hown b ho).1, y, ?_⟩
    rw [← ht, List.getElem?_append_left (List.getElem?_eq_some_iff.mp hy).1, hy]
  have hserved : ∀ {b k}, d.owner b = some p → Served d b k → Served d' b k := by
    rintro b k ho hs
    rw [Served, hrep, (hown b ho).2]
    exact hs
  have hasks : ∀ {b}, d.owner b = some p ∧ (d.buf b).Fits →
      d'.owner b = some p ∧ (d'.buf b).Fits := by
    rintro b ⟨ho, hfit⟩
    rw [(hown b ho).2]
    exact ⟨(hown b ho).1, hfit⟩
  have hwait : ∀ {b k}, Requested d p b k ∧ (d.replies.length ≤ k ∨ Served d b k) →
      Requested d' p b k ∧ (d'.replies.length ≤ k ∨ Served d' b k) := by
    rintro b k ⟨hr, hs⟩
    rw [hrep]
    exact ⟨hrequested hr, hs.imp_right (hserved hr.1)⟩
  match x with
  | .out .idle | .out .cpu | .out .disk => trivial
  | .out (.returned b k) => exact ⟨hrequested h.1, hserved h.1.1 h.2⟩
  | .out .trap | .wait .intr | .hold .intr => exact htrap h
  | .wait (.append b) | .hold (.append b) => exact hasks h
  | .hold (.scan b pp) =>
    obtain ⟨hq, hpp⟩ := hscan b pp rfl
    exact ⟨hasks h.1, hq.trans h.2.1, hpp h.2.2⟩
  | .wait (.wait b k) | .hold (.wait b k) => exact hwait h
  | .hold .next => exact hnext h
  | .wait (.scan _ _) | .wait .next => exact h.elim

/-- What holds for a process, and what the stage says about it. -/
structure Fine (d : Driver ι β) (q : List β) (st : Stage ι) (p : ι) (x : Place (Out β) (In β)) :
    Prop where
  here : Local d q st p x
  trapped : st = .trap p → Handles x
  starts : st = .next p → x = .hold .next

theorem Fine.mono (h : Fine d q st p x)
    (hown : ∀ b, d.owner b = some p → d'.owner b = some p ∧ d'.buf b = d.buf b)
    (hscan : ∀ b pp, x = .hold (.scan b pp) →
      d'.qnext b = d.qnext b ∧ (pp ∈ none :: q.map some → pp ∈ none :: q'.map some))
    (hreq : d.requests <+: d'.requests) (hrep : d'.replies = d.replies)
    (htrap : st = .trap p ↔ st' = .trap p) (hnext : st = .next p ↔ st' = .next p) :
    Fine d' q' st' p x :=
  ⟨h.here.mono hown hscan hreq hrep htrap.mp hnext.mp, fun e => h.trapped (htrap.mpr e),
    fun e => h.starts (hnext.mpr e)⟩

theorem Inv.fine (h : Inv disksize image d f st done pending m) (p : ι) :
    Fine d (pending.map Prod.fst) st p (f p) :=
  ⟨h.places p, h.trapped p, h.starts p⟩

theorem Inv.at_place (h : Inv disksize image d f st done pending m) (hp : f p = x) :
    Fine d (pending.map Prod.fst) st p x :=
  hp ▸ h.fine p

def Free (x : Place (Out β) (In β)) : Prop :=
  (∀ b k, ¬ Flight x b k) ∧ ¬ Handles x ∧ x ≠ .hold .next

theorem free_of_out {o : Out β} (h : o ≠ .trap) : Free (.out o) := by
  refine ⟨fun b k hf => ?_, fun hh => ?_, nofun⟩
  · rcases hf with e | e <;> cases e
  · rcases hh with e | e | e <;> cases e
    exact h rfl

theorem free_hold {i : In β} (hwait : ∀ b k, i ≠ .wait b k) (hintr : i ≠ .intr)
    (hnext : i ≠ .next) : Free (.hold i) := by
  refine ⟨fun b k hf => ?_, fun hh => ?_, fun e => hnext (Place.hold.inj e)⟩
  · rcases hf with e | e <;> cases e
    exact hwait b k rfl
  · rcases hh with e | e | e <;> cases e
    exact hintr rfl

section

variable (h : Inv disksize image d f st done pending m)

include h

theorem Inv.fine_of_free (hp : Free (f p)) (hx : Local d' q st p x) : Fine d' q st p x :=
  ⟨hx, fun e => absurd (h.trapped p e) hp.2.1, fun e => absurd (h.starts p e) hp.2.2⟩

theorem Inv.replies_length : d.replies.length = done.length := by
  have := congrArg List.length (Memide.run_fst h.mem)
  simpa using this

theorem Inv.mem_of_le (hr : Requested d p b k)
    (hk : d.replies.length ≤ k) : ∃ x, pending[k - done.length]? = some (b, x) := by
  obtain ⟨-, x, hx⟩ := hr
  rw [h.replies_length] at hk
  rw [h.requests, List.getElem?_append_right hk] at hx
  exact ⟨x, hx⟩

theorem Inv.flight_of_owner
    (hb : b ∈ pending.map Prod.fst) (hp : d.owner b = some p) : ∃ k, Flight (f p) b k := by
  obtain ⟨p', k, ho, hf⟩ := h.flight b hb
  cases hp.symm.trans ho
  exact ⟨k, hf⟩

theorem Inv.not_served (hb : b ∈ pending.map Prod.fst) : (d.buf b).done = false := by
  obtain ⟨⟨b, x⟩, he, rfl⟩ := List.mem_map.mp hb
  obtain ⟨hbuf, hfit⟩ := h.same _ he
  rw [hbuf]
  exact hfit.1

theorem Inv.not_mem (ho : d.owner b = some p)
    (hp : ∀ k, ¬ Flight (f p) b k) : b ∉ pending.map Prod.fst := by
  intro hb
  obtain ⟨k, hf⟩ := h.flight_of_owner hb ho
  exact hp k hf

theorem Inv.idequeue : d.idequeue = (pending.map Prod.fst).head? := by
  have hhead : d.cell none = ((pending.map Prod.fst).map some).headD none := h.ring.1
  rw [Driver.cell] at hhead
  rw [hhead]
  cases pending <;> rfl

theorem Inv.cells_nodup : (none :: (pending.map Prod.fst).map some).Nodup := by
  refine List.nodup_cons.mpr ⟨by simp, ?_⟩
  exact h.nodup.map (Option.some_injective β)

end

theorem take_length_succ {α : Type} (xs : List α) (y : α) (ys : List α) :
    (xs ++ y :: ys).take (xs.length + 1) = xs ++ [y] := by
  rw [List.take_length_add_append]
  rfl

theorem Inv.queued (h : Inv disksize image d f st done pending m) (hp : Handles (f p)) :
    ∃ b x rest, pending = (b, x) :: rest := by
  obtain rfl : st = .trap p := by rcases hp with e | e | e <;> exact (h.at_place e).here
  obtain ⟨b, x, rest, heq, -⟩ := h.disk
  exact ⟨b, x, rest, heq⟩

section

variable [DecidableEq β] {x₀ : Buf} {rest : List (β × Buf)}

theorem finish_buf : (finish d b).buf b = (d.buf b).finish d.ctl.port :=
  update_self _ _ _

theorem Served.finish {b' : β} (h : Served d b' k) (hb : b' ≠ b) : Served (finish d b) b' k := by
  have hbuf : (Ide.finish d b).buf b' = d.buf b' := update_of_ne hb _ _
  have hlt := (List.getElem?_eq_some_iff.mp h.1).1
  rw [Served, hbuf]
  exact ⟨(List.getElem?_append_left hlt).trans h.1, h.2⟩

/-- Whoever waits for another buffer than the first one goes on waiting, and whoever waits for the
first one is served. -/
theorem Inv.flight_finish (h : Inv disksize image d f st done ((b, x₀) :: rest) m) {b' : β}
    (hr : Requested d p' b' k) (hk : d.replies.length ≤ k ∨ Served d b' k) :
    (finish d b).replies.length ≤ k ∨ Served (finish d b) b' k := by
  have hlen : (finish d b).replies.length = d.replies.length + 1 := List.length_append
  have hdone : (d.buf b).done = false := h.not_served (List.mem_cons_self)
  rcases hk with hk | hs
  · obtain ⟨x, hx⟩ := h.mem_of_le hr hk
    rw [h.replies_length] at hk
    by_cases hk0 : k = done.length
    · -- this is the first request
      subst hk0
      rw [Nat.sub_self] at hx
      cases hx
      refine Or.inr ⟨?_, by rw [finish_buf]; rfl⟩
      have hat : (finish d b).replies[d.replies.length]? =
          some (b, (d.buf b).finish d.ctl.port) := by simp [finish]
      rw [← h.replies_length, hat, finish_buf]
    · refine Or.inl ?_
      rw [hlen, h.replies_length]
      omega
  · have hne : b' ≠ b := by
      rintro rfl
      exact absurd hs.2 (by rw [hdone]; simp)
    exact Or.inr (hs.finish hne)

theorem Inv.local_finish (h : Inv disksize image d f (.trap p) done ((b, x₀) :: rest) m)
    (hp' : p' ≠ p) (hnot : ¬ (f p').Holds) :
    Local (finish d b) (rest.map Prod.fst) (.next p) p' (f p') := by
  have hlocal := h.places p'
  have hb : b ∈ ((b, x₀) :: rest).map Prod.fst := List.mem_cons_self
  -- a process that does not wait has another buffer
  have hne : ∀ {b'}, d.owner b' = some p' → (∀ k, ¬ Flight (f p') b' k) → b' ≠ b := by
    rintro b' ho hf rfl
    exact h.not_mem ho hf hb
  have hasks : ∀ {b'}, d.owner b' = some p' ∧ (d.buf b').Fits → (∀ k, ¬ Flight (f p') b' k) →
      (finish d b).owner b' = some p' ∧ ((finish d b).buf b').Fits := by
    intro b' hb' hf
    have hbuf : (finish d b).buf b' = d.buf b' := update_of_ne (hne hb'.1 hf) _ _
    rw [hbuf]
    exact hb'
  cases hfp : f p' with
  | out o =>
    rw [hfp] at hlocal hne
    cases o with
    | idle | cpu | disk => trivial
    | trap => exact absurd (Stage.trap.inj hlocal).symm hp'
    | returned b' k =>
      exact ⟨hlocal.1, hlocal.2.finish (hne hlocal.1.1 fun k => by rintro (e | e) <;> cases e)⟩
  | wait i =>
    rw [hfp] at hlocal hasks
    cases i with
    | append b' => exact hasks hlocal fun k => by rintro (e | e) <;> cases e
    | scan | next => exact hlocal.elim
    | wait b' k => exact ⟨hlocal.1, h.flight_finish hlocal.1 hlocal.2⟩
    | intr => exact absurd (Stage.trap.inj hlocal).symm hp'
  | hold i =>
    rw [hfp] at hnot
    exact absurd trivial hnot

inductive Step (d : Driver ι β) : In β → InStep (Driver ι β) (Out β) (In β) (Option β) → Prop
  | append (b : β) :
      Step d (.append b) (.move { d with qnext := update d.qnext b none } (.scan b none))
  | scan (b : β) (pp : Option β) {d' : Driver ι β} {i : In β}
      (h : inside d (.scan b pp) = some (.move d' i)) : Step d (.scan b pp) (.move d' i)
  | returns (b : β) (k : Nat) (h : (d.buf b).done = true) :
      Step d (.wait b k) (.leave d (.returned b k))
  | sleep (b : β) (k : Nat) : Step d (.wait b k) (.sleep (.wait b k))
  | spurious (h : d.idequeue = none) : Step d .intr (.leave d .cpu)
  | finish (b : β) (h : d.idequeue = some b) : Step d .intr (.wake (some b) (finish d b) .next)
  | next {d' : Driver ι β} {o : Out β} (h : inside d .next = some (.leave d' o)) :
      Step d .next (.leave d' o)

theorem inside_step {i : In β} {x : InStep (Driver ι β) (Out β) (In β) (Option β)}
    (h : inside d i = some x) : Step d i x := by
  cases i with
  | append b =>
    cases h
    exact .append b
  | scan b pp =>
    have h' := h
    rw [inside] at h
    split at h
    · cases h
      exact .scan b pp h'
    · obtain ⟨d', -, rfl⟩ := Option.map_eq_some_iff.mp h
      exact .scan b pp h'
  | wait b k =>
    rw [inside] at h
    split at h <;> cases h
    · next hdone => exact .returns b k hdone
    · exact .sleep b k
  | intr =>
    rw [inside] at h
    split at h
    · next hnone =>
      cases h
      exact .spurious hnone
    · next b hsome =>
      split at h <;> cases h
      exact .finish b hsome
  | next =>
    have h' := h
    rw [inside] at h
    split at h
    · cases h
      exact .next h'
    · obtain ⟨c, -, rfl⟩ := Option.map_eq_some_iff.mp h
      exact .next h'

end

variable [DecidableEq ι]

theorem Flight.update (h : Flight (f p') b k) (hp : ¬ Flight (f p) b k) :
    Flight (update f p x p') b k := by
  rw [Flight, update_of_ne]
  · exact h
  · rintro rfl
    exact hp h

theorem fine_update (hx : Fine d q st p x) (hne : ∀ p', p' ≠ p → Fine d q st p' (f p')) (p' : ι) :
    Fine d q st p' (update f p x p') :=
  (Function.forall_update_iff f (Fine d q st)).mpr ⟨hx, hne⟩ p'

section

variable (h : Inv disksize image d f st done pending m)

include h

/-- A step of process `p` that leaves the queue, the disk and the histories alone, and the buffers
of the others. -/
theorem Inv.frame (hp : Free (f p))
    (hring : Circular.Ring d'.cell none ((pending.map Prod.fst).map some))
    (hscan : ∀ p' b pp, p' ≠ p → f p' = .hold (.scan b pp) → d'.qnext b = d.qnext b)
    (hreq : d'.requests = d.requests) (hrep : d'.replies = d.replies) (hctl : d'.ctl = d.ctl)
    (hothers : ∀ p' b, p' ≠ p → d.owner b = some p' →
      d'.owner b = some p' ∧ d'.buf b = d.buf b) (hx : Local d' (pending.map Prod.fst) st p x) :
    Inv disksize image d' (update f p x) st done pending m := by
  have hstays : ∀ b ∈ pending.map Prod.fst, ∃ p' k, d'.owner b = some p' ∧ d'.buf b = d.buf b ∧
      Flight (update f p x p') b k := by
    intro b hb
    obtain ⟨p', k, ho, hf⟩ := h.flight b hb
    have hp' : p' ≠ p := by
      rintro rfl
      exact hp.1 b k hf
    obtain ⟨ho', hbuf⟩ := hothers p' b hp' ho
    exact ⟨p', k, ho', hbuf, hf.update (hp.1 b k)⟩
  have hfine := fine_update (h.fine_of_free hp hx) fun p' hp' =>
    (h.fine p').mono (hothers p' · hp') (fun b pp hpp => ⟨hscan p' b pp hp' hpp, id⟩)
      (hreq ▸ List.prefix_rfl) hrep Iff.rfl Iff.rfl
  refine ⟨hring, h.nodup, hreq.trans h.requests, fun e he => ?_, hrep ▸ h.mem, fun b hb => ?_,
    fun p' => (hfine p').here, fun p' => (hfine p').trapped, fun p' => (hfine p').starts,
    hctl ▸ h.irq, hctl ▸ h.commands, hctl ▸ h.disk, hctl ▸ h.other⟩
  · obtain ⟨p', k, -, hbuf, -⟩ := hstays e.1 (List.mem_map_of_mem he)
    rw [hbuf]
    exact h.same e he
  · obtain ⟨p', k, ho, -, hf⟩ := hstays b hb
    exact ⟨p', k, ho, hf⟩

theorem Inv.move (hflight : ∀ b k, Flight (f p) b k → b ∈ pending.map Prod.fst → Flight x b k)
    (hx : Fine d (pending.map Prod.fst) st p x) :
    Inv disksize image d (update f p x) st done pending m := by
  have hfine := fine_update hx fun p' _ => h.fine p'
  refine { h with
    flight := fun b hb => ?_
    places := fun p' => (hfine p').here
    trapped := fun p' => (hfine p').trapped
    starts := fun p' => (hfine p').starts }
  obtain ⟨p', k, ho, hf⟩ := h.flight b hb
  refine ⟨p', k, ho, ?_⟩
  by_cases hp' : p' = p
  · subst hp'
    rw [update_self]
    exact hflight b k hf hb
  · rwa [update_of_ne hp']

/-- A step of process `p` that changes the disk, and what it and `ideintr` are doing. -/
theorem Inv.restage {c : Controller}
    (hst : ∀ p', p' ≠ p → st ≠ .trap p' ∧ st ≠ .next p' ∧ st' ≠ .trap p' ∧ st' ≠ .next p')
    (hflight : ∀ b k, ¬ Flight (f p) b k)
    (hx : Fine { d with ctl := c } (pending.map Prod.fst) st' p x) (hirq : c.irq = st'.irqs)
    (hcommands : c.commands =
      ((done ++ pending).take (done.length + st'.started)).map (regs ·.2))
    (hdisk : st'.Disk disksize c m pending) (hother : ∀ n, n ≠ 1 → c.image n = image n) :
    Inv disksize image { d with ctl := c } (update f p x) st' done pending m := by
  have hfine := fine_update hx fun p' hp' => by
    obtain ⟨h₁, h₂, h₃, h₄⟩ := hst p' hp'
    exact (h.fine p').mono (fun b ho => ⟨ho, rfl⟩) (fun b pp _ => ⟨rfl, id⟩) List.prefix_rfl rfl
      (iff_of_false h₁ h₃) (iff_of_false h₂ h₄)
  refine ⟨h.ring, h.nodup, h.requests, h.same, h.mem, fun b hb => ?_, fun p' => (hfine p').here,
    fun p' => (hfine p').trapped, fun p' => (hfine p').starts, hirq, hcommands, hdisk, hother⟩
  obtain ⟨p', k, ho, hf⟩ := h.flight b hb
  exact ⟨p', k, ho, hf.update (hflight b k)⟩

theorem Inv.enqueue {pp : Option β}
    (hp : f p = .hold (.scan b pp)) (halone : ∀ p', p' ≠ p → ¬ (f p').Holds)
    (hend : d.cell pp = none) (hpp : d'.cell pp = some b)
    (hcell : ∀ c, c ≠ pp → d'.cell c = d.cell c)
    (hbuf : d'.buf = d.buf) (howner : d'.owner = d.owner)
    (hreq : d'.requests = d.requests ++ [(b, d.buf b)]) (hrep : d'.replies = d.replies)
    (hst : ∀ p', (st = .trap p' ↔ st' = .trap p') ∧ (st = .next p' ↔ st' = .next p'))
    (hirq : d'.ctl.irq = st'.irqs) (hcommands : d'.ctl.commands =
      ((done ++ (pending ++ [(b, d.buf b)])).take (done.length + st'.started)).map (regs ·.2))
    (hdisk : st'.Disk disksize d'.ctl m (pending ++ [(b, d.buf b)]))
    (hother : ∀ n, n ≠ 1 → d'.ctl.image n = image n) :
    Inv disksize image d' (update f p (.hold (.wait b d.requests.length))) st' done
      (pending ++ [(b, d.buf b)]) m := by
  obtain ⟨⟨ho, hfits⟩, hqnext, hmem⟩ := (h.at_place hp).here
  have hfree : Free (f p) := hp ▸ free_hold nofun nofun nofun
  have hnew : b ∉ pending.map Prod.fst := h.not_mem ho (hfree.1 b)
  have hmap : (pending ++ [(b, d.buf b)]).map Prod.fst = pending.map Prod.fst ++ [b] := by simp
  have hcells : some b ∉ none :: (pending.map Prod.fst).map some := by
    simpa using hnew
  have hbend : d'.cell (some b) = none := by
    have hbpp : some b ≠ pp := by
      rintro rfl
      exact hcells hmem
    rw [hcell _ hbpp]
    exact hqnext
  have hasked : Local d' (pending.map Prod.fst ++ [b]) st' p
      (.hold (.wait b d.requests.length)) := by
    refine ⟨⟨by rw [howner]; exact ho, d.buf b, ?_⟩, Or.inl ?_⟩
    · rw [hreq, List.getElem?_append_right le_rfl, Nat.sub_self]
      rfl
    · rw [hrep, h.replies_length, h.requests, List.length_append]
      exact Nat.le_add_right _ _
  have hfine := fine_update (f := f)
    ⟨hasked, fun e => absurd (h.trapped p ((hst p).1.mpr e)) hfree.2.1,
      fun e => absurd (h.starts p ((hst p).2.mpr e)) hfree.2.2⟩ fun p' hp' =>
    (h.fine p').mono (fun b' ho' => ⟨by rw [howner]; exact ho', by rw [hbuf]⟩)
      (fun b' pp' hpp' => (halone p' hp' (by rw [hpp']; trivial)).elim)
      (by rw [hreq]; exact List.prefix_append _ _) hrep (hst p').1 (hst p').2
  rw [← hmap] at hfine
  refine ⟨?_, ?_, ?_, fun e he => ?_, by rw [hrep]; exact h.mem, fun b' hb' => ?_,
    fun p' => (hfine p').here, fun p' => (hfine p').trapped, fun p' => (hfine p').starts, hirq,
    hcommands, hdisk, hother⟩
  · rw [hmap, List.map_append]
    exact h.ring.snoc h.cells_nodup hmem hend hcells hpp hbend fun c _ hc => hcell c hc
  · rw [hmap]
    refine List.nodup_append.mpr ⟨h.nodup, List.nodup_singleton b, ?_⟩
    rintro b' hb' _ hb'' rfl
    rw [List.mem_singleton] at hb''
    exact hnew (hb'' ▸ hb')
  · rw [hreq, h.requests, List.append_assoc]
  · rw [hbuf]
    rcases List.mem_append.mp he with he | he
    · exact h.same e he
    · rw [List.mem_singleton] at he
      subst he
      exact ⟨rfl, hfits⟩
  · rw [howner]
    rw [hmap] at hb'
    rcases List.mem_append.mp hb' with hb' | hb'
    · obtain ⟨p', k, ho', hf⟩ := h.flight b' hb'
      exact ⟨p', k, ho', hf.update (hfree.1 b' k)⟩
    · rw [List.mem_singleton] at hb'
      subst hb'
      exact ⟨p, _, ho, Or.inr (update_self ..)⟩

end

theorem Inv.transfer (hsize : fsSize ≤ disksize) (h : Inv disksize image d f st done pending m)
    (hp : f p = .out .disk) {r : Regs} (hr : d.ctl.busy = some r) :
    Inv disksize image { d with ctl := d.ctl.transfer r } (update f p (.out .disk)) .irq
      done pending m := by
  have hst : st = .busy := by
    have hdisk := h.disk
    cases st with
    | busy => rfl
    | quiet | next =>
      rw [Stage.Disk, hr] at hdisk
      simp at hdisk
    | irq | trap =>
      rw [Stage.Disk, hr] at hdisk
      simp at hdisk
  subst hst
  obtain ⟨b, x, rest, rfl, hbusy, hport, himage⟩ := h.disk
  cases hr.symm.trans hbusy
  have hfits : x.Fits := (h.same (b, x) List.mem_cons_self).2
  have hirq : d.ctl.irq = 0 := h.irq
  have hfree : Free (f p) := hp ▸ free_of_out nofun
  refine h.restage (fun _ _ => ⟨nofun, nofun, nofun, nofun⟩) hfree.1
    ⟨trivial, nofun, nofun⟩ ?_ h.commands ⟨b, x, rest, rfl, rfl, ?_⟩ fun n hn => (transfer_image hfits hn).trans (h.other n hn)
  · rw [Controller.transfer, hirq]
    rfl
  · rw [← himage]
    exact transfer_regs hsize hfits hport

theorem Inv.interrupt (h : Inv disksize image d f st done pending m) (hp : f p = .out .cpu)
    (hirq : 0 < d.ctl.irq) :
    Inv disksize image { d with ctl.irq := d.ctl.irq - 1 } (update f p (.out .trap))
      (.trap p) done pending m := by
  have hst : st = .irq := by
    rw [h.irq] at hirq
    cases st <;> first | rfl | cases hirq
  subst hst
  have hone : d.ctl.irq = 1 := h.irq
  have hfree : Free (f p) := hp ▸ free_of_out nofun
  refine h.restage (fun p' hp' => ⟨nofun, nofun, fun e => ?_, nofun⟩) hfree.1
    ⟨rfl, fun _ => Or.inl rfl, nofun⟩ ?_ h.commands h.disk h.other
  · exact hp' (Stage.trap.inj e).symm
  · rw [hone]
    rfl

theorem Inv.returns (h : Inv disksize image d f st done pending m) (hp : f p = .hold (.wait b k))
    (hdone : (d.buf b).done = true) :
    Inv disksize image d (update f p (.out (.returned b k))) st done pending m := by
  obtain ⟨hlocal, hhandles, hstarts⟩ := h.at_place hp
  have hout : b ∉ pending.map Prod.fst := fun hb => by
    rw [h.not_served hb] at hdone
    cases hdone
  refine h.move (fun b' k' hf hb => ?_)
    ⟨⟨hlocal.1, hlocal.2.resolve_left fun hk => ?_⟩, fun e => ?_, fun e => ?_⟩
  · rw [hp] at hf
    rcases hf with e | e <;> cases e
    exact absurd hb hout
  · obtain ⟨x, hx⟩ := h.mem_of_le hlocal.1 hk
    exact hout (List.mem_map_of_mem (List.mem_of_getElem? hx))
  · rcases hhandles e with e | e | e <;> cases e
  · cases hstarts e

section

variable [DecidableEq β] {x₀ : Buf} {rest : List (β × Buf)}

theorem Inv.finished (h : Inv disksize image d f (.trap p) done ((b, x₀) :: rest) m)
    (hp : f p = .hold .intr) (halone : ∀ p', p' ≠ p → ¬ (f p').Holds) :
    Inv disksize image (finish d b) (update f p (.hold .next)) (.next p)
      (done ++ [(b, x₀)]) rest (d.ctl.image 1) := by
  obtain ⟨_, _, _, heq, hbusy, hmem⟩ := h.disk
  cases heq
  have hbuf : d.buf b = x₀ := (h.same (b, x₀) List.mem_cons_self).1
  have hnodup := List.nodup_cons.mp h.nodup
  have hfine := fine_update (f := f) (⟨rfl, nofun, fun _ => rfl⟩ :
    Fine (finish d b) (rest.map Prod.fst) (.next p) p (.hold .next)) fun p' hp' =>
      ⟨h.local_finish hp' (halone p' hp'), nofun, fun e => absurd (Stage.next.inj e).symm hp'⟩
  refine ⟨?_, hnodup.2, by rw [List.append_assoc]; exact h.requests, fun e he => ?_, ?_,
    fun b' hb' => ?_, fun p' => (hfine p').here, fun p' => (hfine p').trapped,
    fun p' => (hfine p').starts, h.irq, ?_, ⟨hbusy, rfl⟩, h.other⟩
  · refine h.ring.tail rfl fun c hc => ?_
    obtain ⟨c, -, rfl⟩ := List.mem_map.mp hc
    rfl
  · have hb : e.1 ≠ b := by
      intro e'
      exact hnodup.1 (List.mem_map.mpr ⟨e, he, e'⟩)
    have hsame : (finish d b).buf e.1 = d.buf e.1 := update_of_ne hb _ _
    rw [hsame]
    exact h.same e (List.mem_cons_of_mem _ he)
  · have hrep : (finish d b).replies = d.replies ++ [(b, x₀.finish d.ctl.port)] := by
      rw [← hbuf]
      rfl
    rw [hrep]
    exact Memide.run_snoc h.mem hmem
  · obtain ⟨p', k, ho, hf⟩ := h.flight b' (List.mem_cons_of_mem _ hb')
    refine ⟨p', k, ho, hf.update ?_⟩
    rw [hp]
    rintro (e | e) <;> cases e
  · have hcommands : d.ctl.commands = _ := h.commands
    simp only [Stage.started, take_length_succ] at hcommands ⊢
    change d.ctl.commands = _
    rw [hcommands, Nat.add_zero, List.take_left]

section

variable (h : Inv disksize image d f st done pending m)

include h

theorem Inv.call_move (hp : Free (f p))
    {r : Call β} {o : Out β} (hcall : call d p r = some (.move d' o)) :
    Inv disksize image d' (update f p (.out o)) st done pending m := by
  cases r with
  | lock b =>
    rw [call] at hcall
    split at hcall <;> cases hcall
    next hfree =>
    refine h.frame hp h.ring (fun _ _ _ _ _ => rfl) rfl rfl rfl (fun p' b' _ ho => ⟨?_, rfl⟩) trivial
    refine (update_of_ne ?_ _ _).trans ho
    rintro rfl
    rw [hfree] at ho
    cases ho
  | unlock b =>
    rw [call] at hcall
    split at hcall <;> cases hcall
    next hmine =>
    refine h.frame hp h.ring (fun _ _ _ _ _ => rfl) rfl rfl rfl (fun p' b' hp' ho => ⟨?_, rfl⟩) trivial
    refine (update_of_ne ?_ _ _).trans ho
    rintro rfl
    rw [hmine] at ho
    exact hp' (Option.some.inj ho).symm
  | change b x =>
    rw [call] at hcall
    split at hcall <;> cases hcall
    next hmine =>
    refine h.frame hp h.ring (fun _ _ _ _ _ => rfl) rfl rfl rfl (fun p' b' hp' ho => ⟨ho, ?_⟩) trivial
    refine update_of_ne ?_ _ _
    rintro rfl
    rw [ho] at hmine
    rcases hmine with e | e
    · exact hp' (Option.some.inj e)
    · cases e
  | iderw b =>
    rw [call] at hcall
    split at hcall <;> cases hcall
  | go => cases hcall

theorem Inv.call_enter (hp : Free (f p))
    {r : Call β} {i : In β} (hcall : call d p r = some (.enter i)) :
    Inv disksize image d (update f p (.wait i)) st done pending m := by
  cases r with
  | iderw b =>
    rw [call] at hcall
    split at hcall <;> cases hcall
    next hreq =>
    exact h.move (fun b k hf => absurd hf (hp.1 b k)) (h.fine_of_free hp ⟨hreq.1, hreq.2.1⟩)
  | lock | unlock | change =>
    rw [call] at hcall
    split at hcall <;> cases hcall
  | go => cases hcall

theorem Inv.start (hp : f p = .hold .next)
    {o : Out β} (hstep : inside d .next = some (.leave d' o)) :
    ∃ st', Inv disksize image d' (update f p (.out o)) st' done pending m := by
  obtain rfl : st = .next p := (h.at_place hp).here
  obtain ⟨hbusy, himage⟩ := h.disk
  have hothers : ∀ p', p' ≠ p → Stage.next p ≠ .trap p' ∧ Stage.next p ≠ .next p' := fun p' hp' =>
    ⟨nofun, fun e => hp' (Stage.next.inj e).symm⟩
  have hflight : ∀ b k, ¬ Flight (f p) b k := by
    rw [hp]
    rintro b k (e | e) <;> cases e
  have hqueue := h.idequeue
  have hirq := h.irq
  have hcommands := h.commands
  rw [inside] at hstep
  split at hstep
  · next hnone =>
    obtain rfl : pending = [] := by
      rw [hnone] at hqueue
      simpa using hqueue.symm
    cases hstep
    exact ⟨.quiet, h.restage (c := d.ctl) (fun p' hp' => ⟨(hothers p' hp').1, (hothers p' hp').2,
      nofun, nofun⟩) hflight ⟨trivial, nofun, nofun⟩ hirq hcommands ⟨rfl, hbusy, himage⟩ h.other⟩
  · next b hsome =>
    obtain ⟨x, rest, rfl⟩ : ∃ x rest, pending = (b, x) :: rest := by
      rw [hsome] at hqueue
      cases pending with
      | nil => cases hqueue
      | cons e rest =>
        cases hqueue
        exact ⟨e.2, rest, rfl⟩
    obtain ⟨hbuf, hfits⟩ := h.same (b, x) List.mem_cons_self
    simp only [hbuf, idestart_eq hfits hbusy, Option.map_some] at hstep
    cases hstep
    refine ⟨.busy, h.restage ?_ hflight ⟨trivial, nofun, nofun⟩ hirq ?_ ?_ h.other⟩
    · exact fun p' hp' => ⟨(hothers p' hp').1, (hothers p' hp').2, nofun, nofun⟩
    · simp only [Stage.started, take_length_succ] at hcommands ⊢
      rw [hcommands]
      simp
    · exact ⟨b, x, rest, rfl, rfl, fun hd => if_pos hd, himage⟩

theorem Inv.scan {pp : Option β} {i : In β}
    (hp : f p = .hold (.scan b pp)) (halone : ∀ p', p' ≠ p → ¬ (f p').Holds)
    (hstep : inside d (.scan b pp) = some (.move d' i)) :
    ∃ st' pending', Inv disksize image d' (update f p (.hold i)) st' done pending' m := by
  obtain ⟨⟨ho, hfits⟩, hqnext, hmem⟩ := (h.at_place hp).here
  have hfree : Free (f p) := hp ▸ free_hold nofun nofun nofun
  have hnonext : ∀ p', st ≠ .next p' := by
    intro p' e
    have hhold := h.starts p' e
    refine halone p' ?_ (by rw [hhold]; trivial)
    rintro rfl
    exact hfree.2.2 hhold
  have hnew : b ∉ pending.map Prod.fst := h.not_mem ho (hfree.1 b)
  rw [inside] at hstep
  cases hcell : d.cell pp with
  | some c =>
    rw [hcell] at hstep
    cases hstep
    refine ⟨st, pending, h.move (fun b k hf => absurd hf (hfree.1 b k))
      (h.fine_of_free hfree ⟨⟨ho, hfits⟩, hqnext, ?_⟩)⟩
    rw [← hcell]
    exact h.ring.ptr_mem hmem
  | none =>
    rw [hcell] at hstep
    obtain ⟨d₁, hd₁, heq⟩ := Option.map_eq_some_iff.mp hstep
    cases heq
    have hset : ∀ c, c ≠ pp → (d.setCell pp (some b)).cell c = d.cell c := by
      intro c hc
      cases pp <;> cases c <;> first | exact absurd rfl hc | rfl | skip
      exact update_of_ne (fun e => hc (congrArg some e)) _ _
    have hset' : (d.setCell pp (some b)).cell pp = some b := by
      cases pp with
      | none => rfl
      | some c => exact update_self _ _ _
    have hctl : (d.setCell pp (some b)).ctl = d.ctl := by cases pp <;> rfl
    have hbuf : (d.setCell pp (some b)).buf = d.buf := by cases pp <;> rfl
    have howner : (d.setCell pp (some b)).owner = d.owner := by cases pp <;> rfl
    have hrep : (d.setCell pp (some b)).replies = d.replies := by cases pp <;> rfl
    simp only [Ide.enqueue, hctl, hbuf] at hd₁
    have hqueue := h.idequeue
    have hdisk := h.disk
    have hirq := h.irq
    have hcommands := h.commands
    cases pending with
    | nil =>
      -- the queue is empty, and the disk is started
      obtain rfl : pp = none := by simpa using hmem
      have hst : st = .quiet := by
        cases st with
        | quiet => rfl
        | next p' => exact absurd rfl (hnonext p')
        | busy | irq | trap =>
          obtain ⟨_, _, _, e, -⟩ := hdisk
          cases e
      subst hst
      obtain ⟨-, hbusy, himage⟩ := hdisk
      have hhead : (d.setCell none (some b)).idequeue = some b := rfl
      rw [if_pos hhead, idestart_eq hfits hbusy] at hd₁
      cases hd₁
      refine ⟨.busy, [(b, d.buf b)], ?_⟩
      refine h.enqueue hp halone hcell hset' hset rfl rfl rfl rfl ?_ hirq ?_ ?_ h.other
      · exact fun p' => ⟨iff_of_false nofun nofun, iff_of_false nofun nofun⟩
      · simp only [Stage.started, List.nil_append, take_length_succ] at hcommands ⊢
        rw [hcommands]
        simp
      · exact ⟨b, d.buf b, [], rfl, rfl, fun hd => if_pos hd, himage⟩
    | cons e rest =>
      -- the disk works on the first request
      obtain ⟨c, rfl⟩ : ∃ c, pp = some c := by
        cases pp with
        | none =>
          rw [Driver.cell, hqueue] at hcell
          cases hcell
        | some c => exact ⟨c, rfl⟩
      have hhead : (d.setCell (some c) (some b)).idequeue ≠ some b := by
        intro e'
        refine hnew (List.mem_of_mem_head? ?_)
        rw [← hqueue]
        exact e'
      rw [if_neg hhead] at hd₁
      cases hd₁
      refine ⟨st, e :: rest ++ [(b, d.buf b)], ?_⟩
      refine h.enqueue hp halone hcell hset' hset rfl rfl rfl rfl
        (fun p' => ⟨Iff.rfl, Iff.rfl⟩) hirq ?_ ?_ h.other
      · have hle : done.length + st.started ≤ (done ++ e :: rest).length := by
          rw [List.length_append, List.length_cons]
          cases st <;> simp only [Stage.started] <;> omega
        rw [hcommands, ← List.append_assoc, List.take_append_of_le_length hle]
      · cases st with
        | quiet => cases hdisk.1
        | next p' => exact hdisk
        | busy | irq | trap =>
          obtain ⟨b', x', rest', heq, hdisk⟩ := hdisk
          cases heq
          exact ⟨b', x', rest ++ [(b, d.buf b)], rfl, hdisk⟩

theorem Inv.append (hp : f p = .hold (.append b)) (halone : ∀ p', p' ≠ p → ¬ (f p').Holds) :
    Inv disksize image { d with qnext := update d.qnext b none }
      (update f p (.hold (.scan b none))) st done pending m := by
  have hlocal := (h.at_place hp).here
  have hfree : Free (f p) := hp ▸ free_hold nofun nofun nofun
  have hnew : b ∉ pending.map Prod.fst := h.not_mem hlocal.1 (hfree.1 b)
  refine h.frame hfree ?_ (fun p' b' pp hp' e => ?_) rfl rfl rfl (fun p' b' _ ho => ⟨ho, rfl⟩)
    ⟨hlocal, update_self _ _ _, List.mem_cons_self⟩
  · refine Circular.Path.congr h.ring fun c hc => ?_
    rcases List.mem_cons.mp hc with rfl | hc
    · rfl
    · obtain ⟨b', hb', rfl⟩ := List.mem_map.mp hc
      refine update_of_ne ?_ _ _
      rintro rfl
      exact hnew hb'
  · exact (halone p' hp' (by rw [e]; trivial)).elim

end

/-- **Every step keeps the invariant.** -/
theorem ide_keeps (hsize : fsSize ≤ disksize) :
    (ide : Client ι (Driver ι β) (Out β) (In β) (Option β) (Call β)).Keeps fun d f =>
      ∃ st done pending m, Inv disksize image d f st done pending m where
  out_move := by
    rintro d d' f p o o' r ⟨st, done, pending, m, h⟩ hp hstep
    cases o with
    | idle | returned =>
      exact ⟨st, done, pending, m, h.call_move (by rw [hp]; exact free_of_out nofun) hstep⟩
    | cpu =>
      cases r <;> simp only [ide, reduceCtorEq] at hstep
      split at hstep <;> cases hstep
      next hirq => exact ⟨.trap p, done, pending, m, h.interrupt hp hirq⟩
    | trap => cases r <;> cases hstep
    | disk =>
      cases r <;> simp only [ide, reduceCtorEq] at hstep
      obtain ⟨r, hr, heq⟩ := Option.map_eq_some_iff.mp hstep
      cases heq
      exact ⟨.irq, done, pending, m, h.transfer hsize hp hr⟩
  out_enter := by
    rintro d f p o i r ⟨st, done, pending, m, h⟩ hp hstep
    cases o with
    | idle | returned =>
      exact ⟨st, done, pending, m, h.call_enter (by rw [hp]; exact free_of_out nofun) hstep⟩
    | cpu =>
      cases r <;> simp only [ide, reduceCtorEq] at hstep
      split at hstep <;> cases hstep
    | trap =>
      cases r <;> cases hstep
      obtain rfl : st = .trap p := (h.at_place hp).here
      refine ⟨_, done, pending, m, h.move (fun b k hf => ?_)
        ⟨rfl, fun _ => Or.inr (Or.inl rfl), nofun⟩⟩
      rw [hp] at hf
      rcases hf with e | e <;> cases e
    | disk =>
      cases r <;> simp only [ide, reduceCtorEq] at hstep
      obtain ⟨r, hr, heq⟩ := Option.map_eq_some_iff.mp hstep
      cases heq
  enter := by
    rintro d f p i ⟨st, done, pending, m, h⟩ hp -
    obtain ⟨hlocal, hhandles, hstarts⟩ := h.at_place hp
    refine ⟨st, done, pending, m, h.move (fun b k hf _ => ?_) ⟨?_, fun e => ?_, fun e => ?_⟩⟩
    · rw [hp] at hf
      rcases hf with e | e <;> cases e
      exact Or.inr rfl
    · cases i <;> first | exact hlocal | exact hlocal.elim
    · rcases hhandles e with e | e | e <;> cases e
      exact Or.inr (Or.inr rfl)
    · cases hstarts e
  in_move := by
    rintro d d' f p i i' r ⟨st, done, pending, m, h⟩ hp halone hstep
    cases inside_step hstep with
    | append b =>
      exact ⟨st, done, pending, m, h.append hp halone⟩
    | scan b pp hscan =>
      obtain ⟨st', pending', h'⟩ := h.scan hp halone hscan
      exact ⟨st', done, pending', m, h'⟩
  in_leave := by
    rintro d d' f p i o r ⟨st, done, pending, m, h⟩ hp halone hstep
    cases inside_step hstep with
    | returns b k hdone => exact ⟨st, done, pending, m, h.returns hp hdone⟩
    | spurious hnone =>
      obtain ⟨b, x, rest, rfl⟩ := h.queued (by rw [hp]; exact Or.inr (Or.inr rfl))
      rw [h.idequeue] at hnone
      cases hnone
    | next hnext =>
      obtain ⟨st', h'⟩ := h.start hp hnext
      exact ⟨st', done, pending, m, h'⟩
  in_wake := by
    rintro d d' f p i c i' r ⟨st, done, pending, m, h⟩ hp halone hstep
    cases inside_step hstep with
    | finish b hsome =>
      obtain rfl : st = .trap p := (h.at_place hp).here
      obtain ⟨b', x, rest, rfl⟩ := h.queued (by rw [hp]; exact Or.inr (Or.inr rfl))
      obtain rfl : b' = b := by
        rw [h.idequeue] at hsome
        exact Option.some.inj hsome
      exact ⟨_, _, _, _, h.finished hp halone⟩
  in_sleep := by
    rintro d f p i i' r ⟨st, done, pending, m, h⟩ hp halone hstep
    cases inside_step hstep with
    | sleep b k =>
      obtain ⟨hlocal, hhandles, hstarts⟩ := h.at_place hp
      refine ⟨st, done, pending, m, h.move (fun b' k' hf _ => ?_)
        ⟨hlocal, fun e => ?_, fun e => ?_⟩⟩
      · rw [hp] at hf
        rcases hf with e | e <;> cases e
        exact Or.inl rfl
      · rcases hhandles e with e | e | e <;> cases e
      · cases hstarts e

end

end

structure Driver.Initial (d : Driver ι β) : Prop where
  idequeue : d.idequeue = none
  busy : d.ctl.busy = none
  irq : d.ctl.irq = 0
  commands : d.ctl.commands = []
  requests : d.requests = []
  replies : d.replies = []

section

variable {disksize : Nat} {image : Nat → Image} {d : Driver ι β}
  {f : ι → Place (Out β) (In β)} {st : Stage ι} {done pending : List (β × Buf)} {m : Image}

theorem Driver.Initial.inv (h : d.Initial) {role : ι → Role} :
    Inv disksize d.ctl.image d (fun p => .out (role p).out) .quiet [] [] (d.ctl.image 1) where
  ring := ⟨h.idequeue, trivial⟩
  nodup := List.nodup_nil
  requests := h.requests
  same := nofun
  mem := by rw [h.replies]; rfl
  flight := nofun
  places p := by cases role p <;> trivial
  trapped := nofun
  starts := nofun
  irq := h.irq
  commands := h.commands
  disk := ⟨rfl, h.busy, rfl⟩
  other _ _ := rfl

/-- The disk is where the driver in memory is after the finished requests, or after one more. -/
theorem Inv.memide (h : Inv disksize image d f st done pending m) :
    ∃ n ys, d.replies.length ≤ n ∧ n ≤ d.replies.length + 1 ∧ n ≤ d.requests.length ∧
      Memide.run disksize (image 1) (d.requests.take n) = some (d.ctl.image 1, ys) ∧
      d.replies = ys.take d.replies.length := by
  have hlen := h.replies_length
  have hle : d.replies.length ≤ d.requests.length := by
    rw [hlen, h.requests, List.length_append]
    exact Nat.le_add_right _ _
  have hfinished : d.ctl.image 1 = m →
      Memide.run disksize (image 1) (d.requests.take d.replies.length) =
        some (d.ctl.image 1, d.replies) := by
    intro himage
    rw [h.requests, hlen, List.take_left, himage]
    exact h.mem
  have hone : (∃ b x rest, pending = (b, x) :: rest ∧ d.ctl.busy = none ∧
      Memide.iderw disksize true m x = some (d.ctl.image 1, x.finish d.ctl.port)) →
      ∃ n ys, d.replies.length ≤ n ∧ n ≤ d.replies.length + 1 ∧ n ≤ d.requests.length ∧
        Memide.run disksize (image 1) (d.requests.take n) = some (d.ctl.image 1, ys) ∧
        d.replies = ys.take d.replies.length := by
    rintro ⟨b, x, rest, rfl, -, hmem⟩
    refine ⟨_, d.replies ++ [(b, x.finish d.ctl.port)], Nat.le_succ _, le_rfl, ?_, ?_, by simp⟩
    · rw [hlen, h.requests, List.length_append, List.length_cons]
      omega
    · rw [h.requests, hlen, Nat.succ_eq_add_one, take_length_succ]
      exact Memide.run_snoc h.mem hmem
  have hdisk := h.disk
  cases st with
  | quiet => exact ⟨_, _, le_rfl, Nat.le_succ _, hle, hfinished hdisk.2.2, List.take_length.symm⟩
  | next => exact ⟨_, _, le_rfl, Nat.le_succ _, hle, hfinished hdisk.2, List.take_length.symm⟩
  | busy =>
    obtain ⟨b, x, rest, -, -, -, himage⟩ := hdisk
    exact ⟨_, _, le_rfl, Nat.le_succ _, hle, hfinished himage, List.take_length.symm⟩
  | irq => exact hone hdisk
  | trap => exact hone hdisk

theorem Inv.busy_head (h : Inv disksize image d f st done pending m) {r : Regs}
    (hr : d.ctl.busy = some r) :
    st = .busy ∧ ∃ b rest, pending.map Prod.fst = b :: rest ∧ r = regs (d.buf b) := by
  have hdisk := h.disk
  cases st with
  | busy =>
    obtain ⟨b, x, rest, rfl, hbusy, -, -⟩ := hdisk
    cases hr.symm.trans hbusy
    have hbuf : d.buf b = x := (h.same (b, x) List.mem_cons_self).1
    exact ⟨rfl, b, rest.map Prod.fst, rfl, by rw [hbuf]⟩
  | quiet =>
    rw [hdisk.2.1] at hr
    cases hr
  | next =>
    rw [hdisk.1] at hr
    cases hr
  | irq | trap =>
    obtain ⟨b, x, rest, -, hbusy, -⟩ := hdisk
    rw [hbusy] at hr
    cases hr

end

variable [DecidableEq ι] [DecidableEq β]

/-- **The driver refines the one in memory.** Along every run of processes that call `iderw` for
locked buffers of disk 1 within the file system, of the disk and of the interrupt handler:

- the queue holds no buffer twice;
- the requests are finished once each and in the order of their arrival, and the queue holds the
  others;
- the disk gets one command for each request, in this order, and at most one command is in
  progress, the one for the first buffer of the queue; while there are requests, one is in progress
  or about to be started;
- when `iderw` returns, its own request is finished, and the buffer is valid and not dirty;
- calling `iderw` of `memide.c` for the same buffers in the same order gives the same buffers and
  the same disk, which may be ahead by the request whose interrupt has not been handled yet. -/
theorem ide_refines_memide {disksize : Nat} (hsize : fsSize ≤ disksize) {role : ι → Role}
    {d₀ : Driver ι β} (h₀ : d₀.Initial) {as : List (Action ι (Call β))}
    {s : State ι (Driver ι β) (Out β) (In β) (Option β)}
    (hr : Transition.run ide.step (Client.start d₀ fun p => (role p).out) as = some s) :
    ∃ q : List β, Circular.Ring s.data.cell none (q.map some) ∧ q.Nodup ∧
      s.data.requests.map Prod.fst = s.data.replies.map Prod.fst ++ q ∧
      (∃ n ≤ 1, s.data.ctl.commands =
          (s.data.requests.take (s.data.replies.length + n)).map (regs ·.2) ∧
        (∀ r, s.data.ctl.busy = some r →
          n = 1 ∧ ∃ b rest, q = b :: rest ∧ r = regs (s.data.buf b)) ∧
        (q ≠ [] → n = 1 ∨ ∃ p, (s.pc p).place = .hold .next)) ∧
      (∀ p b k, (s.pc p).place = .out (.returned b k) →
        (∃ x, s.data.requests[k]? = some (b, x)) ∧
        s.data.replies[k]? = some (b, s.data.buf b) ∧
        (s.data.buf b).valid = true ∧ (s.data.buf b).dirty = false) ∧
      (∃ n ys, s.data.replies.length ≤ n ∧ n ≤ s.data.replies.length + 1 ∧
        n ≤ s.data.requests.length ∧
        Memide.run disksize (d₀.ctl.image 1) (s.data.requests.take n) =
          some (s.data.ctl.image 1, ys) ∧
        s.data.replies = ys.take s.data.replies.length) ∧
      ∀ n, n ≠ 1 → s.data.ctl.image n = d₀.ctl.image n := by
  obtain ⟨st, done, pending, m, h⟩ := (ide_keeps hsize).run ⟨_, _, _, _, h₀.inv⟩ hr
  refine ⟨pending.map Prod.fst, h.ring, h.nodup, ?_, ⟨st.started, ?_, ?_, fun r hr => ?_,
    fun hq => ?_⟩, fun p b k hp => ?_, h.memide, h.other⟩
  · rw [h.requests, List.map_append, Memide.run_fst h.mem]
  · cases st <;> simp [Stage.started]
  · rw [h.commands, h.requests, h.replies_length]
  · obtain ⟨rfl, hhead⟩ := h.busy_head hr
    exact ⟨rfl, hhead⟩
  · have hdisk := h.disk
    cases st with
    | quiet =>
      rw [hdisk.1] at hq
      exact absurd rfl hq
    | busy | irq | trap => exact Or.inl rfl
    | next p => exact Or.inr ⟨p, h.starts p rfl⟩
  · obtain ⟨⟨-, hreq⟩, hrep, hdone⟩ := (h.at_place hp).here
    rw [Buf.done, Bool.and_eq_true, Bool.not_eq_true'] at hdone
    exact ⟨hreq, hrep, hdone⟩

/-- Process 0 has buffer 0, to be written, and process 1 has buffer 1, to be read; the block is the
same. -/
def sameBlock : Driver (Fin 4) (Fin 2) where
  idequeue := none
  qnext := fun _ => none
  havedisk1 := true
  buf := fun b => ⟨false, b == 0, 1, 5, fun _ => if b = 0 then 7 else 0⟩
  owner := fun b => some (b.castLE (by decide))
  ctl := ⟨none, fun _ => 0, fun _ _ => 0, 0, []⟩
  requests := []
  replies := []

def twoProcesses (p : Fin 4) : Role :=
  if p = 2 then .cpu else if p = 3 then .disk else .process

/-- Process 0 asks for the write, and process 1 for the read while the disk works. -/
def writeRead : List (Action (Fin 4) (Call (Fin 2))) :=
  .run 0 (.iderw 0) :: List.replicate 7 (.run 0 .go) ++
    .run 1 (.iderw 1) :: List.replicate 8 (.run 1 .go) ++
    .run 3 .go :: List.replicate 8 (.run 2 .go) ++ .run 3 .go :: List.replicate 8 (.run 2 .go) ++
    List.replicate 4 (.run 0 .go) ++ List.replicate 4 (.run 1 .go)

theorem ide_refines_memide_writeRead : ∃ s,
    Transition.run ide.step (Client.start sameBlock fun p => (twoProcesses p).out) writeRead =
      some s ∧
    s.data.replies.length = 2 ∧ (s.data.buf 1).bytes 0 = 7 ∧ (s.data.buf 1).valid = true ∧
    (s.data.buf 1).dirty = false ∧ ∃ ys,
      Memide.run fsSize (fun _ => 0) s.data.requests = some (s.data.ctl.image 1, ys) ∧
      s.data.replies = ys := by
  have h : ((Transition.run ide.step (Client.start sameBlock fun p => (twoProcesses p).out)
      writeRead).map fun s => decide (s.data.requests.length = 2 ∧ s.data.replies.length = 2 ∧
        (s.data.buf 1).bytes 0 = 7 ∧ (s.pc 1).place = .out (.returned 1 1))) = some true := by
    decide +kernel
  obtain ⟨s, hs, h⟩ := Option.map_eq_some_iff.mp h
  obtain ⟨hreq, hrep, hdata, hp⟩ := of_decide_eq_true h
  obtain ⟨q, -, -, -, -, hret, ⟨n, ys, hn, -, hn', hmem, hys⟩, -⟩ :=
    ide_refines_memide le_rfl ⟨rfl, rfl, rfl, rfl, rfl, rfl⟩ hs
  obtain ⟨-, -, hvalid, hdirty⟩ := hret 1 1 1 hp
  obtain rfl : n = 2 := by omega
  rw [List.take_of_length_le (by omega)] at hmem
  have hlen := congrArg List.length (Memide.run_fst hmem)
  simp only [List.length_map] at hlen
  rw [List.take_of_length_le (by omega)] at hys
  exact ⟨s, hs, hrep, hdata, hvalid, hdirty, ys, hmem, hys⟩

end Xv6.Ide
