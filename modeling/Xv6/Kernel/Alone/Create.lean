import Xv6.Kernel.Alone.Lookup

namespace Xv6.Kernel

open Fs Hoare Program

/-- The parent directory of the path is there, and has no entry for the last element. -/
def Machine.Lacks (sb : Superblock) (s : Machine) (p : Nat) (path : List UInt8) : Prop :=
  ∃ i name, s.resolve sb p true path = some (i, name) ∧ lookup (s.node sb i).data name = none

theorem Node.Ranged.setEntry {sb : Superblock} {n : Node} (h : n.Ranged sb) {j : Nat}
    {src : Nat → UInt8} (hj : direntSize * j ≤ n.data.length)
    (hnew : (Dirent.ofBytes ((List.range direntSize).map src)).inum < sb.ninodes) :
    (n.setEntry j src).Ranged sb := by
  intro hdir k hk
  by_cases hkj : k = j
  · subst hkj
    rw [entryAt_setEntry_self hj]
    exact hnew
  · obtain ⟨hk', heq⟩ := entryAt_setEntry_of_ne hj hkj hk
    rw [heq]
    exact h hdir k hk'

theorem Node.Ranged.linkIn {sb : Superblock} {n : Node} (h : n.Ranged sb) {name : Name} {i : Nat}
    (hj : direntSize * emptySlot n.data ≤ n.data.length) (hi : i < sb.ninodes) :
    (n.linkIn name i).Ranged sb := by
  refine h.setEntry hj ?_
  rw [ofBytes_direntBytes]
  exact lt_of_le_of_lt (Nat.mod_le _ _) hi

namespace Alone

variable {sb : Superblock} {C : Prop} {p k ip dp : Nat} {X : Multiset Nat} {L : Finset Nat}
  {s s' : Machine} {E : Stop → Prop}

/-- Why `dirlink` may stop: `dp` is not a directory with whole entries, `icache` is full, the name
names an inode that the process has locked, or the entry cannot be written. -/
def LinkStop (sb : Superblock) (p : Nat) (X : Multiset Nat) (L : Finset Nat) (s : Machine)
    (dp : Nat) (name : Name) (inum : Nat) (e : Stop) : Prop :=
  e ≠ .wrong ∧
    (¬ ((s.get sb dp).type = tDir ∧ direntSize ∣ (s.get sb dp).data.length) ∨
    (e = .panic "iget: no inodes" ∧ Full X s ∧ ∀ j k, lookup (s.get sb dp).data name = some j →
      Keeps X s k → s.inum k ≠ (entryAt (s.get sb dp).data j).inum) ∨
    (∃ j, lookup (s.get sb dp).data name = some j ∧
      ∃ k ∈ L, s.inum k = (entryAt (s.get sb dp).data j).inum ∧ e = .asleep (.inode k)) ∨
    (lookup (s.get sb dp).data name = none ∧
      (Machine.handler sb p (.writei dp (direntBytes name inum)
        (UInt32.ofNat (direntSize * emptySlot (s.get sb dp).data)) (UInt32.ofNat direntSize)) s =
          .error e ∨
      maxFile * bsize < direntSize * emptySlot (s.get sb dp).data + direntSize)))

theorem Inv.wp_dirlink (h : Inv sb p X L s) {name : Name} {inum : Nat}
    (hE : ∀ e, LinkStop sb p X L s dp name inum e → E e) (hdp : dp ∈ L) {Q : Bool → Machine → Prop}
    (hfalse : ∀ j s', lookup (s.get sb dp).data name = some j →
      (∀ k ∈ L, s.inum k ≠ (entryAt (s.get sb dp).data j).inum) →
      Inv sb p X L s' → Walk sb True X s s' → Q false s')
    (htrue : ∀ s', lookup (s.get sb dp).data name = none → Settled sb s' → s'.tables = s.tables →
      s'.node sb = Function.update (s.node sb) (s.inum dp) ((s.get sb dp).linkIn name inum) →
      direntSize * emptySlot (s.get sb dp).data ≤ (s.get sb dp).data.length → Q true s') :
    Wp sb p (dirlink dp name inum) Q E s := by
  rw [dirlink]
  have hpanic : ∀ {P : Prop} msg, (P → ¬ ((s.get sb dp).type = tDir ∧
      direntSize ∣ (s.get sb dp).data.length)) → P → E (.panic msg) := fun msg hP hp =>
    hE _ ⟨fun hw => Stop.noConfusion hw, .inl (hP hp)⟩
  refine Wp.bind (h.wp_dirlookup (C := True) (fun hn e he => hE e ⟨he, .inl hn⟩)
    (fun hfull hnew => hE _ ⟨fun hw => Stop.noConfusion hw, .inr (.inl ⟨rfl, hfull, hnew⟩)⟩) hdp
    (fun hdir hl => ?_) ?_)
  · have hd := h.isDir hdp hdir
    refine Wp.bind (h.wp_attrs hdp (Wp.bind ?_))
    simp only [hd.size_eq]
    refine hd.wp_scan (hpanic _ fun hn hd => hn hd.2) _ _ (by omega) ?_
    -- the entry number that the loop leaves behind
    have hj : (((search (fun de => decide (de.inum = 0)) (s.get sb dp).data 0).map
          fun i => (i, entryAt (s.get sb dp).data i)).map Prod.fst).getD
        (((s.get sb dp).data.length + (direntSize - 1)) / direntSize) =
        emptySlot (s.get sb dp).data := by
      rw [emptySlot]
      cases search (fun de => decide (de.inum = 0)) (s.get sb dp).data 0 <;> rfl
    have hoff : direntSize * emptySlot (s.get sb dp).data < 2 ^ 32 := by
      have hle := emptySlot_le_length (s.get sb dp).data
      have hlt := hd.small.lt
      simp only [direntSize] at hle ⊢
      omega
    rw [hj]
    refine Wp.bind (wp_writeData h.settled
      (fun e he hne => hE e ⟨hne, .inr (.inr (.inr ⟨hl, .inl he⟩))⟩) (h.held hdp)
      fun s' _ hs htab hnode => ?_)
    rw [writeNode_entry hdir hoff] at hnode ⊢
    split at hnode
    · next hacc =>
      rw [if_pos hacc]
      exact Wp.ite (fun hc => absurd rfl hc) fun _ => Wp.pure (htrue s' hl hs htab hnode hacc.1)
    · next hacc =>
      rw [if_neg hacc]
      refine Wp.ite (fun _ => wp_panic (hE _ ⟨fun hw => Stop.noConfusion hw, ?_⟩))
        fun hc => absurd hc (by simp)
      -- the entry is past the end of the directory, or past the largest size
      by_cases hdvd : direntSize ∣ (s.get sb dp).data.length
      · refine .inr (.inr (.inr ⟨hl, .inr (not_le.mp fun hmax => hacc ⟨?_, hmax⟩)⟩))
        exact emptySlot_mul_le hdvd
      · exact .inl fun hd => hdvd hd.2
  · intro ip j s₁ h₁ hw₁ _ hdir hl hinum hv
    have heq : ∀ k ∈ L, s.inum k = (entryAt (s.get sb dp).data j).inum → k = ip := by
      intro k hk hki
      have hkeep := h.keeps_of_pos (h.locked k hk).1
      refine h₁.unique (h₁.ref_pos (hw₁.keeps_iff.mpr hkeep |>.mono fun _ =>
        Multiset.mem_cons_of_mem)) (h₁.ref_pos (keeps_self ip X s₁)) ?_
      rw [hw₁.inum k hkeep, hki, hinum]
    by_cases hipL : ip ∈ L
    · have hkeep := h.keeps_of_pos (h.locked ip hipL).1
      refine Wp.bind (h₁.wp_iput_locked hipL (hE _ ⟨fun hw => Stop.noConfusion hw, ?_⟩))
      exact .inr (.inr (.inl ⟨j, hl, ip, hipL, by rw [← hw₁.inum ip hkeep, hinum], rfl⟩))
    · -- a slot that was empty has not been read, and another has one more reference now
      have hdies : ¬ s₁.Dies sb ip := fun hd =>
        h₁.not_dies (.inr ⟨ip, hw₁.keeps_iff.mpr (hv hd.1), rfl⟩) hd
      refine Wp.bind (h₁.wp_iput (C := True) (fun hc => ?_) (fun _ => hdies) fun s₂ h₂ hw₂ =>
        Wp.pure (hfalse j s₂ hl (fun k hk hki => hipL (heq k hk hki ▸ hk)) h₂ (hw₁.trans hw₂)))
      exact absurd trivial (hc.resolve_left hipL)

theorem Inv.wp_create (h : Inv sb p X L s) (hE : Tame E)
    (hdrop : (s.tables.proc p).dropped = false) (hcalm : C → Calm sb X s) {path : List UInt8}
    {type major minor : Int16} {Q : Option Nat → Machine → Prop}
    (hnone : ∀ s', Inv sb p X L s' → Walk sb C X s s' → ¬ s.Lacks sb p path → Q none s')
    (hfound : ∀ ip s', Inv sb p (ip ::ₘ X) (insert ip L) s' → ip ∉ L → Walk sb C X s s' →
      ¬ s.Lacks sb p path → type = tFile → (s'.get sb ip).type = tFile →
      (C → Anchored sb X s' (s'.inum ip)) → Q (some ip) s')
    (hnew : ∀ dp name s', Inv sb p (dp ::ₘ X) (insert dp L) s' → dp ∉ L → Walk sb C X s s' →
      s.Lacks sb p path → Wp sb p (createNew dp name type major minor) Q E s') :
    Wp sb p (create path type major minor) Q E s := by
  rw [create, nameiparent]
  refine Wp.bind (h.wp_namex (.inl hE) (fun _ => hE) hdrop hcalm (fun s₁ h₁ hw₁ hres => Wp.pure ?_) ?_)
  · refine hnone s₁ h₁ hw₁ fun ⟨i, name, hi, _⟩ => ?_
    rw [hres] at hi
    cases hi
  intro dp name s₁ h₁ hw₁ hres hanch₁
  refine Wp.bind (h₁.wp_ilock (C := C) (fun _ => hE) (keeps_self dp X s₁) ?_)
  intro s₂ h₂ hw₂ hnode₂ hdpL htype
  have hget : s₂.get sb dp = s₁.get sb dp := hw₂.get (keeps_self dp X s₁)
  obtain ⟨hw₂, -, hkeep₂⟩ := hw₂.drop
  have hw : Walk sb C X s s₂ := hw₁.trans hw₂
  have hcalm₂ : C → Calm sb X s₂ := fun hc => hw.calm_of hc (hcalm hc)
  have hanch := hkeep₂ hanch₁
  have hdp : dp ∈ insert dp L := Finset.mem_insert_self dp L
  -- the directory is allocated, so it is as it was before the call
  have hsame : s₂.get sb dp = s.node sb (s₁.inum dp) := hget.trans (hw₁.node_eq htype)
  refine Wp.bind (h₂.wp_dirlookup (C := C) (fun _ => hE) (fun _ _ => hE.panic _) hdp
    (fun _ hl => ?_) ?_)
  · exact hnew dp name s₂ h₂ hdpL hw ⟨_, name, hres, hsame ▸ hl⟩
  intro ip j s₃ h₃ hw₃ _ hdir hl hinum₃ _
  have hlacks : ¬ s.Lacks sb p path := by
    rintro ⟨i, name', hi, hlook⟩
    rw [hres] at hi
    cases hi
    rw [← hsame, hl] at hlook
    cases hlook
  obtain ⟨hw₃, -, hkeep₃⟩ := hw₃.drop
  rw [Multiset.cons_swap] at h₃
  refine Wp.bind (h₃.wp_iunlockput (C := C) hdpL (fun _ => hE) (fun hc => ?_) fun s₄ h₄ hw₄ => ?_)
  · exact (hkeep₃ hanch hc).mono fun _ => Multiset.mem_cons_of_mem
  obtain ⟨hw₄, -, hkeep₄⟩ := hw₄.drop
  have hanch₄ : C → Anchored sb X s₄ (s₄.inum ip) := hkeep₄ fun hc => by
    rw [hinum₃]
    exact hw₃.anchored hc ((hcalm₂ hc).entry hdir hl)
  refine Wp.bind (h₄.wp_ilock (C := C) (fun _ => hE) (keeps_self ip X s₄) ?_)
  intro s₅ h₅ hw₅ _ hipL _
  obtain ⟨hw₅, -, hkeep₅⟩ := hw₅.drop
  have hw' : Walk sb C X s s₅ := hw.trans (hw₃.trans (hw₄.trans hw₅))
  have hanch₅ := hkeep₅ hanch₄
  refine Wp.bind (h₅.wp_attrs (Finset.mem_insert_self ip L) (Wp.ite (fun hfile => ?_) fun _ => ?_))
  · exact Wp.pure (hfound ip s₅ h₅ hipL hw' hlacks hfile.1 hfile.2 hanch₅)
  · exact Wp.bind (h₅.wp_iunlockput hipL (fun _ => hE) hanch₅ fun s₆ h₆ hw₆ =>
      Wp.pure (hnone s₆ h₆ (hw'.trans hw₆) hlacks))

end Alone

end Xv6.Kernel
