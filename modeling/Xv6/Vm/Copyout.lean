import Xv6.Vm.Grow

/-!
# Copying to user memory

`copyout` goes through the pages of a range of addresses, which may wrap, and stops at the first
page that the user cannot reach. `uva2ka` reads the entry that `walkpgdir` finds without asking
whether there is one: if that first page has no page table, this is a read through a null pointer.
-/

namespace Xv6.Vm

open Bytes Hoare

variable {L : Layout} {d v w x o j n va : Nat} {mem mem' : Nat → Bytes} {buf : List UInt8}
  {m : Nat → Option Nat} {F hand : Multiset Nat} {s : Phys} {E : Fault → Prop}

def userFrame (mem : Nat → Bytes) (d v : Nat) : Option Nat :=
  ((lookup mem d v).filter pteU).map pteAddr

def virt (va j : Nat) : Nat := (va + j) % 2 ^ 32

/-- Where byte `j` of the range from `va` on is: the page and the offset. -/
def place (mem : Nat → Bytes) (d va j : Nat) : Option (Nat × Nat) :=
  (userFrame mem d (virt va j / pgSize)).map fun x => (x, virt va j % pgSize)

/-- A page directory: `P2V` takes its page tables and the user's pages, and the user's pages are not
part of it. -/
structure Target (mem : Nat → Bytes) (d : Nat) : Prop where
  table : ∀ v, v < 2 ^ 20 → HasTable mem d v → tableOf mem d v * pgSize ≤ kernBase
  frame : ∀ v x, v < 2 ^ 20 → userFrame mem d v = some x →
    x * pgSize ≤ kernBase ∧ x ≠ d ∧ x ∉ tables mem d

/-- What `copyout` returns, and the memory it leaves. Where two bytes of the range are at one place
it is the later one that stays. -/
structure CopyoutPost (mem : Nat → Bytes) (d va : Nat) (buf : List UInt8) (ok : Bool)
    (mem' : Nat → Bytes) : Prop where
  result : ok = true ↔ ∀ j, j < buf.length → (place mem d va j).isSome
  still : ∀ x o, (∀ j, j < buf.length → place mem d va j ≠ some (x, o)) → mem' x o = mem x o
  copied : ok = true → ∀ j b x o, buf[j]? = some b → place mem d va j = some (x, o) →
    (∀ i, j < i → i < buf.length → place mem d va i ≠ some (x, o)) → mem' x o = b

/-- The call returns, and nothing but user pages of the range has changed. -/
def CopyoutOk (s : Phys) (d va : Nat) (buf : List UInt8) : Prop :=
  ∃ ok mem', copyout d va buf s = .ok (ok, { s with mem := mem' }) ∧
    CopyoutPost s.mem d va buf ok mem'

/-- If the user cannot reach byte `j` of the range, and can reach all bytes before it, there is a
page table for it. -/
def TablesThere (mem : Nat → Bytes) (d va n : Nat) : Prop :=
  ∀ j, j < n → (∀ i, i < j → (place mem d va i).isSome) → HasTable mem d (virt va j / pgSize)

theorem userFrame_eq_some : userFrame mem d v = some x ↔
    ∃ w, lookup mem d v = some w ∧ pteU w = true ∧ pteAddr w = x := by
  simp [userFrame, Option.map_eq_some_iff, Option.filter_eq_some_iff, and_assoc]

theorem userFrame_of_none (h : lookup mem d v = none) : userFrame mem d v = none := by
  rw [userFrame, h]
  rfl

theorem Dir.target (hF : Pool L F) (h : Dir F s d hand m)
    (huser : ∀ v w, v < 2 ^ 20 → m v = some w → pteU w = true → v < userPages) : Target s.mem d where
  table v hv ht := hF.le_kernBase (h.mem_of_table (tableOf_mem hv ht))
  frame v x hv hx := by
    obtain ⟨w, hw, hu, rfl⟩ := userFrame_eq_some.mp hx
    rw [h.map v hv] at hw
    have hframe : pteAddr w ∈ frames m := mem_frames.mpr ⟨v, huser v w hv hw hu, w, hw, rfl⟩
    have hkept := h.kept hF (.inr (Multiset.mem_add.mpr (.inr hframe)))
    exact ⟨hF.le_kernBase (h.mem_of_frame hframe), hkept.2⟩

theorem Target.write (h : Target mem d) (hv : v < 2 ^ 20) (hx : userFrame mem d v = some x)
    (hmem : ∀ y, y ≠ x → mem' y = mem y) :
    (∀ u, HasTable mem' d u ↔ HasTable mem d u) ∧
      (∀ u, u < 2 ^ 20 → userFrame mem' d u = userFrame mem d u) ∧ Target mem' d := by
  obtain ⟨-, hd, ht⟩ := h.frame v x hv hx
  have hdir : mem' d = mem d := hmem d hd.symm
  have hword : ∀ i, word mem' d i = word mem d i := fun i => by rw [word, hdir, word]
  have hhas : ∀ u, HasTable mem' d u ↔ HasTable mem d u := fun u => by
    rw [HasTable, hword, HasTable]
  have hframe : ∀ u, u < 2 ^ 20 → userFrame mem' d u = userFrame mem d u := fun u hu => by
    rw [userFrame, lookup_congr hdir (fun y hy => hmem y fun e => ht (e ▸ hy)) hu, userFrame]
  refine ⟨hhas, hframe, fun u hu hu' => ?_, fun u y hu hy => ?_⟩
  · rw [tableOf, hword]
    exact h.table u hu ((hhas u).mp hu')
  · rw [hframe u hu] at hy
    rw [tables_congr hword]
    exact h.frame u y hu hy

theorem virt_lt (va j : Nat) : virt va j / pgSize < 2 ^ 20 := by
  rw [virt, pgSize]
  omega

theorem place_congr (h : ∀ u, u < 2 ^ 20 → userFrame mem' d u = userFrame mem d u) :
    place mem' d va j = place mem d va j := by
  rw [place, h _ (virt_lt va j), place]

theorem wp_uva2ka_of_not_table {Q : Option Nat → Phys → Prop} (hva : va < 2 ^ 32)
    (ht : ¬ HasTable s.mem d (va / pgSize)) : wp (uva2ka d va) Q E s ↔ E .nullEntry := by
  rw [uva2ka, wp_bind, wp_walkpgdir_of_not_table hva ht]
  rfl

theorem wp_uva2ka_of_table {Q : Option Nat → Phys → Prop} (h : Target s.mem d) (hva : va < 2 ^ 32)
    (ht : HasTable s.mem d (va / pgSize)) :
    wp (uva2ka d va) Q E s ↔ Q (userFrame s.mem d (va / pgSize)) s := by
  have hv : va / pgSize < 2 ^ 20 := by
    rw [pgSize]
    omega
  obtain ⟨pte, hpte⟩ : ∃ pte, word s.mem (tableOf s.mem d (va / pgSize))
    (va / pgSize % 1024) = pte := ⟨_, rfl⟩
  rw [uva2ka, wp_bind, wp_walkpgdir_of_table hva ht (h.table _ hv ht), wp_bind, wp_getWord, hpte]
  by_cases hp : pteP pte = true
  · have hlookup := lookup_eq_some.mpr ⟨ht, hpte, hp⟩
    rw [if_neg (by rw [hp]; decide)]
    by_cases hu : pteU pte = true
    · have hx := userFrame_eq_some.mpr ⟨pte, hlookup, hu, rfl⟩
      rw [if_neg (by rw [hu]; decide), hx, wp_bind]
      exact wp_p2v (Q := fun v s' => wp (pure (some v)) Q E s') (h.frame _ _ hv hx).1
    · rw [if_pos (Bool.eq_false_iff.mpr hu), userFrame, hlookup, Option.filter_some_neg (Bool.eq_false_iff.mpr hu)]
      rfl
  · rw [if_pos (Bool.eq_false_iff.mpr hp), userFrame_of_none]
    · rfl
    · rw [lookup_of_table ht, hpte, if_neg hp]

/-- The bytes of the range that are in its first page. -/
def inFirst (va n : Nat) : Nat := min (pgSize - va % pgSize) n

theorem virt_first (hva : va < 2 ^ 32) (hj : j < inFirst va n) :
    virt va j / pgSize = va / pgSize ∧ virt va j % pgSize = va % pgSize + j := by
  rw [inFirst] at hj
  simp only [virt, pgSize] at hj ⊢
  omega

theorem virt_next (hn : inFirst va n + j < n) :
    virt va (inFirst va n + j) = virt ((pgRoundDown va + pgSize) % 2 ^ 32) j := by
  rw [inFirst] at hn ⊢
  simp only [virt, pgRoundDown, pgSize] at hn ⊢
  omega

theorem place_next (hn : inFirst va n + j < n) :
    place mem d va (inFirst va n + j) = place mem d ((pgRoundDown va + pgSize) % 2 ^ 32) j := by
  rw [place, virt_next hn, place]

theorem place_first (hva : va < 2 ^ 32) (hj : j < inFirst va n) :
    place mem d va j = (userFrame mem d (va / pgSize)).map fun x => (x, va % pgSize + j) := by
  obtain ⟨hpage, hoff⟩ := virt_first hva hj
  rw [place, hpage, hoff]

theorem forall_lt_iff_rest {P : Nat → Prop} {k : Nat} (hfirst : ∀ j, j < k → P j) :
    (∀ j, j < n → P j) ↔ ∀ j, j < n - k → P (k + j) := by
  refine ⟨fun h j hj => h _ (by omega), fun h j hj => ?_⟩
  by_cases hlt : j < k
  · exact hfirst j hlt
  · have hrest := h (j - k) (by omega)
    rwa [show k + (j - k) = j by omega] at hrest

theorem TablesThere.step (hva : va < 2 ^ 32) (hx : userFrame mem d (va / pgSize) = some x) :
    TablesThere mem d va n ↔
      TablesThere mem d ((pgRoundDown va + pgSize) % 2 ^ 32) (n - inFirst va n) := by
  have hsome : ∀ j, j < inFirst va n → (place mem d va j).isSome := fun j hj => by
    rw [place_first hva hj, hx]
    rfl
  rw [TablesThere, forall_lt_iff_rest (k := inFirst va n)]
  · refine forall_congr' fun j => forall_congr' fun hj => ?_
    rw [virt_next (by omega)]
    refine imp_congr_left ⟨fun h i hi => ?_, fun h i hi => ?_⟩
    · rw [← place_next (n := n) (by omega)]
      exact h _ (by omega)
    · by_cases hlt : i < inFirst va n
      · exact hsome i hlt
      · have hrest := h (i - inFirst va n) (by omega)
        rwa [← place_next (n := n) (by omega), show inFirst va n + (i - inFirst va n) = i by omega] at hrest
  · intro j hj _
    obtain ⟨w, hw, -⟩ := userFrame_eq_some.mp hx
    rw [(virt_first hva hj).1]
    exact (lookup_eq_some.mp hw).1

theorem TablesThere.congr (hhas : ∀ u, HasTable mem' d u ↔ HasTable mem d u)
    (hframe : ∀ u, u < 2 ^ 20 → userFrame mem' d u = userFrame mem d u) :
    TablesThere mem' d va n ↔ TablesThere mem d va n := by
  simp only [TablesThere, hhas, place_congr hframe]

/-- One round: the bytes in the first page `x` are written, and the rest goes on from there. -/
theorem CopyoutPost.step {ok : Bool} (hva : va < 2 ^ 32)
    (hx : userFrame mem d (va / pgSize) = some x)
    (hframe : ∀ u, u < 2 ^ 20 → userFrame (Function.update mem x (writeBytes (mem x) (va % pgSize)
      (buf.take (inFirst va buf.length)))) d u = userFrame mem d u)
    (h : CopyoutPost (Function.update mem x (writeBytes (mem x) (va % pgSize)
      (buf.take (inFirst va buf.length)))) d ((pgRoundDown va + pgSize) % 2 ^ 32)
      (buf.drop (inFirst va buf.length)) ok mem') : CopyoutPost mem d va buf ok mem' := by
  obtain ⟨k, hk⟩ : ∃ k, inFirst va buf.length = k := ⟨_, rfl⟩
  have hkle : k ≤ buf.length := hk ▸ Nat.min_le_right _ _
  have hlen : (buf.take k).length = k := by
    rw [List.length_take]
    omega
  have hfirst : ∀ j, j < k → place mem d va j = some (x, va % pgSize + j) := fun j hj => by
    rw [place_first hva (hk ▸ hj), hx]
    rfl
  have hnext : ∀ j, k + j < buf.length → place (Function.update mem x (writeBytes (mem x)
      (va % pgSize) (buf.take k))) d ((pgRoundDown va + pgSize) % 2 ^ 32) j =
        place mem d va (k + j) := fun j hj => by
    subst hk
    rw [place_congr hframe, place_next hj]
  rw [hk] at h
  obtain ⟨hresult, hstill, hcopied⟩ := h
  rw [List.length_drop] at hresult hstill hcopied
  refine ⟨?_, fun y o hy => ?_, fun hok j b y o hb hj hlast => ?_⟩
  · have hsplit : (∀ j, j < buf.length → (place mem d va j).isSome) ↔ ∀ j, j < buf.length - k →
        (place mem d va (k + j)).isSome :=
      forall_lt_iff_rest fun j hj => by rw [hfirst j hj]; rfl
    rw [hresult, hsplit]
    exact forall₂_congr fun j hj => by rw [hnext j (by omega)]
  · rw [hstill y o fun j hj => by rw [hnext j (by omega)]; exact hy _ (by omega)]
    by_cases hyx : y = x
    · subst hyx
      rw [Function.update_self, writeBytes_of_not_mem]
      by_contra hmem
      refine hy (o - va % pgSize) (by omega) ?_
      rw [hfirst _ (by omega), show va % pgSize + (o - va % pgSize) = o by omega]
    · rw [Function.update_of_ne hyx]
  · have hlt := (List.getElem?_eq_some_iff.mp hb).1
    by_cases hjk : j < k
    · rw [hfirst j hjk, Option.some_inj, Prod.mk.injEq] at hj
      obtain ⟨rfl, rfl⟩ := hj
      rw [hstill _ _ fun i hi => by rw [hnext i (by omega)]; exact hlast _ (by omega) (by omega),
        Function.update_self, writeBytes_of_mem (by omega) (by omega), Nat.add_sub_cancel_left,
        List.getD_eq_getElem?_getD, List.getElem?_take_of_lt hjk, hb]
      rfl
    · refine hcopied hok (j - k) b y o ?_ ?_ fun i hi hi' => ?_
      · rw [List.getElem?_drop, show k + (j - k) = j by omega, hb]
      · rw [hnext _ (by omega), show k + (j - k) = j by omega, hj]
      · rw [hnext i (by omega)]
        exact hlast _ (by omega) (by omega)

theorem CopyoutPost.nil : CopyoutPost mem d va [] true mem :=
  ⟨by simp, fun _ _ _ => rfl, by simp⟩

theorem CopyoutPost.unreachable (hva : va < 2 ^ 32) (hpos : 0 < buf.length)
    (h : userFrame mem d (va / pgSize) = none) : CopyoutPost mem d va buf false mem := by
  have hfirst : place mem d va 0 = none := by
    rw [place_first (n := buf.length) hva, h]
    · rfl
    · rw [inFirst, pgSize]
      omega
  refine ⟨⟨nofun, fun hall => ?_⟩, fun _ _ _ => rfl, nofun⟩
  have hsome := hall 0 hpos
  rw [hfirst] at hsome
  exact absurd hsome (by simp)

/-- What is true of the first byte decides if the user cannot reach it. -/
theorem TablesThere.unreachable (hva : va < 2 ^ 32) (hpos : 0 < n)
    (h : userFrame mem d (va / pgSize) = none) :
    TablesThere mem d va n ↔ HasTable mem d (va / pgSize) := by
  have hinfirst : 0 < inFirst va n := by
    rw [inFirst, pgSize]
    omega
  have hpage := (virt_first hva hinfirst).1
  refine ⟨fun hall => hpage ▸ hall 0 hpos (by simp), fun ht j hj hbefore => ?_⟩
  cases j with
  | zero => rwa [hpage]
  | succ j =>
    have hsome := hbefore 0 (Nat.succ_pos j)
    rw [place_first hva hinfirst, h] at hsome
    exact absurd hsome (by simp)

/-- The loop returns with what it should if the page tables it needs are there, and otherwise reads
an entry that is not there. -/
theorem wp_copyoutLoop : ∀ (n va : Nat) (buf : List UInt8) (s : Phys), va < 2 ^ 32 →
    buf.length ≤ n → Target s.mem d →
    wp (copyoutLoop d n va buf)
      (fun ok s' => TablesThere s.mem d va buf.length ∧
        ∃ mem', s' = { s with mem := mem' } ∧ CopyoutPost s.mem d va buf ok mem')
      (fun e => e = .nullEntry ∧ ¬ TablesThere s.mem d va buf.length) s := by
  intro n
  induction n with
  | zero =>
    intro va buf s hva hn h
    have hnil : buf = [] := List.length_eq_zero_iff.mp (by omega)
    subst hnil
    exact ⟨fun j hj => absurd hj (by simp), s.mem, rfl, .nil⟩
  | succ n ih =>
    intro va buf s hva hn h
    rw [copyoutLoop]
    refine wp_ite (fun hpos => ?_) fun hpos => ?_
    · have hround : pgRoundDown va / pgSize = va / pgSize := by
        simp only [pgRoundDown, pgSize]
        omega
      have hdown : pgRoundDown va < 2 ^ 32 := by
        simp only [pgRoundDown, pgSize]
        omega
      have hoff : va - pgRoundDown va = va % pgSize := by
        simp only [pgRoundDown, pgSize]
        omega
      have hv : va / pgSize < 2 ^ 20 := by
        rw [pgSize]
        omega
      rw [wp_bind]
      by_cases ht : HasTable s.mem d (va / pgSize)
      · rw [wp_uva2ka_of_table h hdown (by rwa [hround]), hround]
        cases hx : userFrame s.mem d (va / pgSize) with
        | none => exact ⟨(TablesThere.unreachable hva hpos hx).mpr ht, s.mem, rfl,
            .unreachable hva hpos hx⟩
        | some x =>
          -- the bytes of this page are written, and the directory is not in it
          dsimp only
          rw [wp_bind, wp_getPage, wp_bind, wp_setPage, hoff, ← inFirst]
          obtain ⟨mem₁, hmem₁⟩ : ∃ mem₁, Function.update s.mem x (writeBytes (s.mem x)
            (va % pgSize) (buf.take (inFirst va buf.length))) = mem₁ := ⟨_, rfl⟩
          have hother : ∀ y, y ≠ x → mem₁ y = s.mem y := fun y hy => by
            rw [← hmem₁, Function.update_of_ne hy]
          obtain ⟨hhas, hframe, htarget⟩ := h.write hv hx hother
          have hthere : TablesThere mem₁ d ((pgRoundDown va + pgSize) % 2 ^ 32)
              (buf.drop (inFirst va buf.length)).length ↔ TablesThere s.mem d va buf.length := by
            rw [TablesThere.congr hhas hframe, List.length_drop, TablesThere.step hva hx]
          rw [hmem₁]
          refine (ih _ _ _ (Nat.mod_lt _ (by decide)) ?_ htarget).mono ?_ fun e he => ?_
          · have hfirst : 0 < inFirst va buf.length := by
              rw [inFirst, pgSize]
              omega
            rw [List.length_drop]
            omega
          · rintro ok s' ⟨hok, mem', rfl, hpost⟩
            refine ⟨hthere.mp hok, mem', rfl, ?_⟩
            subst hmem₁
            exact hpost.step hva hx hframe
          · exact ⟨he.1, fun hall => he.2 (hthere.mpr hall)⟩
      · rw [wp_uva2ka_of_not_table hdown (by rwa [hround])]
        have hnone := userFrame_of_none (lookup_of_not_table ht)
        exact ⟨rfl, fun hall => ht ((TablesThere.unreachable hva hpos hnone).mp hall)⟩
    · have hnil : buf = [] := List.length_eq_zero_iff.mp (by omega)
      subst hnil
      exact ⟨fun j hj => absurd hj (by simp), s.mem, rfl, .nil⟩

/-- `copyout` does what it should exactly if there is a page table for the first page of the range
that the user cannot reach. -/
theorem copyoutOk_iff (h : Target s.mem d) (hva : va < 2 ^ 32) (buf : List UInt8) :
    CopyoutOk s d va buf ↔ TablesThere s.mem d va buf.length := by
  have hloop := wp_copyoutLoop buf.length va buf s hva le_rfl h
  refine ⟨fun ⟨ok, mem', hrun, _⟩ => (hloop.ok hrun).1, fun hthere => ?_⟩
  have hreturns := hloop.mono (fun ok s' hpost => hpost.2) fun e he => he.2 hthere
  obtain ⟨ok, s', hrun, mem', rfl, hpost⟩ := hreturns.returns
  exact ⟨ok, mem', hrun, hpost⟩

theorem target_oneMapped : Target oneMapped.mem 300 := by
  refine (dir_pagesOf _ _).target process_oneMapped.pool fun v w _ hw _ => ?_
  rw [lookup_oneMapped] at hw
  split at hw
  · next h0 =>
    rw [h0, userPages]
    decide
  · exact absurd hw (by simp)

/-- One byte goes to an address that has no page table. -/
theorem copyout_oneMapped : Target oneMapped.mem 300 ∧ ¬ CopyoutOk oneMapped 300 0x400000 [0] := by
  refine ⟨target_oneMapped, fun ⟨ok, mem', hrun, _⟩ => ?_⟩
  have hstop : (copyout 300 0x400000 [0] oneMapped).map (fun q => q.1) = .error .nullEntry := by
    decide +kernel
  rw [hrun] at hstop
  exact absurd hstop (by simp [Except.map])

theorem copyoutOk_iff_oneMapped : Target oneMapped.mem 300 ∧
    (CopyoutOk oneMapped 300 4 [1, 2] ↔ TablesThere oneMapped.mem 300 4 2) :=
  ⟨target_oneMapped, copyoutOk_iff target_oneMapped (by decide) [1, 2]⟩

end Xv6.Vm
