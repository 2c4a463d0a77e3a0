import Xv6.Vm.Copy
import Xv6.Vm.Copyout

/-!
# The memory that a user program sees

`Image` says that a directory maps the pages below some page and that they hold a list of bytes,
from address 0 on. `allocuvm` appends zeros to it, and `copyout` overwrites a range.
-/

namespace Xv6.Vm

open Bytes Hoare
open Multiset (mem_add nodup_of_le notMem_zero)

variable {L : Layout} {d v w x o u : Nat} {m : Nat → Option Nat} {F hand : Multiset Nat}
  {s s' : Phys} {user : Nat → Prop} {img : Bytes}

theorem Dir.write (hF : Pool L F) (h : Dir F s d hand m)
    (hmem : ∀ x, x ∉ frames m → s'.mem x = s.mem x) (hfree : s'.freelist = s.freelist) :
    Dir F s' d hand m := by
  have hkept : ∀ x, x ∈ frames m → x ≠ d ∧ x ∉ tables s.mem d := fun x hx =>
    (h.kept hF (.inr (mem_add.mpr (.inr hx)))).2
  have hd : s'.mem d = s.mem d := hmem d fun hx => (hkept d hx).1 rfl
  have hword : ∀ i, word s'.mem d i = word s.mem d i := fun i => by rw [word, hd, word]
  refine ⟨fun v hv => ?_, ?_⟩
  · rw [lookup_congr hd (fun x hx => hmem x fun hx' => (hkept x hx').2 hx) hv, h.map v hv]
  · rw [tables_congr hword, hfree, h.pages]

theorem Dir.frame_inj (hF : Pool L F) (h : Dir F s d hand m) {v' w' : Nat} (hv : v < userPages)
    (hv' : v' < userPages) (hw : m v = some w) (hw' : m v' = some w')
    (e : pteAddr w = pteAddr w') : v = v' := by
  have hnodup : (frames m).Nodup := by
    refine nodup_of_le ?_ hF.nodup
    rw [← h.pages]
    exact (Multiset.le_add_left _ _).trans (Multiset.le_add_left _ _)
  refine hnodup.piece_unique hv hv' (x := pteAddr w) ?_ ?_
  · rw [hw]
    exact Multiset.mem_singleton_self _
  · rw [hw', e]
    exact Multiset.mem_singleton_self _

theorem pteU_kernelMap (h : kernelMap L v = some w) : pteU w = false := by
  have hfold : ∀ (ks : List Kmap) (m : Nat → Option Nat), (∀ k ∈ ks, k.Ok) →
      (∀ w, m v = some w → pteU w = false) →
      ∀ w, ks.foldl Kmap.add m v = some w → pteU w = false := by
    intro ks
    induction ks with
    | nil => exact fun _ _ hm => hm
    | cons k ks ih =>
      intro m hks hm
      refine ih _ (fun k' hk' => hks k' (List.mem_cons_of_mem k hk')) fun w hw => ?_
      rw [Kmap.add, fill] at hw
      split at hw
      · have hperm := (hks k List.mem_cons_self).perm
        rw [← Option.some_inj.mp hw, pteU_mkPte, pteU]
        exact Nat.testBit_lt_two_pow hperm
      · exact hm w hw
  exact hfold L.kmap _ L.ok (fun _ hm => absurd hm (by simp)) w h

/-- The directory `d` maps the pages below page `u`, those of `user` for the user, and the kernel's
part. The pages hold the image `img`. -/
structure Image (L : Layout) (F : Multiset Nat) (s : Phys) (d u : Nat) (user : Nat → Prop)
    (img : Bytes) : Prop where
  dir : Dir F s d 0 (lookup s.mem d)
  le : u ≤ userPages
  below : ∀ v, v < u → ∃ w, lookup s.mem d v = some w ∧ (pteU w = true ↔ user v) ∧
    ∀ o, o < pgSize → s.mem (pteAddr w) o = img (v * pgSize + o)
  above : ∀ v, u ≤ v → v < 2 ^ 20 → lookup s.mem d v = kernelMap L v
  zero : ∀ a, u * pgSize ≤ a → img a = 0

theorem Image.of_dir (h : Dir F s d 0 m) (hle : u ≤ userPages)
    (hbelow : ∀ v, v < u → ∃ w, m v = some w ∧ (pteU w = true ↔ user v) ∧
      ∀ o, o < pgSize → s.mem (pteAddr w) o = img (v * pgSize + o))
    (habove : ∀ v, u ≤ v → v < 2 ^ 20 → m v = kernelMap L v)
    (hzero : ∀ a, u * pgSize ≤ a → img a = 0) : Image L F s d u user img where
  dir := h.congr_map h.map
  le := hle
  below v hv := by
    rw [h.map v (userPages_le (by omega))]
    exact hbelow v hv
  above v hv hv' := by rw [h.map v hv', habove v hv hv']
  zero := hzero

theorem Image.congr_user {user' : Nat → Prop} (h : Image L F s d u user img)
    (huser : ∀ v, user v ↔ user' v) : Image L F s d u user' img where
  dir := h.dir
  le := h.le
  below v hv := by
    obtain ⟨w, hw, hu, hbytes⟩ := h.below v hv
    exact ⟨w, hw, hu.trans (huser v), hbytes⟩
  above := h.above
  zero := h.zero

theorem image_of_kernelMap (h : Dir F s d 0 (kernelMap L)) (user : Nat → Prop) :
    Image L F s d 0 user zeros :=
  .of_dir h (Nat.zero_le _) (fun v hv => absurd hv (by omega)) (fun _ _ _ => rfl) fun _ _ => rfl

theorem Image.still_of_frames (h : Image L F s d u user img)
    (hmem : ∀ x, x ∉ frames (lookup s.mem d) → s'.mem x = s.mem x) : Still F 0 s s' := by
  intro x hx
  rcases hx with hx | hx
  · exact hmem x fun hx' => hx (h.dir.mem_of_frame hx')
  · exact absurd hx (notMem_zero x)

theorem Image.userFrame_isSome_iff (h : Image L F s d u user img) (hv : v < 2 ^ 20) :
    (userFrame s.mem d v).isSome ↔ v < u ∧ user v := by
  rw [Option.isSome_iff_exists]
  constructor
  · rintro ⟨x, hx⟩
    obtain ⟨w, hw, hu, -⟩ := userFrame_eq_some.mp hx
    by_cases hvu : v < u
    · obtain ⟨w', hw', huser, -⟩ := h.below v hvu
      rw [hw, Option.some_inj] at hw'
      exact ⟨hvu, huser.mp (hw' ▸ hu)⟩
    · rw [h.above v (by omega) hv] at hw
      rw [pteU_kernelMap hw] at hu
      exact absurd hu (by decide)
  · rintro ⟨hvu, hv'⟩
    obtain ⟨w, hw, huser, -⟩ := h.below v hvu
    exact ⟨_, userFrame_eq_some.mpr ⟨w, hw, huser.mpr hv', rfl⟩⟩

theorem Image.target (hF : Pool L F) (h : Image L F s d u user img) : Target s.mem d := by
  refine h.dir.target hF fun v w hv hw hu => ?_
  have hsome : (userFrame s.mem d v).isSome := by
    rw [userFrame_eq_some.mpr ⟨w, hw, hu, rfl⟩]
    rfl
  exact ((h.userFrame_isSome_iff hv).mp hsome).1.trans_le h.le

theorem Image.of_bytes {img' : Bytes} (hF : Pool L F) (h : Image L F s d u user img)
    (hmem : ∀ x, x ∉ frames (lookup s.mem d) → s'.mem x = s.mem x)
    (hfree : s'.freelist = s.freelist)
    (hbytes : ∀ v w, v < u → lookup s.mem d v = some w → ∀ o, o < pgSize →
      s'.mem (pteAddr w) o = img' (v * pgSize + o))
    (hzero : ∀ a, u * pgSize ≤ a → img' a = 0) : Image L F s' d u user img' := by
  refine .of_dir (h.dir.write hF hmem hfree) h.le (fun v hv => ?_) h.above hzero
  obtain ⟨w, hw, huser, -⟩ := h.below v hv
  exact ⟨w, hw, huser, hbytes v w hv hw⟩

theorem Image.write {bs : List UInt8} (hF : Pool L F) (h : Image L F s d u user img) (hv : v < u)
    (hw : lookup s.mem d v = some w) (ho : o + bs.length ≤ pgSize) (s' : Phys)
    (hmem : s'.mem = Function.update s.mem (pteAddr w) (writeBytes (s.mem (pteAddr w)) o bs))
    (hfree : s'.freelist = s.freelist) :
    Image L F s' d u user (writeBytes img (v * pgSize + o) bs) ∧ Still F 0 s s' := by
  have hframe : pteAddr w ∈ frames (lookup s.mem d) :=
    mem_frames.mpr ⟨v, hv.trans_le h.le, w, hw, rfl⟩
  have hother : ∀ x, x ∉ frames (lookup s.mem d) → s'.mem x = s.mem x := fun x hx => by
    have hne : x ≠ pteAddr w := fun e => hx (e ▸ hframe)
    rw [hmem, Function.update_of_ne hne]
  refine ⟨h.of_bytes hF hother hfree (fun v' w' hv' hw' o' ho' => ?_) fun a ha => ?_,
    h.still_of_frames hother⟩
  · obtain ⟨w'', hw'', -, hold⟩ := h.below v' hv'
    rw [hw', Option.some_inj] at hw''
    subst hw''
    by_cases he : pteAddr w' = pteAddr w
    · -- the page that is written
      have hvv := h.dir.frame_inj hF (hv'.trans_le h.le) (hv.trans_le h.le) hw' hw he
      subst hvv
      rw [he] at hold
      rw [he, hmem, Function.update_self]
      by_cases hin : o ≤ o' ∧ o' < o + bs.length
      · rw [writeBytes_of_mem hin.1 hin.2, writeBytes_of_mem (by omega) (by omega),
          Nat.add_sub_add_left]
      · rw [writeBytes_of_not_mem (by omega), writeBytes_of_not_mem (by omega), hold o' ho']
    · have hne : v' ≠ v := fun e => he (by
        subst e
        rw [hw, Option.some_inj] at hw'
        rw [hw'])
      rw [hmem, Function.update_of_ne he, hold o' ho', writeBytes_of_not_mem]
      rw [pgSize] at *
      omega
  · rw [writeBytes_of_not_mem, h.zero a ha]
    rw [pgSize] at *
    omega

theorem Image.append {n : Nat} {f : Nat → Nat} (h : Image L F s d u (fun _ => True) img)
    (hn : u + n ≤ userPages)
    (hdir : Dir F s' d 0 (fill (lookup s.mem d) u n fun j => mkPte (f j * pgSize) permWU))
    (hstill : Still F (0 + frames (lookup s.mem d)) s s')
    (hzeros : ∀ j, j < n → s'.mem (f j) = zeros) : Image L F s' d (u + n) (fun _ => True) img := by
  refine .of_dir hdir hn (fun v hv => ?_) (fun v hv hv' => ?_) fun a ha => h.zero a ?_
  · by_cases hvu : v < u
    · obtain ⟨w, hw, huser, hold⟩ := h.below v hvu
      have hframe : pteAddr w ∈ 0 + frames (lookup s.mem d) :=
        mem_add.mpr (.inr (mem_frames.mpr ⟨v, hvu.trans_le h.le, w, hw, rfl⟩))
      refine ⟨w, by rw [fill_of_lt hvu, hw], huser, fun o ho => ?_⟩
      rw [hstill _ (.inr hframe), hold o ho]
    · refine ⟨_, if_pos ⟨by omega, by omega⟩, ?_, fun o ho => ?_⟩
      · rw [pteU_mkPte]
        decide
      · rw [pteAddr_mkPte (by decide), hzeros _ (by omega), h.zero]
        · rfl
        · rw [pgSize] at *
          omega
  · rw [fill, if_neg (by omega), h.above v (by omega) hv']
  · exact (Nat.mul_le_mul_right pgSize (Nat.le_add_right u n)).trans ha

/-- `allocuvm` on an image: if it returns something else than 0 then zeros have been appended. -/
theorem Image.wp_allocuvm (hF : Pool L F) {oldsz newsz : Nat}
    (h : Image L F s d (pagesUp oldsz) (fun _ => True) img) :
    wp (allocuvm L d oldsz newsz) (fun r s' => Still F 0 s s' ∧ (∃ m, Dir F s' d 0 m) ∧
      (r ≠ 0 → r = max oldsz newsz ∧ newsz < kernBase ∧
        Image L F s' d (pagesUp r) (fun _ => True) img)) (fun _ => False) s := by
  refine (h.dir.wp_allocuvm hF fun hlt v hv hv' => ?_).mono (fun r s' hr => ?_) fun _ => False.elim
  · have hu : v < userPages := hv'.trans_le (pagesUp_le_userPages hlt.le)
    rw [h.above v hv (userPages_le hu), kernelMap_user hu]
  · split at hr
    · obtain ⟨rfl, rfl⟩ := hr
      exact ⟨fun _ _ => rfl, ⟨_, h.dir⟩, fun h0 => absurd rfl h0⟩
    · next hlt =>
      split at hr
      · next hold =>
        obtain ⟨rfl, rfl⟩ := hr
        refine ⟨fun _ _ => rfl, ⟨_, h.dir⟩, fun _ => ⟨by omega, by omega, h⟩⟩
      · next hge =>
        have hmono : pagesUp oldsz ≤ pagesUp newsz := pagesUp_mono (by omega)
        obtain ⟨-, ⟨rfl, f, hdir, hstill, hzeros, -⟩ | ⟨rfl, hleads, -⟩⟩ := hr
        · refine ⟨fun x hx => hstill x (hx.imp_right fun hx => ?_), ⟨_, hdir⟩, fun _ => ?_⟩
          · exact absurd hx (notMem_zero x)
          · have hle := pagesUp_le_userPages (show r ≤ kernBase by omega)
            have himage := h.append (by omega) hdir hstill hzeros
            rw [show pagesUp oldsz + (pagesUp r - pagesUp oldsz) = pagesUp r by omega] at himage
            exact ⟨by omega, by omega, himage⟩
        · refine ⟨fun x hx => hleads.still x (hx.imp_right fun hx => ?_), ⟨_, hleads.dir⟩,
            fun h0 => absurd rfl h0⟩
          exact absurd hx (notMem_zero x)

theorem clearU_spec (w : Nat) : pteAddr (clearU w) = pteAddr w ∧ pteP (clearU w) = pteP w ∧
    pteU (clearU w) = false ∧ clearU w ≤ w := by
  rw [clearU]
  by_cases hu : pteU w = true
  · rw [if_pos hu]
    simp only [pteU, pteP, pteAddr, Nat.testBit_eq_decide_div_mod_eq, decide_eq_true_eq] at *
    refine ⟨by omega, ?_, ?_, by omega⟩
    · rw [decide_eq_decide]
      omega
    · rw [decide_eq_false_iff_not]
      omega
  · rw [if_neg hu]
    exact ⟨rfl, rfl, Bool.eq_false_iff.mpr hu, le_rfl⟩

theorem Image.wp_clearpteu (hF : Pool L F) (h : Image L F s d u user img) (hv : v < u) :
    wp (clearpteu d (v * pgSize)) (fun _ s' => Still F 0 s s' ∧
      Image L F s' d u (fun v' => user v' ∧ v' ≠ v) img) (fun _ => False) s := by
  have hvu : v < userPages := hv.trans_le h.le
  have hlt : v < 2 ^ 20 := userPages_le hvu
  obtain ⟨w, hw, huser, hold⟩ := h.below v hv
  obtain ⟨ht, hword, hp⟩ := lookup_eq_some.mp hw
  obtain ⟨haddr, hpres, hclear, hle⟩ := clearU_spec w
  have hdiv : v * pgSize / pgSize = v := Nat.mul_div_cancel _ (by decide)
  have hva : v * pgSize < 2 ^ 32 := by
    rw [pgSize]
    omega
  have htable := hF.le_kernBase (h.dir.mem_of_table (tableOf_mem hlt ht))
  rw [clearpteu, wp_bind, wp_walkpgdir_of_table hva (by rwa [hdiv]) (by rwa [hdiv]), hdiv]
  dsimp only
  rw [wp_bind, wp_getWord, hword, wp_setWord]
  have hsome : (if pteP (clearU w) then some (clearU w) else none) = some (clearU w) :=
    if_pos (hpres.trans hp)
  have hframes : frames (Function.update (lookup s.mem d) v (some (clearU w))) =
      frames (lookup s.mem d) := by
    have hchange := frames_update (m := lookup s.mem d) (o := some (clearU w)) hvu
    rw [hw, frame, frame, haddr] at hchange
    exact add_right_cancel hchange
  obtain ⟨hdir, hstill, -⟩ := h.dir.setEntry 0 { s with
    mem := Function.update s.mem (tableOf s.mem d v)
      (put32 (s.mem (tableOf s.mem d v)) (4 * (v % 1024)) (clearU w)) } hF hlt ht
    (hle.trans_lt (lookup_lt hw)) rfl rfl (by rw [hsome, hframes])
  rw [hsome] at hdir
  refine ⟨fun x hx => hstill x (hx.imp_right fun hx => absurd hx (notMem_zero x)), ?_⟩
  refine .of_dir hdir h.le (fun v' hv' => ?_) (fun v' hv' hv'' => ?_) h.zero
  · obtain ⟨w', hw', huser', hold'⟩ := h.below v' hv'
    have hframe : pteAddr w' ∈ 0 + frames (lookup s.mem d) :=
      mem_add.mpr (.inr (mem_frames.mpr ⟨v', hv'.trans_le h.le, w', hw', rfl⟩))
    by_cases he : v' = v
    · subst he
      rw [hw, Option.some_inj] at hw'
      subst hw'
      refine ⟨clearU w, Function.update_self .., ?_, fun o ho => ?_⟩
      · rw [hclear]
        exact iff_of_false (by decide) fun hne => hne.2 rfl
      · rw [haddr, hstill _ (.inr hframe), hold o ho]
    · refine ⟨w', by rw [Function.update_of_ne he, hw'], ?_, fun o ho => ?_⟩
      · rw [huser', and_iff_left he]
      · rw [hstill _ (.inr hframe), hold' o ho]
  · rw [Function.update_of_ne (by omega), h.above v' hv' hv'']

theorem place_eq_some {va j : Nat} : place s.mem d va j = some (x, o) ↔
    userFrame s.mem d (virt va j / pgSize) = some x ∧ virt va j % pgSize = o := by
  simp [place]

theorem Image.wp_copyout (hF : Pool L F) (h : Image L F s d u user img) {va : Nat}
    (hva : va < 2 ^ 32) (buf : List UInt8) :
    wp (copyout d va buf) (fun ok s' => Still F 0 s s' ∧ (∃ m, Dir F s' d 0 m) ∧ (ok = true →
      (∀ j, j < buf.length → virt va j / pgSize < u ∧ user (virt va j / pgSize)) ∧
      (va + buf.length ≤ 2 ^ 32 → Image L F s' d u user (writeBytes img va buf))))
      (fun e => e = .nullEntry) s := by
  refine (wp_copyoutLoop buf.length va buf s hva le_rfl (h.target hF)).mono ?_ fun e he => he.1
  rintro ok s' ⟨-, mem', rfl, hpost⟩
  have hplace : ∀ j x o, place s.mem d va j = some (x, o) → ∃ v w, v < u ∧ user v ∧
      lookup s.mem d v = some w ∧ pteAddr w = x ∧ virt va j = v * pgSize + o := by
    intro j x o hj
    obtain ⟨hframe, ho⟩ := place_eq_some.mp hj
    obtain ⟨w, hw, -, hx⟩ := userFrame_eq_some.mp hframe
    have hsome := (h.userFrame_isSome_iff (virt_lt va j)).mp (by rw [hframe]; rfl)
    refine ⟨_, w, hsome.1, hsome.2, hw, hx, ?_⟩
    rw [← ho, Nat.div_add_mod']
  have hother : ∀ x, x ∉ frames (lookup s.mem d) → mem' x = s.mem x := by
    intro x hx
    funext o
    refine hpost.still x o fun j _ hj => hx ?_
    obtain ⟨v, w, hv, -, hw, rfl, -⟩ := hplace j x o hj
    exact mem_frames.mpr ⟨v, hv.trans_le h.le, w, hw, rfl⟩
  refine ⟨h.still_of_frames hother, ⟨_, h.dir.write hF hother rfl⟩, fun hok => ?_⟩
  have hall := hpost.result.mp hok
  have hreach : ∀ j, j < buf.length →
      virt va j / pgSize < u ∧ user (virt va j / pgSize) := fun j hj => by
    have hsome := hall j hj
    rw [place, Option.isSome_map] at hsome
    exact (h.userFrame_isSome_iff (virt_lt va j)).mp hsome
  refine ⟨hreach, fun hwrap => ?_⟩
  have hvirt : ∀ j, j < buf.length → virt va j = va + j := fun j hj => by
    rw [virt, Nat.mod_eq_of_lt (by omega)]
  have hsame : ∀ v w o, v < u → lookup s.mem d v = some w → o < pgSize → ∀ j, j < buf.length →
      place s.mem d va j = some (pteAddr w, o) → va + j = v * pgSize + o := by
    intro v w o hv hw ho j hj hplj
    obtain ⟨v', w', hv', -, hw', he, hvj⟩ := hplace j _ o hplj
    have hvv := h.dir.frame_inj hF (hv'.trans_le h.le) (hv.trans_le h.le) hw' hw he
    rw [← hvirt j hj, hvj, hvv]
  refine h.of_bytes hF hother rfl (fun v w hv hw o ho => ?_) fun a ha => ?_
  · by_cases hin : va ≤ v * pgSize + o ∧ v * pgSize + o < va + buf.length
    · obtain ⟨j, hj⟩ := Nat.exists_eq_add_of_le hin.1
      have hjlt : j < buf.length := by omega
      have hpage : virt va j / pgSize = v ∧ virt va j % pgSize = o := by
        rw [hvirt j hjlt, ← hj]
        simp only [pgSize] at ho ⊢
        omega
      obtain ⟨w', hw', huser, -⟩ := h.below v hv
      rw [hw, Option.some_inj] at hw'
      subst hw'
      have hplj : place s.mem d va j = some (pteAddr w, o) := by
        refine place_eq_some.mpr ⟨userFrame_eq_some.mpr ⟨w, ?_, ?_, rfl⟩, hpage.2⟩
        · rw [hpage.1, hw]
        · exact huser.mpr (hpage.1 ▸ (hreach j hjlt).2)
      rw [writeBytes_of_mem hin.1 hin.2, hj, Nat.add_sub_cancel_left]
      refine hpost.copied hok j _ _ o ?_ hplj fun i hi hi' hpli => ?_
      · rw [List.getD_eq_getElem?_getD, List.getElem?_eq_getElem hjlt]
        rfl
      · have := hsame v w o hv hw ho i hi' hpli
        omega
    · obtain ⟨w', hw', -, hold⟩ := h.below v hv
      rw [hw, Option.some_inj] at hw'
      subst hw'
      rw [writeBytes_of_not_mem (by omega), ← hold o ho]
      refine hpost.still _ o fun j hj hplj => hin ?_
      have := hsame v w o hv hw ho j hj hplj
      omega
  · rw [writeBytes_of_not_mem, h.zero a ha]
    by_contra hin
    have hreach' := (hreach (a - va) (by omega)).1
    rw [hvirt _ (by omega), Nat.add_sub_cancel' (by omega),
      Nat.div_lt_iff_lt_mul (by decide)] at hreach'
    omega

def dirPages (s : Phys) (d : Nat) : Multiset Nat := {d} + tables s.mem d + frames (lookup s.mem d)

theorem Pool.mono {F' : Multiset Nat} (hF : Pool L F) (h : F' ≤ F) : Pool L F' :=
  ⟨nodup_of_le h hF.nodup, fun x hx => hF.range x (Multiset.mem_of_le h hx)⟩

theorem lookup_dirPages_congr (h : ∀ x ∈ dirPages s d, s'.mem x = s.mem x) :
    (∀ v, v < 2 ^ 20 → lookup s'.mem d v = lookup s.mem d v) ∧ dirPages s' d = dirPages s d := by
  have hd : s'.mem d = s.mem d := h d (by simp [dirPages])
  have hword : ∀ i, word s'.mem d i = word s.mem d i := fun i => by rw [word, hd, word]
  have hmap : ∀ v, v < 2 ^ 20 → lookup s'.mem d v = lookup s.mem d v := fun v hv =>
    lookup_congr hd (fun x hx => h x (by simp [dirPages, hx])) hv
  refine ⟨hmap, ?_⟩
  rw [dirPages, tables_congr hword, frames_congr fun v hv => hmap v (userPages_le hv), dirPages]

theorem Image.wp_freevm {old : Nat} (hF : Pool L (F + dirPages s old))
    (h : Image L F s d u user img) :
    wp (freevm L old) (fun _ s' => Image L (F + dirPages s old) s' d u user img)
      (fun _ => False) s := by
  obtain ⟨K, hK⟩ : ∃ K, dirPages s old = K := ⟨_, rfl⟩
  have hpages : (s.freelist : Multiset Nat) + dirPages s d = F := by
    rw [← h.dir.pages, add_zero, dirPages]
  have hold : Dir (s.freelist + K) s old 0 (lookup s.mem old) :=
    ⟨fun _ _ => rfl, by rw [add_zero, ← hK, dirPages]⟩
  rw [hK] at hF ⊢
  have hle : (s.freelist : Multiset Nat) + K ≤ F + K := by
    rw [← hpages]
    exact Multiset.add_le_add_right (Multiset.le_add_right _ _)
  refine (hold.wp_freevm (hF.mono hle)).mono ?_ fun _ => False.elim
  rintro _ s' ⟨hstill, -, hfree⟩
  have hsame : ∀ x ∈ dirPages s d, s'.mem x = s.mem x := by
    intro x hx
    refine hstill x (.inl fun hx' => ?_)
    have hnodup := hF.nodup
    rw [← hpages, add_right_comm] at hnodup
    exact hnodup.notMem_right hx' hx
  obtain ⟨hmap, hdirPages⟩ := lookup_dirPages_congr hsame
  refine .of_dir (m := lookup s'.mem d) ⟨fun _ _ => rfl, ?_⟩ h.le (fun v hv => ?_)
    (fun v hv hv' => by rw [hmap v hv', h.above v hv hv']) h.zero
  · rw [hfree, ← dirPages, hdirPages, ← hpages]
    abel
  · obtain ⟨w, hw, huser, hbytes⟩ := h.below v hv
    refine ⟨w, by rw [hmap v (userPages_le (by have := h.le; omega)), hw], huser, fun o ho => ?_⟩
    rw [hsame, hbytes o ho]
    exact mem_add.mpr (.inr (mem_frames.mpr ⟨v, hv.trans_le h.le, w, hw, rfl⟩))

end Xv6.Vm
