import Xv6.Exec.Defs
import Xv6.Vm.Image

namespace Xv6.Exec

open Bytes Hoare Vm

variable {L : Layout} {F : Multiset Nat} {s s' s₀ : State} {d u : Nat} {img : Bytes} {ip : File}
  {off n : Nat} {α : Type} {E : Fault → Prop} {user : Nat → Prop}

theorem wp_onPhys {m : PhysM α} {Q : α → State → Prop} :
    wp (onPhys m) Q E s ↔ wp m (fun a phys => Q a { s with phys := phys }) E s.phys := by
  rw [wp, wp, onPhys]
  cases m s.phys with
  | ok q => exact Iff.rfl
  | error e => exact Iff.rfl

theorem wp_onPhys_bind {β : Type} {m : PhysM α} {f : α → ExecM β} {Q : β → State → Prop}
    {R : α → Phys → Prop} (h : wp m R (fun _ => False) s.phys)
    (hf : ∀ a phys, R a phys → wp (f a) Q E { s with phys := phys }) :
    wp (onPhys m >>= f) Q E s := by
  rw [wp_bind, wp_onPhys]
  exact h.mono hf fun _ => False.elim

variable {Q : Unit → State → Prop}

@[simp] theorem wp_beginOp :
    wp beginOp Q E s ↔ Q () { s with outstanding := s.outstanding + 1 } := Iff.rfl

@[simp] theorem wp_endOp :
    wp endOp Q E s ↔ Q () { s with outstanding := s.outstanding - 1 } := Iff.rfl

theorem wp_namei {Q : Option File → State → Prop} (hnone : s.file = none → Q none s)
    (hsome : ∀ f, s.file = some f → Q (some f) { s with ref := s.ref + 1 }) : wp namei Q E s := by
  cases hfile : s.file with
  | none =>
    refine (wp_of_ok ?_).mpr (hnone hfile)
    simp only [namei, hfile]
  | some f =>
    refine (wp_of_ok ?_).mpr (hsome f hfile)
    simp only [namei, hfile]

theorem wp_ilock (h : 1 ≤ s.ref) : wp ilock Q E s ↔ Q () { s with held := true } := by
  refine wp_of_ok ?_
  rw [ilock, if_neg (by omega)]

theorem wp_iunlockput (hheld : s.held = true) (href : 1 ≤ s.ref) :
    wp iunlockput Q E s ↔ Q () { s with held := false, ref := s.ref - 1 } := by
  refine wp_of_ok ?_
  have hunlock : iunlock s = .ok ((), { s with held := false }) := by
    refine if_neg ?_
    rw [hheld]
    simp only [Bool.true_eq_false, false_or]
    omega
  change (iunlock s >>= fun q => iput q.2) = _
  rw [hunlock]
  rfl

/-- `readi` fails, or gives the bytes of the file, all of them or fewer. -/
theorem wp_readi {Q : Option (List UInt8) → State → Prop} (hoff : off < 2 ^ 32) (hn : n < 2 ^ 32)
    (hsize : ip.size < 2 ^ 32) (hnone : Q none { s with reads := s.reads + 1 })
    (hsome : ∀ k, k ≤ n → (k = n → off + n ≤ ip.size) →
      Q (some (readBytes ip.data off k)) { s with reads := s.reads + 1 }) :
    wp (readi ip off n) Q E s := by
  by_cases hfail : s.readFail s.reads = true
  · refine (wp_of_ok ?_).mpr hnone
    rw [readi, if_pos hfail]
  · by_cases hout : off > ip.size ∨ (off + n) % 2 ^ 32 < off
    · refine (wp_of_ok ?_).mpr hnone
      rw [readi, if_neg hfail, if_pos hout]
    · refine (wp_of_ok ?_).mpr (hsome (if (off + n) % 2 ^ 32 > ip.size then ip.size - off else n)
        ?_ ?_)
      · rw [readi, if_neg hfail, if_neg hout]
      · split <;> omega
      · split <;> omega

def structAt (ip : File) (off n : Nat) : Bytes := fun i => (readBytes ip.data off n).getD i 0

theorem wp_readStruct {Q : Option Bytes → State → Prop} (hoff : off < 2 ^ 32) (hn : n < 2 ^ 32)
    (hsize : ip.size < 2 ^ 32) (hnone : Q none { s with reads := s.reads + 1 })
    (hsome : Q (some (structAt ip off n)) { s with reads := s.reads + 1 }) :
    wp (readStruct ip off n) Q E s := by
  rw [readStruct, wp_bind]
  refine wp_readi hoff hn hsize hnone fun k hk _ => ?_
  dsimp only
  rw [wp_pure, length_readBytes]
  split
  · next heq =>
    rw [heq]
    exact hsome
  · exact hnone

/-- Only physical memory has changed, and of it only pages of `F`; they are free or pages of the
directory `d`. -/
structure Keeps (F : Multiset Nat) (s : State) (d : Nat) (s' : State) : Prop where
  only : s' = { s with phys := s'.phys, reads := s'.reads }
  still : Still F 0 s.phys s'.phys
  dir : ∃ m, Dir F s'.phys d 0 m

theorem Keeps.trans (h₁ : Keeps F s₀ d s) (h₂ : Keeps F s d s') : Keeps F s₀ d s' where
  only := by
    rw [h₂.only, h₁.only]
  still := h₁.still.trans h₂.still fun _ hx => hx
  dir := h₂.dir

theorem Keeps.of_reads (hdir : ∃ m, Dir F s.phys d 0 m) :
    Keeps F s d { s with reads := s.reads + 1 } := ⟨rfl, fun _ _ => rfl, hdir⟩

theorem Keeps.refl (hdir : ∃ m, Dir F s.phys d 0 m) : Keeps F s d s := ⟨rfl, fun _ _ => rfl, hdir⟩

variable {sz addr offset i : Nat}

theorem image_load_nothing {phys : Phys} (hi : sz ≤ i)
    (h : Image L F phys d u user img) : Image L F phys d u user
      (writeBytes img (addr + i) (readBytes ip.data (offset + i) (sz - i))) := by
  have hnil : readBytes ip.data (offset + i) (sz - i) = [] := by
    rw [Nat.sub_eq_zero_of_le hi]
    rfl
  rwa [hnil, writeBytes_nil]

theorem load_append (img data : Bytes) (addr offset : Nat) {k : Nat}
    (hk : k ≤ pgSize ∧ k ≤ sz - i ∧ (k = pgSize ∨ k = sz - i)) :
    writeBytes (writeBytes img (addr + i) (readBytes data (offset + i) k)) (addr + (i + pgSize))
        (readBytes data (offset + (i + pgSize)) (sz - (i + pgSize))) =
      writeBytes img (addr + i) (readBytes data (offset + i) (sz - i)) := by
  by_cases hlast : sz - i = k
  · have hnil : sz - (i + pgSize) = 0 := by omega
    rw [hlast, hnil]
    exact writeBytes_nil _ _
  · have hfull : k = pgSize := by omega
    subst hfull
    rw [show sz - i = pgSize + (sz - (i + pgSize)) by omega, readBytes_add, ← writeBytes_append,
      length_readBytes, Nat.add_assoc, Nat.add_assoc]

theorem wp_loadLoop (hF : Pool L F) (hsize : ip.size < 2 ^ 32) {v : Nat}
    (haddr : addr + i = v * pgSize) (hle : addr + sz ≤ u * pgSize)
    (hoff : i < sz → offset + i < 2 ^ 32) (hn : sz ≤ i + n * pgSize)
    (h : Image L F s.phys d u (fun _ => True) img) :
    wp (loadLoop d addr ip offset sz n i) (fun ok s' => Keeps F s d s' ∧ (ok = true →
      Image L F s'.phys d u (fun _ => True)
        (writeBytes img (addr + i) (readBytes ip.data (offset + i) (sz - i)))))
      (fun _ => False) s := by
  induction n generalizing s i v img with
  | zero =>
    rw [loadLoop, if_neg (by omega)]
    exact ⟨.refl ⟨_, h.dir⟩, fun _ => image_load_nothing (by omega) h⟩
  | succ n ih =>
    rw [loadLoop]
    refine wp_ite (fun hi => ?_) fun hi => ⟨.refl ⟨_, h.dir⟩, fun _ => image_load_nothing (by omega) h⟩
    have hvu : v < u := by
      rw [pgSize] at *
      omega
    have hvp := hvu.trans_le h.le
    obtain ⟨w, hw, -⟩ := h.below v hvu
    obtain ⟨ht, hword, -⟩ := lookup_eq_some.mp hw
    have hmod : (addr + i) % 2 ^ 32 = v * pgSize := by
      rw [haddr, Nat.mod_eq_of_lt]
      simp only [userPages, pgSize] at hvp ⊢
      omega
    have hdiv : v * pgSize / pgSize = v := Nat.mul_div_cancel _ (by decide)
    have htable := hF.le_kernBase (h.dir.mem_of_table (tableOf_mem (userPages_le hvp) ht))
    have hframe := hF.le_kernBase (h.dir.mem_of_frame (mem_frames.mpr ⟨v, hvp, w, hw, rfl⟩))
    rw [wp_bind, wp_onPhys, hmod, wp_walkpgdir_of_table (hmod ▸ Nat.mod_lt _ (by decide))
      (by rw [hdiv]; exact ht) (by rw [hdiv]; exact htable), hdiv]
    dsimp only
    rw [wp_bind, wp_onPhys, wp_getWord, hword, wp_bind, wp_onPhys, wp_p2v hframe, wp_bind]
    obtain ⟨k, hk⟩ : ∃ k, (if sz - i < pgSize then sz - i else pgSize) = k := ⟨_, rfl⟩
    have hkle : k ≤ pgSize ∧ k ≤ sz - i ∧ (k = pgSize ∨ k = sz - i) := by
      split at hk <;> omega
    have hmodoff : (offset + i) % 2 ^ 32 = offset + i := Nat.mod_eq_of_lt (hoff hi)
    rw [hk, hmodoff]
    refine wp_readi (hoff hi) ?_ hsize ⟨.of_reads ⟨_, h.dir⟩, by simp⟩ fun k' hk' hfull => ?_
    · rw [pgSize] at hkle
      omega
    dsimp only
    rw [wp_bind, wp_onPhys, wp_getPage, wp_bind, wp_onPhys, wp_setPage, length_readBytes]
    obtain ⟨phys, hphys⟩ : ∃ phys : Phys, { s.phys with
      mem := Function.update s.phys.mem (pteAddr w) (writeBytes (s.phys.mem (pteAddr w)) 0
        (readBytes ip.data (offset + i) k')) } = phys := ⟨_, rfl⟩
    have hlen : 0 + (readBytes ip.data (offset + i) k').length ≤ pgSize := by
      rw [length_readBytes]
      omega
    obtain ⟨h₁, hstill⟩ := h.write hF hvu hw hlen phys (by rw [← hphys]) (by rw [← hphys])
    have hkeeps : Keeps F s d { s with phys := phys, reads := s.reads + 1 } :=
      ⟨rfl, hstill, _, h₁.dir⟩
    rw [hphys]
    refine wp_ite (fun _ => ⟨hkeeps, by simp⟩) fun hkk => ?_
    have hkk' : k' = k := Decidable.not_not.mp hkk
    subst hkk'
    have hnext : (i + pgSize) % 2 ^ 32 = i + pgSize := Nat.mod_eq_of_lt (by
      simp only [userPages, pgSize] at *
      omega)
    have haddr' : addr + (i + pgSize) = (v + 1) * pgSize := by
      rw [Nat.add_one_mul]
      omega
    rw [hnext]
    rw [Nat.add_zero, ← haddr] at h₁
    have hn' : sz ≤ i + pgSize + n * pgSize := by
      rw [Nat.add_one_mul] at hn
      omega
    refine (ih haddr' (fun hlt => ?_) hn' h₁).mono (fun ok s' hs' => ?_) fun _ => False.elim
    · have := hfull rfl
      omega
    · refine ⟨hkeeps.trans hs'.1, fun hok => ?_⟩
      rw [← load_append img ip.data addr offset hkle]
      exact hs'.2 hok

theorem wp_loaduvm (hF : Pool L F) (hsize : ip.size < 2 ^ 32)
    (haddr : addr % pgSize = 0) (hle : addr + sz ≤ u * pgSize) (hoff : offset < 2 ^ 32)
    (h : Image L F s.phys d u (fun _ => True) img) :
    wp (loaduvm d addr ip offset sz) (fun ok s' => Keeps F s d s' ∧ (ok = true →
      Image L F s'.phys d u (fun _ => True)
        (writeBytes img addr (readBytes ip.data offset sz)))) (fun _ => False) s := by
  rw [loaduvm, if_neg (by omega)]
  refine wp_loadLoop (v := addr / pgSize) hF hsize ?_ hle (fun _ => hoff) ?_ h
  · rw [Nat.add_zero, Nat.div_mul_cancel (Nat.dvd_of_mod_eq_zero haddr)]
  · simp only [pages, pgSize]
    omega

/-- The `n` program headers from `off` on. -/
def headers (ip : File) : (n off : Nat) → List ProgHdr
  | 0, _ => []
  | n + 1, off => ProgHdr.decode (structAt ip off progHdrSize) ::
      headers ip n ((off + progHdrSize) % 2 ^ 32)

def segments (phs : List ProgHdr) : List ProgHdr := phs.filter fun ph => ph.type = elfProgLoad

def overlay (ip : File) (img : Bytes) (ph : ProgHdr) : Bytes :=
  writeBytes img ph.vaddr (readBytes ip.data ph.off ph.filesz)

/-- The segments have been loaded, and the size is `sz`. -/
structure Loaded (L : Layout) (F : Multiset Nat) (ip : File) (img : Bytes) (segs : List ProgHdr)
    (d sz : Nat) (phys : Phys) : Prop where
  lt : sz < kernBase
  image : Image L F phys d (pagesUp sz) (fun _ => True) (segs.foldl (overlay ip) img)
  fits : ∀ ph ∈ segs, ph.filesz ≤ ph.memsz ∧ ph.vaddr + ph.memsz ≤ sz

theorem decode_lt (bs : Bytes) : (ProgHdr.decode bs).off < 2 ^ 32 ∧
    (ProgHdr.decode bs).vaddr < 2 ^ 32 ∧ (ProgHdr.decode bs).memsz < 2 ^ 32 :=
  ⟨get32_lt .., get32_lt .., get32_lt ..⟩

theorem le_pagesUp (sz : Nat) : sz ≤ pagesUp sz * pgSize := by
  simp only [pagesUp, pgSize]
  omega

theorem wp_loadSegments (hF : Pool L F) (hsize : ip.size < 2 ^ 32) (hoff : off < 2 ^ 32)
    (hsz : sz < kernBase) (h : Image L F s.phys d (pagesUp sz) (fun _ => True) img) :
    wp (loadSegments L ip d n off sz) (fun r s' => Keeps F s d s' ∧ ∀ sz', r = some sz' →
      sz ≤ sz' ∧ Loaded L F ip img (segments (headers ip n off)) d sz' s'.phys)
      (fun _ => False) s := by
  induction n generalizing s off sz img with
  | zero =>
    rw [loadSegments]
    refine ⟨.refl ⟨_, h.dir⟩, fun sz' hsz' => ?_⟩
    rw [Option.some_inj] at hsz'
    subst hsz'
    exact ⟨le_rfl, hsz, h, nofun⟩
  | succ n ih =>
    have hreads : Keeps F s d { s with reads := s.reads + 1 } := .of_reads ⟨_, h.dir⟩
    rw [loadSegments, wp_bind]
    refine wp_readStruct hoff (by decide) hsize ⟨hreads, nofun⟩ ?_
    obtain ⟨ph, hph⟩ : ∃ ph, ProgHdr.decode (structAt ip off progHdrSize) = ph := ⟨_, rfl⟩
    have hlt := decode_lt (structAt ip off progHdrSize)
    have hnext : (off + progHdrSize) % 2 ^ 32 < 2 ^ 32 := Nat.mod_lt _ (by decide)
    rw [headers, hph]
    rw [hph] at hlt
    dsimp only
    rw [hph]
    refine wp_ite (fun htype => ?_) fun htype => ?_
    · have hskip : segments (ph :: headers ip n ((off + progHdrSize) % 2 ^ 32)) =
          segments (headers ip n ((off + progHdrSize) % 2 ^ 32)) :=
        List.filter_cons_of_neg (by simpa using htype)
      rw [hskip]
      exact (ih (s := { s with reads := s.reads + 1 }) hnext hsz h).mono
        (fun r s' hs' => ⟨hreads.trans hs'.1, hs'.2⟩) fun _ => False.elim
    refine wp_ite (fun _ => ⟨hreads, nofun⟩) fun hmem => ?_
    refine wp_ite (fun _ => ⟨hreads, nofun⟩) fun hwrap => ?_
    have hnew : (ph.vaddr + ph.memsz) % 2 ^ 32 = ph.vaddr + ph.memsz :=
      Nat.mod_eq_of_lt (by omega)
    rw [hnew]
    refine wp_onPhys_bind (h.wp_allocuvm hF) ?_
    rintro r phys ⟨hstill, hdir, hr⟩
    have halloc : Keeps F s d { s with phys := phys, reads := s.reads + 1 } :=
      ⟨rfl, hstill, hdir⟩
    refine wp_ite (fun _ => ⟨halloc, nofun⟩) fun h0 => ?_
    obtain ⟨hmax, hltk, himage⟩ := hr h0
    refine wp_ite (fun _ => ⟨halloc, nofun⟩) fun halign => ?_
    have hend := le_pagesUp r
    refine (wp_loaduvm hF hsize (by omega) (show ph.vaddr + ph.filesz ≤ _ by omega) hlt.1
      himage).bind ?_
    rintro (_ | _) s₁ ⟨hkeeps, hload⟩
    · exact ⟨halloc.trans hkeeps, nofun⟩
    · rw [if_pos rfl]
      refine (ih hnext (by omega) (hload rfl)).mono (fun r' s' hs' => ?_) fun _ => False.elim
      refine ⟨(halloc.trans hkeeps).trans hs'.1, fun sz' hsz' => ?_⟩
      obtain ⟨hle, hloaded⟩ := hs'.2 sz' hsz'
      have htake : segments (ph :: headers ip n ((off + progHdrSize) % 2 ^ 32)) =
          ph :: segments (headers ip n ((off + progHdrSize) % 2 ^ 32)) :=
        List.filter_cons_of_pos (by simpa using htype)
      rw [htake]
      refine ⟨by omega, hloaded.lt, hloaded.image, fun ph' hph' => ?_⟩
      rcases List.mem_cons.mp hph' with rfl | hmem'
      · omega
      · exact hloaded.fits ph' hmem'

end Xv6.Exec
