import Xv6.Exec.Stack

namespace Xv6.Exec

open Bytes Hoare Vm

variable {L : Layout} {F : Multiset Nat} {s s' : State} {d u n sp : Nat} {img img' : Bytes}
  {argv : List (List UInt8)} {ip : File} {path : List UInt8} {entry sz : Nat}

def userByte (mem : Nat → Bytes) (d a : Nat) : Option UInt8 :=
  (userFrame mem d (a / pgSize)).map fun x => mem x (a % pgSize)

def Reads (mem : Nat → Bytes) (d a : Nat) (bs : List UInt8) : Prop :=
  ∀ (j : Nat) (b : UInt8), bs[j]? = some b → userByte mem d (a + j) = some b

def elfHdr (ip : File) : ElfHdr := ElfHdr.decode (structAt ip 0 elfHdrSize)

def programSegments (ip : File) : List ProgHdr :=
  segments (headers ip (elfHdr ip).phnum (elfHdr ip).phoff)

def ProgHdr.Covers (ph : ProgHdr) (a : Nat) : Prop := ph.vaddr ≤ a ∧ a < ph.vaddr + ph.memsz

/-- What the segment should look like. -/
def segmentBytes (ip : File) (ph : ProgHdr) : List UInt8 :=
  readBytes ip.data ph.off ph.filesz ++ List.replicate (ph.memsz - ph.filesz) 0

/-- The image that `exec` promises for a file and an argument vector. -/
structure Built (ip : File) (argv : List (List UInt8)) (s : State) : Prop where
  mapped : ∀ v, v < userPages →
    ((lookup s.phys.mem s.proc.pgdir v).isSome ↔ v * pgSize < s.proc.sz)
  user : ∀ v, v < 2 ^ 20 → ((userFrame s.phys.mem s.proc.pgdir v).isSome ↔
    v * pgSize < s.proc.sz ∧ v * pgSize + 2 * pgSize ≠ s.proc.sz)
  segment : ∀ (i : Nat) (ph : ProgHdr), (programSegments ip)[i]? = some ph →
    (∀ (j : Nat) (ph' : ProgHdr), j ≠ i → (programSegments ip)[j]? = some ph' →
      ∀ a, ¬ (ph.Covers a ∧ ph'.Covers a)) →
    Reads s.phys.mem s.proc.pgdir ph.vaddr (segmentBytes ip ph)
  entry : s.proc.eip = (elfHdr ip).entry
  align : s.proc.esp % 4 = 0
  stack : ∃ ptrs : List Nat, ptrs.length = argv.length ∧
    Reads s.phys.mem s.proc.pgdir s.proc.esp
      (wordBytes ([0xffffffff, argv.length, s.proc.esp + 12] ++ ptrs ++ [0])) ∧
    ∀ (k : Nat) (arg : List UInt8), argv[k]? = some arg →
      ∃ p, ptrs[k]? = some p ∧ Reads s.phys.mem s.proc.pgdir p (arg ++ [0])

variable {segs : List ProgHdr} {a : Nat}

theorem foldl_overlay_of_not (h : ∀ ph ∈ segs, a < ph.vaddr ∨ ph.vaddr + ph.filesz ≤ a) :
    segs.foldl (overlay ip) img a = img a := by
  induction segs generalizing img with
  | nil => rfl
  | cons ph segs ih =>
    rw [List.foldl_cons, ih fun ph' hph' => h ph' (List.mem_cons_of_mem ph hph'), overlay,
      writeBytes_of_not_mem]
    rw [length_readBytes]
    exact h ph List.mem_cons_self

variable {ph : ProgHdr}

theorem readBytes_overlay (hle : ph.filesz ≤ ph.memsz) :
    readBytes (overlay ip zeros ph) ph.vaddr ph.memsz = segmentBytes ip ph := by
  have hlen : (readBytes ip.data ph.off ph.filesz).length = ph.filesz := length_readBytes ..
  have hfile : readBytes (overlay ip zeros ph) ph.vaddr ph.filesz =
      readBytes ip.data ph.off ph.filesz := by
    have hread := readBytes_writeBytes zeros ph.vaddr (readBytes ip.data ph.off ph.filesz)
    rwa [hlen] at hread
  have hzero : readBytes (overlay ip zeros ph) (ph.vaddr + ph.filesz) (ph.memsz - ph.filesz) =
      List.replicate (ph.memsz - ph.filesz) 0 := by
    rw [List.eq_replicate_iff]
    refine ⟨length_readBytes .., fun b hb => ?_⟩
    obtain ⟨i, -, rfl⟩ := List.mem_map.mp hb
    exact writeBytes_of_not_mem (by omega)
  rw [segmentBytes, ← hfile, ← hzero, ← readBytes_add, Nat.add_sub_cancel' hle]

theorem readBytes_foldl_overlay {i : Nat}
    (hfits : ∀ ph ∈ segs, ph.filesz ≤ ph.memsz) (hi : segs[i]? = some ph)
    (hother : ∀ (j : Nat) (ph' : ProgHdr), j ≠ i → segs[j]? = some ph' →
      ∀ a, ¬ (ph.Covers a ∧ ph'.Covers a)) :
    readBytes (segs.foldl (overlay ip) zeros) ph.vaddr ph.memsz = segmentBytes ip ph := by
  obtain ⟨hlt, hget⟩ := List.getElem?_eq_some_iff.mp hi
  have hsplit : segs = segs.take i ++ ph :: segs.drop (i + 1) := by
    rw [← hget, ← List.drop_eq_getElem_cons hlt, List.take_append_drop]
  have haway : ∀ (j : Nat) (ph' : ProgHdr), j ≠ i → segs[j]? = some ph' → ∀ a, ph.Covers a →
      a < ph'.vaddr ∨ ph'.vaddr + ph'.filesz ≤ a := by
    intro j ph' hj hph' a ha
    have hle := hfits ph' (List.mem_of_getElem? hph')
    by_contra hin
    exact hother j ph' hj hph' a ⟨ha, by omega, by omega⟩
  have hsame : ∀ a, ph.Covers a → segs.foldl (overlay ip) zeros a = overlay ip zeros ph a := by
    intro a ha
    -- the segments after this one do not write here, and those before have not
    have hafter : ∀ ph' ∈ segs.drop (i + 1), a < ph'.vaddr ∨ ph'.vaddr + ph'.filesz ≤ a := by
      intro ph' hph'
      obtain ⟨j, hj⟩ := List.mem_iff_getElem?.mp hph'
      rw [List.getElem?_drop] at hj
      exact haway _ ph' (by omega) hj a ha
    have hbefore : ∀ ph' ∈ segs.take i, a < ph'.vaddr ∨ ph'.vaddr + ph'.filesz ≤ a := by
      intro ph' hph'
      obtain ⟨j, hj⟩ := List.mem_iff_getElem?.mp hph'
      rw [List.getElem?_take] at hj
      split at hj
      · next hji => exact haway j ph' (by omega) hj a ha
      · exact absurd hj (by simp)
    rw [hsplit, List.foldl_append, List.foldl_cons, foldl_overlay_of_not hafter, overlay, overlay,
      writeBytes, writeBytes]
    split
    · rfl
    · exact foldl_overlay_of_not hbefore
  rw [← readBytes_overlay (hfits ph (List.mem_of_getElem? hi))]
  exact readBytes_congr fun j hj => hsame _ ⟨by omega, by omega⟩

/-- The stack in the image, in the last of `u` pages. -/
structure StackAt (img : Bytes) (argv : List (List UInt8)) (u sp : Nat) : Prop where
  inStack : InStack u sp
  words : ∃ ptrs : List Nat, ptrs.length = argv.length ∧
    sp + (wordBytes ([0xffffffff, argv.length, sp + 12] ++ ptrs ++ [0])).length ≤ u * pgSize ∧
    readBytes img sp (wordBytes ([0xffffffff, argv.length, sp + 12] ++ ptrs ++ [0])).length =
      wordBytes ([0xffffffff, argv.length, sp + 12] ++ ptrs ++ [0]) ∧
    ∀ (k : Nat) (arg : List UInt8), argv[k]? = some arg → ∃ p, ptrs[k]? = some p ∧ sp ≤ p ∧
      p + (arg.length + 1) ≤ u * pgSize ∧ readBytes img p (arg.length + 1) = arg ++ [0]

theorem length_wordBytes (ws : List Nat) : (wordBytes ws).length = ws.length * 4 := by
  induction ws with
  | nil => rfl
  | cons w ws ih =>
    rw [wordBytes, List.flatMap_cons, List.length_append, length_le32, ← wordBytes, ih,
      List.length_cons]
    omega

theorem alignSp_eq_subSp (hsp : sp % 4 = 0) (hn : n % 4 = 0) : alignSp sp n = subSp sp n := by
  simp only [alignSp, subSp]
  omega

theorem subSp_eq (h : n ≤ sp) (hsp : sp < 2 ^ 32) : subSp sp n = sp - n := by
  rw [subSp]
  omega

/-- The words of `ustack` are pushed below the strings. -/
theorem Pushed.stackAt {sp' : Nat} {ptrs : List Nat} (hu : u ≤ userPages)
    (h : Pushed img img' argv (u * pgSize) sp' ptrs)
    (hin : InStack u (subSp sp' ((3 + ptrs.length + 1) * 4)))
    (hle : subSp sp' ((3 + ptrs.length + 1) * 4) + (3 + ptrs.length + 1) * 4 ≤ sp') :
    StackAt (writeBytes img' (subSp sp' ((3 + ptrs.length + 1) * 4))
      (wordBytes (ustackWords sp' ptrs))) argv u (subSp sp' ((3 + ptrs.length + 1) * 4)) := by
  have htop : sp' < 2 ^ 32 := by
    have := h.le
    simp only [userPages, pgSize] at *
    omega
  obtain ⟨esp, hesp⟩ : ∃ esp, subSp sp' ((3 + ptrs.length + 1) * 4) = esp := ⟨_, rfl⟩
  have hsub := subSp_eq (show (3 + ptrs.length + 1) * 4 ≤ sp' by omega) htop
  rw [hesp] at hin hle hsub ⊢
  have hargv : subSp sp' ((ptrs.length + 1) * 4) = esp + 12 := by
    rw [subSp_eq (by omega) htop]
    omega
  have hwords : ustackWords sp' ptrs = [0xffffffff, argv.length, esp + 12] ++ ptrs ++ [0] := by
    rw [ustackWords, hargv, h.length]
  have hlen : (wordBytes (ustackWords sp' ptrs)).length = (3 + ptrs.length + 1) * 4 := by
    rw [length_wordBytes, ustackWords]
    simp only [List.length_append, List.length_cons, List.length_nil]
  have hple := h.le
  refine ⟨hin, ptrs, h.length, ?_, ?_, fun k arg hk => ?_⟩
  · rw [← hwords, hlen]
    omega
  · rw [← hwords]
    exact readBytes_writeBytes ..
  · obtain ⟨p, hp, hge, hend, hread⟩ := h.string k arg hk
    refine ⟨p, hp, by omega, hend, ?_⟩
    rw [← hread]
    exact readBytes_congr fun i _ => writeBytes_of_not_mem (by omega)

/-- `exec` has committed: the image is the one of the segments with a stack above it. -/
structure Committed (L : Layout) (F : Multiset Nat) (img : Bytes) (argv : List (List UInt8))
    (entry sz : Nat) (s s' : State) : Prop where
  only : s' = { s with phys := s'.phys, reads := s'.reads, proc := s'.proc }
  size : s'.proc.sz = (pagesUp sz + 2) * pgSize
  eip : s'.proc.eip = entry
  image : ∃ img', Image L F s'.phys s'.proc.pgdir (pagesUp sz + 2) (notGuard (pagesUp sz + 2)) img' ∧
    (∀ a, a < pagesUp sz * pgSize → img' a = img a) ∧
    StackAt img' argv (pagesUp sz + 2) s'.proc.esp

structure Assigned (s : State) (d sz entry sp : Nat) (s' : State) : Prop where
  only : s' = { s with phys := s'.phys, reads := s'.reads, proc := s'.proc }
  pgdir : s'.proc.pgdir = d
  sz : s'.proc.sz = sz
  eip : s'.proc.eip = entry
  esp : s'.proc.esp = sp

/-- The new address space takes the place of the old one, whose pages are free then. -/
theorem wp_commit {s₁ : State} {user : Nat → Prop}
    (hF : Pool L (F + dirPages s.phys s.proc.pgdir)) (hkeeps : Keeps F s d s₁)
    (h : Image L F s₁.phys d u user img) :
    wp (commit L path d sz entry sp) (fun _ s' => Assigned s d sz entry sp s' ∧
      Image L (F + dirPages s.phys s.proc.pgdir) s'.phys d u user img) (fun _ => False) s₁ := by
  have hold : dirPages s₁.phys s.proc.pgdir = dirPages s.phys s.proc.pgdir :=
    (lookup_dirPages_congr fun x hx =>
      hkeeps.still x (.inl fun hx' => hF.nodup.notMem_right hx' hx)).2
  have hproc : s₁.proc = s.proc := by rw [hkeeps.only]
  have hfree := h.wp_freevm (hold ▸ hF)
  rw [hold] at hfree
  change wp (onPhys (freevm L s₁.proc.pgdir)) _ _ { s₁ with proc := _ }
  rw [wp_onPhys, hproc]
  refine hfree.mono (fun _ phys himage => ⟨⟨?_, rfl, rfl, rfl, rfl⟩, himage⟩) fun _ => False.elim
  rw [hkeeps.only]

/-- The two pages above the first `q` ones. -/
structure TwoPages (q base top : Nat) : Prop where
  base_eq : q * pgSize = base
  top_eq : (q + 2) * pgSize = top
  pagesUp_base : pagesUp base = q
  pagesUp_top : pagesUp top = q + 2
  top_mod : (base + 2 * pgSize) % 2 ^ 32 = top
  guard : subSp top (2 * pgSize) = base
  inStack : InStack (q + 2) top
  base_le : base ≤ top

theorem twoPages {q base top : Nat} (hq : q ≤ userPages) (hbase : q * pgSize = base)
    (htop : (q + 2) * pgSize = top) : TwoPages q base top := by
  simp only [userPages, pgSize] at hq hbase htop
  refine ⟨hbase, htop, ?_, ?_, ?_, ?_, ⟨?_, ?_, by omega⟩, by omega⟩
  all_goals
    simp only [pagesUp, pgSize, subSp]
    omega

/-- From the loaded segments to the end of `exec`, which is the function `m`. The pages of the old
address space are given back when the new one is complete. -/
theorem wp_buildStack {m : ExecM Exit} (hm : buildStack L path argv d sz entry = m)
    (hF : Pool L (F + dirPages s.phys s.proc.pgdir)) (h : Loaded L F ip zeros segs d sz s.phys) :
    wp m (fun e s' =>
      (e = .bad (some d) false ∧ Keeps F s d s') ∨
      (e = .done ∧ Committed L (F + dirPages s.phys s.proc.pgdir)
        (segs.foldl (overlay ip) zeros) argv entry sz s s'))
      (fun e => e = .nullEntry) s := by
  have hF' : Pool L F := hF.mono (Multiset.le_add_right _ _)
  have himage := h.image
  have hup := pgRoundUp_eq h.lt.le
  -- names for the numbers keep the loops from being unfolded
  generalize hq : pagesUp sz = q at himage hup
  generalize hbase : q * pgSize = base at hup
  generalize htop : (q + 2) * pgSize = top
  have hnum := twoPages himage.le hbase htop
  rw [← hnum.pagesUp_base] at himage
  rw [← hm, buildStack, hup]
  dsimp only
  rw [hnum.top_mod]
  refine wp_onPhys_bind (himage.wp_allocuvm hF') ?_
  rintro r phys ⟨hstill, hdir, hr⟩
  have halloc : Keeps F s d { s with phys := phys } := ⟨rfl, hstill, hdir⟩
  refine wp_ite (fun _ => .inl ⟨rfl, halloc⟩) fun h0 => ?_
  obtain ⟨hmax, hltk, himage₁⟩ := hr h0
  have hbt := hnum.base_le
  obtain rfl : r = top := by omega
  rw [hnum.pagesUp_top] at himage₁
  rw [hnum.guard, ← hbase]
  refine wp_onPhys_bind (himage₁.wp_clearpteu hF' (show q < q + 2 by omega)) ?_
  rintro _ phys₂ ⟨hstill₂, himage₂⟩
  have himage₃ : Image L F phys₂ d (q + 2) (notGuard (q + 2)) (segs.foldl (overlay ip) zeros) :=
    himage₂.congr_user fun v => by rw [notGuard, Nat.add_sub_cancel, true_and]
  have hkeeps₂ : Keeps F s d { s with phys := phys₂ } :=
    ⟨rfl, hstill.trans hstill₂ fun _ hx => hx, _, himage₃.dir⟩
  refine (wp_pushArgs (s := { s with phys := phys₂ }) hF' (by omega) hnum.inStack himage₃).bind ?_
  rintro (_ | ⟨sp', ustack⟩) s₃ ⟨hkeeps₃, hr₃⟩
  · exact .inl ⟨rfl, hkeeps₂.trans hkeeps₃⟩
  obtain ⟨ptrs, img', rfl, hin, hpushed, himage₄⟩ := hr₃ sp' ustack rfl
  dsimp only
  rw [wp_bind, wp_onPhys]
  refine (himage₄.wp_copyout hF' (subSp_lt ..) _).mono ?_ fun _ he => he
  rintro (_ | _) phys₅ ⟨hstill₅, hdir₅, hok⟩
  · exact .inl ⟨rfl, (hkeeps₂.trans hkeeps₃).trans ⟨rfl, hstill₅, hdir₅⟩⟩
  -- the words of `ustack` are in the stack page as well
  obtain ⟨hreach, himage₅⟩ := hok rfl
  have hlen : (wordBytes (ustackWords sp' ustack)).length = (3 + ustack.length + 1) * 4 := by
    rw [length_wordBytes, ustackWords]
    simp only [List.length_append, List.length_cons, List.length_nil]
  have hsub := alignSp_eq_subSp hin.align (Nat.mul_mod_left (3 + ustack.length + 1) 4)
  rw [hlen, ← hsub] at hreach
  obtain ⟨hin', hle'⟩ := alignSp_inStack (by omega) himage₄.le hin (by omega)
    fun j hj => (hreach j hj).2
  rw [hsub] at hin' hle'
  have hkeeps₅ : Keeps F s d { s₃ with phys := phys₅ } :=
    (hkeeps₂.trans hkeeps₃).trans ⟨rfl, hstill₅, hdir₅⟩
  have htop' : subSp sp' ((3 + ustack.length + 1) * 4) +
      (wordBytes (ustackWords sp' ustack)).length ≤ 2 ^ 32 := by
    have hlt := hpushed.le
    simp only [kernBase] at hltk
    omega
  rw [if_pos rfl]
  refine ((wp_commit hF hkeeps₅ (himage₅ htop')).mono (fun _ _ hs' => hs')
    fun _ => False.elim).bind ?_
  rintro _ s₆ ⟨hassigned, himage₆⟩
  rw [← hassigned.pgdir, ← hq] at himage₆
  refine .inr ⟨rfl, hassigned.only, ?_, hassigned.eip, _, himage₆, fun a ha => ?_, ?_⟩
  · rw [hassigned.sz, hq, htop]
  · have hlow : a < subSp sp' ((3 + ustack.length + 1) * 4) := by
      have hge := hin'.ge
      rw [hq] at ha
      rw [show q + 2 - 1 = q + 1 by omega, Nat.add_one_mul] at hge
      omega
    rw [writeBytes_of_not_mem (.inl hlow), hpushed.still a (.inl (by omega))]
  · rw [hassigned.esp, hq]
    exact Pushed.stackAt himage₄.le (htop ▸ hpushed) hin' hle'

theorem userByte_eq {phys : Phys} {user : Nat → Prop} (h : Image L F phys d u user img)
    (ha : a / pgSize < u) (huser : user (a / pgSize)) : userByte phys.mem d a = some (img a) := by
  obtain ⟨w, hw, hu, hbytes⟩ := h.below _ ha
  rw [userByte, userFrame_eq_some.mpr ⟨w, hw, hu.mpr huser, rfl⟩, Option.map_some,
    hbytes _ (Nat.mod_lt _ (by decide)), Nat.div_add_mod']

/-- A range of the image below the guard page, or above it. -/
theorem reads_of_image {phys : Phys} {bs : List UInt8}
    (h : Image L F phys d (u + 2) (notGuard (u + 2)) img) (hread : readBytes img a bs.length = bs)
    (hin : a + bs.length ≤ u * pgSize ∨ (u + 1) * pgSize ≤ a ∧ a + bs.length ≤ (u + 2) * pgSize) :
    Reads phys.mem d a bs := by
  intro j b hb
  have hj := (List.getElem?_eq_some_iff.mp hb).1
  have hpage : (a + j) / pgSize < u + 2 ∧ notGuard (u + 2) ((a + j) / pgSize) := by
    simp only [notGuard, pgSize] at *
    omega
  rw [userByte_eq h hpage.1 hpage.2, ← hb, ← hread, readBytes, List.getElem?_map,
    List.getElem?_range (by simpa using hj)]
  rfl

theorem length_segmentBytes (ip : File) (h : ph.filesz ≤ ph.memsz) :
    (segmentBytes ip ph).length = ph.memsz := by
  rw [segmentBytes, List.length_append, length_readBytes, List.length_replicate,
    Nat.add_sub_cancel' h]

theorem Committed.built (h : Committed L F ((programSegments ip).foldl (overlay ip) zeros) argv
      (elfHdr ip).entry sz s s')
    (hfits : ∀ ph ∈ programSegments ip, ph.filesz ≤ ph.memsz ∧ ph.vaddr + ph.memsz ≤ sz) :
    Built ip argv s' := by
  obtain ⟨-, hsize, heip, img', himage, hsame, hstack⟩ := h
  have hle := le_pagesUp sz
  generalize pagesUp sz = q at *
  obtain ⟨hin, ptrs, hlen, hend, hwords, hstrings⟩ := hstack
  have hge : (q + 1) * pgSize ≤ s'.proc.esp := hin.ge
  refine ⟨fun v hv => ?_, fun v hv => ?_, fun i ph hi hother => ?_, heip, hin.align, ptrs, hlen,
    reads_of_image himage hwords (.inr ⟨hge, hend⟩), fun k arg hk => ?_⟩
  · have hlt : v * pgSize < s'.proc.sz ↔ v < q + 2 := by
      rw [hsize]
      exact Nat.mul_lt_mul_right (by decide)
    rw [hlt]
    by_cases hvq : v < q + 2
    · obtain ⟨w, hw, -⟩ := himage.below v hvq
      exact iff_of_true (by rw [hw]; rfl) hvq
    · rw [himage.above v (by omega) (userPages_le hv), kernelMap_user hv]
      exact iff_of_false (by simp) hvq
  · rw [himage.userFrame_isSome_iff hv, hsize, notGuard]
    simp only [pgSize]
    omega
  · obtain ⟨hfile, hmem⟩ := hfits ph (List.mem_of_getElem? hi)
    have hlen := length_segmentBytes ip hfile
    refine reads_of_image himage ?_ (.inl (by omega))
    rw [hlen, ← readBytes_foldl_overlay (fun ph hph => (hfits ph hph).1) hi hother]
    exact readBytes_congr fun j hj => hsame _ (by omega)
  · obtain ⟨p, hp, hple, hpend, hread⟩ := hstrings k arg hk
    refine ⟨p, hp, reads_of_image himage ?_ (.inr ⟨by omega, ?_⟩)⟩
    · rw [List.length_append, List.length_singleton]
      exact hread
    · rw [List.length_append, List.length_singleton]
      exact hpend

end Xv6.Exec
