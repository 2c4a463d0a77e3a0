import Xv6.Lib.Bytes

/-!
# The boot loader

`bootmain.c`. `readseg` copies whole sectors: besides the segment it writes the bytes that the file
has behind it, over memory that later segments fill, and those that the file has before it, below
the segment. These may fall on the end of the segment before.
-/

namespace Xv6.Boot

open Bytes

def sectSize : Nat := 512

/-- The scratch space, one page. -/
def elf : Nat := 0x10000

def elfMagic : Nat := 0x464C457F

/-- `readsect`; addresses have 32 bits. -/
def readsect (disk mem : Bytes) (dst offset : Nat) : Bytes := fun a =>
  let i := (a + 2 ^ 32 - dst) % 2 ^ 32
  if a < 2 ^ 32 ∧ i < sectSize then disk (offset * sectSize + i) else mem a

/-- The loop of `readseg`, for less than `fuel` rounds. -/
def readsegLoop (disk : Bytes) (epa : Nat) :
    (fuel : Nat) → (mem : Bytes) → (pa offset : Nat) → Option Bytes
  | 0, _, _, _ => none
  | fuel + 1, mem, pa, offset =>
    if pa < epa then readsegLoop disk epa fuel (readsect disk mem pa offset)
      ((pa + sectSize) % 2 ^ 32) ((offset + 1) % 2 ^ 32)
    else some mem

def readseg (disk : Bytes) (fuel : Nat) (mem : Bytes) (pa count offset : Nat) : Option Bytes :=
  readsegLoop disk ((pa + count) % 2 ^ 32) fuel mem
    ((pa + 2 ^ 32 - offset % sectSize) % 2 ^ 32) (offset / sectSize + 1)

def stosb (mem : Bytes) (addr : Nat) (data : UInt8) (cnt : Nat) : Bytes := fun a =>
  if a < 2 ^ 32 ∧ (a + 2 ^ 32 - addr) % 2 ^ 32 < cnt then data else mem a

/-- The fields of `struct proghdr` that `bootmain` reads. -/
structure ProgHdr where
  off : Nat
  paddr : Nat
  filesz : Nat
  memsz : Nat

def ProgHdr.decode (mem : Bytes) (ph : Nat) : ProgHdr :=
  ⟨get32 mem (ph + 4), get32 mem (ph + 12), get32 mem (ph + 16), get32 mem (ph + 20)⟩

/-- The body of the loop of `bootmain`, for the program header at `ph`. -/
def loadSegment (disk : Bytes) (fuel : Nat) (mem : Bytes) (ph : Nat) : Option Bytes :=
  let pa := (ProgHdr.decode mem ph).paddr
  (readseg disk fuel mem pa (ProgHdr.decode mem ph).filesz (ProgHdr.decode mem ph).off).map
    fun mem =>
      -- the sizes are read again after `readseg`
      let h := ProgHdr.decode mem ph
      if h.memsz > h.filesz then stosb mem ((pa + h.filesz) % 2 ^ 32) 0 (h.memsz - h.filesz)
      else mem

/-- The loop of `bootmain`, with `n` program headers to go. -/
def loadSegments (disk : Bytes) (fuel : Nat) : (n : Nat) → (mem : Bytes) → (ph : Nat) → Option Bytes
  | 0, mem, _ => some mem
  | n + 1, mem, ph =>
    (loadSegment disk fuel mem ph).bind fun mem =>
      loadSegments disk fuel n mem ((ph + 32) % 2 ^ 32)

/-- `bootmain` up to the call of the entry point, or up to its `return`. -/
def bootmain (disk : Bytes) (fuel : Nat) (mem : Bytes) : Option Bytes :=
  (readseg disk fuel mem elf 4096 0).bind fun mem =>
    if get32 mem elf ≠ elfMagic then some mem
    else
      let ph := (elf + get32 mem (elf + 28)) % 2 ^ 32
      let eph := (ph + 32 * get16 mem (elf + 44)) % 2 ^ 32
      loadSegments disk fuel ((eph - ph) / 32) mem ph

/-- The file that the disk has from sector 1 on. -/
def file (disk : Bytes) : Bytes := fun k => disk (sectSize + k)

def phnum (disk : Bytes) : Nat := get16 (file disk) 44

def segment (disk : Bytes) (i : Nat) : ProgHdr :=
  .decode (file disk) (get32 (file disk) 28 + 32 * i)

/-- An ELF file with its program headers in the first page. Its segments are in increasing order,
without overlap, and not next to the scratch space. -/
structure Image (disk : Bytes) : Prop where
  magic : get32 (file disk) 0 = elfMagic
  headers : get32 (file disk) 28 + 32 * phnum disk ≤ 4096
  size : ∀ i < phnum disk, (segment disk i).filesz ≤ (segment disk i).memsz
  away : ∀ i < phnum disk, (segment disk i).paddr + (segment disk i).memsz + sectSize ≤ elf ∨
    elf + 4096 + sectSize ≤ (segment disk i).paddr
  increasing : ∀ j < phnum disk, ∀ i < j,
    (segment disk i).paddr + (segment disk i).memsz ≤ (segment disk j).paddr

/-- The bytes below a segment that come with its first sector are nobody's, and its last sector
ends within the address space. -/
structure Apart (disk : Bytes) : Prop where
  low : ∀ i < phnum disk, (segment disk i).off % sectSize ≤ (segment disk i).paddr
  high : ∀ i < phnum disk, (segment disk i).paddr + (segment disk i).memsz + sectSize ≤ 2 ^ 32
  below : ∀ j < phnum disk, ∀ i < j, (segment disk i).paddr + (segment disk i).memsz +
    (segment disk j).off % sectSize ≤ (segment disk j).paddr

/-- The bytes of the file, and zeros. -/
def Loaded (disk mem : Bytes) (h : ProgHdr) : Prop :=
  ∀ k < h.memsz, mem (h.paddr + k) = if k < h.filesz then file disk (h.off + k) else 0

variable {disk mem : Bytes} {fuel : Nat}

theorem readsect_of_mem {dst k : Nat} (hdst : dst + sectSize ≤ 2 ^ 32) (hk : k < sectSize)
    (offset : Nat) : readsect disk mem dst offset (dst + k) = disk (offset * sectSize + k) := by
  have hi : (dst + k + 2 ^ 32 - dst) % 2 ^ 32 = k := by omega
  simp only [readsect, hi]
  exact if_pos ⟨by omega, hk⟩

theorem readsect_of_not_mem {dst a : Nat} (hdst : dst + sectSize ≤ 2 ^ 32)
    (ha : a < dst ∨ dst + sectSize ≤ a) (offset : Nat) :
    readsect disk mem dst offset a = mem a := by
  simp only [readsect, sectSize] at *
  exact if_neg (by omega)

theorem readsegLoop_spec (disk mem : Bytes) {epa : Nat} (n pa offset : Nat)
    (hpa : pa + n * sectSize < 2 ^ 32) (hoffset : offset + n < 2 ^ 32) (hepa : epa ≤ pa + n * sectSize)
    (hlast : pa + n * sectSize < epa + sectSize) (hfuel : n < fuel) :
    ∃ m, readsegLoop disk epa fuel mem pa offset = some m ∧
      (∀ k < n * sectSize, m (pa + k) = disk (offset * sectSize + k)) ∧
      ∀ a, a < pa ∨ pa + n * sectSize ≤ a → m a = mem a := by
  induction n generalizing fuel mem pa offset with
  | zero =>
    obtain ⟨fuel, rfl⟩ := Nat.exists_eq_succ_of_ne_zero (Nat.ne_zero_of_lt hfuel)
    exact ⟨mem, if_neg (by omega), by simp, fun _ _ => rfl⟩
  | succ n ih =>
    obtain ⟨fuel, rfl⟩ := Nat.exists_eq_succ_of_ne_zero (Nat.ne_zero_of_lt hfuel)
    rw [Nat.succ_mul] at *
    obtain ⟨m, hm, hin, hout⟩ := ih (readsect disk mem pa offset) (pa + sectSize) (offset + 1)
      (by omega) (by omega) (by omega) (by omega) (Nat.lt_of_succ_lt_succ hfuel)
    refine ⟨m, ?_, fun k hk => ?_, fun a ha => ?_⟩
    · rw [readsegLoop, if_pos (by omega), Nat.mod_eq_of_lt (by omega), Nat.mod_eq_of_lt (by omega), hm]
    · by_cases hlt : k < sectSize
      · rw [hout _ (by omega), readsect_of_mem (by omega) hlt]
      · obtain ⟨j, rfl⟩ := Nat.exists_eq_add_of_le (not_lt.mp hlt)
        rw [← Nat.add_assoc, hin j (by omega), Nat.succ_mul, Nat.add_assoc]
    · rw [hout a (by omega), readsect_of_not_mem (by omega) (by omega)]

/-- A segment is read with the bytes of the file before it and behind it. -/
theorem readseg_spec (disk mem : Bytes) {pa count offset : Nat} (hlow : offset % sectSize ≤ pa)
    (hhigh : pa + count + sectSize ≤ 2 ^ 32) (hoffset : offset < 2 ^ 32) (hfuel : 2 ^ 23 < fuel) :
    ∃ m, readseg disk fuel mem pa count offset = some m ∧
      (∀ k < count, m (pa + k) = file disk (offset + k)) ∧
      ∀ a, a + offset % sectSize < pa ∨ pa + count + sectSize ≤ a → m a = mem a := by
  have hdiv := Nat.div_add_mod offset sectSize
  simp only [sectSize] at *
  have hepa : pa + count ≤ pa - offset % 512 + (offset % 512 + count + 511) / 512 * 512 := by omega
  obtain ⟨m, hm, hin, hout⟩ := readsegLoop_spec disk mem _ (pa - offset % 512) (offset / 512 + 1)
    (by simp only [sectSize]; omega) (by omega) hepa (by simp only [sectSize]; omega)
    (show _ < fuel by omega)
  simp only [sectSize] at hin hout
  refine ⟨m, ?_, fun k hk => ?_, fun a ha => hout a (by omega)⟩
  · rw [readseg]
    simp only [sectSize]
    rw [Nat.mod_eq_of_lt (by omega : pa + count < 2 ^ 32),
      show (pa + 2 ^ 32 - offset % 512) % 2 ^ 32 = pa - offset % 512 by omega, hm]
  · have h := hin (offset % 512 + k) (by omega)
    rw [show pa - offset % 512 + (offset % 512 + k) = pa + k by omega] at h
    rw [h, file]
    exact congrArg disk (by simp only [sectSize]; omega)

/-- The scratch space has the first page of the file. -/
def Scratch (disk mem : Bytes) : Prop := ∀ k < 4096, mem (elf + k) = file disk k

theorem Scratch.get32_eq (h : Scratch disk mem) {o : Nat} (ho : o + 4 ≤ 4096) :
    get32 mem (elf + o) = get32 (file disk) o := by
  simp only [get32, Nat.add_assoc]
  rw [h o (by omega), h (o + 1) (by omega), h (o + 2) (by omega), h (o + 3) (by omega)]

theorem Scratch.decode_eq (h : Scratch disk mem) {o : Nat} (ho : o + 32 ≤ 4096) :
    ProgHdr.decode mem (elf + o) = .decode (file disk) o := by
  simp only [ProgHdr.decode, Nat.add_assoc]
  rw [h.get32_eq (by omega), h.get32_eq (by omega), h.get32_eq (by omega), h.get32_eq (by omega)]

/-- One round of `bootmain`: memory below the first sector stays as it is. -/
theorem loadSegment_spec (hs : Scratch disk mem) {o : Nat} (ho : o + 32 ≤ 4096) {h : ProgHdr}
    (hh : ProgHdr.decode (file disk) o = h) (hsize : h.filesz ≤ h.memsz)
    (haway : h.paddr + h.memsz + sectSize ≤ elf ∨ elf + 4096 + sectSize ≤ h.paddr)
    (hlow : h.off % sectSize ≤ h.paddr) (hhigh : h.paddr + h.memsz + sectSize ≤ 2 ^ 32)
    (hfuel : 2 ^ 23 < fuel) :
    ∃ m, loadSegment disk fuel mem (elf + o) = some m ∧ Loaded disk m h ∧ Scratch disk m ∧
      ∀ a, a + h.off % sectSize < h.paddr → m a = mem a := by
  have hoff : h.off < 2 ^ 32 := hh ▸ get32_lt _ _
  have hmod : h.off % sectSize < sectSize := Nat.mod_lt _ (by decide)
  obtain ⟨m, hm, hin, hout⟩ := readseg_spec disk mem hlow
    (show h.paddr + h.filesz + sectSize ≤ 2 ^ 32 by omega) hoff hfuel
  have hs' : Scratch disk m := fun k hk => (hout _ (by omega)).trans (hs k hk)
  have hzero (a : Nat) : (if h.memsz > h.filesz then stosb m ((h.paddr + h.filesz) % 2 ^ 32) 0
      (h.memsz - h.filesz) else m) a =
      if h.paddr + h.filesz ≤ a ∧ a < h.paddr + h.memsz then 0 else m a := by
    split
    · simp only [stosb, sectSize] at *
      exact if_congr (by omega) rfl rfl
    · exact (if_neg (by omega)).symm
  refine ⟨_, by rw [loadSegment, hs.decode_eq ho, hh, hm, Option.map_some, hs'.decode_eq ho, hh],
    fun k hk => ?_, fun k hk => ?_, fun a ha => ?_⟩
  · rw [hzero]
    split_ifs with h₁ h₂ h₂
    · omega
    · rfl
    · exact hin k h₂
    · omega
  · rw [hzero, if_neg (by omega), hs' k hk]
  · rw [hzero, if_neg (by omega), hout a (Or.inl ha)]

theorem loadSegments_spec (hi : Image disk) (ha : Apart disk) (hfuel : 2 ^ 23 < fuel) {i n : Nat}
    (hn : i + n = phnum disk) (hs : Scratch disk mem)
    (hloaded : ∀ j < i, Loaded disk mem (segment disk j)) :
    ∃ m, loadSegments disk fuel n mem (elf + (get32 (file disk) 28 + 32 * i)) = some m ∧
      ∀ j < phnum disk, Loaded disk m (segment disk j) := by
  induction n generalizing i mem with
  | zero => exact ⟨mem, rfl, fun j hj => hloaded j (by omega)⟩
  | succ n ih =>
    have hlt : i < phnum disk := by omega
    have hheaders := hi.headers
    obtain ⟨m, hm, hnew, hs', hout⟩ := loadSegment_spec hs (by omega) rfl (hi.size i hlt)
      (hi.away i hlt) (ha.low i hlt) (ha.high i hlt) hfuel
    obtain ⟨m', hm', hall⟩ := ih (i := i + 1) (by omega) hs' fun j hj k hk => by
      rcases Nat.lt_succ_iff_lt_or_eq.mp hj with hj | rfl
      · have := ha.below i hlt j hj
        exact (hout _ (by simp only [segment] at *; omega)).trans (hloaded j hj k hk)
      · exact hnew k hk
    refine ⟨m', ?_, hall⟩
    rw [loadSegments, hm, Option.bind_some, ← hm']
    congr 1
    simp only [elf]
    omega

/-- **The boot loader loads every segment**, if no segment reaches into the bytes below a later one
that come with the later one's first sector. -/
theorem bootmain_loads (disk mem : Bytes) (hi : Image disk) (ha : Apart disk) (fuel : Nat)
    (hfuel : 2 ^ 23 < fuel) :
    ∃ m, bootmain disk fuel mem = some m ∧ ∀ i < phnum disk, Loaded disk m (segment disk i) := by
  obtain ⟨m, hm, hin, -⟩ := readseg_spec disk mem (show 0 % sectSize ≤ elf by decide)
    (show elf + 4096 + sectSize ≤ 2 ^ 32 by decide) (by decide) hfuel
  have hs : Scratch disk m := fun k hk => by rw [hin k hk, Nat.zero_add]
  have hheaders := hi.headers
  obtain ⟨m', hm', hall⟩ := loadSegments_spec hi ha hfuel (Nat.zero_add _) hs nofun
  refine ⟨m', ?_, hall⟩
  have hphnum : get16 m (elf + 44) = phnum disk := by
    rw [get16, hs 44 (by decide), Nat.add_assoc, hs 45 (by decide)]
    rfl
  have hmagic : get32 m elf = elfMagic := (hs.get32_eq (o := 0) (by decide)).trans hi.magic
  rw [bootmain, hm, Option.bind_some, if_neg (not_not.mpr hmagic), hphnum,
    hs.get32_eq (by decide), ← hm']
  simp only [elf]
  congr 1 <;> omega

/-- A disk with segments of one byte for `0x100000`, from sector 2 of the file, and for `0x100001`,
from `off`. -/
def twoSegments (off : Nat) : Bytes :=
  [(0, elfMagic), (28, 52), (44, 2), (56, 1024), (64, 0x100000), (68, 1), (72, 1), (88, off),
    (96, 0x100001), (100, 1), (104, 1), (1024, 1)].foldl
    (fun m p => put32 m (sectSize + p.1) p.2) fun _ => 0

theorem image_twoSegments {off : Nat} (hoff : off = 1536 ∨ off = 1537) :
    Image (twoSegments off) := by
  rcases hoff with rfl | rfl <;> constructor <;> decide +kernel

theorem bootmain_loads_twoSegments : Image (twoSegments 1536) ∧ Apart (twoSegments 1536) ∧
    ∃ m, bootmain (twoSegments 1536) (2 ^ 23 + 1) (fun _ => 0) = some m ∧
      ∀ i < phnum (twoSegments 1536), Loaded (twoSegments 1536) m (segment (twoSegments 1536) i) :=
  have hi := image_twoSegments (Or.inl rfl)
  have ha : Apart (twoSegments 1536) := by constructor <;> decide +kernel
  ⟨hi, ha, bootmain_loads _ _ hi ha _ (by decide)⟩

/-- From offset 1537 the second segment comes with the byte 1536 of the file, which replaces the
first segment. -/
theorem bootmain_overwrites : Image (twoSegments 1537) ∧
    ∃ m, bootmain (twoSegments 1537) 10 (fun _ => 0) = some m ∧
      ∃ i < phnum (twoSegments 1537),
        ¬ Loaded (twoSegments 1537) m (segment (twoSegments 1537) i) := by
  have hrun : (bootmain (twoSegments 1537) 10 fun _ => 0).map (· 0x100000) = some 0 := by
    decide +kernel
  obtain ⟨m, hm, hzero⟩ := Option.map_eq_some_iff.mp hrun
  refine ⟨image_twoSegments (Or.inr rfl), m, hm, 0, by decide +kernel, fun hloaded => ?_⟩
  have hone := hloaded 0 (by decide +kernel)
  rw [show (segment (twoSegments 1537) 0).paddr + 0 = 0x100000 by decide +kernel, hzero] at hone
  exact absurd hone (by decide +kernel)

end Xv6.Boot
