import Xv6.Fs.Inodes

namespace Xv6.Mkfs

open Fs

def ninodes : Nat := 200

def nbitmap : Nat := fsSize / (bsize * 8) + 1

def ninodeblocks : Nat := ninodes / ipb + 1

def nlog : Nat := logSize

def nmeta : Nat := 2 + nlog + ninodeblocks + nbitmap

def nblocks : Nat := fsSize - nmeta

def sb : Superblock where
  size := fsSize
  nblocks := nblocks
  ninodes := ninodes
  nlog := nlog
  logstart := 2
  inodestart := 2 + nlog
  bmapstart := 2 + nlog + ninodeblocks

@[simp] theorem sb_nmeta : sb.nmeta = nmeta := rfl

theorem geometry : Geometry sb where
  size_lt := by decide
  inodes i hi := by
    change i < 200 at hi
    change i / 8 + 32 < 58
    omega
  bitmap b hb := by
    change b < 2000 at hb
    change b / 4096 + 58 < 59
    omega
  nmeta_pos := by decide

/-- The free map that `balloc` writes: the first `used` blocks have been allocated. -/
def balloc (used : Nat) : Bytes :=
  (List.range used).foldl
    (fun buf i => Function.update buf (i / 8) (setBitOf (buf (i / 8)) (i % 8) true)) zeroBlock

theorem testBit_balloc (used i : Nat) :
    (balloc used (i / 8)).toNat.testBit (i % 8) = decide (i < used) := by
  induction used with
  | zero => simp [balloc, zeroBlock]
  | succ used ih =>
    rw [balloc, List.range_succ, List.foldl_append, List.foldl_cons, List.foldl_nil]
    change (Function.update (balloc used) (used / 8) _ (i / 8)).toNat.testBit (i % 8) = _
    by_cases hbyte : i / 8 = used / 8
    · rw [hbyte, Function.update_self, testBit_setBitOf _ (by omega) (by omega)]
      by_cases hbit : i % 8 = used % 8
      · have : i = used := by omega
        simp [this]
      · rw [if_neg hbit, ← hbyte]
        change (balloc used (i / 8)).toNat.testBit (i % 8) = _
        rw [ih, decide_eq_decide]
        omega
    · rw [Function.update_of_ne hbyte, ih, decide_eq_decide]
      omega

theorem balloc_eq (used : Nat) :
    balloc used = fun j => UInt8.ofNat (2 ^ (min 8 (used - 8 * j)) - 1) := by
  funext j
  apply UInt8.toNat_inj.mp
  apply Nat.eq_of_testBit_eq
  intro k
  have hlt : 2 ^ (min 8 (used - 8 * j)) - 1 < 2 ^ 8 := by
    have := Nat.pow_le_pow_right (n := 2) (by omega) (Nat.min_le_left 8 (used - 8 * j))
    omega
  rw [UInt8.toNat_ofNat', Nat.mod_eq_of_lt hlt, Nat.testBit_two_pow_sub_one]
  by_cases hk : k < 8
  · have := testBit_balloc used (8 * j + k)
    have h1 : (8 * j + k) / 8 = j := by omega
    have h2 : (8 * j + k) % 8 = k := by omega
    rw [h1, h2] at this
    rw [this, decide_eq_decide]
    omega
  · have h8 : (balloc used j).toNat < 2 ^ k :=
      lt_of_lt_of_le (balloc used j).toNat_lt (Nat.pow_le_pow_right (by omega) (by omega))
    rw [Nat.testBit_lt_two_pow h8]
    exact (decide_eq_false (by omega)).symm

/-- An image without inodes whose first `used` blocks are marked. -/
def blank (used : Nat) : Disk := Function.update (fun _ => zeroBlock) sb.bmapstart (balloc used)

variable {b : Nat}

theorem bit_map (disk : Disk) (used : Nat) (hb : b < bpb) :
    bit sb (Function.update disk sb.bmapstart (balloc used)) b = decide (b < used) := by
  have hblock : bblock sb b = sb.bmapstart := by rw [bblock, Nat.div_eq_of_lt hb, Nat.zero_add]
  rw [bit, hblock, Nat.mod_eq_of_lt hb, Function.update_self, testBit_balloc]

theorem lt_bpb (hb : b < sb.size) : b < bpb := hb.trans (by decide)

theorem bit_blank {used : Nat} (hb : b < sb.size) : bit sb (blank used) b = decide (b < used) :=
  bit_map _ _ (lt_bpb hb)

theorem getDinode_zeroBlock (o : Nat) : getDinode zeroBlock o = Dinode.zero := by
  simp [getDinode, getShort, Bytes.get16, Bytes.get32, zeroBlock, Dinode.zero]

theorem dinode_blank {used i : Nat} (hi : i < sb.ninodes) : dinode sb (blank used) i = Dinode.zero := by
  have hne : iblock sb i ≠ sb.bmapstart := (geometry.inodes i hi).ne
  rw [dinode, blank, Function.update_of_ne hne, getDinode_zeroBlock]

/-- A disk without inodes is well formed when the blocks marked are the meta blocks. -/
theorem diskOk_of_empty {disk : Disk} (hfree : ∀ i, i < sb.ninodes → (dinode sb disk i).type = 0)
    (hbit : ∀ b, b < sb.size → bit sb disk b = decide (b < nmeta)) : DiskOk sb disk := by
  have hown : ∀ x, owner sb disk (dinode sb disk) x = 0 :=
    fun x => if_neg fun h => h.2 (hfree x.1 h.1)
  refine ⟨⟨by decide, fun x hx => absurd (hown x) hx, fun x y hx => absurd (hown x) hx, ?_⟩,
    fun i hi ht => absurd (hfree i hi) ht⟩
  intro b hb
  rw [hbit b hb]
  simp [hown]

theorem diskOk_blank : DiskOk sb (blank nmeta) :=
  diskOk_of_empty (fun i hi => by rw [dinode_blank hi]; rfl) fun _ hb => bit_blank hb

end Xv6.Mkfs
