import Sol26.Ufs.Levels

/-!
# The free map of a cylinder group

A bit of `cg_blksfree` is set when its fragment is free.  The fragments of a block lie in one
byte, since a block has 1, 2, 4 or 8 of them.  Each operation of `ufs_subr.c` on the bytes is
described by the bits that it leaves.
-/

namespace Sol26.Ufs

open Function (update update_of_ne update_self)
open Nat (mod_lt reduceDiv)
open BitVec (getLsbD_and getLsbD_eq_getElem getLsbD_not)

/-- An array of bytes. -/
abbrev Bytes := ℕ → BitVec 8

/-- `isset`, `setbit` and `clrbit` of `ufs_fs.h`, with `NBBY` 8. -/
def isset (a : Bytes) (i : ℕ) : Bool := (a (i / 8)).getLsbD (i % 8)

def setbit (a : Bytes) (i : ℕ) : Bytes :=
  update a (i / 8) (a (i / 8) ||| 1#8 <<< (i % 8))

def clrbit (a : Bytes) (i : ℕ) : Bytes :=
  update a (i / 8) (a (i / 8) &&& ~~~(1#8 <<< (i % 8)))

theorem isset_update (a : Bytes) (k : ℕ) (b : BitVec 8) (i : ℕ) :
    isset (update a k b) i = if i / 8 = k then b.getLsbD (i % 8) else isset a i := by
  by_cases h : i / 8 = k
  · rw [isset, h, update_self, if_pos rfl]
  · rw [isset, update_of_ne h, if_neg h, isset]

theorem getLsbD_one_shiftLeft {i j : ℕ} (hj : j < 8) : (1#8 <<< i).getLsbD j = decide (i = j) := by
  rw [BitVec.getLsbD_shiftLeft, BitVec.getLsbD_one]
  by_cases h : i = j
  · simp [h, hj]
  · by_cases hlt : j < i
    · simp [hlt, h]
    · simp only [hlt, h, decide_false, Bool.not_false, Bool.and_true, Bool.and_eq_false_imp]
      intro _
      simp
      omega

@[simp] theorem isset_setbit (a : Bytes) (i k : ℕ) :
    isset (setbit a i) k = (decide (k = i) || isset a k) := by
  rw [setbit, isset_update]
  split_ifs with h
  · rw [BitVec.getLsbD_or, getLsbD_one_shiftLeft (mod_lt _ (by decide)), isset, h, Bool.or_comm]
    congr 1
    rw [decide_eq_decide]
    omega
  · rw [decide_eq_false (by omega), Bool.false_or]

@[simp] theorem isset_clrbit (a : Bytes) (i k : ℕ) :
    isset (clrbit a i) k = (!decide (k = i) && isset a k) := by
  rw [clrbit, isset_update]
  split_ifs with h
  · rw [getLsbD_and, getLsbD_not,
      getLsbD_one_shiftLeft (mod_lt _ (by decide)), isset, h, Bool.and_comm]
    have hlt : k % 8 < 8 := mod_lt _ (by decide)
    have hiff : (i % 8 = k % 8) ↔ k = i := by omega
    simp [hlt, hiff]
  · rw [decide_eq_false (by omega), Bool.not_false, Bool.true_and]

namespace Geometry

variable (g : Geometry)

/-- `fs_frag`, and `fs_fragshift`. -/
def fragshift : ℕ := g.bshift - g.fshift

def frag : ℕ := 2 ^ g.fragshift

theorem frag_cases : g.frag = 1 ∨ g.frag = 2 ∨ g.frag = 4 ∨ g.frag = 8 := by
  have h1 := g.le_maxfrag
  have h : g.fragshift = 0 ∨ g.fragshift = 1 ∨ g.fragshift = 2 ∨ g.fragshift = 3 := by
    rw [fragshift]
    omega
  rw [frag]
  obtain h | h | h | h := h <;> simp [h]

theorem frag_pos : 0 < g.frag := Nat.two_pow_pos _

theorem frag_dvd_eight : g.frag ∣ 8 := by
  obtain h | h | h | h := g.frag_cases <;> rw [h] <;> decide

theorem frag_le : g.frag ≤ 8 := Nat.le_of_dvd (by decide) g.frag_dvd_eight

theorem bsize_eq_frag_mul : g.bsize = g.frag * g.fsize := by
  rw [bsize, frag, fsize, ← pow_add, fragshift]
  congr 1
  have h := g.fshift_le
  omega

/-- A block does not cross a byte. -/
theorem block_in_byte {loc : ℕ} (h : g.frag ∣ loc) : loc % 8 + g.frag ≤ 8 := by
  obtain hf | hf | hf | hf := g.frag_cases <;> rw [hf] at h ⊢ <;> omega

/-- `fragnum` and `blknum`: the place of a fragment in its block, and the block's start. -/
def fragnum (fsb : ℕ) : ℕ := fsb &&& (g.frag - 1)

def blknum (fsb : ℕ) : ℕ := fsb - (fsb &&& (g.frag - 1))

def fragstoblks (frags : ℕ) : ℕ := frags >>> g.fragshift

def blkstofrags (blks : ℕ) : ℕ := blks <<< g.fragshift

def numfrags (loc : ℕ) : ℕ := loc >>> g.fshift

def fragoff (loc : ℕ) : ℕ := loc % g.fsize

theorem blknum_eq (fsb : ℕ) : g.blknum fsb = fsb - fsb % g.frag := by
  rw [blknum, frag, Nat.and_two_pow_sub_one_eq_mod]

theorem fragstoblks_eq (frags : ℕ) : g.fragstoblks frags = frags / g.frag := by
  rw [fragstoblks, Nat.shiftRight_eq_div_pow, frag]

theorem numfrags_eq (loc : ℕ) : g.numfrags loc = loc / g.fsize := by
  rw [numfrags, Nat.shiftRight_eq_div_pow, fsize]

/-- The bits of a block, as the macro `blkmap` extracts them. -/
def blkmap (map : Bytes) (loc : ℕ) : ℕ :=
  (map (loc / 8) >>> (loc % 8) &&& 0xff#8 >>> (8 - g.frag)).toNat

/-- The byte of the block `h`, and the block's bits in it: the four cases of `fs_frag`. -/
def blockByte (h : ℕ) : ℕ :=
  match g.frag with
  | 8 => h
  | 4 => h >>> 1
  | 2 => h >>> 2
  | _ => h >>> 3

def blockMask (h : ℕ) : BitVec 8 :=
  match g.frag with
  | 8 => 0xff#8
  | 4 => 0x0f#8 <<< ((h &&& 0x1) <<< 2)
  | 2 => 0x03#8 <<< ((h &&& 0x3) <<< 1)
  | _ => 0x01#8 <<< (h &&& 0x7)

/-- Check if a block is available. -/
def isblock (cp : Bytes) (h : ℕ) : Bool :=
  cp (g.blockByte h) &&& g.blockMask h == g.blockMask h

/-- Take a block out of the map. -/
def clrblock (cp : Bytes) (h : ℕ) : Bytes :=
  update cp (g.blockByte h) (cp (g.blockByte h) &&& ~~~g.blockMask h)

/-- Is block allocated? -/
def isclrblock (cp : Bytes) (h : ℕ) : Bool :=
  cp (g.blockByte h) == cp (g.blockByte h) &&& ~~~g.blockMask h

/-- Put a block into the map. -/
def setblock (cp : Bytes) (h : ℕ) : Bytes :=
  update cp (g.blockByte h) (cp (g.blockByte h) ||| g.blockMask h)

theorem blockByte_eq (h : ℕ) : g.blockByte h = h * g.frag / 8 := by
  rw [blockByte]
  obtain hf | hf | hf | hf := g.frag_cases <;>
    simp only [hf, Nat.shiftRight_eq_div_pow] <;> omega

theorem getLsbD_blockMask (h : ℕ) {j : ℕ} (hj : j < 8) :
    (g.blockMask h).getLsbD j = decide (j / g.frag = h % (8 / g.frag)) := by
  rw [blockMask]
  obtain hf | hf | hf | hf := g.frag_cases
  · simp only [hf]
    have hand : h &&& 0x7 = h % 8 := Nat.and_two_pow_sub_one_eq_mod h 3
    have hlt : h % 8 < 8 := mod_lt _ (by decide)
    rw [hand, getLsbD_one_shiftLeft hj, decide_eq_decide]
    omega
  · simp only [hf, reduceDiv]
    have hand : h &&& 0x3 = h % 4 := Nat.and_two_pow_sub_one_eq_mod h 2
    have hlt : h % 4 < 4 := mod_lt _ (by decide)
    rw [hand]
    generalize h % 4 = r at hlt
    interval_cases r <;> interval_cases j <;> rfl
  · simp only [hf, reduceDiv]
    have hand : h &&& 0x1 = h % 2 := Nat.and_two_pow_sub_one_eq_mod h 1
    have hlt : h % 2 < 2 := mod_lt _ (by decide)
    rw [hand]
    generalize h % 2 = r at hlt
    interval_cases r <;> interval_cases j <;> rfl
  · simp only [hf, reduceDiv]
    rw [Nat.mod_one, Nat.div_eq_of_lt hj]
    interval_cases j <;> rfl

/-- The fragment `i` lies in the byte and in the mask of its block only. -/
theorem mem_block_iff (h i : ℕ) :
    (i / 8 = g.blockByte h ∧ (g.blockMask h).getLsbD (i % 8) = true) ↔ i / g.frag = h := by
  rw [blockByte_eq, getLsbD_blockMask g h (mod_lt _ (by decide)), decide_eq_true_eq]
  obtain hf | hf | hf | hf := g.frag_cases <;> rw [hf] <;> omega

theorem isset_clrblock (cp : Bytes) (h i : ℕ) :
    isset (g.clrblock cp h) i = (!decide (i / g.frag = h) && isset cp i) := by
  have hmem := g.mem_block_iff h i
  have hlt : i % 8 < 8 := mod_lt _ (by decide)
  rw [clrblock, isset_update]
  split_ifs with hbyte
  · rw [getLsbD_and, getLsbD_not, isset, hbyte, Bool.and_comm]
    cases hmask : (g.blockMask h).getLsbD (i % 8) with
    | true => simp [hmem.mp ⟨hbyte, hmask⟩]
    | false =>
      have hne : i / g.frag ≠ h := fun heq => by simp [hmem.mpr heq] at hmask
      simp [hne, hlt]
  · have hne : i / g.frag ≠ h := fun heq => hbyte (hmem.mpr heq).1
    simp [hne]

/-- The bits of the mask are the fragments of the block. -/
theorem exists_fragment {h j : ℕ} (hj : j < 8) (hmask : (g.blockMask h).getLsbD j = true) :
    (8 * g.blockByte h + j) / g.frag = h := by
  refine (g.mem_block_iff h _).mp ⟨by omega, ?_⟩
  rw [show (8 * g.blockByte h + j) % 8 = j by omega]
  exact hmask

theorem isset_byte (cp : Bytes) (k : ℕ) {j : ℕ} (hj : j < 8) :
    isset cp (8 * k + j) = (cp k).getLsbD j := by
  rw [isset, show (8 * k + j) / 8 = k by omega, show (8 * k + j) % 8 = j by omega]

theorem isblock_iff (cp : Bytes) (h : ℕ) :
    g.isblock cp h = true ↔ ∀ i, i / g.frag = h → isset cp i = true := by
  rw [isblock, beq_iff_eq]
  constructor
  · intro heq i hi
    obtain ⟨hbyte, hmask⟩ := (g.mem_block_iff h i).mpr hi
    have hbit := congrArg (fun b => b.getLsbD (i % 8)) heq
    simp only [getLsbD_and, hmask, Bool.and_true] at hbit
    rw [isset, hbyte, hbit]
  · intro hall
    ext j hj
    rw [← getLsbD_eq_getElem, ← getLsbD_eq_getElem, getLsbD_and]
    cases hmask : (g.blockMask h).getLsbD j with
    | true =>
      rw [← isset_byte cp _ hj, hall _ (g.exists_fragment hj hmask)]
      rfl
    | false => rw [Bool.and_false]

theorem isclrblock_iff (cp : Bytes) (h : ℕ) :
    g.isclrblock cp h = true ↔ ∀ i, i / g.frag = h → isset cp i = false := by
  rw [isclrblock, beq_iff_eq]
  constructor
  · intro heq i hi
    obtain ⟨hbyte, hmask⟩ := (g.mem_block_iff h i).mpr hi
    have hbit := congrArg (fun b => b.getLsbD (i % 8)) heq
    simp only [getLsbD_and, getLsbD_not, hmask, Bool.not_true, Bool.and_false]
      at hbit
    rw [isset, hbyte, hbit]
  · intro hall
    ext j hj
    rw [← getLsbD_eq_getElem, ← getLsbD_eq_getElem, getLsbD_and, getLsbD_not]
    cases hmask : (g.blockMask h).getLsbD j with
    | true =>
      rw [← isset_byte cp _ hj, hall _ (g.exists_fragment hj hmask)]
      rfl
    | false => simp [hj]

/-- The bits of `blkmap` at the start of a block. -/
theorem testBit_blkmap (map : Bytes) {loc : ℕ} (hloc : g.frag ∣ loc) (j : ℕ) :
    (g.blkmap map loc).testBit j = (decide (j < g.frag) && isset map (loc + j)) := by
  have hin := g.block_in_byte hloc
  have hle := g.frag_le
  rw [blkmap, BitVec.testBit_toNat, getLsbD_and, BitVec.getLsbD_ushiftRight,
    BitVec.getLsbD_ushiftRight]
  by_cases hj : j < g.frag
  · have hmask : (0xff#8).getLsbD (8 - g.frag + j) = true := by
      have hlt : 8 - g.frag + j < 8 := by omega
      generalize 8 - g.frag + j = k at hlt
      interval_cases k <;> rfl
    rw [hmask, decide_eq_true hj, Bool.and_true, Bool.true_and, isset]
    congr 2 <;> omega
  · have hmask : (0xff#8).getLsbD (8 - g.frag + j) = false :=
      BitVec.getLsbD_of_ge _ _ (by omega)
    rw [hmask, decide_eq_false hj, Bool.and_false, Bool.false_and]

end Geometry

end Sol26.Ufs
