import Sol26.Ufs.Levels

/-!
# `bmap_has_holes`

The function compares the number of blocks charged to a file with the number that a file of
its length has without holes.  It counts the indirect blocks by a closed formula whose level is
found by subtracting the capacity of each level from the *number* of blocks.
-/

namespace Sol26.Ufs

/-- `u_int` arithmetic. -/
def uint (n : ℕ) : ℕ := n % 2 ^ 32

theorem uint_of_lt {n : ℕ} (h : n < 2 ^ 32) : uint n = n := Nat.mod_eq_of_lt h

/-- The value of `cnt`, after the direct blocks were taken off `dblks`.  With `j = 0` the
source leaves it unset. -/
def expectedCount (g : Geometry) (dblks : ℕ) : Option ℕ :=
  let (j, _, dblks) := levelLoop g.nindirshift niaddr 0 dblks
  let nindirblks := uint (g.nindiroffset + 1)
  if j = niaddr then some (uint (ndaddr + 1 + dblks))
  else if j = niaddr - 1 then
    some (uint (ndaddr + 1 + nindirblks + 1 + (dblks + g.nindiroffset) / nindirblks + dblks))
  else if j = niaddr - 2 then
    let n := (dblks + g.nindiroffset) / nindirblks
    some (uint (ndaddr + 1 + nindirblks + 1 + nindirblks + nindirblks * nindirblks +
      1 + (n + g.nindiroffset) / nindirblks + n + dblks))
  else none

/-- `bmap_has_holes` of a file with the given `i_size` and `i_blocks`, which counts sectors and
is never negative. -/
def bmapHasHoles (g : Geometry) (size blocks : ℕ) : Option ℕ :=
  let fsboffset := 2 ^ g.bshift - 1
  let dblks := uint ((size + fsboffset) >>> g.bshift)
  let mblks := uint ((blocks * 512 + fsboffset) >>> g.bshift)
  if dblks ≤ ndaddr then some (if mblks < dblks then 1 else 0)
  else (expectedCount g (dblks - ndaddr)).map fun cnt => if mblks < cnt then 1 else 0

/-- `UFS_MAXOFFSET_T` of `ufs_fs.h`. -/
def ufsMaxoffset : ℕ := 2 ^ 40 - 1

/-- `fragroundup` of `ufs_fs.h`. -/
def Geometry.fragroundup (g : Geometry) (size : ℕ) : ℕ := howmany size g.fsize * g.fsize

/-- `blksize` of `ufs_fs.h`: the bytes of the block `lbn` of a file. -/
def Geometry.blksize (g : Geometry) (size lbn : ℕ) : ℕ :=
  if ndaddr ≤ lbn ∨ (lbn + 1) * g.bsize ≤ size then g.bsize
  else g.fragroundup (size % g.bsize)

/-- The number of data blocks below `size`. -/
def Geometry.dataBlocks (g : Geometry) (size : ℕ) : ℕ := howmany size g.bsize

/-- The sectors of every data block below `size` and of every indirect block needed to reach
them: `i_blocks` of a file without holes. -/
def Geometry.fullSectors (g : Geometry) (size : ℕ) : ℕ :=
  ∑ lbn ∈ Finset.range (g.dataBlocks size), g.blksize size lbn / 512 +
    (neededIndirects g.nindir (g.dataBlocks size - ndaddr)).card * (g.bsize / 512)

/-- `bmap_has_holes` answers 0 for the file of this length without holes, and 1 when at least
one full block less is charged to it. -/
def HolesExact (g : Geometry) (size : ℕ) : Prop :=
  bmapHasHoles g size (g.fullSectors size) = some 0 ∧
    ∀ blocks, blocks + g.bsize / 512 ≤ g.fullSectors size → bmapHasHoles g size blocks = some 1

/-- The file fills the last block of the single or of the double indirect level. -/
def Geometry.FillsLevel (g : Geometry) (size : ℕ) : Prop :=
  g.dataBlocks size = ndaddr + g.nindir ∨ g.dataBlocks size = ndaddr + g.nindir + g.nindir ^ 2

theorem shiftRight_eq_howmany (x s : ℕ) : (x + (2 ^ s - 1)) >>> s = howmany x (2 ^ s) := by
  rw [Nat.shiftRight_eq_div_pow, howmany]

section Count

variable (g : Geometry) {e : ℕ}

/-- The indirect blocks of a file that ends in the single indirect level. -/
theorem card_needed_single (he : 0 < e) (hlt : e ≤ g.nindir) :
    (neededIndirects g.nindir e).card = 1 := by
  have hN := g.nindir_pos
  rw [card_neededIndirects hN]
  have h1 : inLevel g.nindir e 1 = e := by simp [inLevel, hlt]
  have h2 : inLevel g.nindir e 2 = 0 := by simp [inLevel, levelStart_two, Nat.sub_eq_zero_of_le hlt]
  have h3 : inLevel g.nindir e 3 = 0 := by
    rw [inLevel, levelStart_three, Nat.sub_eq_zero_of_le (by omega), Nat.zero_min]
  simp [niaddr, Finset.sum_Icc_succ_top, h1, h2, h3, hN, howmany_eq_one he hlt]

/-- The indirect blocks of a file that ends in the double indirect level. -/
theorem card_needed_double {m : ℕ} (hm : 0 < m) (hle : m ≤ g.nindir ^ 2) :
    (neededIndirects g.nindir (g.nindir + m)).card = 2 + howmany m g.nindir := by
  have hN := g.nindir_pos
  rw [card_neededIndirects hN]
  have h1 : inLevel g.nindir (g.nindir + m) 1 = g.nindir := by simp [inLevel]
  have h2 : inLevel g.nindir (g.nindir + m) 2 = m := by simp [inLevel, levelStart_two, hle]
  have h3 : inLevel g.nindir (g.nindir + m) 3 = 0 := by
    rw [inLevel, levelStart_three, Nat.sub_eq_zero_of_le (by omega), Nat.zero_min]
  simp [niaddr, Finset.sum_Icc_succ_top, Finset.sum_range_succ, h1, h2, h3, hN,
    howmany_eq_one hm hle, howmany_eq_one hN (le_refl _)]
  omega

/-- The indirect blocks of a file that ends in the triple indirect level. -/
theorem card_needed_triple {m : ℕ} (hm : 0 < m) (hle : m ≤ g.nindir ^ 3) :
    (neededIndirects g.nindir (g.nindir + g.nindir ^ 2 + m)).card =
      3 + g.nindir + howmany m (g.nindir ^ 2) + howmany m g.nindir := by
  have hN := g.nindir_pos
  rw [card_neededIndirects hN]
  have h1 : inLevel g.nindir (g.nindir + g.nindir ^ 2 + m) 1 = g.nindir := by
    rw [inLevel, levelStart_one, pow_one]
    omega
  have h2 : inLevel g.nindir (g.nindir + g.nindir ^ 2 + m) 2 = g.nindir ^ 2 := by
    rw [inLevel, levelStart_two]
    omega
  have h3 : inLevel g.nindir (g.nindir + g.nindir ^ 2 + m) 3 = m := by
    simp [inLevel, levelStart_three, hle]
  have h4 : howmany (g.nindir ^ 2) g.nindir = g.nindir := by rw [pow_two, howmany_mul _ hN]
  simp [niaddr, Finset.sum_Icc_succ_top, Finset.sum_range_succ, h1, h2, h3, h4,
    howmany_eq_one hm hle, howmany_eq_one hN (le_refl _),
    howmany_eq_one (Nat.pow_pos hN) (le_refl (g.nindir ^ 2))]
  omega

/-- The code's formula is the exact number of blocks, with one indirect block too many when
the last block is the last one of a level. -/
theorem expectedCount_eq (he : 0 < e) (hbound : e ≤ 2 ^ 28) :
    expectedCount g e = some (ndaddr + e + (neededIndirects g.nindir e).card +
      if e = g.nindir ∨ e = g.nindir + g.nindir ^ 2 then 1 else 0) := by
  have hN := g.nindir_pos
  have hblks : g.nindiroffset + 1 = g.nindir := Nat.sub_add_cancel hN
  have hceil : ∀ m, (m + g.nindiroffset) / g.nindir = howmany m g.nindir := fun _ => rfl
  have hsmall : g.nindir ≤ 2048 ∧ g.nindir ^ 2 ≤ 2 ^ 22 ∧ 2 ^ 30 ≤ g.nindir ^ 3 := by
    cases g.nindir_cases with
    | inl h | inr h => rw [h]; norm_num
  have huint : uint g.nindir = g.nindir := uint_of_lt (by omega)
  simp only [expectedCount, hblks, huint, hceil]
  by_cases h1 : e < g.nindir
  · have hno : ¬(e = g.nindir ∨ e = g.nindir + g.nindir ^ 2) := by omega
    rw [g.level_eq (t := 1) (le_refl 1) (by decide) (by simp) (by rw [levelStart_two]; exact h1),
      card_needed_single g he h1.le, if_neg hno, levelStart_one]
    simp only [niaddr, ndaddr, Nat.reduceAdd, Nat.reduceSub, if_true, Nat.sub_zero, Nat.add_zero]
    rw [uint_of_lt (by omega)]
    congr 1
    omega
  by_cases h2 : e < g.nindir + g.nindir ^ 2
  · obtain ⟨m, rfl⟩ := Nat.exists_eq_add_of_le (not_lt.mp h1)
    have hm := howmany_le_self m hN
    rw [g.level_eq (t := 2) (by omega) (by decide) (by rw [levelStart_two]; omega)
      (by rw [levelStart_three]; exact h2), levelStart_two, Nat.add_sub_cancel_left]
    simp only [niaddr, ndaddr, Nat.reduceAdd, Nat.reduceSub, Nat.reduceEqDiff, if_false, if_true]
    rw [uint_of_lt (by omega)]
    by_cases hzero : m = 0
    · subst hzero
      simp only [Nat.add_zero, true_or, if_true]
      rw [card_needed_single g hN (le_refl _), howmany_zero hN]
      congr 1
      omega
    · have hno : ¬(g.nindir + m = g.nindir ∨ g.nindir + m = g.nindir + g.nindir ^ 2) := by omega
      rw [if_neg hno, card_needed_double g (by omega) (by omega)]
      congr 1
      omega
  · obtain ⟨m, rfl⟩ := Nat.exists_eq_add_of_le (not_lt.mp h2)
    have hm := howmany_le_self m hN
    have hm2 := howmany_le_self m (Nat.pow_pos hN : 0 < g.nindir ^ 2)
    rw [g.level_eq (t := 3) (by omega) (by decide) (by rw [levelStart_three]; omega)
      (by rw [levelStart_four]; omega), levelStart_three, Nat.add_sub_cancel_left]
    simp only [niaddr, ndaddr, Nat.reduceAdd, Nat.reduceSub, Nat.reduceEqDiff, if_false, if_true,
      howmany_howmany m hN, ← pow_two]
    rw [uint_of_lt (by omega)]
    by_cases hzero : m = 0
    · subst hzero
      simp only [Nat.add_zero, or_true, if_true]
      rw [card_needed_double g (Nat.pow_pos hN) (le_refl _),
        howmany_zero hN, howmany_zero (Nat.pow_pos hN), pow_two, howmany_mul _ hN]
      congr 1
      omega
    · have hno : ¬(g.nindir + g.nindir ^ 2 + m = g.nindir ∨
          g.nindir + g.nindir ^ 2 + m = g.nindir + g.nindir ^ 2) := by omega
      rw [if_neg hno, card_needed_triple g (by omega) (by omega)]
      congr 1
      omega

end Count

section Sectors

variable (g : Geometry) {size : ℕ}

theorem Geometry.bsize_pos : 0 < g.bsize := Nat.two_pow_pos _

theorem Geometry.fsize_pos : 0 < g.fsize := Nat.two_pow_pos _

/-- A part of a block, rounded up to fragments, is at most a block and is whole sectors. -/
theorem Geometry.fragroundup_part {r : ℕ} (hr : 0 < r) (hlt : r < g.bsize) :
    0 < g.fragroundup r ∧ g.fragroundup r ≤ g.bsize ∧ 512 ∣ g.fragroundup r := by
  obtain ⟨q, hq⟩ := g.fsize_dvd_bsize
  have hpos : 0 < howmany r g.fsize := (lt_howmany_iff g.fsize_pos).mpr (by omega)
  have hle : howmany r g.fsize ≤ q := by
    rw [howmany_le_iff g.fsize_pos, Nat.mul_comm]
    omega
  refine ⟨Nat.mul_pos hpos g.fsize_pos, ?_, g.sector_dvd_fsize.mul_left _⟩
  rw [hq, Nat.mul_comm g.fsize]
  exact Nat.mul_le_mul_right _ hle

/-- Every block but the last is a full one. -/
theorem Geometry.blksize_inner {lbn : ℕ} (h : lbn + 1 < g.dataBlocks size) :
    g.blksize size lbn = g.bsize := by
  rw [dataBlocks, lt_howmany_iff g.bsize_pos] at h
  rw [blksize, if_pos (.inr h.le)]

theorem Geometry.blksize_last {lbn : ℕ} (h : lbn + 1 = g.dataBlocks size) :
    0 < g.blksize size lbn ∧ g.blksize size lbn ≤ g.bsize ∧ 512 ∣ g.blksize size lbn := by
  have hfull : 0 < g.bsize ∧ g.bsize ≤ g.bsize ∧ 512 ∣ g.bsize :=
    ⟨g.bsize_pos, le_refl _, g.sector_dvd_bsize⟩
  rw [blksize]
  split_ifs with hif
  · exact hfull
  · have hlo : lbn * g.bsize < size := (lt_howmany_iff g.bsize_pos).mp (by
      rw [dataBlocks] at h
      omega)
    rw [not_or, Nat.add_mul, Nat.one_mul] at hif
    have hmod : size % g.bsize = size - lbn * g.bsize := by
      rw [show size = (size - lbn * g.bsize) + lbn * g.bsize by omega, Nat.add_mul_mod_self_right,
        Nat.mod_eq_of_lt (by omega), Nat.add_sub_cancel]
    exact g.fragroundup_part (by omega) (Nat.mod_lt _ g.bsize_pos)

/-- The bytes of a file without holes: full blocks and the last data block. -/
theorem Geometry.fullSectors_bytes {k : ℕ} (hd : g.dataBlocks size = k + 1) :
    g.fullSectors size * 512 =
      (k + (neededIndirects g.nindir (k + 1 - ndaddr)).card) * g.bsize + g.blksize size k := by
  have hinner : ∑ lbn ∈ Finset.range k, g.blksize size lbn / 512 = k * (g.bsize / 512) := by
    rw [Finset.sum_congr rfl fun lbn hlbn => ?_, Finset.sum_const, Finset.card_range, smul_eq_mul]
    rw [g.blksize_inner]
    rw [Finset.mem_range] at hlbn
    omega
  rw [fullSectors, hd, Finset.sum_range_succ, hinner]
  set c := (neededIndirects g.nindir (k + 1 - ndaddr)).card
  have h1 := Nat.div_mul_cancel g.sector_dvd_bsize
  have h2 := Nat.div_mul_cancel (g.blksize_last hd.symm).2.2
  calc (k * (g.bsize / 512) + g.blksize size k / 512 + c * (g.bsize / 512)) * 512
      = (k + c) * (g.bsize / 512 * 512) + g.blksize size k / 512 * 512 := by ring
    _ = (k + c) * g.bsize + g.blksize size k := by rw [h1, h2]

/-- In blocks, a file without holes has its data blocks and the needed indirect blocks. -/
theorem Geometry.howmany_fullSectors :
    howmany (g.fullSectors size * 512) g.bsize =
      g.dataBlocks size + (neededIndirects g.nindir (g.dataBlocks size - ndaddr)).card := by
  cases hd : g.dataBlocks size with
  | zero => simp [fullSectors, hd, g.bsize_pos]
  | succ k =>
    obtain ⟨hpos, hle, -⟩ := g.blksize_last hd.symm
    rw [g.fullSectors_bytes hd, howmany_mul_add _ hpos hle]
    omega

/-- One full block less is at least one block less. -/
theorem Geometry.howmany_missing {blocks : ℕ} (h : blocks + g.bsize / 512 ≤ g.fullSectors size) :
    howmany (blocks * 512) g.bsize <
      g.dataBlocks size + (neededIndirects g.nindir (g.dataBlocks size - ndaddr)).card := by
  rw [← g.howmany_fullSectors, lt_howmany_iff g.bsize_pos]
  have hbytes : blocks * 512 + g.bsize ≤ g.fullSectors size * 512 := by
    have hdiv := Nat.div_mul_cancel g.sector_dvd_bsize
    have hmul := Nat.mul_le_mul_right 512 h
    rw [Nat.add_mul, hdiv] at hmul
    exact hmul
  have hlt : howmany (blocks * 512) g.bsize * g.bsize < blocks * 512 + g.bsize := by
    rw [howmany]
    have hdiv := Nat.div_mul_le_self (blocks * 512 + (g.bsize - 1)) g.bsize
    have hpos := g.bsize_pos
    omega
  exact lt_of_lt_of_le hlt hbytes

instance (size : ℕ) : Decidable (g.FillsLevel size) := inferInstanceAs (Decidable (_ ∨ _))

/-- What `bmap_has_holes` computes, for every length that a file can have. -/
theorem bmapHasHoles_eq (hsize : size ≤ ufsMaxoffset) {blocks : ℕ}
    (hblocks : howmany (blocks * 512) g.bsize ≤ g.dataBlocks size +
      (neededIndirects g.nindir (g.dataBlocks size - ndaddr)).card) :
    bmapHasHoles g size blocks = some (if howmany (blocks * 512) g.bsize <
      g.dataBlocks size + (neededIndirects g.nindir (g.dataBlocks size - ndaddr)).card +
        (if g.FillsLevel size then 1 else 0) then 1 else 0) := by
  have hbsize : 2 ^ 12 ≤ g.bsize := Nat.pow_le_pow_right (by omega) g.minbsize_le
  have hd : g.dataBlocks size ≤ 2 ^ 28 := by
    rw [Geometry.dataBlocks, howmany_le_iff g.bsize_pos]
    rw [ufsMaxoffset] at hsize
    have hmul := Nat.mul_le_mul_left (2 ^ 28) hbsize
    omega
  have hcard := card_neededIndirects_le g.nindir_pos (g.dataBlocks size - ndaddr)
  have hN := g.nindir_pos
  simp only [bmapHasHoles, shiftRight_eq_howmany]
  rw [show (2 : ℕ) ^ g.bshift = g.bsize from rfl, show howmany size g.bsize = g.dataBlocks size
    from rfl, uint_of_lt (by omega : g.dataBlocks size < 2 ^ 32), uint_of_lt (by omega)]
  by_cases hdirect : g.dataBlocks size ≤ ndaddr
  · have hno : ¬g.FillsLevel size := by
      rw [Geometry.FillsLevel]
      omega
    rw [if_pos hdirect, if_neg hno, Nat.sub_eq_zero_of_le hdirect, neededIndirects_zero,
      Finset.card_empty, Nat.add_zero]
  · rw [if_neg hdirect, expectedCount_eq g (by omega) (by omega), Option.map_some]
    have hfills : (g.dataBlocks size - ndaddr = g.nindir ∨
        g.dataBlocks size - ndaddr = g.nindir + g.nindir ^ 2) ↔ g.FillsLevel size := by
      rw [Geometry.FillsLevel]
      omega
    simp only [hfills, Nat.add_sub_cancel' (not_le.mp hdirect).le]

end Sectors

/-- `bmap_has_holes` is exact for a file length if and only if the last block of the file is
not the last one of the single or of the double indirect level. -/
theorem holesExact_iff (g : Geometry) {size : ℕ} (hsize : size ≤ ufsMaxoffset) :
    HolesExact g size ↔ ¬g.FillsLevel size := by
  have hfull := @Geometry.howmany_fullSectors g size
  constructor
  · intro h hfills
    have hzero := h.1
    rw [bmapHasHoles_eq g hsize hfull.le, if_pos hfills, if_pos (by omega)] at hzero
    simp at hzero
  · intro hno
    constructor
    · rw [bmapHasHoles_eq g hsize hfull.le, if_neg hno, if_neg (by omega)]
    · intro blocks hblocks
      have hlt := g.howmany_missing hblocks
      rw [bmapHasHoles_eq g hsize hlt.le, if_neg hno, if_pos (by omega)]

/-- Blocks of 8192 bytes and fragments of 1024 bytes. -/
def eightK : Geometry :=
  ⟨13, 10, by decide, by decide, by decide, by decide, by decide⟩

/-- A file with a block and a byte behind the single indirect level. -/
theorem holesExact_eightK : 2061 * 8192 + 1 ≤ ufsMaxoffset ∧ HolesExact eightK (2061 * 8192 + 1) :=
  ⟨by decide, (holesExact_iff eightK (by decide)).mpr (by decide)⟩

/-- A file that fills the single indirect block has 2060 data blocks and one indirect block,
and is said to have a hole. -/
theorem not_holesExact_eightK :
    eightK.fullSectors (2060 * 8192) = 2061 * 16 ∧
      bmapHasHoles eightK (2060 * 8192) (2061 * 16) = some 1 ∧
      ¬HolesExact eightK (2060 * 8192) := by
  have hsectors : eightK.fullSectors (2060 * 8192) = 2061 * 16 := by
    have hd : eightK.dataBlocks (2060 * 8192) = 2059 + 1 := by decide
    have hcard : (neededIndirects eightK.nindir (2059 + 1 - ndaddr)).card = 1 :=
      card_needed_single eightK (by decide) (by decide)
    have hlast : eightK.blksize (2060 * 8192) 2059 = 8192 := by decide
    have hbytes := eightK.fullSectors_bytes hd
    rw [hcard, hlast, show eightK.bsize = 8192 from rfl] at hbytes
    exact Nat.eq_of_mul_eq_mul_right (by decide : 0 < 512) hbytes
  have hholes : bmapHasHoles eightK (2060 * 8192) (2061 * 16) = some 1 := by decide
  refine ⟨hsectors, hholes, fun h => ?_⟩
  have hzero := h.1
  rw [hsectors, hholes] at hzero
  simp at hzero

end Sol26.Ufs
