import Mathlib

/-!
# Levels of indirection of a UFS file

The first `ndaddr` blocks of a file are named by the inode; the others hang below the
inode's `niaddr` indirect blocks, `N` below the first, `N ^ 2` below the second and so on.
This module has the loop of `ufs_bmap.c` that finds the level of a block, and the set of
indirect blocks on the way to the blocks of a file.
-/

namespace Sol26.Ufs

open Finset (card_range card_sigma mem_Icc mem_range mem_sigma range sum_le_sum)

/-- `NDADDR` and `NIADDR` of `ufs_inode.h`. -/
def ndaddr : ℕ := 12

def niaddr : ℕ := 3

/-- The block and fragment sizes of a file system that `mountfs` accepts: powers of two,
`MINBSIZE ≤ fs_bsize ≤ MAXBSIZE`, at most eight fragments of at least `DEV_BSIZE` bytes. -/
structure Geometry where
  bshift : ℕ
  fshift : ℕ
  minbsize_le : 12 ≤ bshift
  le_maxbsize : bshift ≤ 13
  devBsize_le : 9 ≤ fshift
  fshift_le : fshift ≤ bshift
  le_maxfrag : bshift ≤ fshift + 3

namespace Geometry

variable (g : Geometry)

def bsize : ℕ := 2 ^ g.bshift

def fsize : ℕ := 2 ^ g.fshift

/-- `vfs_nindirshift`: an indirect block holds four-byte addresses. -/
def nindirshift : ℕ := g.bshift - 2

/-- `NINDIR`, the number of addresses in an indirect block. -/
def nindir : ℕ := 2 ^ g.nindirshift

def nindiroffset : ℕ := g.nindir - 1

theorem nindir_pos : 0 < g.nindir := Nat.two_pow_pos _

theorem nindir_cases : g.nindir = 1024 ∨ g.nindir = 2048 := by
  have h : g.bshift = 12 ∨ g.bshift = 13 := by
    have h1 := g.minbsize_le
    have h2 := g.le_maxbsize
    omega
  cases h with
  | inl h => left; simp [nindir, nindirshift, h]
  | inr h => right; simp [nindir, nindirshift, h]

/-- A block is a whole number of fragments and of disk sectors. -/
theorem fsize_dvd_bsize : g.fsize ∣ g.bsize := pow_dvd_pow 2 g.fshift_le

theorem sector_dvd_fsize : 512 ∣ g.fsize := pow_dvd_pow 2 g.devBsize_le

theorem sector_dvd_bsize : 512 ∣ g.bsize := g.sector_dvd_fsize.trans g.fsize_dvd_bsize

end Geometry

/-- `howmany(x, y)` of `sys/sysmacros.h`. -/
def howmany (x y : ℕ) : ℕ := (x + (y - 1)) / y

variable {N i t x y : ℕ}

@[simp] theorem howmany_zero (hy : 0 < y) : howmany 0 y = 0 := by
  rw [howmany, Nat.zero_add]
  exact Nat.div_eq_of_lt (by omega)

theorem howmany_eq_one (hx : 0 < x) (hxy : x ≤ y) : howmany x y = 1 := by
  rw [howmany, Nat.div_eq_iff (by omega)]
  omega

theorem howmany_mul (q : ℕ) (hy : 0 < y) : howmany (q * y) y = q := by
  rw [howmany, Nat.mul_comm, Nat.mul_add_div hy, Nat.div_eq_of_lt (by omega), Nat.add_zero]

theorem howmany_mul_add (q : ℕ) {r : ℕ} (hr : 0 < r) (hry : r ≤ y) :
    howmany (q * y + r) y = q + 1 := by
  rw [howmany, Nat.mul_comm, Nat.add_assoc, Nat.mul_add_div (by omega)]
  exact congrArg (q + ·) (howmany_eq_one hr hry)

theorem lt_howmany_iff (hy : 0 < y) : i < howmany x y ↔ i * y < x := by
  rw [howmany, Nat.lt_iff_add_one_le, Nat.le_div_iff_mul_le hy, Nat.add_mul, Nat.one_mul]
  omega

theorem howmany_le_iff (hy : 0 < y) : howmany x y ≤ i ↔ x ≤ i * y := by
  rw [← not_lt, lt_howmany_iff hy, not_lt]

theorem howmany_le_self (x : ℕ) (hy : 0 < y) : howmany x y ≤ x :=
  (howmany_le_iff hy).mpr (Nat.le_mul_of_pos_right x hy)

/-- Rounding up twice is rounding up once. -/
theorem howmany_howmany (x : ℕ) (hy : 0 < y) : howmany (howmany x y) y = howmany x (y ^ 2) := by
  refine eq_of_forall_lt_iff fun i => ?_
  rw [lt_howmany_iff hy, lt_howmany_iff hy, lt_howmany_iff (Nat.pow_pos hy), pow_two, Nat.mul_assoc]

/-- "Determine how many levels of indirection": the loop that `bmap_read`, `bmap_write` and
`bmap_has_holes` share.  It gives `j`, `shft` and what is left of the block number. -/
def levelLoop (nindirshift : ℕ) : ℕ → ℕ → ℕ → ℕ × ℕ × ℕ
  | 0, shft, tbn => (0, shft, tbn)
  | j + 1, shft, tbn =>
    if tbn < 2 ^ (shft + nindirshift) then (j + 1, shft + nindirshift, tbn)
    else levelLoop nindirshift j (shft + nindirshift) (tbn - 2 ^ (shft + nindirshift))

/-- The number of blocks (after the direct ones) that come before those of level `t`. -/
def levelStart (N t : ℕ) : ℕ := ∑ k ∈ Finset.Ico 1 t, N ^ k

@[simp] theorem levelStart_one (N : ℕ) : levelStart N 1 = 0 := by simp [levelStart]

theorem levelStart_succ (N : ℕ) (ht : 1 ≤ t) : levelStart N (t + 1) = levelStart N t + N ^ t :=
  Finset.sum_Ico_succ_top ht _

theorem levelStart_two (N : ℕ) : levelStart N 2 = N := by
  rw [levelStart_succ N (le_refl 1), levelStart_one, pow_one, Nat.zero_add]

theorem levelStart_three (N : ℕ) : levelStart N 3 = N + N ^ 2 := by
  rw [levelStart_succ N (by omega : 1 ≤ 2), levelStart_two]

theorem levelStart_four (N : ℕ) : levelStart N 4 = N + N ^ 2 + N ^ 3 := by
  rw [levelStart_succ N (by omega : 1 ≤ 3), levelStart_three]

theorem levelStart_mono (N : ℕ) : Monotone (levelStart N) := by
  intro a b h
  exact Finset.sum_le_sum_of_subset (Finset.Ico_subset_Ico_right h)

/-- After `k` levels were passed, the loop stops at the level in which the block lies. -/
theorem levelLoop_spec (s : ℕ) {j k tbn : ℕ} (hk : k < t) (ht : t ≤ k + j)
    (hlo : levelStart (2 ^ s) t ≤ tbn + levelStart (2 ^ s) (k + 1))
    (hhi : tbn + levelStart (2 ^ s) (k + 1) < levelStart (2 ^ s) (t + 1)) :
    levelLoop s j (k * s) tbn =
      (k + j + 1 - t, t * s, tbn + levelStart (2 ^ s) (k + 1) - levelStart (2 ^ s) t) := by
  induction j generalizing k tbn with
  | zero => omega
  | succ j ih =>
    have hshft : k * s + s = (k + 1) * s := by ring
    have hpow : 2 ^ ((k + 1) * s) = (2 ^ s) ^ (k + 1) := by rw [← pow_mul, Nat.mul_comm]
    have hstart := levelStart_succ (2 ^ s) (by omega : 1 ≤ k + 1)
    rw [levelLoop, hshft, hpow]
    by_cases htbn : tbn < (2 ^ s) ^ (k + 1)
    · rw [if_pos htbn]
      have hlt : t = k + 1 := by
        by_contra hne
        have hmono := levelStart_mono (2 ^ s) (by omega : k + 1 + 1 ≤ t)
        omega
      subst hlt
      simp only [Prod.mk.injEq, true_and]
      omega
    · rw [if_neg htbn]
      have hlt : k + 1 < t := by
        by_contra hne
        have hmono := levelStart_mono (2 ^ s) (by omega : t + 1 ≤ k + 1 + 1)
        omega
      rw [ih hlt (by omega) (by omega) (by omega)]
      simp only [Prod.mk.injEq, true_and]
      omega

/-- The level of a block, for the inode's `niaddr` indirect blocks. -/
theorem Geometry.level_eq (g : Geometry) {tbn : ℕ} (ht : 1 ≤ t) (hle : t ≤ niaddr)
    (hlo : levelStart g.nindir t ≤ tbn) (hhi : tbn < levelStart g.nindir (t + 1)) :
    levelLoop g.nindirshift niaddr 0 tbn =
      (niaddr + 1 - t, t * g.nindirshift, tbn - levelStart g.nindir t) := by
  have h := levelLoop_spec g.nindirshift (k := 0) (j := niaddr) (t := t) ht
    (by omega) (by rw [levelStart_one]; exact hlo) (by rw [levelStart_one]; exact hhi)
  rw [Nat.zero_mul, Nat.zero_add, Nat.zero_add, levelStart_one, Nat.add_zero] at h
  exact h

/-- An indirect block of a file: its level `t`, its depth `k` below the inode and its place
among the blocks of that depth. -/
abbrev Node := Σ _ : ℕ, Σ _ : ℕ, ℕ

/-- The indirect blocks on the way to block `x` (counted after the direct blocks): below the
inode's slot of the block's level, one at each depth. -/
def indirectsOf (N x : ℕ) : Finset Node :=
  (Finset.Icc 1 niaddr).sigma fun t =>
    (range t).sigma fun k =>
      if levelStart N t ≤ x ∧ x < levelStart N (t + 1) then {(x - levelStart N t) / N ^ (t - k)}
      else ∅

/-- Every indirect block needed to reach the first `e` blocks after the direct ones. -/
def neededIndirects (N e : ℕ) : Finset Node := (range e).biUnion (indirectsOf N)

/-- How many of the first `e` blocks are in level `t`. -/
def inLevel (N e t : ℕ) : ℕ := min (e - levelStart N t) (N ^ t)

theorem exists_div_eq_iff {m P : ℕ} (hP : 0 < P) : (∃ y < m, y / P = i) ↔ i < howmany m P := by
  rw [lt_howmany_iff hP]
  constructor
  · intro ⟨y, hy, hi⟩
    have hle := Nat.div_mul_le_self y P
    rw [hi] at hle
    omega
  · intro h
    exact ⟨i * P, h, Nat.mul_div_cancel i hP⟩

/-- At depth `k` of level `t` the needed blocks are the first ones. -/
theorem mem_neededIndirects (hN : 0 < N) {e k : ℕ} :
    (⟨t, k, i⟩ : Node) ∈ neededIndirects N e ↔
      (1 ≤ t ∧ t ≤ niaddr) ∧ k < t ∧ i < howmany (inLevel N e t) (N ^ (t - k)) := by
  simp only [neededIndirects, indirectsOf, Finset.mem_biUnion, mem_range, mem_sigma, mem_Icc]
  rw [← exists_div_eq_iff (Nat.pow_pos hN)]
  constructor
  · intro ⟨x, hx, ht, hk, hi⟩
    split_ifs at hi with hlevel
    · have hstart := levelStart_succ N ht.1
      refine ⟨ht, hk, x - levelStart N t, ?_, (Finset.mem_singleton.mp hi).symm⟩
      rw [inLevel]
      omega
    · simp at hi
  · intro ⟨ht, hk, y, hy, hi⟩
    have hstart := levelStart_succ N ht.1
    rw [inLevel] at hy
    refine ⟨y + levelStart N t, by omega, ht, hk, ?_⟩
    rw [if_pos (by omega), Nat.add_sub_cancel, hi]
    exact Finset.mem_singleton_self i

theorem neededIndirects_eq (hN : 0 < N) (e : ℕ) :
    neededIndirects N e = (Finset.Icc 1 niaddr).sigma fun t =>
      (range t).sigma fun k =>
        range (howmany (inLevel N e t) (N ^ (t - k))) := by
  ext ⟨t, k, i⟩
  rw [mem_neededIndirects hN]
  simp only [mem_sigma, mem_Icc, mem_range]

/-- The number of needed indirect blocks, level by level and depth by depth. -/
theorem card_neededIndirects (hN : 0 < N) (e : ℕ) :
    (neededIndirects N e).card =
      ∑ t ∈ Finset.Icc 1 niaddr, ∑ k ∈ range t,
        howmany (inLevel N e t) (N ^ (t - k)) := by
  rw [neededIndirects_eq hN, card_sigma]
  simp only [card_sigma, card_range]

theorem card_neededIndirects_le (hN : 0 < N) (e : ℕ) : (neededIndirects N e).card ≤ 6 * e := by
  rw [card_neededIndirects hN]
  calc ∑ t ∈ Finset.Icc 1 niaddr, ∑ k ∈ range t, howmany (inLevel N e t) (N ^ (t - k))
      ≤ ∑ t ∈ Finset.Icc 1 niaddr, ∑ _k ∈ range t, e := by
        refine sum_le_sum fun t _ => sum_le_sum fun k _ => ?_
        have hself := howmany_le_self (inLevel N e t) (Nat.pow_pos hN : 0 < N ^ (t - k))
        have hlevel : inLevel N e t ≤ e := (Nat.min_le_left _ _).trans (Nat.sub_le _ _)
        exact hself.trans hlevel
    _ = 6 * e := by
        simp only [Finset.sum_const, card_range, smul_eq_mul, ← Finset.sum_mul]
        rfl

@[simp] theorem neededIndirects_zero (N : ℕ) : neededIndirects N 0 = ∅ := rfl

end Sol26.Ufs
