import Mathlib.Tactic

/-!
# Sums of 16-bit words with end-around carry

The sum of the big-endian words of a list of bytes, modulo 65535. There 256 is its own inverse, so
a byte in the other half of a word counts 256 times as much, and the words of a list that begins in
the middle of a word are those of the list with their bytes exchanged.
-/
namespace Sol26.Ones

/-- The sum of the big-endian words; a last byte without a partner is the upper one. -/
def wordSum : List UInt8 → ℕ
  | [] => 0
  | [a] => a.toNat * 256
  | a :: b :: l => a.toNat * 256 + b.toNat + wordSum l

/-- The two bytes of a word exchanged. -/
def swap (x : ℕ) : ℕ := x <<< 8 &&& 0xffff ||| x >>> 8

theorem sq_256 : (256 : ZMod 65535) * 256 = 1 := by decide

/-- A byte before a list moves the list by half a word. -/
theorem wordSum_cons (a : UInt8) (l : List UInt8) :
    (wordSum (a :: l) : ZMod 65535) = 256 * (a.toNat + wordSum l) := by
  induction l using wordSum.induct generalizing a with
  | case1 =>
    simp only [wordSum]
    push_cast
    ring
  | case2 b =>
    simp only [wordSum]
    push_cast
    linear_combination (-(b.toNat : ZMod 65535)) * sq_256
  | case3 b c l ih =>
    have hb : (wordSum (a :: b :: c :: l) : ZMod 65535) =
        256 * a.toNat + b.toNat + wordSum (c :: l) := by
      rw [wordSum]
      push_cast
      ring
    have hc : (wordSum (b :: c :: l) : ZMod 65535) = 256 * b.toNat + c.toNat + wordSum l := by
      rw [wordSum]
      push_cast
      ring
    rw [hb, ih c, hc]
    linear_combination (-(b.toNat : ZMod 65535)) * sq_256

theorem wordSum_append (l l' : List UInt8) :
    (wordSum (l ++ l') : ZMod 65535) = wordSum l + 256 ^ l.length * wordSum l' := by
  induction l with
  | nil => simp [wordSum]
  | cons a l ih =>
    rw [List.cons_append, wordSum_cons, wordSum_cons, ih, List.length_cons]
    ring

theorem pow_256_even {n : ℕ} (h : n % 2 = 0) : (256 : ZMod 65535) ^ n = 1 := by
  obtain ⟨k, rfl⟩ : ∃ k, n = 2 * k := ⟨n / 2, by omega⟩
  rw [pow_mul, pow_two, sq_256, one_pow]

theorem pow_256_odd {n : ℕ} (h : n % 2 = 1) : (256 : ZMod 65535) ^ n = 256 := by
  obtain ⟨k, rfl⟩ : ∃ k, n = 2 * k + 1 := ⟨n / 2, by omega⟩
  rw [pow_succ, pow_256_even (by omega), one_mul]

theorem wordSum_le (l : List UInt8) : wordSum l ≤ 65535 * l.length := by
  induction l using wordSum.induct with
  | case1 => simp [wordSum]
  | case2 a =>
    have := a.toNat_lt
    simp only [wordSum, List.length_cons, List.length_nil]
    omega
  | case3 a b l ih =>
    have := a.toNat_lt
    have := b.toNat_lt
    simp only [wordSum, List.length_cons]
    omega

theorem swap_eq {x : ℕ} (h : x < 65536) : swap x = x % 256 * 256 + x / 256 := by
  have hlow : x <<< 8 &&& 0xffff = x % 256 * 256 := by
    rw [Nat.shiftLeft_eq, show (0xffff : ℕ) = 2 ^ 16 - 1 by rfl, Nat.and_two_pow_sub_one_eq_mod]
    omega
  have hhigh : x >>> 8 = x / 256 := Nat.shiftRight_eq_div_pow x 8
  rw [swap, hlow, hhigh]
  have hlt : x / 256 < 2 ^ 8 := by omega
  have hshift : x % 256 * 256 = (x % 256) <<< 8 := by rw [Nat.shiftLeft_eq]
  rw [hshift, ← Nat.shiftLeft_add_eq_or_of_lt hlt]

theorem swap_lt {x : ℕ} (h : x < 65536) : swap x < 65536 := by
  rw [swap_eq h]
  omega

/-- Exchanging the bytes is multiplication by 256. -/
theorem cast_swap {x : ℕ} (h : x < 65536) : (swap x : ZMod 65535) = 256 * x := by
  have hx : (x : ZMod 65535) = ((256 * (x / 256) + x % 256 : ℕ) : ZMod 65535) := by
    rw [Nat.div_add_mod]
  rw [swap_eq h, hx]
  push_cast
  linear_combination (-((x / 256 : ℕ) : ZMod 65535)) * sq_256

/-- `sum = (sum & 0xFFFF) + (sum >> 16);` -/
def fold (sum : ℕ) : ℕ := (sum &&& 0xffff) + sum >>> 16

theorem fold_eq (sum : ℕ) : fold sum = sum % 65536 + sum / 65536 := by
  rw [fold, show (0xffff : ℕ) = 2 ^ 16 - 1 by rfl, Nat.and_two_pow_sub_one_eq_mod,
    Nat.shiftRight_eq_div_pow]

theorem cast_fold (sum : ℕ) : (fold sum : ZMod 65535) = sum := by
  have h1 : (65536 : ZMod 65535) = 1 := by decide
  have hsum : (sum : ZMod 65535) = ((65536 * (sum / 65536) + sum % 65536 : ℕ) : ZMod 65535) := by
    rw [Nat.div_add_mod]
  rw [fold_eq, hsum]
  push_cast
  linear_combination (-((sum / 65536 : ℕ) : ZMod 65535)) * h1

/-- What a routine that adds words with end-around carry returns. -/
structure Folded (sum : ℕ) (l : List UInt8) (r : ℕ) : Prop where
  lt : r < 65536
  le : r ≤ sum + wordSum l
  cast : (r : ZMod 65535) = sum + wordSum l

/-- The sum with all of its carries added in. -/
def carried (x : ℕ) : ℕ := if x = 0 then 0 else (x - 1) % 65535 + 1

theorem folded_carried (sum : ℕ) (l : List UInt8) : Folded sum l (carried (sum + wordSum l)) := by
  generalize hx : sum + wordSum l = x
  by_cases hzero : x = 0
  · rw [carried, if_pos hzero]
    refine ⟨by omega, Nat.zero_le _, ?_⟩
    rw [← Nat.cast_add, hx, hzero]
  · rw [carried, if_neg hzero]
    have hlt := Nat.mod_lt (x - 1) (show 65535 > 0 by omega)
    have hle := Nat.mod_le (x - 1) 65535
    refine ⟨by omega, by omega, ?_⟩
    rw [← Nat.cast_add, hx, ZMod.natCast_eq_natCast_iff]
    have hmod := (Nat.mod_modEq (x - 1) 65535).add_right 1
    rwa [Nat.sub_add_cancel (Nat.one_le_iff_ne_zero.mpr hzero)] at hmod

end Sol26.Ones
