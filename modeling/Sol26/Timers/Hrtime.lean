import Mathlib.Data.BitVec
import Mathlib.Tactic

/-!
# Conversion between `hrtime_t` and `timestruc_t`

Model of `hrt2ts` and `ts2hrt` from `uts/common/os/timers.c`. A `u_long` has 32 bits and an
`hrtime_t` has 64. The number of seconds is estimated by shifts and the estimate is cleaned up by
a loop.
-/
namespace Sol26.Timers

open BitVec (toNat_add toNat_mul toNat_ofNat toNat_setWidth toNat_sub toNat_ushiftRight)

/-- `timestruc_t`; both fields are a signed `long`. -/
structure Timestruc where
  tvSec : BitVec 32
  tvNsec : BitVec 32
  deriving DecidableEq

/-- `NANOSEC` -/
def nanosec : ℕ := 1000000000

/-- `sec` before the clean-up loop, from `tmp = hrt >> 30`. -/
def estimate (tmp : BitVec 32) : BitVec 32 :=
  let sec := tmp - tmp >>> 2
  let sec := tmp - sec >>> 5
  let sec := tmp + sec >>> 1
  let sec := tmp - sec >>> 6 + 7
  let sec := tmp - sec >>> 3
  let sec := tmp + sec >>> 1
  let sec := tmp + sec >>> 3
  tmp + sec >>> 4

/-- Multiplication by 125, without multiplying. -/
def times125 {w : ℕ} (x : BitVec w) : BitVec w := x <<< 7 - x - x - x

/-- `nsec` before the clean-up loop. -/
def nsecAfter (hrt : BitVec 64) (sec : BitVec 32) : BitVec 32 :=
  hrt.setWidth 32 - times125 (times125 (times125 sec)) <<< 9

/-- The clean-up loop; it also counts its passes. -/
def cleanUp (nsec sec : BitVec 32) (passes : ℕ) : Timestruc × ℕ :=
  if nanosec ≤ nsec.toNat then cleanUp (nsec - BitVec.ofNat 32 nanosec) (sec + 1) (passes + 1)
  else (⟨sec, nsec⟩, passes)
  termination_by nsec.toNat
  decreasing_by
    have := nsec.isLt
    unfold nanosec at *
    bv_omega

/-- The part of `hrt2ts` before the loop. -/
def secOf (hrt : BitVec 64) : BitVec 32 := estimate ((hrt.sshiftRight 30).setWidth 32)

/-- `hrt2ts`, with the number of passes of the clean-up loop. -/
def hrt2tsPasses (hrt : BitVec 64) : Timestruc × ℕ :=
  cleanUp (nsecAfter hrt (secOf hrt)) (secOf hrt) 0

def hrt2ts (hrt : BitVec 64) : Timestruc := (hrt2tsPasses hrt).1

def ts2hrt (tsp : Timestruc) : BitVec 64 :=
  times125 (times125 (times125 (tsp.tvSec.signExtend 64))) <<< 9 + tsp.tvNsec.signExtend 64

/-! ### The estimate -/

theorem toNat_sub_shift {t x : BitVec 32} {k : ℕ} (h : x.toNat / 2 ^ k ≤ t.toNat) :
    (t - x >>> k).toNat = t.toNat - x.toNat / 2 ^ k := by
  rw [toNat_sub, toNat_ushiftRight, Nat.shiftRight_eq_div_pow]
  have := t.isLt
  generalize x.toNat / 2 ^ k = y at *
  omega

theorem toNat_add_shift {t x : BitVec 32} {k : ℕ} (h : t.toNat + x.toNat / 2 ^ k < 2 ^ 32) :
    (t + x >>> k).toNat = t.toNat + x.toNat / 2 ^ k := by
  rw [toNat_add, toNat_ushiftRight, Nat.shiftRight_eq_div_pow, Nat.mod_eq_of_lt h]

/-- The sum of the shifts, with a single truncation for the last five. -/
def ideal (t : ℕ) : ℕ := (140736 * t + (t + (t - (t - t / 4) / 32) / 2)) / 131072

/-- The last five truncations make one. -/
theorem nested_shifts {t x : ℕ} (h : x / 2 ^ 6 ≤ t) :
    t + (t + (t + (t - (t - x / 2 ^ 6 + 7) / 2 ^ 3) / 2 ^ 1) / 2 ^ 3) / 2 ^ 4 =
      (140736 * t + x) / 131072 := by
  have h1 : t - (t - x / 2 ^ 6 + 7) / 2 ^ 3 = (448 * t + x) / 512 := by omega
  have h2 : ∀ y, t + (t + (t + y / 2 ^ 1) / 2 ^ 3) / 2 ^ 4 = (274 * t + y) / 256 := by omega
  rw [h1, h2]
  clear h1 h2
  omega

theorem toNat_estimate {tmp : BitVec 32} (h : tmp.toNat ≤ 2000000000) :
    (estimate tmp).toNat = ideal tmp.toNat := by
  unfold estimate
  dsimp only
  have h0 : (tmp - tmp >>> 2).toNat = _ := toNat_sub_shift (by omega)
  generalize tmp - tmp >>> 2 = s0 at *
  have h1 : (tmp - s0 >>> 5).toNat = _ := toNat_sub_shift (by omega)
  generalize tmp - s0 >>> 5 = s1 at *
  have h2 : (tmp + s1 >>> 1).toNat = _ := toNat_add_shift (by omega)
  generalize tmp + s1 >>> 1 = s2 at *
  have h3 : (tmp - s2 >>> 6).toNat = _ := toNat_sub_shift (by omega)
  have h3' : (tmp - s2 >>> 6 + 7).toNat = tmp.toNat - s2.toNat / 2 ^ 6 + 7 := by
    have h7 : (7 : BitVec 32).toNat = 7 := rfl
    rw [toNat_add, h3, h7]
    omega
  generalize tmp - s2 >>> 6 + 7 = s3 at *
  have h4 : (tmp - s3 >>> 3).toNat = _ := toNat_sub_shift (by omega)
  generalize tmp - s3 >>> 3 = s4 at *
  have h5 : (tmp + s4 >>> 1).toNat = _ := toNat_add_shift (by omega)
  generalize tmp + s4 >>> 1 = s5 at *
  have h6 : (tmp + s5 >>> 3).toNat = _ := toNat_add_shift (by omega)
  generalize tmp + s5 >>> 3 = s6 at *
  rw [toNat_add_shift (by omega), h6, h5, h4, h3', nested_shifts (by omega), h2, h1, h0]
  rfl

/-- Where the truncations of the first shifts matter. -/
theorem ideal_small : ∀ a < 88, ∀ b < 64,
    1953125 * ideal (64 * a + b) ≤ 2097152 * (64 * a + b) := by decide +kernel

theorem ideal_le (t : ℕ) : 1953125 * ideal t ≤ 2097152 * t := by
  by_cases h : t < 5632
  · have := ideal_small (t / 64) (by omega) (t % 64) (by omega)
    rwa [Nat.div_add_mod] at this
  · unfold ideal
    omega

theorem le_ideal {t : ℕ} (h : t ≤ 2000000000) : 2097152 * (t + 1) ≤ 1953125 * (ideal t + 4) := by
  unfold ideal
  omega

/-! ### The conversions -/

theorem shiftLeft_eq_mul {w : ℕ} (x : BitVec w) (k : ℕ) : x <<< k = BitVec.ofNat w (2 ^ k) * x := by
  have h : BitVec.twoPow w k = BitVec.ofNat w (2 ^ k) :=
    BitVec.eq_of_toNat_eq (by rw [BitVec.toNat_twoPow, toNat_ofNat])
  rw [BitVec.shiftLeft_eq_mul_twoPow, mul_comm, h]

theorem times125_eq {w : ℕ} (x : BitVec w) : times125 x = 125 * x := by
  unfold times125
  rw [shiftLeft_eq_mul]
  have h : BitVec.ofNat w (2 ^ 7) = 128 := rfl
  rw [h]
  ring

/-- Three factors 125 and a shift by 9 multiply by a thousand million. -/
theorem times125_shift {w : ℕ} (x : BitVec w) :
    times125 (times125 (times125 x)) <<< 9 = BitVec.ofNat w nanosec * x := by
  simp only [times125_eq, shiftLeft_eq_mul]
  have h : BitVec.ofNat w (2 ^ 9) = 512 := rfl
  have h' : BitVec.ofNat w nanosec = 1000000000 := rfl
  rw [h, h']
  ring

theorem toNat_sub_nanosec {nsec : BitVec 32} (h : nanosec ≤ nsec.toNat) :
    (nsec - BitVec.ofNat 32 nanosec).toNat = nsec.toNat - nanosec := by
  rw [toNat_sub, toNat_ofNat]
  have := nsec.isLt
  unfold nanosec at *
  omega

/-- The loop takes one pass for each second left over. -/
theorem cleanUp_spec (n : ℕ) (nsec sec : BitVec 32) (passes : ℕ) (h : nsec.toNat / nanosec = n) :
    (cleanUp nsec sec passes).1.tvSec = sec + BitVec.ofNat 32 n ∧
      (cleanUp nsec sec passes).1.tvNsec.toNat = nsec.toNat % nanosec ∧
      (cleanUp nsec sec passes).2 = passes + n := by
  have hpos : 0 < nanosec := by decide
  induction n generalizing nsec sec passes with
  | zero =>
    have hlt : nsec.toNat < nanosec := (Nat.div_eq_zero_iff_lt hpos).1 h
    rw [cleanUp, if_neg (Nat.not_le.2 hlt)]
    exact ⟨(BitVec.add_zero sec).symm, (Nat.mod_eq_of_lt hlt).symm, rfl⟩
  | succ n ih =>
    have hle : nanosec ≤ nsec.toNat := by
      by_contra hlt
      rw [Nat.div_eq_of_lt (Nat.not_le.1 hlt)] at h
      omega
    have hsub := toNat_sub_nanosec hle
    have hdiv : (nsec.toNat - nanosec) / nanosec = n := by
      rw [← Nat.sub_add_cancel hle, Nat.add_div_right _ hpos] at h
      exact Nat.succ.inj h
    rw [cleanUp, if_pos hle]
    obtain ⟨h1, h2, h3⟩ := ih (nsec - BitVec.ofNat 32 nanosec) (sec + 1) (passes + 1)
      (by rw [hsub, hdiv])
    refine ⟨?_, ?_, by omega⟩
    · rw [h1, BitVec.ofNat_add, BitVec.add_assoc, BitVec.add_comm 1]
      rfl
    · rw [h2, hsub, ← Nat.mod_eq_sub_mod hle]

/-- The range of `hrt` in which the number of seconds fits a signed `long`. -/
theorem toNat_of_range {hrt : BitVec 64} (h0 : 0 ≤ hrt.toInt) (h : hrt.toInt < 2 ^ 31 * 10 ^ 9) :
    hrt.toInt = hrt.toNat ∧ hrt.toNat < 2 ^ 31 * 10 ^ 9 := by
  rw [BitVec.toInt_eq_toNat_cond] at *
  have := hrt.isLt
  split_ifs at * <;> omega

theorem toNat_shifted {hrt : BitVec 64} (h : hrt.toNat < 2 ^ 31 * 10 ^ 9) :
    ((hrt.sshiftRight 30).setWidth 32).toNat = hrt.toNat / 2 ^ 30 := by
  rw [BitVec.sshiftRight_eq_of_msb_false (BitVec.msb_eq_false_iff_two_mul_lt.2 (by omega)),
    toNat_setWidth, toNat_ushiftRight, Nat.shiftRight_eq_div_pow]
  omega

theorem secOf_bounds {hrt : BitVec 64} (h : hrt.toNat < 2 ^ 31 * 10 ^ 9) :
    (secOf hrt).toNat ≤ hrt.toNat / nanosec ∧ hrt.toNat / nanosec ≤ (secOf hrt).toNat + 3 := by
  have ht := toNat_shifted h
  have hle := ideal_le (hrt.toNat / 2 ^ 30)
  have hge := @le_ideal (hrt.toNat / 2 ^ 30) (by omega)
  rw [secOf, toNat_estimate (by omega), ht]
  unfold nanosec
  omega

theorem toNat_nsecAfter {hrt : BitVec 64} (h : hrt.toNat < 2 ^ 31 * 10 ^ 9) :
    (nsecAfter hrt (secOf hrt)).toNat = hrt.toNat - nanosec * (secOf hrt).toNat := by
  obtain ⟨hle, hge⟩ := secOf_bounds h
  generalize secOf hrt = sec at *
  rw [nsecAfter, times125_shift, toNat_sub, toNat_mul, toNat_setWidth]
  unfold nanosec at *
  rw [toNat_ofNat]
  have := sec.isLt
  omega

/-- The conversion is a division by a thousand million: the estimate of the seconds is never too
large and at most 3 too small, the nanoseconds left do not wrap, the clean-up loop takes at most 3
passes, and `ts2hrt` inverts the conversion. -/
theorem hrt2ts_exact (hrt : BitVec 64) (h0 : 0 ≤ hrt.toInt) (h : hrt.toInt < 2 ^ 31 * 10 ^ 9) :
    (hrt2ts hrt).tvSec.toInt = hrt.toInt / 10 ^ 9 ∧
    (hrt2ts hrt).tvNsec.toInt = hrt.toInt % 10 ^ 9 ∧
    ((secOf hrt).toNat : ℤ) ≤ hrt.toInt / 10 ^ 9 ∧
    hrt.toInt / 10 ^ 9 ≤ (secOf hrt).toNat + 3 ∧
    ((nsecAfter hrt (secOf hrt)).toNat : ℤ) = hrt.toInt - 10 ^ 9 * (secOf hrt).toNat ∧
    (hrt2tsPasses hrt).2 ≤ 3 ∧
    ts2hrt (hrt2ts hrt) = hrt := by
  obtain ⟨hn, hlt⟩ := toNat_of_range h0 h
  obtain ⟨hle, hge⟩ := secOf_bounds hlt
  have hnsec := toNat_nsecAfter hlt
  obtain ⟨h1, h2, h3⟩ := cleanUp_spec _ (nsecAfter hrt (secOf hrt)) (secOf hrt) 0 rfl
  change (hrt2ts hrt).tvSec = _ at h1
  change (hrt2ts hrt).tvNsec.toNat = _ at h2
  change (hrt2tsPasses hrt).2 = _ at h3
  have hsec : (hrt2ts hrt).tvSec.toNat = hrt.toNat / nanosec := by
    rw [h1, hnsec, toNat_add, toNat_ofNat]
    unfold nanosec at *
    omega
  have hrest : (hrt2ts hrt).tvNsec.toNat = hrt.toNat % nanosec := by
    rw [h2, hnsec]
    unfold nanosec at *
    omega
  have hsecMsb : (hrt2ts hrt).tvSec.msb = false :=
    BitVec.msb_eq_false_iff_two_mul_lt.2 (by unfold nanosec at *; omega)
  have hnsecMsb : (hrt2ts hrt).tvNsec.msb = false :=
    BitVec.msb_eq_false_iff_two_mul_lt.2 (by unfold nanosec at *; omega)
  have hback : ts2hrt (hrt2ts hrt) = hrt := by
    apply BitVec.eq_of_toNat_eq
    rw [ts2hrt, times125_shift, BitVec.signExtend_eq_setWidth_of_msb_false hsecMsb,
      BitVec.signExtend_eq_setWidth_of_msb_false hnsecMsb, toNat_add, toNat_mul,
      toNat_setWidth, toNat_setWidth, toNat_ofNat, hsec, hrest]
    unfold nanosec
    omega
  rw [BitVec.toInt_eq_toNat_of_msb hsecMsb, BitVec.toInt_eq_toNat_of_msb hnsecMsb, hsec, hrest, hn,
    hnsec]
  unfold nanosec at *
  refine ⟨by omega, by omega, by omega, by omega, by omega, by omega, hback⟩

/-- One nanosecond less than two seconds. -/
theorem hrt2ts_exact_two : (hrt2ts 1999999999#64).tvSec.toInt = 1 ∧
    (hrt2ts 1999999999#64).tvNsec.toInt = 999999999 := by
  obtain ⟨h1, h2, -⟩ := hrt2ts_exact 1999999999#64 (by decide) (by decide)
  exact ⟨h1, h2⟩

end Sol26.Timers
