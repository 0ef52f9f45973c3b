import Sol26.Mp.Mdiv
import Sol26.Mp.Products

/-!
# One digit of a quotient

The loops of the division: `s_div`, the trial quotient `m_trq`, and `m_dsb`, which takes the
trial multiple away and adds the divisor back when that was too much.
-/
namespace Sol26.Mp

open Option (bind_eq_bind bind_some getD_some)

variable {a b v u : Buf} {n j : ℕ} {x y : ℤ}

/-- A digit first, and then the digits below it. -/
theorem Fills.below {v w v' : Buf} {p m n : ℕ} {x y : ℤ} (h : Fills v w (p + m) n y)
    (h' : Fills w v' p m x) : Fills v v' p (m + n) (x + base ^ m * y) := by
  constructor
  · rw [h'.size, h.size]
  · exact h'.spells.append (h'.keeps h.spells (.inr (by omega)))
  · intro i hi
    rw [h'.frame i (by omega), h.frame i (by omega)]

/-! ### `s_div` -/

theorem sDivLoop_spec {aval qval : Buf} {d : ℤ} {i : ℕ} (ha : aval.Spells 0 i y) (hd : 0 < d)
    (hdb : d < base) (hx : 0 ≤ x) (hxd : x < d) (hsize : i ≤ qval.size) :
    ∃ rem qval' z, sDivLoop aval d i x qval = some (rem, qval') ∧ 0 ≤ rem ∧ rem < d ∧
      Fills qval qval' 0 i z ∧ x * base ^ i + y = z * d + rem := by
  induction i generalizing x y qval with
  | zero =>
    rw [ha.eq_zero]
    exact ⟨x, qval, 0, rfl, hx, hxd, .nil qval 0, by ring⟩
  | succ i ih =>
    obtain ⟨y', t, hy', ht, ht0, htb, rfl⟩ := ha.top
    rw [Nat.zero_add] at ht
    have hlong : long (x * 0o100000 + t) = some (x * 0o100000 + t) := by
      rw [base_eq] at *
      exact long_of_mem (by omega) (by omega)
    have hnn : 0 ≤ x * 0o100000 + t := by omega
    have hdiv : (x * 0o100000 + t).tdiv d = (x * 0o100000 + t) / d :=
      Int.tdiv_eq_ediv_of_nonneg hnn
    have hmod : (x * 0o100000 + t).tmod d = (x * 0o100000 + t) % d :=
      Int.tmod_eq_emod_of_nonneg hnn
    have hq0 : 0 ≤ (x * 0o100000 + t) / d := Int.ediv_nonneg hnn hd.le
    have hqb : (x * 0o100000 + t) / d < base := by
      apply Int.ediv_lt_of_lt_mul hd
      have : (x + 1) * base ≤ d * base := mul_le_mul_of_nonneg_right (by omega) (by omega)
      rw [base_eq] at *
      omega
    obtain ⟨w, hw, hwsize, _⟩ := write_exists (show i < qval.size by omega)
      ((x * 0o100000 + t) / d)
    obtain ⟨rem, qval', z, hrun, hr0, hrd, hfill, hz⟩ := ih hy'
      (Int.emod_nonneg (x * 0o100000 + t) hd.ne') (Int.emod_lt_of_pos _ hd) (show i ≤ w.size by omega)
    refine ⟨rem, qval', z + base ^ i * ((x * 0o100000 + t) / d), ?_, hr0, hrd, ?_, ?_⟩
    · simp only [sDivLoop, ht, hlong, hdiv, hmod, hw, bind_eq_bind, bind_some, hrun]
    · exact Fills.below (by rw [Nat.zero_add]; exact Fills.write hw hq0 hqb) hfill
    · have hdm := Int.mul_ediv_add_emod (x * 0o100000 + t) d
      have hb : base = 0o100000 := rfl
      rw [pow_succ]
      linear_combination hz + base ^ i * (-hdm) + base ^ i * x * hb

/-- A number of which at most the top digit is zero, with that digit left out. -/
theorem canonical_drop {k : ℕ} {t : ℤ} (h : v.Spells 0 (k + 1) x) (ht : v.read k = some t)
    (hlow : k ≠ 0 → base ^ (k - 1) ≤ x) {m : Mint} (hlen : m.len = if t = 0 then k else k + 1)
    (hval : m.len ≠ 0 → m.val = v) : Canonical m x := by
  by_cases h0 : t = 0
  · rw [if_pos h0] at hlen
    have hdrop := h.drop_zero (by rw [Nat.zero_add, ht, h0])
    by_cases hk : k = 0
    · subst hk
      rw [hdrop.eq_zero]
      exact .zero hlen
    · have hv := hval (by omega)
      obtain ⟨i, rfl⟩ := Nat.exists_eq_succ_of_ne_zero hk
      apply Mag.canonical (n := i + 1) ⟨hlen, by rwa [hv]⟩
      intro _
      have := hdrop.top_ne_zero (hlow hk)
      rwa [Nat.zero_add, ← hv] at this
  · rw [if_neg h0] at hlen
    have hv := hval (by omega)
    apply Mag.canonical (n := k + 1) ⟨by rw [hlen], by rwa [hv]⟩
    intro _
    rw [Nat.add_sub_cancel, hv, ht]
    exact fun heq => h0 (Option.some.inj heq)

/-- `s_div` of a canonical number. -/
theorem sDiv_spec {m : Mint} {d : ℤ} (hm : Canonical m x) (hx : 0 ≤ x) (hd : 0 < d)
    (hdb : d < base) : ∃ q, sDiv m d = some (q, x % d) ∧ Canonical q (x / d) := by
  have hmag := hm.mag hx
  obtain ⟨rem, qval, z, hrun, hr0, hrd, hfill, hz⟩ := sDivLoop_spec hmag.val hd hdb le_rfl hd
    (show m.len.toNat ≤ (xalloc m.len.toNat).size by simp only [xalloc]; omega)
  rw [zero_mul, zero_add] at hz
  have hmod : x % d = rem := by
    rw [hz, mul_comm, Int.mul_add_emod_self_left, Int.emod_eq_of_lt hr0 hrd]
  have hdiv : x / d = z := by
    rw [hz, add_comm, Int.add_mul_ediv_right _ _ hd.ne', Int.ediv_eq_zero_of_lt hr0 hrd, zero_add]
  have hshort := short_digit hr0 (hrd.trans hdb)
  rw [hmod, hdiv]
  simp only [sDiv, hrun, bind_eq_bind, bind_some, hshort]
  by_cases h0 : m.len.toNat = 0
  · rw [if_pos h0]
    rw [h0] at hfill
    rw [hfill.spells.eq_zero]
    exact ⟨_, rfl, .zero rfl⟩
  · rw [if_neg h0]
    obtain ⟨k, hk⟩ := Nat.exists_eq_succ_of_ne_zero h0
    have hspell := hfill.spells
    rw [hk] at hspell
    obtain ⟨_, t, _, ht, _⟩ := hspell.top
    rw [Nat.zero_add] at ht
    simp only [hk, Nat.succ_eq_add_one, Nat.add_sub_cancel, ht, bind_some]
    refine ⟨_, rfl, canonical_drop hspell ht ?_ (by split_ifs <;> simp) ?_⟩
    · intro hk0
      have hxne : x ≠ 0 := by
        intro hx0
        rw [← hm.len_eq_zero] at hx0
        omega
      have hge := hm.le_abs hxne
      rw [abs_of_nonneg hx, show m.len.natAbs - 1 = k - 1 + 1 by omega, pow_succ] at hge
      by_contra hlt
      have hle : (z + 1) * d ≤ base ^ (k - 1) * base :=
        mul_le_mul (by omega) hdb.le hd.le (by positivity)
      linarith
    · exact fun hne => if_neg fun h => hne (congrArg Nat.cast h)

/-! ### The trial quotient -/

/-- The loop of `m_trq` goes down to the largest digit whose multiple of the two leading digits
fits, and no intermediate result leaves the range of a long. -/
theorem mTrqLoop_spec {v1 v2 u3 c1 : ℤ} (hv1 : 0 ≤ v1) (hv1b : v1 < base) (hv2 : 0 ≤ v2)
    (hv2b : v2 < base) (hu3 : 0 ≤ u3) (hu3b : u3 < base) {fuel : ℕ} {d : ℤ} (hd : 0 ≤ d)
    (hdb : d < base) (hfuel : d < fuel) (hr0 : 0 ≤ c1 - v1 * d) (hr : c1 - v1 * d ≤ 2 * base - 2) :
    ∃ qq, mTrqLoop v1 v2 u3 c1 fuel d = some qq ∧ 0 ≤ qq ∧ qq ≤ d ∧
      qq * (v1 * base + v2) ≤ c1 * base + u3 ∧
      ∀ q ≤ d, q * (v1 * base + v2) ≤ c1 * base + u3 → q ≤ qq := by
  induction fuel generalizing d with
  | zero => omega
  | succ fuel ih =>
    have h1 := digit_mul hv1 hv1b hd hdb
    have h2 := digit_mul hv2 hv2b hd hdb
    have hl1 : long (v1 * d) = some (v1 * d) := long_of_mem (by omega) (by omega)
    have hl2 : long (v2 * d) = some (v2 * d) := long_of_mem (by omega) (by omega)
    have hb := base_eq
    have hl3 : long (c1 - v1 * d) = some (c1 - v1 * d) := long_of_mem (by omega) (by omega)
    have hl4 : long ((c1 - v1 * d) * 0o100000) = some ((c1 - v1 * d) * 0o100000) :=
      long_of_mem (by omega) (by omega)
    have hl5 : long ((c1 - v1 * d) * 0o100000 + u3) = some ((c1 - v1 * d) * 0o100000 + u3) :=
      long_of_mem (by omega) (by omega)
    have hl6 : long ((c1 - v1 * d) * 0o100000 + u3 - v2 * d) =
        some ((c1 - v1 * d) * 0o100000 + u3 - v2 * d) := long_of_mem (by omega) (by omega)
    -- what is compared with zero is the difference at the three leading digits
    have hx : (c1 - v1 * d) * 0o100000 + u3 - v2 * d =
        c1 * base + u3 - d * (v1 * base + v2) := by
      rw [hb]
      ring
    simp only [mTrqLoop, hl1, hl2, hl3, hl4, hl5, hl6, bind_eq_bind, bind_some]
    by_cases hneg : (c1 - v1 * d) * 0o100000 + u3 - v2 * d < 0
    · have hd1 : 1 ≤ d := by
        by_contra h0
        have hd0 : d = 0 := by omega
        rw [hd0] at hneg hr0
        omega
      have hshort : short (d - 1) = d - 1 := short_digit (by omega) (by omega)
      have hstep : c1 - v1 * (d - 1) = c1 - v1 * d + v1 := by ring
      obtain ⟨qq, hrun, hq0, hqd, hfit, hmax⟩ := ih (d := d - 1) (by omega) (by omega)
        (by push_cast at hfuel; omega) (by omega) (by omega)
      rw [if_pos hneg, hshort]
      refine ⟨qq, hrun, hq0, by omega, hfit, ?_⟩
      intro q hq hqfit
      apply hmax q _ hqfit
      have hne : q ≠ d := by
        rintro rfl
        omega
      omega
    · rw [if_neg hneg]
      exact ⟨d, rfl, hd, le_rfl, by omega, fun q hq _ => hq⟩

/-- `m_trq`: the largest digit whose multiple of the two leading digits of the divisor fits
into the three leading digits of the dividend. -/
theorem mTrq_spec {v1 v2 u1 u2 u3 : ℤ} (hv1 : 0 < v1) (hv1b : v1 < base) (hv2 : 0 ≤ v2)
    (hv2b : v2 < base) (hu1 : 0 ≤ u1) (hle : u1 ≤ v1) (hu2 : 0 ≤ u2) (hu2b : u2 < base)
    (hu3 : 0 ≤ u3) (hu3b : u3 < base) :
    ∃ qq, mTrq v1 v2 u1 u2 u3 = some qq ∧ 0 ≤ qq ∧ qq < base ∧
      qq * (v1 * base + v2) ≤ (u1 * base + u2) * base + u3 ∧
      ∀ q < base, q * (v1 * base + v2) ≤ (u1 * base + u2) * base + u3 → q ≤ qq := by
  have hb := base_eq
  have hl1 : long (u1 * 0o100000) = some (u1 * 0o100000) := long_of_mem (by omega) (by omega)
  have hl2 : long (u1 * 0o100000 + u2) = some (u1 * 0o100000 + u2) :=
    long_of_mem (by omega) (by omega)
  have hc1 : u1 * 0o100000 + u2 = u1 * base + u2 := by rw [hb]
  simp only [mTrq, hl1, hl2, bind_eq_bind, bind_some]
  by_cases heq : u1 = v1
  · subst heq
    rw [if_pos rfl]
    have hr : u1 * 0o100000 + u2 - u1 * 0o77777 = u1 + u2 := by ring
    obtain ⟨qq, hrun, hq0, hqd, hfit, hmax⟩ := mTrqLoop_spec hu1 hv1b hv2 hv2b hu3 hu3b
      (show (0 : ℤ) ≤ 0o77777 by omega) (by omega)
      (show (0o77777 : ℤ) < ((0o77777 : ℤ).toNat + 1 : ℕ) by omega)
      (show 0 ≤ u1 * 0o100000 + u2 - u1 * 0o77777 by rw [hr]; omega) (by rw [hr]; omega)
    rw [hc1] at hfit hmax hrun
    rw [hc1]
    exact ⟨qq, hrun, hq0, by omega, hfit, fun q hq => hmax q (by omega)⟩
  · rw [if_neg heq]
    have hnn : 0 ≤ u1 * 0o100000 + u2 := by omega
    have hdiv : (u1 * 0o100000 + u2).tdiv v1 = (u1 * 0o100000 + u2) / v1 :=
      Int.tdiv_eq_ediv_of_nonneg hnn
    have hd0 : 0 ≤ (u1 * 0o100000 + u2) / v1 := Int.ediv_nonneg hnn hv1.le
    have hdb : (u1 * 0o100000 + u2) / v1 < base := by
      apply Int.ediv_lt_of_lt_mul hv1
      rw [hb]
      omega
    have hmod := Int.emod_add_mul_ediv (u1 * 0o100000 + u2) v1
    have hm0 := Int.emod_nonneg (u1 * 0o100000 + u2) hv1.ne'
    have hmlt := Int.emod_lt_of_pos (u1 * 0o100000 + u2) hv1
    rw [hdiv, short_digit hd0 hdb]
    obtain ⟨qq, hrun, hq0, hqd, hfit, hmax⟩ := mTrqLoop_spec hv1.le hv1b hv2 hv2b hu3
      hu3b hd0 hdb (show _ < ((((u1 * 0o100000 + u2) / v1).toNat + 1 : ℕ) : ℤ) by omega)
      (show 0 ≤ u1 * 0o100000 + u2 - v1 * ((u1 * 0o100000 + u2) / v1) by omega) (by omega)
    rw [hc1] at hfit hmax
    refine ⟨qq, hrun, hq0, by omega, hfit, ?_⟩
    intro q hq hqfit
    apply hmax q _ hqfit
    -- a digit that fits is not above the quotient of the leading digits
    rw [hc1, Int.le_ediv_iff_mul_le hv1]
    by_contra hlt
    have hq0' : 0 ≤ q := by
      by_contra hneg
      have := mul_nonneg (show 0 ≤ -q by omega) hv1.le
      rw [neg_mul] at this
      omega
    have hqv2 := mul_nonneg hq0' hv2
    have hmul : (u1 * base + u2 + 1) * base ≤ q * v1 * base :=
      mul_le_mul_of_nonneg_right (by omega) (by omega)
    linarith

/-! ### `m_dsb` -/

theorem dsbLoop_spec {z qx : ℤ} (ha : a.Spells 0 n x) (hb : b.Spells j n z) (hq : 0 ≤ qx)
    (hqb : qx < base) (hsize : j + n ≤ b.size) :
    ∃ k b' y, dsbLoop qx a n 0 j 0 b = some (k, b') ∧ -(base - 1) ≤ k ∧ k ≤ 0 ∧
      Fills b b' j n y ∧ y + base ^ n * k = z - x * qx := by
  have hweigh : z - x * qx = 0 + Radix.weigh base (fun i =>
      (b.read i).getD 0 - (a.read (i - j)).getD 0 * qx) j n := by
    rw [Radix.weigh_sub, zero_add, Radix.weigh_mul qx fun i => (a.read (i - j)).getD 0,
      weigh_shifted ha, hb.weigh]
  have hstart : dsbLoop qx a n 0 j = dsbLoop qx a n (j - j) j := by rw [Nat.sub_self]
  rw [hweigh, hstart]
  apply ripple (fun m i => dsbLoop qx a m (i - j) i) _ (fun _ _ _ => rfl) _ hsize
    (by rw [base_eq]; omega) le_rfl
  intro m i k c hi hin hk0 hk1 hread
  obtain ⟨d, hd, hd0, hdlim⟩ := ha.digit (Nat.zero_le (i - j)) (by omega)
  obtain ⟨w, hw, hw0, hwlim⟩ := hb.digit hi hin
  rw [hw] at hread
  have hprod := digit_mul hd0 hdlim hq hqb
  have hbase := base_eq
  have hl1 : long (d * qx) = some (d * qx) := long_of_mem (by omega) (by omega)
  have hl2 : long (k - (d * qx - w)) = some (k - (d * qx - w)) :=
    long_of_mem (by omega) (by omega)
  have hsucc : i + 1 - j = i - j + 1 := by omega
  refine ⟨low15 (k - (d * qx - w)), shift15 (k - (d * qx - w)), ?_, ?_, ?_, ?_, ?_, ?_⟩
  · simp only [low15]
    omega
  · simp only [low15, base_eq]
    omega
  · simp only [shift15]
    omega
  · simp only [shift15]
    omega
  · simp only [hd, hw, getD_some, low15, shift15, hbase]
    omega
  · simp only [dsbLoop, hd, hread, hl1, hl2, hsucc, bind_eq_bind, bind_some]

theorem addBack_spec {z : ℤ} (ha : a.Spells 0 n x) (hb : b.Spells j n z) (hsize : j + n ≤ b.size) :
    ∃ k b' y, addBack a n 0 j 0 b = some (k, b') ∧ 0 ≤ k ∧ k ≤ 1 ∧ Fills b b' j n y ∧
      y + base ^ n * k = z + x := by
  have hweigh : z + x = 0 + Radix.weigh base (fun i =>
      (b.read i).getD 0 + (a.read (i - j)).getD 0) j n := by
    rw [Radix.weigh_add, zero_add, weigh_shifted ha, hb.weigh]
  have hstart : addBack a n 0 j = addBack a n (j - j) j := by rw [Nat.sub_self]
  rw [hweigh, hstart]
  apply ripple (fun m i => addBack a m (i - j) i) _ (fun _ _ _ => rfl) _ hsize le_rfl
    zero_le_one
  intro m i k c hi hin hk0 hk1 hread
  obtain ⟨d, hd, hd0, hdlim⟩ := ha.digit (Nat.zero_le (i - j)) (by omega)
  obtain ⟨w, hw, hw0, hwlim⟩ := hb.digit hi hin
  rw [hw] at hread
  have hbase := base_eq
  have hl : long (k + (d + w)) = some (k + (d + w)) := long_of_mem (by omega) (by omega)
  have hsucc : i + 1 - j = i - j + 1 := by omega
  refine ⟨low15 (k + (d + w)), shift15 (k + (d + w)), ?_, ?_, ?_, ?_, ?_, ?_⟩
  · simp only [low15]
    omega
  · simp only [low15, base_eq]
    omega
  · simp only [shift15]
    omega
  · simp only [shift15]
    omega
  · simp only [hd, hw, getD_some, low15, shift15, hbase]
    omega
  · simp only [addBack, hd, hread, hl, hsucc, bind_eq_bind, bind_some]

/-- `m_dsb` with the true digit, or with one more: what is left is the remainder, and the digits
below are not touched. The digit at the top is of no use any more. -/
theorem mDsb_spec {U V qx : ℤ} (ha : a.Spells 0 n V) (hb : b.Spells j (n + 1) U)
    (hq : 0 ≤ qx) (hqb : qx < base) (hlo : -V ≤ U - V * qx) (hhi : U - V * qx < V) :
    ∃ k b', mDsb qx n a b j = some (k, b') ∧ (k = 0 ∨ k = 1) ∧ b'.size = b.size ∧
      0 ≤ U - V * (qx - k) ∧ U - V * (qx - k) < V ∧ b'.Spells j n (U - V * (qx - k)) ∧
      ∀ i < j, b'.read i = b.read i := by
  obtain ⟨z, t, hz, ht, ht0, htb, rfl⟩ := hb.top
  have hVn : V < base ^ n := ha.lt
  have hV0 : 0 ≤ V := ha.nonneg
  have hbase := base_eq
  have hsize := read_lt ht
  obtain ⟨k, b1, y, hrun, hk0, hk1, hfill, hy⟩ := dsbLoop_spec ha hz hq hqb (by omega)
  have ht1 : b1.read (j + n) = some t := by rw [hfill.frame _ (.inr le_rfl), ht]
  have hyn : y < base ^ n := hfill.spells.lt
  have hy0 : 0 ≤ y := hfill.spells.nonneg
  have hl : long (k + t) = some (k + t) := long_of_mem (by omega) (by omega)
  obtain ⟨b2, hw, hsize2, hread2⟩ := write_exists (read_lt ht1) (low15 (k + t))
  have hy2 : b2.Spells j n y := hfill.spells.congr fun i _ hi => hread2 i (by omega)
  have hU : z + base ^ n * t - V * qx = y + base ^ n * (k + t) := by linear_combination -hy
  simp only [mDsb, hrun, ht1, hl, hw, bind_eq_bind, bind_some]
  by_cases hneg : k + t < 0
  · have hkt : k + t = -1 := by
      by_contra hne
      have hle : base ^ n * (k + t) ≤ base ^ n * (-2) :=
        mul_le_mul_of_nonneg_left (by omega) (by positivity)
      linarith
    obtain ⟨k', b3, y', hrun', hk0', hk1', hfill', hy'⟩ :=
      addBack_spec ha hy2 (by rw [hsize2, hfill.size]; omega)
    have hyn' : y' < base ^ n := hfill'.spells.lt
    have hy0' : 0 ≤ y' := hfill'.spells.nonneg
    rw [hkt] at hU
    have hk' : k' = 1 := by
      by_contra hne
      have h0 : k' = 0 := by omega
      rw [h0] at hy'
      linarith
    rw [hk'] at hy'
    have hval : y' = z + base ^ n * t - V * (qx - 1) := by linear_combination hy' - hU
    have hshift : shift15 (k + t) ≠ 0 := by
      rw [hkt]
      decide
    rw [if_neg hshift, hrun', bind_some]
    refine ⟨1, b3, rfl, .inr rfl, ?_, by linarith, by linarith, ?_, ?_⟩
    · rw [hfill'.size, hsize2, hfill.size]
    · rw [← hval]
      exact hfill'.spells
    · intro i hi
      rw [hfill'.frame i (.inl hi), hread2 i (by omega), hfill.frame i (.inl hi)]
  · have hkt : k + t = 0 := by
      by_contra hne
      have hle : base ^ n * 1 ≤ base ^ n * (k + t) :=
        mul_le_mul_of_nonneg_left (by omega) (by positivity)
      linarith
    rw [hkt, mul_zero, add_zero] at hU
    rw [hkt, if_pos (by decide)]
    refine ⟨0, b2, rfl, .inl rfl, ?_, ?_, ?_, ?_, ?_⟩
    · rw [hsize2, hfill.size]
    · rw [sub_zero, hU]
      exact hy0
    · rw [sub_zero]
      exact hhi
    · rw [sub_zero, hU]
      exact hy2
    · intro i hi
      rw [hread2 i (by omega), hfill.frame i (.inl hi)]

end Sol26.Mp
