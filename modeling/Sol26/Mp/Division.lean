import Sol26.Mp.Quotient

/-!
# Division is exact

Each pass of `m_div` takes one digit of the quotient off the dividend. Its trial digit is the
true one or one too large.
-/
namespace Sol26.Mp

open Function (update update_of_ne update_self)
open Option (bind_eq_bind bind_some)

variable {v uval : Buf} {n j k : ℕ} {V W x y : ℤ}

/-! ### Leading digits -/

/-- The divisor, its leading digit being above zero. -/
structure Divisor (v : Buf) (n : ℕ) (V v1 v2 : ℤ) : Prop where
  two_le : 2 ≤ n
  spells : v.Spells 0 n V
  fst : v.read (n - 1) = some v1
  snd : v.read (n - 2) = some v2
  pos : 0 < v1

theorem leading_two (h : v.Spells j (k + 2) x) :
    ∃ d1 d2 r, v.read (j + k + 1) = some d1 ∧ v.read (j + k) = some d2 ∧
      0 ≤ d1 ∧ d1 < base ∧ 0 ≤ d2 ∧ d2 < base ∧ 0 ≤ r ∧ r < base ^ k ∧
      x = (d1 * base + d2) * base ^ k + r := by
  obtain ⟨r, t, hr, ht, rfl⟩ := h.split
  cases ht with
  | @cons _ _ d2 _ hd2 h20 h2 rest =>
  obtain ⟨hd1, h10, h1⟩ := rest.of_single
  exact ⟨_, d2, r, hd1, hd2, h10, h1, h20, h2, hr.nonneg, hr.lt, by ring⟩

theorem leading_three (h : v.Spells j (k + 3) x) :
    ∃ d1 d2 d3 r, v.read (j + k + 2) = some d1 ∧ v.read (j + k + 1) = some d2 ∧
      v.read (j + k) = some d3 ∧ 0 ≤ d1 ∧ d1 < base ∧ 0 ≤ d2 ∧ d2 < base ∧ 0 ≤ d3 ∧ d3 < base ∧
      0 ≤ r ∧ r < base ^ k ∧ x = ((d1 * base + d2) * base + d3) * base ^ k + r := by
  obtain ⟨r, t, hr, ht, rfl⟩ := h.split
  cases ht with
  | @cons _ _ d3 _ hd3 h30 h3 rest =>
  cases rest with
  | @cons _ _ d2 _ hd2 h20 h2 rest =>
  obtain ⟨hd1, h10, h1⟩ := rest.of_single
  exact ⟨_, d2, d3, r, hd1, hd2, hd3, h10, h1, h20, h2, h30, h3, hr.nonneg, hr.lt, by ring⟩

/-- The trial digit at a window of the dividend. -/
theorem trialDigit_spec {U v1 v2 : ℤ} (hv : Divisor v n V v1 v2) (hu : uval.Spells j (n + 1) U)
    (hU : U < V * base) :
    ∃ qq, trialDigit n v1 v2 uval j = some qq ∧ 0 ≤ qq ∧ qq < base ∧
      (qq = U / V ∨ qq = U / V + 1) := by
  obtain ⟨k, rfl⟩ := Nat.exists_eq_add_of_le' hv.two_le
  obtain ⟨d1, d2, s, hd1, hd2, h10, h1, h20, h2, hs0, hs, hVeq⟩ := leading_two hv.spells
  obtain ⟨u1, u2, u3, r, hu1, hu2, hu3, hu10, hu1b, hu20, hu2b, hu30, hu3b, hr0, hr, hUeq⟩ :=
    leading_three hu
  have hfst := hv.fst
  have hsnd := hv.snd
  rw [show k + 2 - 1 = 0 + k + 1 by omega, hd1] at hfst
  rw [show k + 2 - 2 = 0 + k by omega, hd2] at hsnd
  cases hfst
  cases hsnd
  have hpos := hv.pos
  have hK : 0 < base ^ k := by positivity
  have hb := base_eq
  have hV : 0 < V := by
    have h0 : 0 < v1 * base + v2 := by
      rw [hb]
      omega
    have := mul_pos h0 hK
    omega
  have hU0 : 0 ≤ U := hu.nonneg
  -- the leading digit of the window is not above that of the divisor
  have hle : u1 ≤ v1 := by
    have hlt : ((u1 * base + u2) * base + u3) * base ^ k <
        (v1 * base + v2 + 1) * base * base ^ k := by
      calc ((u1 * base + u2) * base + u3) * base ^ k ≤ U := by omega
        _ < V * base := hU
        _ ≤ ((v1 * base + v2) * base ^ k + base ^ k) * base :=
          mul_le_mul_of_nonneg_right (by omega) (by omega)
        _ = (v1 * base + v2 + 1) * base * base ^ k := by ring
    have := lt_of_mul_lt_mul_right hlt hK.le
    rw [hb] at this
    omega
  obtain ⟨qq, hrun, hq0, hqb, hfit, hmax⟩ := mTrq_spec hpos h1 h20 h2 hu10 hle hu20 hu2b hu30
    hu3b
  have hq : U / V * V ≤ U := Int.ediv_mul_le U hV.ne'
  have hqlt : U / V < base := Int.ediv_lt_of_lt_mul hV (by linarith)
  have hge : U / V ≤ qq := hmax _ hqlt
    (Radix.le_estimate hUeq hr hVeq hs0 hK (Int.ediv_nonneg hU0 hV.le) hq)
  have hest := Radix.estimate_le hUeq hr0 hVeq hs hK hV.le hU0
    (by rw [hb] at hqb ⊢; omega) hfit
  have hle' : qq - 1 ≤ U / V := (Int.le_ediv_iff_mul_le hV).2 hest
  refine ⟨qq, ?_, hq0, hqb, by omega⟩
  simp only [trialDigit, show j + (k + 2) = j + k + 2 by omega, hu1,
    show j + k + 2 - 1 = j + k + 1 by omega, hu2, show j + k + 2 - 2 = j + k by omega, hu3,
    bind_eq_bind, bind_some, hrun]

/-! ### The passes -/

/-- One pass of `m_div`. -/
theorem pass_spec {v1 v2 : ℤ} (hv : Divisor v n V v1 v2) (hu : uval.Spells 0 (j + 1 + n) W)
    (hW : W < V * base ^ (j + 1)) :
    ∃ U qq k uval' W', uval.Spells j (n + 1) U ∧ trialDigit n v1 v2 uval j = some qq ∧
      (qq = U / V ∨ qq = U / V + 1) ∧ mDsb qq n v uval j = some (k, uval') ∧
      0 ≤ qq - k ∧ qq - k < base ∧ uval'.Spells 0 (j + n) W' ∧ W' < V * base ^ j ∧
      W = (qq - k) * V * base ^ j + W' := by
  rw [show j + 1 + n = j + (n + 1) by omega] at hu
  obtain ⟨L, U, hL, hU, rfl⟩ := hu.split
  rw [Nat.zero_add] at hU
  have hJ : 0 < base ^ j := by positivity
  have hL0 : 0 ≤ L := hL.nonneg
  have hLj : L < base ^ j := hL.lt
  have hUlt : U < V * base := by
    have : base ^ j * U < base ^ j * (V * base) := by
      rw [pow_succ] at hW
      linarith
    exact lt_of_mul_lt_mul_left this hJ.le
  have hU0 : 0 ≤ U := hU.nonneg
  have hV : 0 < V := by
    have := hv.spells.nonneg
    by_contra h0
    have hV0 : V = 0 := by omega
    rw [hV0] at hUlt
    omega
  obtain ⟨qq, htrial, hq0, hqb, hqq⟩ := trialDigit_spec hv hU hUlt
  have hdiv := Int.mul_ediv_add_emod U V
  have hm0 := Int.emod_nonneg U hV.ne'
  have hmlt := Int.emod_lt_of_pos U hV
  obtain ⟨k, uval', hrun, hk, hsize, hr0, hrlt, hspell, hread⟩ := mDsb_spec hv.spells hU hq0 hqb
    (by cases hqq with
      | inl h => rw [h]; omega
      | inr h => rw [h, mul_add, mul_one]; omega)
    (by cases hqq with
      | inl h => rw [h]; omega
      | inr h => rw [h, mul_add, mul_one]; omega)
  have hqk : qq - k = U / V := by
    have h1 : U / V ≤ qq - k := by
      have hlt : U < (qq - k + 1) * V := by linarith
      have := (Int.ediv_lt_iff_lt_mul hV).2 hlt
      omega
    have h2 : qq - k ≤ U / V := (Int.le_ediv_iff_mul_le hV).2 (by linarith)
    omega
  have hlow : uval'.Spells 0 j L := hL.congr fun i _ hi => hread i (by omega)
  refine ⟨U, qq, k, uval', _, hU, htrial, hqq, hrun, ?_, ?_,
    hlow.append (by rw [Nat.zero_add]; exact hspell), ?_, by ring⟩
  · rw [hqk]
    exact Int.ediv_nonneg hU0 hV.le
  · rw [hqk]
    exact Int.ediv_lt_of_lt_mul hV (by linarith)
  · have : base ^ j * (U - V * (qq - k) + 1) ≤ base ^ j * V :=
      mul_le_mul_of_nonneg_left (by omega) hJ.le
    linarith

/-- The loop of `m_div` divides. -/
theorem divLoop_spec {v1 v2 : ℤ} (hv : Divisor v n V v1 v2) {m : ℕ} {qval : Buf}
    (hu : uval.Spells 0 (m + n) W) (hW : W < V * base ^ m) (hsize : m ≤ qval.size) :
    ∃ qval' uval' Q R, divLoop v n v1 v2 m qval uval = some (qval', uval') ∧
      Fills qval qval' 0 m Q ∧ uval'.Spells 0 n R ∧ R < V ∧ W = Q * V + R := by
  induction m generalizing uval qval W with
  | zero =>
    rw [Nat.zero_add] at hu
    exact ⟨qval, uval, 0, W, rfl, .nil qval 0, hu, by simpa using hW, by ring⟩
  | succ j ih =>
    obtain ⟨U, qq, k, uval1, W', _, htrial, _, hdsb, hq0, hqb, hu₁, hW', rfl⟩ :=
      pass_spec hv hu hW
    obtain ⟨q1, hw, hsize1, _⟩ := write_exists (show j < qval.size by omega) (qq - k)
    obtain ⟨qval', uval', Q, R, hrun, hfill, hR, hRV, rfl⟩ :=
      ih hu₁ hW' (show j ≤ q1.size by omega)
    refine ⟨qval', uval', Q + base ^ j * (qq - k), R, ?_, ?_, hR, hRV, by ring⟩
    · simp only [divLoop, htrial, hdsb, hw, bind_eq_bind, bind_some, hrun]
    · exact Fills.below (by rw [Nat.zero_add]; exact Fills.write hw hq0 hqb) hfill

/-- The pass `i` of a loop that starts with `m` passes to go is reached with `w` as dividend. -/
inductive Pass (v : Buf) (n : ℕ) (v1 v2 : ℤ) : ℕ → Buf → ℕ → Buf → Prop
  | here (j : ℕ) (uval : Buf) : Pass v n v1 v2 (j + 1) uval j uval
  | next {j i : ℕ} {uval w : Buf} {qq : ℤ} {r : ℤ × Buf}
      (htrial : trialDigit n v1 v2 uval j = some qq) (hdsb : mDsb qq n v uval j = some r)
      (rest : Pass v n v1 v2 j r.2 i w) : Pass v n v1 v2 (j + 1) uval i w

/-- Every pass has the true digit as its trial digit, or one more. -/
theorem Pass.trial {v1 v2 : ℤ} {m i : ℕ} {w : Buf} (h : Pass v n v1 v2 m uval i w)
    (hv : Divisor v n V v1 v2) (hu : uval.Spells 0 (m + n) W) (hW : W < V * base ^ m) :
    ∃ U qq, w.Spells i (n + 1) U ∧ trialDigit n v1 v2 w i = some qq ∧
      (qq = U / V ∨ qq = U / V + 1) := by
  induction h generalizing W with
  | here j uval =>
    obtain ⟨U, qq, _, _, _, hU, htrial, hqq, _⟩ := pass_spec hv hu hW
    exact ⟨U, qq, hU, htrial, hqq⟩
  | next htrial hdsb rest ih =>
    obtain ⟨U, qq, k, uval1, W', _, htrial', _, hdsb', _, _, hu₁, hW', _⟩ := pass_spec hv hu hW
    rw [htrial] at htrial'
    cases htrial'
    rw [hdsb] at hdsb'
    cases hdsb'
    exact ih hu₁ hW'

/-! ### `m_div` -/

variable {σ : Store} {sp a b q r : ℕ}

theorem canonical_oneDigit {d : ℤ} (hd : 0 < d) (hdb : d < base) : Canonical (oneDigit d) d := by
  have hcell : (oneDigit d).val.read 0 = some d := rfl
  apply Mag.canonical (n := 1) ⟨rfl, Radix.Spells.single hcell hd.le hdb⟩
  intro _
  rw [Nat.sub_self, hcell]
  exact fun h => hd.ne' (Option.some.inj h)

/-- The factor of the normalisation keeps the length of the divisor. -/
theorem factor_spec {t s : ℤ} (ht : 0 < t) (htb : t < base) (hs : s < base ^ k)
    (hy : y = s + base ^ k * t) :
    ∃ d, short ((0o100000 : ℤ).tdiv (t + 1)) = d ∧ 0 < d ∧ d < base ∧ y * d < base ^ (k + 1) := by
  have hb := base_eq
  have hdiv : (0o100000 : ℤ).tdiv (t + 1) = base / (t + 1) :=
    Int.tdiv_eq_ediv_of_nonneg (by omega)
  have hd0 : 1 ≤ base / (t + 1) := (Int.le_ediv_iff_mul_le (by omega)).2 (by omega)
  have hdb : base / (t + 1) < base :=
    Int.ediv_lt_of_lt_mul (by omega) (by rw [hb]; omega)
  refine ⟨base / (t + 1), by rw [hdiv, short_digit (by omega) hdb], by omega, hdb, ?_⟩
  have hle : base / (t + 1) * (t + 1) ≤ base := Int.ediv_mul_le base (by omega)
  calc y * (base / (t + 1)) < base ^ k * (t + 1) * (base / (t + 1)) :=
        mul_lt_mul_of_pos_right (by linarith) (by omega)
    _ = base ^ k * (base / (t + 1) * (t + 1)) := by ring
    _ ≤ base ^ k * base := mul_le_mul_of_nonneg_left hle (by positivity)
    _ = base ^ (k + 1) := by ring

/-- The normalisation: both numbers are multiplied by `d`, the divisor keeps its length, and
the dividend has one more digit. -/
theorem normalise_spec (ha : a < sp) (hb : b < sp) (hx : Canonical (σ a) x)
    (hy : Canonical (σ b) y) (hx0 : 0 < x) (hy0 : 0 < y) (hlen : 2 ≤ (σ b).len) :
    ∃ d σ1 v1 v2, normalise sp σ a b = some (d, σ1) ∧ 0 < d ∧ d < base ∧
      Divisor (σ1 (sp + 1)).val (σ b).len.toNat (y * d) v1 v2 ∧
      (σ1 sp).val.Spells 0 ((σ a).len.toNat + 1) (x * d) ∧ ∀ o < sp, σ1 o = σ o := by
  have hmy := hy.mag hy0.le
  obtain ⟨k, hk⟩ := Nat.exists_eq_add_of_le' (show 2 ≤ (σ b).len.toNat by omega)
  have hylow := hy.le_abs hy0.ne'
  rw [abs_of_pos hy0, show (σ b).len.natAbs - 1 = k + 1 by omega] at hylow
  rw [hk] at hmy ⊢
  obtain ⟨s, t, hs, ht, ht0, htb, hyeq⟩ := hmy.val.top
  rw [Nat.zero_add] at ht
  have htne : t ≠ 0 := by
    rintro rfl
    exact hmy.val.top_ne_zero hylow (by rw [Nat.zero_add, ht])
  obtain ⟨d, hd, hd0, hdb, hyd⟩ := factor_spec (show 0 < t by omega) htb hs.lt hyeq
  -- the locals before the multiplications
  set σ0 := update (update (update σ sp ⟨0, freed⟩) (sp + 1) ⟨0, freed⟩) (sp + 2) (oneDigit d)
    with hσ0
  have hlow : ∀ o < sp, σ0 o = σ o := by
    intro o ho
    rw [hσ0, update_of_ne (by omega), update_of_ne (by omega), update_of_ne (by omega)]
  have hd₀ : Canonical (σ0 (sp + 2)) d := by
    rw [hσ0, update_self]
    exact canonical_oneDigit hd0 hdb
  have hdlen : (σ0 (sp + 2)).len.natAbs = 1 := by
    rw [hσ0, update_self]
    rfl
  obtain ⟨σ1, hrun1, hprod1, hframe1⟩ := mpMult_spec (c := sp) (show a < sp + 3 by omega)
    (show sp + 2 < sp + 3 by omega) (by omega) (by rwa [hlow a ha] : Canonical (σ0 a) x) hd₀
  have hd₁ : σ1 (sp + 2) = σ0 (sp + 2) := hframe1 _ (by omega) (by omega)
  obtain ⟨σ2, hrun2, hprod2, hframe2⟩ := mpMult_spec (c := sp + 1) (show b < sp + 3 by omega)
    (show sp + 2 < sp + 3 by omega) (by omega)
    (by rwa [hframe1 b (by omega) (by omega), hlow b hb] : Canonical (σ1 b) y)
    (by rwa [hd₁] : Canonical (σ1 (sp + 2)) d)
  have hxd : 0 < x * d := mul_pos hx0 hd0
  have hydpos : 0 < y * d := mul_pos hy0 hd0
  have hu := hprod1.digits hxd.ne'
  rw [abs_of_pos hxd, hlow a ha, hdlen] at hu
  have hv := hprod2.digits hydpos.ne'
  rw [abs_of_pos hydpos, hd₁, hdlen, hframe1 b (by omega) (by omega), hlow b hb,
    show (σ b).len.natAbs = k + 2 by omega] at hv
  have hv := hv.of_lt hyd
  have hge : base ^ (k + 1) ≤ y * d := by
    have : y * 1 ≤ y * d := mul_le_mul_of_nonneg_left (by omega) hy0.le
    linarith
  obtain ⟨v1, v2, _, hv1, hv2, h10, _⟩ := leading_two hv
  rw [Nat.zero_add] at hv1 hv2
  refine ⟨d, σ2, v1, v2, ?_, hd0, hdb, ⟨by omega, hv, hv1, hv2, ?_⟩, ?_, ?_⟩
  · simp only [normalise, hk, show k + 2 - 1 = k + 1 by omega, ht, hd, bind_eq_bind,
      bind_some, ← hσ0, hrun1, hrun2]
  · have hne : v1 ≠ 0 := by
      rintro rfl
      exact hv.top_ne_zero hge (by rw [Nat.zero_add, hv1])
    omega
  · rw [hframe2 sp (by omega) (by omega)]
    rwa [show (σ a).len.natAbs = (σ a).len.toNat by
      have := hx.len_nonneg.2 hx0.le
      omega] at hu
  · intro o ho
    rw [hframe2 o (by omega) (by omega), hframe1 o (by omega) (by omega), hlow o ho]

/-- `mp_sdiv` of numbers that are not negative. -/
theorem mpSdiv_spec {m : Mint} {d : ℤ} (hm : Canonical m x) (hx : 0 ≤ x) (hd : 0 < d)
    (hdb : d < base) : ∃ q, mpSdiv m d = some (q, x % d) ∧ Canonical q (x / d) := by
  obtain ⟨q, hrun, hcan⟩ := sDiv_spec hm hx hd hdb
  have hlen : ¬ m.len < 0 := by
    have := hm.len_nonneg.2 hx
    omega
  have hr0 := Int.emod_nonneg x hd.ne'
  have hrd := Int.emod_lt_of_pos x hd
  simp only [mpSdiv, if_neg hlen, if_neg (show ¬ d < 0 by omega), one_mul, hrun,
    bind_eq_bind, bind_some, mul_one, short_digit hr0 (hrd.trans hdb)]
  exact ⟨q, rfl, hcan⟩

/-- The quotient has at most one leading zero. -/
theorem quotient_ge {i n : ℕ} (hx : base ^ (n + i) ≤ x) (hy0 : 0 < y) (hy : y < base ^ n) :
    base ^ i ≤ x / y := by
  rw [Int.le_ediv_iff_mul_le hy0]
  calc base ^ i * y ≤ base ^ i * base ^ n := mul_le_mul_of_nonneg_left hy.le (by positivity)
    _ = base ^ (n + i) := by ring
    _ ≤ x := hx

/-- The end of the long division. -/
theorem divEnd_spec {d Q R : ℤ} {qval : Buf} (hqr : q ≠ r) (hd : 0 < d) (hdb : d < base)
    (hR : uval.Spells 0 n R) (hQ : qval.Spells 0 (k + 1) Q) (hlow : k ≠ 0 → base ^ (k - 1) ≤ Q) :
    ∃ σ', divEnd σ d n (k + 1) qval uval q r = some σ' ∧ Canonical (σ' q) Q ∧
      Canonical (σ' r) (R / d) ∧ ∀ o, o ≠ q → o ≠ r → σ' o = σ o := by
  obtain ⟨j, _, hsig, hspell, htop⟩ := significant_spec hR
  have hcan : Canonical ⟨(j : ℤ), if j = 0 then freed else uval⟩ R := by
    by_cases hj : j = 0
    · subst hj
      rw [hspell.eq_zero]
      exact .zero rfl
    · rw [if_neg hj]
      exact Mag.canonical ⟨rfl, hspell⟩ htop
  obtain ⟨w, hdiv, hw⟩ := mpSdiv_spec hcan hR.nonneg hd hdb
  obtain ⟨_, t, _, ht, _⟩ := hQ.top
  rw [Nat.zero_add] at ht
  simp only [divEnd, hsig, hdiv, Nat.add_sub_cancel, ht, bind_eq_bind, bind_some]
  refine ⟨_, rfl, ?_, ?_, ?_⟩
  · rw [update_self]
    apply canonical_drop hQ ht hlow
    · split_ifs <;> simp
    · exact fun hne => if_neg fun h => hne (congrArg Nat.cast h)
  · rw [update_of_ne hqr.symm, update_self]
    exact hw
  · intro o hoq hor
    rw [update_of_ne hoq, update_of_ne hor]

/-- The state in which the passes of the long division start. -/
structure Ready (sp : ℕ) (σ σ1 : Store) (a b k : ℕ) (x y d v1 v2 : ℤ) : Prop where
  len : (σ a).len.toNat = (σ b).len.toNat + k
  normalised : normalise sp σ a b = some (d, σ1)
  factor_pos : 0 < d
  factor_lt : d < base
  divisor : Divisor (σ1 (sp + 1)).val (σ b).len.toNat (y * d) v1 v2
  dividend : (σ1 sp).val.Spells 0 (k + 1 + (σ b).len.toNat) (x * d)
  dividend_lt : x * d < y * d * base ^ (k + 1)
  frame : ∀ o < sp, σ1 o = σ o

theorem longDiv_ready (ha : a < sp) (hb : b < sp) (hx : Canonical (σ a) x)
    (hy : Canonical (σ b) y) (hx0 : 0 < x) (hy0 : 0 < y) (hlen : 2 ≤ (σ b).len)
    (hle : (σ b).len ≤ (σ a).len) : ∃ σ1 k d v1 v2, Ready sp σ σ1 a b k x y d v1 v2 := by
  obtain ⟨d, σ1, v1, v2, hnorm, hd0, hdb, hv, hu, hframe⟩ :=
    normalise_spec ha hb hx hy hx0 hy0 hlen
  have hylow := hy.le_abs hy0.ne'
  have hxlt := hx.digits.lt
  rw [abs_of_pos hx0] at hxlt
  rw [abs_of_pos hy0] at hylow
  obtain ⟨k, hk⟩ := Nat.exists_eq_add_of_le (show (σ b).len.toNat ≤ (σ a).len.toNat by omega)
  refine ⟨σ1, k, d, v1, v2, hk, hnorm, hd0, hdb, hv, ?_, ?_, hframe⟩
  · rwa [show k + 1 + (σ b).len.toNat = (σ a).len.toNat + 1 by omega]
  · have hpow : base ^ (σ a).len.natAbs = base ^ ((σ b).len.natAbs - 1) * base ^ (k + 1) := by
      rw [← pow_add]
      congr 1
      omega
    have hxy : x < y * base ^ (k + 1) := by
      calc x < base ^ (σ a).len.natAbs := hxlt
        _ = base ^ ((σ b).len.natAbs - 1) * base ^ (k + 1) := hpow
        _ ≤ y * base ^ (k + 1) := mul_le_mul_of_nonneg_right hylow (by positivity)
    have := mul_lt_mul_of_pos_right hxy hd0
    linarith

/-- The long division of `m_div`. -/
theorem longDiv_spec (ha : a < sp) (hb : b < sp) (hqr : q ≠ r) (hx : Canonical (σ a) x)
    (hy : Canonical (σ b) y) (hx0 : 0 < x) (hy0 : 0 < y) (hlen : 2 ≤ (σ b).len)
    (hle : (σ b).len ≤ (σ a).len) :
    ∃ σ', longDiv sp σ a b q r = some σ' ∧ Canonical (σ' q) (x / y) ∧
      Canonical (σ' r) (x % y) ∧ ∀ o < sp, o ≠ q → o ≠ r → σ' o = σ o := by
  obtain ⟨σ1, k, d, v1, v2, hrd⟩ := longDiv_ready ha hb hx hy hx0 hy0 hlen hle
  have hd0 := hrd.factor_pos
  have hk := hrd.len
  have hxlow := hx.le_abs hx0.ne'
  have hylt := hy.digits.lt
  rw [abs_of_pos hx0] at hxlow
  rw [abs_of_pos hy0] at hylt
  obtain ⟨qval, uval, Q, R, hrun, hfill, hR, hRV, hQR⟩ := divLoop_spec hrd.divisor hrd.dividend
    hrd.dividend_lt (show k + 1 ≤ (xalloc (k + 1)).size by simp only [xalloc]; omega)
  -- the remainder of the multiples is the multiple of the remainder
  have hrem : R = (x - Q * y) * d := by linear_combination -hQR
  have hR0 : 0 ≤ R := hR.nonneg
  have hr0 : 0 ≤ x - Q * y := by
    by_contra hneg
    have := mul_pos_of_neg_of_neg (show x - Q * y < 0 by omega) (neg_neg_of_pos hd0)
    linarith
  have hry : x - Q * y < y := by
    rw [hrem] at hRV
    exact lt_of_mul_lt_mul_right hRV hd0.le
  have hQeq : x / y = Q := by
    rw [show x = x - Q * y + Q * y by ring, Int.add_mul_ediv_right _ _ hy0.ne',
      Int.ediv_eq_zero_of_lt hr0 hry, zero_add]
  have hReq : R / d = x % y := by
    have hdm := Int.mul_ediv_add_emod x y
    rw [hrem, Int.mul_ediv_cancel _ hd0.ne', ← hQeq]
    linarith
  obtain ⟨σ', hend, hq, hr, hframe'⟩ := divEnd_spec (σ := σ1) hqr hd0 hrd.factor_lt hR
    hfill.spells (by
      intro hk0
      rw [← hQeq]
      apply quotient_ge _ hy0 hylt
      rwa [show (σ b).len.natAbs + (k - 1) = (σ a).len.natAbs - 1 by omega])
  refine ⟨σ', ?_, ?_, ?_, ?_⟩
  · simp only [longDiv, show (σ a).len.toNat - (σ b).len.toNat + 1 = k + 1 by omega,
      hrd.normalised, hrd.divisor.fst, hrd.divisor.snd, hrun, hend, bind_eq_bind,
      bind_some]
  · rwa [hQeq]
  · rwa [← hReq]
  · intro o ho hoq hor
    rw [hframe' o hoq hor, hrd.frame o ho]

/-- A remainder of one digit. -/
theorem canonical_rem {d : ℤ} (h0 : 0 ≤ d) (hdb : d < base) {rval : Buf}
    (hw : (xalloc 1).write 0 d = some rval) :
    Canonical (if d = 0 then ⟨0, freed⟩ else ⟨1, rval⟩) d := by
  by_cases hd : d = 0
  · rw [if_pos hd, hd]
    exact .zero rfl
  · rw [if_neg hd]
    have hspell := (Fills.write hw h0 hdb).spells
    apply Mag.canonical (n := 1) ⟨rfl, hspell⟩
    intro _
    rw [Nat.sub_self, hspell.of_single.1]
    exact fun h => hd (Option.some.inj h)

/-- `m_div`. -/
theorem mDiv_spec (ha : a < sp) (hb : b < sp) (hqr : q ≠ r) (haq : a ≠ q)
    (hx : Canonical (σ a) x) (hy : Canonical (σ b) y) (hx0 : 0 ≤ x) (hy0 : 0 < y) :
    ∃ σ', mDiv sp σ a b q r = some σ' ∧ Canonical (σ' q) (x / y) ∧
      Canonical (σ' r) (x % y) ∧ ∀ o < sp, o ≠ q → o ≠ r → σ' o = σ o := by
  have hlen0 : (σ b).len ≠ 0 := mt hy.len_eq_zero.1 hy0.ne'
  have hlenb := hy.len_nonneg.2 hy0.le
  have hlena := hx.len_nonneg.2 hx0
  rw [mDiv, if_neg hlen0]
  by_cases h1 : (σ b).len = 1
  · have hmy := hy.mag hy0.le
    rw [h1] at hmy
    obtain ⟨hd, _, hdb⟩ := hmy.val.of_single
    obtain ⟨t, hdiv, hcan⟩ := mpSdiv_spec hx hx0 hy0 hdb
    have hr0 := Int.emod_nonneg x hy0.ne'
    have hrb := (Int.emod_lt_of_pos x hy0).trans hdb
    obtain ⟨rval, hw, _⟩ := write_exists (show 0 < (xalloc 1).size by simp [xalloc]) (x % y)
    simp only [if_pos h1, hd, hdiv, hw, bind_eq_bind, bind_some]
    refine ⟨_, rfl, ?_, ?_, ?_⟩
    · rw [update_of_ne hqr, update_self]
      exact hcan
    · rw [update_self]
      exact canonical_rem hr0 hrb hw
    · intro o _ hoq hor
      rw [update_of_ne hor, update_of_ne hoq]
  rw [if_neg h1]
  by_cases hlt : (σ a).len < (σ b).len
  · have hxy := hx.lt_of_len hy hlt
    have hmx := hx.mag hx0
    obtain ⟨rval, hcopy, hfill⟩ := copyDigits_spec hmx.val (xalloc (σ a).len.toNat)
      (by simp only [xalloc]; omega)
    simp only [if_pos hlt, setLen_of_ne σ 0 haq, hcopy, bind_eq_bind, bind_some]
    rw [Int.ediv_eq_zero_of_lt hx0 hxy, Int.emod_eq_of_lt hx0 hxy]
    refine ⟨_, rfl, ?_, ?_, ?_⟩
    · rw [update_of_ne hqr]
      apply Canonical.zero
      rw [setLen_self]
    · rw [update_self]
      have hcopy' : Copy (σ a) ⟨(σ a).len, rval⟩ := by
        refine ⟨rfl, ?_⟩
        intro z hz
        rw [show (σ a).len.natAbs = (σ a).len.toNat by omega] at hz ⊢
        rw [hz.unique hmx.val]
        exact hfill.spells
      exact hcopy'.canonical hx
    · intro o _ hoq hor
      rw [update_of_ne hor, setLen_of_ne _ _ hoq]
  · rw [if_neg hlt]
    have hxne : x ≠ 0 := by
      rw [Ne, ← hx.len_eq_zero]
      omega
    exact longDiv_spec ha hb hqr hx hy (by omega) hy0 (by omega) (by omega)

/-- In every pass of the long division of `a` by `b`, the trial digit is the true digit of the
quotient or one more. -/
def TrialDigits (sp : ℕ) (σ : Store) (a b : ℕ) (y : ℤ) : Prop :=
  ∀ d σ1 v1 v2, normalise sp σ a b = some (d, σ1) →
    (σ1 (sp + 1)).val.read ((σ b).len.toNat - 1) = some v1 →
    (σ1 (sp + 1)).val.read ((σ b).len.toNat - 2) = some v2 →
    ∀ i w, Pass (σ1 (sp + 1)).val (σ b).len.toNat v1 v2
        ((σ a).len.toNat - (σ b).len.toNat + 1) (σ1 sp).val i w →
      ∃ U qq, w.Spells i ((σ b).len.toNat + 1) U ∧
        trialDigit (σ b).len.toNat v1 v2 w i = some qq ∧
        (qq = U / (y * d) ∨ qq = U / (y * d) + 1)

theorem trialDigits (ha : a < sp) (hb : b < sp) (hx : Canonical (σ a) x)
    (hy : Canonical (σ b) y) (hx0 : 0 < x) (hy0 : 0 < y) (hlen : 2 ≤ (σ b).len)
    (hle : (σ b).len ≤ (σ a).len) : TrialDigits sp σ a b y := by
  intro d σ1 v1 v2 hnorm hv1 hv2 i w hpass
  obtain ⟨σ1', k, d', v1', v2', hrd⟩ := longDiv_ready ha hb hx hy hx0 hy0 hlen hle
  have hnorm' := hrd.normalised
  rw [hnorm] at hnorm'
  cases hnorm'
  have hfst := hrd.divisor.fst
  rw [hv1] at hfst
  cases hfst
  have hsnd := hrd.divisor.snd
  rw [hv2] at hsnd
  cases hsnd
  have hk := hrd.len
  rw [show (σ a).len.toNat - (σ b).len.toNat + 1 = k + 1 by omega] at hpass
  exact hpass.trial hrd.divisor hrd.dividend hrd.dividend_lt

/-- The sign of a quotient, as `mp_mdiv` computes it. -/
def signs (x y : ℤ) : ℤ := (if x < 0 then -1 else 1) * (if y < 0 then -1 else 1)

theorem divSign_spec {z w : ℤ} (hqr : q ≠ r) (hq : Canonical (σ q) z) (hr : Canonical (σ r) w)
    (x y : ℤ) :
    Canonical (divSign (signs x y) σ q r q) (signs x y * z) ∧
      Canonical (divSign (signs x y) σ q r r) (signs x y * w) ∧
      ∀ o, o ≠ q → o ≠ r → divSign (signs x y) σ q r o = σ o := by
  by_cases hs : signs x y = -1
  · simp only [divSign, hs, if_true, neg_one_mul]
    refine ⟨?_, ?_, ?_⟩
    · rw [negLen_of_ne _ hqr, negLen_self]
      exact hq.neg
    · rw [negLen_self, negLen_of_ne _ hqr.symm]
      exact hr.neg
    · intro o hoq hor
      rw [negLen_of_ne _ hor, negLen_of_ne _ hoq]
  · have h1 : signs x y = 1 := by
      simp only [signs] at hs ⊢
      split_ifs at hs ⊢ <;> simp_all
    simp only [divSign, h1, one_mul]
    exact ⟨hq, hr, fun _ _ _ => rfl⟩

/-- `mp_mdiv`. -/
theorem mpMdiv_spec (ha : a < sp) (hb : b < sp) (hq : q < sp) (hr : r < sp) (hqr : q ≠ r)
    (hx : Canonical (σ a) x) (hy : Canonical (σ b) y) (hy0 : y ≠ 0) :
    ∃ σ', mpMdiv sp σ a b q r = some σ' ∧ Canonical (σ' q) (signs x y * (|x| / |y|)) ∧
      Canonical (σ' r) (signs x y * (|x| % |y|)) ∧ ∀ o < sp, o ≠ q → o ≠ r → σ' o = σ o := by
  obtain ⟨σ1, hcopies, hcx, hcy, hframe⟩ := copies_spec ha hb hx.digits hy.digits
  have hX1 := hcx.canonical hx
  have hY1 := hcy.canonical hy
  simp only [mpMdiv, hcopies, bind_eq_bind, bind_some, hX1.len_neg, hY1.len_neg]
  set σ2 := xfree (xfree (if (if y < 0 then (-1 : ℤ) else 1) < 0 then
    negLen (if (if x < 0 then (-1 : ℤ) else 1) < 0 then negLen σ1 sp else σ1) (sp + 1)
    else if (if x < 0 then (-1 : ℤ) else 1) < 0 then negLen σ1 sp else σ1) q) r with hσ2
  have hX : Canonical (σ2 sp) |x| := by
    rw [hσ2, xfree_of_ne _ (by omega), xfree_of_ne _ (by omega), ite_negLen_of_ne _ (by omega)]
    exact hX1.unsigned
  have hY : Canonical (σ2 (sp + 1)) |y| := by
    rw [hσ2, xfree_of_ne _ (by omega), xfree_of_ne _ (by omega)]
    apply Canonical.unsigned
    rw [ite_negLen_of_ne _ (by omega)]
    exact hY1
  obtain ⟨σ3, hdiv, hq3, hr3, hframe3⟩ := mDiv_spec (show sp < sp + 2 by omega)
    (show sp + 1 < sp + 2 by omega) hqr (by omega) hX hY (abs_nonneg x) (abs_pos.2 hy0)
  obtain ⟨hq4, hr4, hframe4⟩ := divSign_spec hqr hq3 hr3 x y
  rw [hdiv, bind_some]
  refine ⟨_, rfl, ?_, ?_, ?_⟩
  · rw [xfree_of_ne _ (by omega), xfree_of_ne _ (by omega)]
    exact hq4
  · rw [xfree_of_ne _ (by omega), xfree_of_ne _ (by omega)]
    exact hr4
  · intro o ho hoq hor
    have h4 := hframe4 o hoq hor
    rw [xfree_of_ne _ (by omega), xfree_of_ne _ (by omega)]
    refine h4.trans ?_
    rw [hframe3 o (by omega) hoq hor, hσ2, xfree_of_ne _ hor, xfree_of_ne _ hoq,
      ite_negLen_of_ne _ (by omega), ite_negLen_of_ne _ (by omega), hframe o ho]

/-- Division is exact in magnitude, and its trial digits are the true ones or one too large. All
sums and products fit in a long and all accesses are inside the allocations: the model would
fail there. -/
theorem division_exact (ha : a < sp) (hb : b < sp) (hq : q < sp) (hr : r < sp) (hqr : q ≠ r)
    (hx : Canonical (σ a) x) (hy : Canonical (σ b) y) (hy0 : y ≠ 0) :
    (∃ σ' z w, mpMdiv sp σ a b q r = some σ' ∧ Canonical (σ' q) z ∧ Canonical (σ' r) w ∧
      |x| = |z| * |y| + |w| ∧ |w| < |y|) ∧
    ∀ τ : Store, Canonical (τ a) |x| → Canonical (τ b) |y| → 2 ≤ (τ b).len →
      (τ b).len ≤ (τ a).len → TrialDigits sp τ a b |y| := by
  have hypos : 0 < |y| := abs_pos.2 hy0
  constructor
  · obtain ⟨σ', hrun, hz, hw, _⟩ := mpMdiv_spec ha hb hq hr hqr hx hy hy0
    have habs : ∀ t : ℤ, 0 ≤ t → |signs x y * t| = t := by
      intro t ht
      simp only [signs]
      split_ifs <;> simp [abs_of_nonneg ht]
    refine ⟨σ', _, _, hrun, hz, hw, ?_, ?_⟩
    · rw [habs _ (Int.ediv_nonneg (abs_nonneg x) hypos.le), habs _ (Int.emod_nonneg _ hypos.ne')]
      exact (Int.ediv_mul_add_emod |x| |y|).symm
    · rw [habs _ (Int.emod_nonneg _ hypos.ne')]
      exact Int.emod_lt_of_pos _ hypos
  · intro τ hx' hy' hlen hle
    have hxne : |x| ≠ 0 := by
      rw [Ne, ← hx'.len_eq_zero]
      omega
    exact trialDigits ha hb hx' hy' (lt_of_le_of_ne (abs_nonneg x) hxne.symm) hypos hlen hle

/-- The quotient replaces the dividend, and the remainder the divisor. -/
theorem division_exact_twoDigits : ∃ σ' z w,
    mpMdiv 2 (fun o => twoDigits (32767 * o) (32767 - 32766 * o)) 0 1 0 1 = some σ' ∧
    Canonical (σ' 0) z ∧ Canonical (σ' 1) w ∧
    |0 + base * 32767| = |z| * |32767 + base * 1| + |w| ∧ |w| < |32767 + base * 1| :=
  (division_exact (by omega) (by omega) (by omega) (by omega) (by omega)
    (canonical_twoDigits (by decide) (by decide) (by decide) (by decide))
    (canonical_twoDigits (by decide) (by decide) (by decide) (by decide)) (by decide)).1

end Sol26.Mp
