import Sol26.Mp.Division

/-!
# Modular exponentiation

`mp_pow` squares and multiplies, over the bits of the exponent from the top digit down.
-/
namespace Sol26.Mp

open Function (update update_of_ne update_self)
open Option (bind_eq_bind bind_some)

/-- One pass of the inner loop; the locals `x`, `y`, `a0`, `b0` and `c0` are the objects from
`sp` on. -/
def powStep (sp d : ℕ) (n : ℤ) (σ : Store) : Option (ℤ × Store) := do
  let σ ← mpMult (sp + 5) σ d d sp
  let σ ← mpMdiv (sp + 5) σ sp (sp + 4) (sp + 1) d
  let n := n * 2
  if bit15 n then do
    let σ ← mpMult (sp + 5) σ (sp + 2) d sp
    let σ ← mpMdiv (sp + 5) σ sp (sp + 4) (sp + 1) d
    some (n, σ)
  else some (n, σ)

/-- The inner loop, over the bits of a digit. -/
def powBits (sp d : ℕ) : ℕ → ℤ → Store → Option Store
  | 0, _, σ => some σ
  | i + 1, n, σ => do
    let r ← powStep sp d n σ
    powBits sp d i r.1 r.2

/-- The outer loop, over the digits of the exponent. -/
def powDigits (sp d : ℕ) : ℕ → Store → Option Store
  | 0, σ => some σ
  | j + 1, σ => do
    let n ← (σ (sp + 3)).val.read j
    let σ ← powBits sp d 15 n σ
    powDigits sp d j σ

/-- The locals of `mp_pow`, with the copies of its arguments. -/
def powLocals (sp : ℕ) (σ : Store) (a b c : ℕ) : Option Store := do
  let zero : Mint := ⟨0, freed⟩
  let σ := update (update (update (update (update σ sp zero) (sp + 1) zero) (sp + 2) zero)
    (sp + 3) zero) (sp + 4) zero
  let σ ← move σ a (sp + 2)
  let σ ← move σ b (sp + 3)
  move σ c (sp + 4)

/-- `mp_pow`. -/
def mpPow (sp : ℕ) (σ : Store) (a b c d : ℕ) : Option Store := do
  let σ ← powLocals sp σ a b c
  let σ := xfree σ d
  let one ← (xalloc 1).write 0 1
  let σ := update σ d ⟨1, one⟩
  let σ ← powDigits sp d (σ (sp + 3)).len.toNat σ
  some (xfree (xfree (xfree (xfree (xfree σ sp) (sp + 1)) (sp + 2)) (sp + 3)) (sp + 4))

/-! ### One product modulo `c` -/

variable {σ : Store} {sp a b c d k : ℕ} {u v A C : ℤ}

/-- `_mp_mcan` of a number without sign. -/
theorem mcan_mag (h : Mag (σ a) k u) :
    ∃ σ', mcan σ a = some σ' ∧ Canonical (σ' a) u ∧ ∀ o, o ≠ a → σ' o = σ o := by
  have hlen : (σ a).len.natAbs = k := by rw [h.len, Int.natAbs_natCast]
  by_cases h0 : (σ a).len = 0
  · refine ⟨σ, by rw [mcan, if_pos h0], ?_, fun _ _ => rfl⟩
    have hval := h.val
    rw [show k = 0 by omega] at hval
    rw [hval.eq_zero]
    exact .zero h0
  · obtain ⟨j, hj, hsig, hspell, htop⟩ := significant_spec h.val
    simp only [mcan, if_neg h0, hlen, hsig, bind_eq_bind, bind_some]
    by_cases hjk : j = k
    · rw [if_pos hjk]
      subst hjk
      exact ⟨σ, rfl, h.canonical htop, fun _ _ => rfl⟩
    · rw [if_neg hjk]
      by_cases hj0 : j = 0
      · rw [if_pos hj0]
        subst hj0
        rw [hspell.eq_zero]
        exact ⟨_, rfl, .zero (xfree_len σ a), fun o ho => xfree_of_ne _ ho⟩
      · rw [if_neg hj0, if_pos (by rw [h.len]; omega)]
        refine ⟨_, rfl, ?_, fun o ho => setLen_of_ne _ _ ho⟩
        rw [setLen_self]
        exact Mag.canonical ⟨rfl, hspell⟩ htop

/-- A factor of which leading zeros are taken off first. -/
theorem mpMult_mag (ha : a < sp) (hb : b < sp) (hc : c < sp) (hu : Mag (σ a) k u)
    (hv : Canonical (σ b) v) :
    ∃ σ', mpMult sp σ a b c = some σ' ∧ Canonical (σ' c) (u * v) ∧
      (a ≠ c → Canonical (σ' a) u) ∧ ∀ o < sp, o ≠ c → o ≠ a → σ' o = σ o := by
  obtain ⟨σ1, hcan, hu1, hframe1⟩ := mcan_mag hu
  have hv1 : Canonical (σ1 b) v := by
    by_cases hab : b = a
    · subst hab
      have huv : v = u := by
        have h0 : 0 ≤ v := by
          rw [← hv.len_nonneg, hu.len]
          omega
        have hmag := hv.mag h0
        rw [show (σ b).len.toNat = k by rw [hu.len]; omega] at hmag
        exact hmag.val.unique hu.val
      rwa [huv]
    · rwa [hframe1 b hab]
  obtain ⟨σ2, hrun, hprod, hframe2⟩ := mpMult_spec ha hb hc hu1 hv1
  refine ⟨σ2, ?_, hprod.canonical, ?_, ?_⟩
  · simp only [mpMult, mcan_canonical hu1, mcan_canonical hv1, bind_eq_bind, bind_some] at hrun
    simp only [mpMult, hcan, mcan_canonical hv1, bind_eq_bind, bind_some, hrun]
  · intro hac
    rwa [hframe2 a ha hac]
  · intro o ho hoc hoa
    rw [hframe2 o ho hoc, hframe1 o hoa]

/-- The product of the object `o` and the result `d`, reduced modulo `c0`. -/
theorem mulMod {o : ℕ} (hd : d < sp) (ho : o = d ∨ o = sp + 2) (hu : Mag (σ o) k u)
    (hv : Canonical (σ d) v) (hv0 : 0 ≤ v) (hC : Canonical (σ (sp + 4)) C) (hC0 : 0 < C) :
    ∃ σ1 σ2, mpMult (sp + 5) σ o d sp = some σ1 ∧
      mpMdiv (sp + 5) σ1 sp (sp + 4) (sp + 1) d = some σ2 ∧ Canonical (σ2 d) (u * v % C) ∧
      (o ≠ d → Canonical (σ2 o) u) ∧
      ∀ p < sp + 5, p ≠ d → p ≠ o → p ≠ sp → p ≠ sp + 1 → σ2 p = σ p := by
  have hu0 : 0 ≤ u := hu.val.nonneg
  obtain ⟨σ1, hmul, hprod, ho1, hframe1⟩ := mpMult_mag (show o < sp + 5 by omega)
    (show d < sp + 5 by omega) (show sp < sp + 5 by omega) hu hv
  have hC1 : Canonical (σ1 (sp + 4)) C := by
    rwa [hframe1 (sp + 4) (by omega) (by omega) (by omega)]
  obtain ⟨σ2, hdiv, _, hrem, hframe2⟩ := mpMdiv_spec (show sp < sp + 5 by omega)
    (show sp + 4 < sp + 5 by omega) (show sp + 1 < sp + 5 by omega) (show d < sp + 5 by omega)
    (by omega) hprod hC1 hC0.ne'
  have hprod0 := mul_nonneg hu0 hv0
  have hsigns : signs (u * v) C = 1 := by
    rw [signs, if_neg (by omega), if_neg (by omega), one_mul]
  rw [hsigns, one_mul, abs_of_nonneg hprod0, abs_of_pos hC0] at hrem
  refine ⟨σ1, σ2, hmul, hdiv, hrem, ?_, ?_⟩
  · intro hod
    rw [hframe2 o (by omega) (by omega) hod]
    exact ho1 (by omega)
  · intro p hp hpd hpo hps hps'
    rw [hframe2 p hp hps' hpd, hframe1 p hp hps hpo]

/-! ### The loops -/

/-- The state between passes: the result is the power for the bits of the exponent that have
been used. -/
structure PowState (sp d : ℕ) (b0 : Mint) (A C : ℤ) (e : ℕ) (σ : Store) : Prop where
  base : ∃ k, Mag (σ (sp + 2)) k A
  exponent : σ (sp + 3) = b0
  modulus : Canonical (σ (sp + 4)) C
  result : Canonical (σ d) (A ^ e % C)

variable {b0 : Mint} {e : ℕ}

theorem pow_bit (A C : ℤ) (e : ℕ) : A ^ e % C * (A ^ e % C) % C = A ^ (2 * e) % C := by
  rw [← Int.mul_emod, two_mul, pow_add]

/-- A pass uses one bit of the exponent. -/
theorem powStep_spec (hd : d < sp) (hC : 0 < C) (hst : PowState sp d b0 A C e σ) (n : ℤ) :
    ∃ σ', powStep sp d n σ = some (n * 2, σ') ∧
      PowState sp d b0 A C (2 * e + (bit15 (n * 2)).toNat) σ' ∧
      ∀ o < sp, o ≠ d → σ' o = σ o := by
  have hr0 : 0 ≤ A ^ e % C := Int.emod_nonneg _ hC.ne'
  obtain ⟨σ1, σ2, hmul, hdiv, hres, _, hframe⟩ := mulMod hd (.inl rfl) (hst.result.mag hr0)
    hst.result hr0 hst.modulus hC
  rw [pow_bit] at hres
  obtain ⟨k, hk⟩ := hst.base
  have hbase : Mag (σ2 (sp + 2)) k A := by
    rwa [hframe (sp + 2) (by omega) (by omega) (by omega) (by omega) (by omega)]
  have hmod : Canonical (σ2 (sp + 4)) C := by
    rw [hframe (sp + 4) (by omega) (by omega) (by omega) (by omega) (by omega)]
    exact hst.modulus
  have hexp : σ2 (sp + 3) = b0 := by
    rw [hframe (sp + 3) (by omega) (by omega) (by omega) (by omega) (by omega)]
    exact hst.exponent
  simp only [powStep, hmul, hdiv, bind_eq_bind, bind_some]
  cases hbit : bit15 (n * 2) with
  | false =>
    refine ⟨σ2, rfl, ⟨⟨k, hbase⟩, hexp, hmod, ?_⟩, ?_⟩
    · simpa using hres
    · intro o ho hod
      exact hframe o (by omega) hod hod (by omega) (by omega)
  | true =>
    have hr0' : 0 ≤ A ^ (2 * e) % C := Int.emod_nonneg _ hC.ne'
    obtain ⟨σ3, σ4, hmul', hdiv', hres', hbase', hframe'⟩ := mulMod hd (.inr rfl) hbase hres
      hr0' hmod hC
    have hA : 0 ≤ A := hk.val.nonneg
    simp only [if_true, hmul', hdiv', bind_some]
    refine ⟨σ4, rfl, ⟨⟨_, (hbase' (by omega)).mag hA⟩, ?_, ?_, ?_⟩, ?_⟩
    · rw [hframe' (sp + 3) (by omega) (by omega) (by omega) (by omega) (by omega), hexp]
    · rw [hframe' (sp + 4) (by omega) (by omega) (by omega) (by omega) (by omega)]
      exact hmod
    · rwa [Int.mul_emod, Int.emod_emod, ← Int.mul_emod, ← pow_succ'] at hres'
    · intro o ho hod
      rw [hframe' o (by omega) hod (by omega) (by omega) (by omega),
        hframe o (by omega) hod hod (by omega) (by omega)]

/-- The exponent after `i` more bits, `n` being the digit shifted by those already used. -/
def withBits : ℕ → ℤ → ℕ → ℕ
  | 0, _, e => e
  | i + 1, n, e => withBits i (n * 2) (2 * e + (bit15 (n * 2)).toNat)

/-- The top `i` of the 15 bits of `n`. -/
theorem withBits_eq (i : ℕ) (hi : i ≤ 15) (n e : ℕ) :
    withBits i n e = e * 2 ^ i + n % 2 ^ 15 / 2 ^ (15 - i) := by
  induction i generalizing n e with
  | zero => simp [withBits]
  | succ i ih =>
    have hbit : (bit15 ((n : ℤ) * 2)).toNat = n / 2 ^ 14 % 2 := by
      have hdec : bit15 ((n : ℤ) * 2) = decide (n / 2 ^ 14 % 2 = 1) := by
        simp only [bit15]
        congr 1
        apply propext
        norm_num
        omega
      rw [hdec]
      by_cases h : n / 2 ^ 14 % 2 = 1
      · rw [h]
        rfl
      · rw [show n / 2 ^ 14 % 2 = 0 by omega]
        rfl
    have hcast : (n : ℤ) * 2 = ((n * 2 : ℕ) : ℤ) := by push_cast; ring
    rw [withBits, hbit, hcast, ih (by omega)]
    -- the bit that is used and the ones below it
    have hpow : 2 ^ (15 - i) = 2 * 2 ^ (14 - i) := by
      rw [show 15 - i = 14 - i + 1 by omega, pow_succ]
      ring
    have hsplit : (2 : ℕ) ^ 14 = 2 ^ i * 2 ^ (14 - i) := by
      rw [← pow_add]
      congr 1
      omega
    have hlow : n * 2 % 2 ^ 15 / 2 ^ (15 - i) = n % 2 ^ 14 / 2 ^ (14 - i) := by
      rw [hpow, ← Nat.div_div_eq_div_mul]
      congr 1
      omega
    have htop : n % 2 ^ 15 / 2 ^ (14 - i) = n / 2 ^ 14 % 2 * 2 ^ i + n % 2 ^ 14 / 2 ^ (14 - i) := by
      have hn : n % 2 ^ 15 = n % 2 ^ 14 + n / 2 ^ 14 % 2 * 2 ^ i * 2 ^ (14 - i) := by
        rw [Nat.mul_assoc, ← hsplit]
        omega
      rw [hn, Nat.add_mul_div_right _ _ (by positivity)]
      ring
    rw [hlow, show 15 - (i + 1) = 14 - i by omega, htop, pow_succ]
    ring

theorem powBits_spec (hd : d < sp) (hC : 0 < C) (i : ℕ) (n : ℤ) (hst : PowState sp d b0 A C e σ) :
    ∃ σ', powBits sp d i n σ = some σ' ∧ PowState sp d b0 A C (withBits i n e) σ' ∧
      ∀ o < sp, o ≠ d → σ' o = σ o := by
  induction i generalizing n e σ with
  | zero => exact ⟨σ, rfl, hst, fun _ _ _ => rfl⟩
  | succ i ih =>
    obtain ⟨σ1, hstep, hst1, hframe1⟩ := powStep_spec hd hC hst n
    obtain ⟨σ2, hrun, hst2, hframe2⟩ := ih (n * 2) hst1
    refine ⟨σ2, ?_, hst2, ?_⟩
    · simp only [powBits, hstep, bind_eq_bind, bind_some, hrun]
    · intro o ho hod
      rw [hframe2 o ho hod, hframe1 o ho hod]

/-- The loops use the digits of the exponent from the top down. -/
theorem powDigits_spec {j : ℕ} {B : ℤ} (hd : d < sp) (hC : 0 < C)
    (hB : b0.val.Spells 0 j B) (hst : PowState sp d b0 A C e σ) :
    ∃ σ', powDigits sp d j σ = some σ' ∧
      PowState sp d b0 A C (e * 2 ^ (15 * j) + B.toNat) σ' ∧ ∀ o < sp, o ≠ d → σ' o = σ o := by
  induction j generalizing e σ B with
  | zero =>
    rw [hB.eq_zero]
    exact ⟨σ, rfl, by simpa using hst, fun _ _ _ => rfl⟩
  | succ j ih =>
    obtain ⟨L, w, hL, hw, hw0, hwb, rfl⟩ := hB.top
    rw [Nat.zero_add] at hw
    obtain ⟨σ1, hbits, hst1, hframe1⟩ := powBits_spec hd hC 15 w hst
    obtain ⟨m, rfl⟩ := Int.eq_ofNat_of_zero_le hw0
    have hmod : m % 2 ^ 15 = m := Nat.mod_eq_of_lt (by rw [base_eq] at hwb; omega)
    rw [withBits_eq 15 le_rfl, hmod, Nat.sub_self, pow_zero, Nat.div_one] at hst1
    obtain ⟨σ2, hrun, hst2, hframe2⟩ := ih hL hst1
    have hexp : (e * 2 ^ 15 + m) * 2 ^ (15 * j) + L.toNat =
        e * 2 ^ (15 * (j + 1)) + (L + Mp.base ^ j * (m : ℤ)).toNat := by
      obtain ⟨l, rfl⟩ := Int.eq_ofNat_of_zero_le hL.nonneg
      have hpow : Mp.base ^ j = ((2 ^ (15 * j) : ℕ) : ℤ) := by
        rw [pow_mul]
        push_cast
        rfl
      rw [hpow, ← Nat.cast_mul, ← Nat.cast_add, Int.toNat_natCast, Int.toNat_natCast, Nat.mul_succ,
        pow_add]
      ring
    rw [hexp] at hst2
    refine ⟨σ2, ?_, hst2, ?_⟩
    · simp only [powDigits, hst.exponent, hw, hbits, bind_eq_bind, bind_some, hrun]
    · intro o ho hod
      rw [hframe2 o ho hod, hframe1 o ho hod]

/-- The copies of the arguments. -/
theorem powLocals_spec {m n : ℕ} {B : ℤ} (ha : a < sp) (hb : b < sp) (hc : c < sp)
    (hA : Mag (σ a) m A) (hB : Mag (σ b) n B) (hC : Canonical (σ c) C) :
    ∃ σ', powLocals sp σ a b c = some σ' ∧ Mag (σ' (sp + 2)) m A ∧ Mag (σ' (sp + 3)) n B ∧
      Canonical (σ' (sp + 4)) C ∧ ∀ o < sp, σ' o = σ o := by
  set σ0 := update (update (update (update (update σ sp ⟨0, freed⟩) (sp + 1) ⟨0, freed⟩) (sp + 2)
    ⟨0, freed⟩) (sp + 3) ⟨0, freed⟩) (sp + 4) ⟨0, freed⟩ with hσ0
  have hlow : ∀ o < sp, σ0 o = σ o := by
    intro o ho
    rw [hσ0, update_of_ne (by omega), update_of_ne (by omega),
      update_of_ne (by omega), update_of_ne (by omega),
      update_of_ne (by omega)]
  obtain ⟨σ1, hmove1, hcopy1, hframe1⟩ := move_spec (σ := σ0) (x := A)
    (show a ≠ sp + 2 by omega) (by rw [hlow a ha]; exact hA.spells)
  have hb1 : σ1 b = σ b := by rw [hframe1 b (by omega), hlow b hb]
  obtain ⟨σ2, hmove2, hcopy2, hframe2⟩ := move_spec (σ := σ1) (x := B)
    (show b ≠ sp + 3 by omega) (by rw [hb1]; exact hB.spells)
  have hc2 : σ2 c = σ c := by rw [hframe2 c (by omega), hframe1 c (by omega), hlow c hc]
  obtain ⟨σ3, hmove3, hcopy3, hframe3⟩ := move_spec (σ := σ2) (x := |C|)
    (show c ≠ sp + 4 by omega) (by rw [hc2]; exact hC.digits)
  rw [hlow a ha] at hcopy1
  rw [hb1] at hcopy2
  rw [hc2] at hcopy3
  refine ⟨σ3, ?_, ?_, ?_, hcopy3.canonical hC, ?_⟩
  · simp only [powLocals, ← hσ0, hmove1, hmove2, bind_eq_bind, bind_some, hmove3]
  · rw [hframe3 _ (by omega), hframe2 _ (by omega)]
    exact hcopy1.mag hA
  · rw [hframe3 _ (by omega)]
    exact hcopy2.mag hB
  · intro o ho
    rw [hframe3 o (by omega), hframe2 o (by omega), hframe1 o (by omega), hlow o ho]

/-- `mp_pow` ends with the power modulo `c` in `d`, whichever object `d` is. The numbers `a` and
`b` may have leading zeros. -/
theorem mpPow_spec {m n : ℕ} {B : ℤ} (ha : a < sp) (hb : b < sp) (hc : c < sp) (hd : d < sp)
    (hA : Mag (σ a) m A) (hB : Mag (σ b) n B) (hC : Canonical (σ c) C) (hC2 : 2 ≤ C) :
    ∃ σ' z, mpPow sp σ a b c d = some σ' ∧ Canonical (σ' d) z ∧ 0 ≤ z ∧ z < C ∧
      z = A ^ B.toNat % C := by
  obtain ⟨σ1, hlocals, hA1, hB1, hC1, _⟩ := powLocals_spec ha hb hc hA hB hC
  obtain ⟨one, hw, _⟩ := write_exists (show 0 < (xalloc 1).size by simp [xalloc]) 1
  have hother : ∀ o, o ≠ d → update (xfree σ1 d) d ⟨1, one⟩ o = σ1 o := by
    intro o ho
    rw [update_of_ne ho, xfree_of_ne _ ho]
  have hone : Canonical (⟨1, one⟩ : Mint) 1 := by
    have := canonical_rem zero_le_one (show (1 : ℤ) < base by rw [base_eq]; omega) hw
    rwa [if_neg one_ne_zero] at this
  have hst : PowState sp d (σ1 (sp + 3)) A C 0 (update (xfree σ1 d) d ⟨1, one⟩) := by
    refine ⟨⟨m, ?_⟩, hother _ (by omega), ?_, ?_⟩
    · rwa [hother _ (by omega)]
    · rwa [hother _ (by omega)]
    · rw [update_self, pow_zero, Int.emod_eq_of_lt zero_le_one (by omega)]
      exact hone
  have hlen : (update (xfree σ1 d) d ⟨1, one⟩ (sp + 3)).len.toNat = n := by
    rw [hother _ (by omega), hB1.len, Int.toNat_natCast]
  obtain ⟨σ2, hrun, hst2, _⟩ := powDigits_spec hd (by omega) hB1.val hst
  rw [Nat.zero_mul, Nat.zero_add] at hst2
  refine ⟨xfree (xfree (xfree (xfree (xfree σ2 sp) (sp + 1)) (sp + 2)) (sp + 3)) (sp + 4), _, ?_,
    ?_, Int.emod_nonneg _ (by omega), Int.emod_lt_of_pos _ (by omega), rfl⟩
  · simp only [mpPow, hlocals, hw, hlen, hrun, bind_eq_bind, bind_some]
  · rw [xfree_of_ne _ (by omega), xfree_of_ne _ (by omega), xfree_of_ne _ (by omega),
      xfree_of_ne _ (by omega), xfree_of_ne _ (by omega)]
    exact hst2.result

/-- Base, exponent and modulus of two digits, with the result in the object of the base. -/
theorem mpPow_spec_twoDigits : ∃ σ' z,
    mpPow 3 (fun o => if o = 2 then twoDigits 32767 1 else twoDigits 5 (2 - o)) 0 1 2 0 = some σ' ∧
    Canonical (σ' 0) z ∧ 0 ≤ z ∧ z < 32767 + base * 1 ∧
    z = (5 + base * 2) ^ (5 + base * 1).toNat % (32767 + base * 1) := by
  have hbase : Canonical (twoDigits 5 2) (5 + base * 2) :=
    canonical_twoDigits (by decide) (by decide) (by decide) (by decide)
  have hexp : Canonical (twoDigits 5 1) (5 + base * 1) :=
    canonical_twoDigits (by decide) (by decide) (by decide) (by decide)
  have hmod : Canonical (twoDigits 32767 1) (32767 + base * 1) :=
    canonical_twoDigits (by decide) (by decide) (by decide) (by decide)
  exact mpPow_spec (by omega) (by omega) (by omega) (by omega) (hbase.mag (by decide))
    (hexp.mag (by decide)) hmod (by decide)

end Sol26.Mp
