import Sol26.Mp.Digits

/-!
# Sums and differences without sign

The loops of `m_add` and `m_sub`. Each leaves a digit and hands on a carry, so that the digits
written and the carry at the top together are the sum of what was read.
-/
namespace Sol26.Mp

open Function (update)
open Option (bind_eq_bind bind_some getD_some)

variable {a b cval : Buf} {n i : ℕ} {x y : ℤ}

theorem bit15_of_ge {x : ℤ} (h : base ≤ x) (h' : x < 2 * base) :
    bit15 x = true ∧ low15 x = x - base := by
  rw [base_eq] at *
  simp only [bit15, low15, decide_eq_true_eq]
  omega

theorem bit15_of_lt {x : ℤ} (h : 0 ≤ x) (h' : x < base) : bit15 x = false := by
  rw [base_eq] at *
  simp only [bit15, decide_eq_false_iff_not]
  omega

theorem bit15_of_neg {x : ℤ} (h : -base ≤ x) (h' : x < 0) :
    bit15 x = true ∧ low15 x = x + base := by
  rw [base_eq] at *
  simp only [bit15, low15, decide_eq_true_eq]
  omega

/-! ### The loops -/

theorem addBoth_spec (ha : a.Spells i n x) (hb : b.Spells i n y) (hsize : i + n ≤ cval.size) :
    ∃ carry cval' z, addBoth a b n i 0 cval = some (carry, cval') ∧
      0 ≤ carry ∧ carry ≤ 1 ∧ Fills cval cval' i n z ∧ z + base ^ n * carry = x + y := by
  rw [← ha.weigh, ← hb.weigh, ← Radix.weigh_add, ← zero_add (Radix.weigh _ _ _ _)]
  apply ripple (addBoth a b) _ (fun _ _ _ => rfl) _ hsize le_rfl zero_le_one
  intro m j k c hj hjn hk0 hk1 _
  obtain ⟨u, hu, hu0, hulim⟩ := ha.digit hj hjn
  obtain ⟨v, hv, hv0, hvlim⟩ := hb.digit hj hjn
  by_cases hbit : base ≤ k + u + v
  · obtain ⟨hb15, hlow⟩ := bit15_of_ge hbit (by omega)
    refine ⟨k + u + v - base, 1, by omega, by omega, zero_le_one, le_rfl, ?_, ?_⟩
    · simp only [hu, hv, getD_some]
      ring
    · simp only [addBoth, hu, hv, hb15, hlow, bind_eq_bind, bind_some, if_true]
  · have hb15 := bit15_of_lt (show 0 ≤ k + u + v by omega) (by omega)
    refine ⟨k + u + v, 0, by omega, by omega, le_rfl, zero_le_one, ?_, ?_⟩
    · simp only [hu, hv, getD_some]
      ring
    · simp only [addBoth, hu, hv, hb15, bind_eq_bind, bind_some, Bool.false_eq_true, if_false]

theorem addRest_spec (ha : a.Spells i n x) {carry : ℤ} (h0 : 0 ≤ carry) (h1 : carry ≤ 1)
    (hsize : i + n ≤ cval.size) :
    ∃ carry' cval' z, addRest a n i carry cval = some (carry', cval') ∧
      0 ≤ carry' ∧ carry' ≤ 1 ∧ Fills cval cval' i n z ∧ z + base ^ n * carry' = carry + x := by
  rw [← ha.weigh]
  apply ripple (addRest a) _ (fun _ _ _ => rfl) _ hsize h0 h1
  intro m j k c hj hjn hk0 hk1 _
  obtain ⟨u, hu, hu0, hulim⟩ := ha.digit hj hjn
  by_cases hbit : base ≤ k + u
  · obtain ⟨hb15, hlow⟩ := bit15_of_ge hbit (by omega)
    refine ⟨k + u - base, k, by omega, by omega, hk0, hk1, ?_, ?_⟩
    · have hk : k = 1 := by omega
      simp only [hu, hk, getD_some]
      ring
    · simp only [addRest, hu, hb15, hlow, bind_eq_bind, bind_some, if_true]
  · have hb15 := bit15_of_lt (show 0 ≤ k + u by omega) (by omega)
    refine ⟨k + u, 0, by omega, by omega, le_rfl, zero_le_one, ?_, ?_⟩
    · simp only [hu, getD_some]
      ring
    · simp only [addRest, hu, hb15, bind_eq_bind, bind_some, Bool.false_eq_true, if_false]

theorem subBoth_spec (ha : a.Spells i n x) (hb : b.Spells i n y) (hsize : i + n ≤ cval.size) :
    ∃ borrow cval' z, subBoth a b n i 0 cval = some (borrow, cval') ∧
      -1 ≤ borrow ∧ borrow ≤ 0 ∧ Fills cval cval' i n z ∧ z + base ^ n * borrow = x - y := by
  rw [← ha.weigh, ← hb.weigh, ← Radix.weigh_sub, ← zero_add (Radix.weigh _ _ _ _)]
  apply ripple (subBoth a b) _ (fun _ _ _ => rfl) _ hsize (by omega) le_rfl
  intro m j k c hj hjn hk0 hk1 _
  obtain ⟨u, hu, hu0, hulim⟩ := ha.digit hj hjn
  obtain ⟨v, hv, hv0, hvlim⟩ := hb.digit hj hjn
  by_cases hbit : k + u - v < 0
  · obtain ⟨hb15, hlow⟩ := bit15_of_neg (show -base ≤ k + u - v by omega) hbit
    refine ⟨k + u - v + base, -1, by omega, by omega, le_rfl, by omega, ?_, ?_⟩
    · simp only [hu, hv, getD_some]
      ring
    · simp only [subBoth, hu, hv, hb15, hlow, bind_eq_bind, bind_some, if_true]
  · have hb15 := bit15_of_lt (show 0 ≤ k + u - v by omega) (by omega)
    refine ⟨k + u - v, 0, by omega, by omega, by omega, le_rfl, ?_, ?_⟩
    · simp only [hu, hv, getD_some]
      ring
    · simp only [subBoth, hu, hv, hb15, bind_eq_bind, bind_some, Bool.false_eq_true, if_false]

theorem subRest_spec (ha : a.Spells i n x) {borrow : ℤ} (h0 : -1 ≤ borrow) (h1 : borrow ≤ 0)
    (hsize : i + n ≤ cval.size) :
    ∃ borrow' cval' z, subRest a n i borrow cval = some (borrow', cval') ∧
      -1 ≤ borrow' ∧ borrow' ≤ 0 ∧ Fills cval cval' i n z ∧
      z + base ^ n * borrow' = borrow + x := by
  rw [← ha.weigh]
  apply ripple (subRest a) _ (fun _ _ _ => rfl) _ hsize h0 h1
  intro m j k c hj hjn hk0 hk1 _
  obtain ⟨u, hu, hu0, hulim⟩ := ha.digit hj hjn
  by_cases hbit : k + u < 0
  · obtain ⟨hb15, hlow⟩ := bit15_of_neg (show -base ≤ k + u by rw [base_eq]; omega) hbit
    refine ⟨k + u + base, k, by rw [base_eq]; omega, by omega, hk0, hk1, ?_, ?_⟩
    · have hk : k = -1 := by omega
      simp only [hu, hk, getD_some]
      ring
    · simp only [subRest, hu, hb15, hlow, bind_eq_bind, bind_some, if_true]
  · have hb15 := bit15_of_lt (show 0 ≤ k + u by omega) (by omega)
    refine ⟨k + u, 0, by omega, by omega, by omega, le_rfl, ?_, ?_⟩
    · simp only [hu, getD_some]
      ring
    · simp only [subRest, hu, hb15, bind_eq_bind, bind_some, Bool.false_eq_true, if_false]

theorem flip15_digit {d : ℤ} (h0 : 0 ≤ d) (hd : d < base) : flip15 d = base - 1 - d := by
  rw [base_eq] at *
  simp only [flip15, low15]
  omega

/-- The complement of a number of `n` digits. -/
theorem complement_spec (h : cval.Spells i n x) :
    ∃ cval', complement n i cval = some cval' ∧ Fills cval cval' i n (base ^ n - 1 - x) := by
  induction n generalizing i x cval with
  | zero =>
    cases h
    exact ⟨cval, rfl, by simpa using Fills.nil cval i⟩
  | succ n ih =>
    cases h with
    | @cons _ _ d y hd hd0 hlt rest =>
      obtain ⟨w, hw, hsize, hread⟩ := write_exists (read_lt hd) (flip15 d)
      have hrest := rest.congr fun j hj _ => hread j (by omega)
      obtain ⟨cval', hrun, hfill⟩ := ih hrest
      have hflip := flip15_digit hd0 hlt
      rw [hflip] at hw
      refine ⟨cval', ?_, ?_⟩
      · simp only [complement, hd, hflip, hw, bind_eq_bind, bind_some, hrun]
      · have hcons := hfill.cons hw (by omega) (by omega)
        have hval : base - 1 - d + base * (base ^ n - 1 - y) =
            base ^ (n + 1) - 1 - (d + base * y) := by ring
        rwa [hval] at hcons

/-- The last loop of `m_sub` finds the same position as `_mp_mcan`. -/
theorem highest_eq (h : cval.Spells 0 n x) : highest cval n = significant cval n := by
  induction n generalizing x with
  | zero => rfl
  | succ n ih =>
    obtain ⟨y, d, hy, hcell, hd0, _⟩ := h.top
    rw [Nat.zero_add] at hcell
    simp only [highest, significant, hcell, bind_eq_bind, bind_some, ih hy]
    split_ifs <;> first | rfl | omega

/-! ### `m_add` and `m_sub` -/

/-- `m_add`: the sum has the digits of the longer number, or one more for a carry. -/
theorem addMint_spec {a b : Mint} {m n : ℕ} {x y : ℤ} (ha : Mag a m x) (hb : Mag b n y)
    (hnm : n ≤ m) :
    ∃ c k, addMint a b = some c ∧ Mag c k (x + y) ∧ (k = m ∨ (k = m + 1 ∧ base ^ m ≤ x + y)) := by
  obtain ⟨r, rfl⟩ := Nat.exists_eq_add_of_le hnm
  obtain ⟨x1, x2, hx1, hx2, rfl⟩ := ha.val.split
  rw [Nat.zero_add] at hx2
  have hlen1 : (a.len + 1).toNat = n + r + 1 := by rw [ha.len]; omega
  have hlen2 : (a.len - b.len).toNat = r := by rw [ha.len, hb.len]; omega
  have hlen3 : b.len.toNat = n := by rw [hb.len]; omega
  have hmax : (max a.len b.len) = (n + r : ℕ) := by rw [ha.len, hb.len]; omega
  obtain ⟨k1, c1, z1, hrun1, hk0, hk1, hfill1, hz1⟩ :=
    addBoth_spec hx1 hb.val (show 0 + n ≤ (xalloc (n + r + 1)).size by simp only [xalloc]; omega)
  obtain ⟨k2, c2, z2, hrun2, hk0', hk1', hfill2, hz2⟩ :=
    addRest_spec hx2 hk0 hk1 (show n + r ≤ c1.size by
      rw [hfill1.size]
      simp only [xalloc]
      omega)
  have hfill := hfill1.append (by rwa [Nat.zero_add])
  have hsum : z1 + base ^ n * z2 + base ^ (n + r) * k2 = x1 + base ^ n * x2 + y := by
    rw [pow_add]
    linear_combination hz1 + base ^ n * hz2
  simp only [addMint, hlen1, hlen2, hlen3, hmax, hrun1, hrun2, bind_eq_bind,
    bind_some, Int.toNat_natCast]
  by_cases hcarry : k2 = 1
  · obtain ⟨w, hw, _⟩ := write_exists (show n + r < c2.size by
      rw [hfill.size]
      simp only [xalloc]
      omega) 1
    have hfill' := hfill.append (Fills.write (p := 0 + (n + r)) (by rwa [Nat.zero_add])
      zero_le_one (by rw [base_eq]; omega))
    rw [if_pos hcarry, hw]
    refine ⟨_, n + r + 1, rfl, ⟨by push_cast; ring, ?_⟩, .inr ⟨rfl, ?_⟩⟩
    · have := hfill'.spells
      rw [hcarry] at hsum
      rwa [hsum] at this
    · have := hfill.spells.nonneg
      rw [hcarry] at hsum
      linarith
  · have hzero : k2 = 0 := by omega
    rw [hzero, mul_zero, add_zero] at hsum
    rw [if_neg hcarry]
    have hspell := hfill.spells
    rw [hsum] at hspell
    by_cases h0 : a.len = 0
    · rw [if_pos h0]
      have hnr : n + r = 0 := by
        have := ha.len
        omega
      refine ⟨_, n + r, rfl, ⟨by simp only [hnr]; rfl, ?_⟩, .inl rfl⟩
      rw [hnr] at hspell ⊢
      rw [hspell.eq_zero]
      exact .nil 0
    · rw [if_neg h0]
      exact ⟨_, n + r, rfl, ⟨ha.len, hspell⟩, .inl rfl⟩

/-- A sum of canonical numbers is canonical. -/
theorem addMint_canonical {a b : Mint} {x y : ℤ} (ha : Canonical a x) (hb : Canonical b y)
    (hx : 0 ≤ x) (hy : 0 ≤ y) (hlen : b.len ≤ a.len) :
    ∃ c, addMint a b = some c ∧ Canonical c (x + y) := by
  obtain ⟨c, k, hrun, hmag, hk⟩ := addMint_spec (ha.mag hx) (hb.mag hy) (by omega)
  refine ⟨c, hrun, hmag.canonical ?_⟩
  intro hne
  obtain ⟨j, rfl⟩ := Nat.exists_eq_succ_of_ne_zero hne
  have hle : base ^ j ≤ x + y := by
    cases hk with
    | inl hk =>
      have hx0 : x ≠ 0 := by
        intro h0
        rw [← ha.len_eq_zero] at h0
        omega
      have hle := ha.le_abs hx0
      rw [abs_of_nonneg hx, show a.len.natAbs - 1 = j by omega] at hle
      omega
    | inr hk =>
      rw [show j = a.len.toNat by omega]
      exact hk.2
  have := hmag.val.top_ne_zero hle
  rwa [Nat.zero_add] at this

end Sol26.Mp
