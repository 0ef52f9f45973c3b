import Sol26.Mp.Sums

/-!
# Addition, subtraction and comparison are exact

`mp_madd` and `mp_msub` work on copies of their arguments, so the result may be one of them.
The signs are resolved by calls with arguments that are not negative, and a difference below
zero by one more sum.
-/
namespace Sol26.Mp

open Function (update update_of_ne update_self)
open Option (bind_eq_bind bind_some)

variable {σ : Store} {sp a b c : ℕ} {x y z : ℤ}

/-- The operation ends with a canonical result in `c`, and leaves the other objects alone. -/
def Yields (sp : ℕ) (σ : Store) (c : ℕ) (r : Option Store) (z : ℤ) : Prop :=
  ∃ σ', r = some σ' ∧ Canonical (σ' c) z ∧ ∀ o < sp, o ≠ c → σ' o = σ o

/-! ### Copies -/

/-- `m'` has the length and the digits of `m`. -/
structure Copy (m m' : Mint) : Prop where
  len : m'.len = m.len
  val : ∀ x, m.val.Spells 0 m.len.natAbs x → m'.val.Spells 0 m.len.natAbs x

variable {m' : Mint} {σ1 : Store} {n : ℕ}

theorem Copy.canonical {m : Mint} (h : Copy m m') (hm : Canonical m x) : Canonical m' x := by
  have hval := h.val _ hm.digits
  constructor
  · rwa [h.len]
  · rw [h.len, hm.sign]
  · rw [h.len]
    intro hne
    have hx : x ≠ 0 := fun h0 => hne (hm.len_eq_zero.2 h0)
    obtain ⟨n, hn⟩ := Nat.exists_eq_succ_of_ne_zero (Int.natAbs_ne_zero.2 hne)
    have hle := hm.le_abs hx
    rw [hn] at hval hle ⊢
    have := hval.top_ne_zero hle
    rwa [Nat.zero_add] at this

theorem Copy.mag {m : Mint} (h : Copy m m') (hm : Mag m n x) : Mag m' n x := by
  constructor
  · rw [h.len, hm.len]
  · have hval := h.val x
    rw [hm.len, Int.natAbs_natCast] at hval
    exact hval hm.val

theorem move_spec (hab : a ≠ b) (ha : (σ a).val.Spells 0 (σ a).len.natAbs x) :
    ∃ σ', move σ a b = some σ' ∧ Copy (σ a) (σ' b) ∧ ∀ o, o ≠ b → σ' o = σ o := by
  have hsrc : setLen (xfree σ b) b (xfree σ b a).len a = σ a := by
    rw [setLen_of_ne _ _ hab, xfree_of_ne _ hab]
  have hout : ∀ o, o ≠ b → setLen (xfree σ b) b (xfree σ b a).len o = σ o := by
    intro o ho
    rw [setLen_of_ne _ _ ho, xfree_of_ne _ ho]
  have hlen : (setLen (xfree σ b) b (xfree σ b a).len b).len = (σ a).len := by
    rw [setLen_self, xfree_of_ne _ hab]
  simp only [move, hsrc]
  by_cases h0 : (σ a).len.natAbs = 0
  · rw [if_pos h0]
    refine ⟨_, rfl, ⟨hlen, ?_⟩, hout⟩
    rw [h0]
    intro x hx
    rw [hx.eq_zero]
    exact .nil 0
  · rw [if_neg h0]
    obtain ⟨v, hcopy, hfill⟩ := copyDigits_spec ha (xalloc (σ a).len.natAbs)
      (by simp only [xalloc]; omega)
    simp only [hcopy, bind_eq_bind, bind_some]
    refine ⟨_, rfl, ⟨?_, ?_⟩, ?_⟩
    · rw [setVal_self, hlen]
    · intro x' hx'
      rw [setVal_self, hx'.unique ha]
      exact hfill.spells
    · intro o ho
      rw [setVal_of_ne _ _ ho, hout o ho]

theorem copies_spec (ha : a < sp) (hb : b < sp)
    (hx : (σ a).val.Spells 0 (σ a).len.natAbs x) (hy : (σ b).val.Spells 0 (σ b).len.natAbs y) :
    ∃ σ', copies sp σ a b = some σ' ∧ Copy (σ a) (σ' sp) ∧ Copy (σ b) (σ' (sp + 1)) ∧
      ∀ o < sp, σ' o = σ o := by
  have hlow : ∀ o < sp, update (update σ sp ⟨0, freed⟩) (sp + 1) ⟨0, freed⟩ o = σ o := by
    intro o ho
    rw [update_of_ne (by omega), update_of_ne (by omega)]
  obtain ⟨σ1, hmove1, hcopy1, hframe1⟩ := move_spec (σ := update (update σ sp ⟨0, freed⟩)
    (sp + 1) ⟨0, freed⟩) (x := x) (show a ≠ sp by omega) (by rwa [hlow a ha])
  obtain ⟨σ2, hmove2, hcopy2, hframe2⟩ := move_spec (σ := σ1) (x := y)
    (show b ≠ sp + 1 by omega) (by rwa [hframe1 b (by omega), hlow b hb])
  rw [hlow a ha] at hcopy1
  rw [hframe1 b (by omega), hlow b hb] at hcopy2
  refine ⟨σ2, ?_, ?_, hcopy2, ?_⟩
  · simp only [copies, hmove1, bind_eq_bind, bind_some, hmove2]
  · rwa [hframe2 sp (by omega)]
  · intro o ho
    rw [hframe2 o (by omega), hframe1 o (by omega), hlow o ho]

/-! ### The end of an operation -/

theorem finish_of_lt (sign : ℤ) {o : ℕ} (ho : o < sp) (hoc : o ≠ c) :
    finish sp c sign σ o = σ o := by
  rw [finish, xfree_of_ne _ (by omega), xfree_of_ne _ (by omega), setLen_of_ne _ _ hoc]

theorem finish_self (sign : ℤ) (hc : c < sp) :
    finish sp c sign σ c = ⟨sign * (σ c).len, (σ c).val⟩ := by
  rw [finish, xfree_of_ne _ (by omega), xfree_of_ne _ (by omega), setLen_self]

/-- A result is finished with its sign. -/
theorem Yields.finish {sp' : ℕ} {σ' : Store} {r : Option Store} {sign w : ℤ}
    (h : Yields sp' σ' c r z) (hw : sign = 1 ∧ w = z ∨ sign = -1 ∧ w = -z) (hc : c < sp)
    (hsp : sp ≤ sp') (hσ : ∀ o < sp, o ≠ c → σ' o = σ o) :
    Yields sp σ c (r.map (finish sp c sign)) w := by
  obtain ⟨σ'', rfl, hcan, hframe⟩ := h
  refine ⟨_, rfl, ?_, ?_⟩
  · rw [finish_self sign hc]
    rcases hw with ⟨rfl, rfl⟩ | ⟨rfl, rfl⟩
    · rw [one_mul]
      exact hcan
    · rw [neg_one_mul]
      exact hcan.neg
  · intro o ho hoc
    rw [finish_of_lt sign ho hoc, hframe o (by omega) hoc, hσ o ho hoc]

/-! ### Numbers that are not negative -/

theorem Mag.spells {m : Mint} (h : Mag m n x) : m.val.Spells 0 m.len.natAbs x := by
  rw [h.len, Int.natAbs_natCast]
  exact h.val

/-- `mp_madd` of numbers without sign, also of a number with leading zeros. -/
theorem mpMadd_mag {m : ℕ} (depth : ℕ) (ha : a < sp) (hb : b < sp) (hc : c < sp)
    (hx : Mag (σ a) m x) (hy : Mag (σ b) n y) (hnm : n ≤ m) :
    ∃ σ' k, mpMadd (depth + 1) sp σ a b c = some σ' ∧ Mag (σ' c) k (x + y) ∧
      (k = m ∨ (k = m + 1 ∧ base ^ m ≤ x + y)) ∧ ∀ o < sp, o ≠ c → σ' o = σ o := by
  obtain ⟨σ1, hcopies, hcx, hcy, hframe⟩ := copies_spec ha hb hx.spells hy.spells
  have hx₁ : Mag (xfree σ1 c sp) m x := by
    rw [xfree_of_ne _ (by omega)]
    exact hcx.mag hx
  have hy1 : Mag (xfree σ1 c (sp + 1)) n y := by
    rw [xfree_of_ne _ (by omega)]
    exact hcy.mag hy
  obtain ⟨r, k, hadd, hmag, hk⟩ := addMint_spec hx₁ hy1 hnm
  have h1 : 0 ≤ (xfree σ1 c sp).len := by rw [hx₁.len]; omega
  have h2 : 0 ≤ (xfree σ1 c (sp + 1)).len := by rw [hy1.len]; omega
  have h3 : (xfree σ1 c (sp + 1)).len ≤ (xfree σ1 c sp).len := by
    rw [hx₁.len, hy1.len]
    omega
  simp only [mpMadd, hcopies, bind_eq_bind, bind_some, if_pos h1, if_pos h2,
    if_pos h3, mAdd, hadd, Option.map_some]
  refine ⟨_, k, rfl, ?_, hk, ?_⟩
  · rw [finish_self 1 hc, update_self, one_mul]
    exact hmag
  · intro o ho hoc
    rw [finish_of_lt 1 ho hoc, update_of_ne hoc, xfree_of_ne _ hoc, hframe o ho]

/-- The end of `m_sub`, with the digits of the difference, or of its negative, in `c`. -/
theorem subLen_spec (borrow : ℤ) (hval : (σ c).val.Spells 0 n x) (hlen : (σ c).len = 0 ∨ x ≠ 0) :
    ∃ σ', subLen σ n borrow c = some σ' ∧
      Canonical (σ' c) (if borrow = 0 then x else -x) ∧ ∀ o, o ≠ c → σ' o = σ o := by
  obtain ⟨j, hj, hsig, hspell, htop⟩ := significant_spec hval
  simp only [subLen, highest_eq hval, hsig, bind_eq_bind, bind_some]
  by_cases hj0 : j = 0
  · subst hj0
    have hx := hspell.eq_zero
    subst hx
    rw [if_pos rfl]
    refine ⟨_, rfl, ?_, fun o ho => setVal_of_ne _ _ ho⟩
    rw [neg_zero, ite_self]
    apply Canonical.zero
    rw [setVal_self]
    exact hlen.resolve_right fun h => h rfl
  · rw [if_neg hj0]
    have hcan : Canonical ⟨(j : ℤ), (σ c).val⟩ x :=
      Mag.canonical ⟨rfl, hspell⟩ htop
    by_cases hb : borrow = 0
    · rw [if_pos hb, if_pos hb]
      refine ⟨_, rfl, ?_, fun o ho => setLen_of_ne _ _ ho⟩
      rw [setLen_self]
      exact hcan
    · rw [if_neg hb, if_neg hb]
      refine ⟨_, rfl, ?_, fun o ho => setLen_of_ne _ _ ho⟩
      rw [setLen_self]
      exact hcan.neg

theorem mag_mone : Mag mone 1 1 := by
  constructor
  · rfl
  · exact Radix.Spells.single rfl zero_le_one (by rw [base_eq]; omega)

/-- `m_sub`. -/
theorem mSub_spec {m : ℕ} (depth : ℕ) (hc : c < sp) (hx : Mag (σ a) m x) (hy : Mag (σ b) n y)
    (hnm : n ≤ m) (hle : y ≤ x ∨ n = m) (hlen : (σ c).len = 0) :
    Yields sp σ c (mSub (mpMadd (depth + 1) (sp + 1)) sp σ a b c) (x - y) := by
  obtain ⟨r, rfl⟩ := Nat.exists_eq_add_of_le hnm
  obtain ⟨x1, x2, hx1, hx2, rfl⟩ := hx.val.split
  rw [Nat.zero_add] at hx2
  have hlen1 : (σ a).len.toNat = n + r := by rw [hx.len]; omega
  have hlen2 : ((σ a).len - (σ b).len).toNat = r := by rw [hx.len, hy.len]; omega
  have hlen3 : (σ b).len.toNat = n := by rw [hy.len]; omega
  obtain ⟨k1, c1, z1, hrun1, hk0, hk1, hfill1, hz1⟩ :=
    subBoth_spec hx1 hy.val (show 0 + n ≤ (xalloc (n + r)).size by simp only [xalloc]; omega)
  obtain ⟨k2, c2, z2, hrun2, hk0', hk1', hfill2, hz2⟩ :=
    subRest_spec hx2 hk0 hk1 (show n + r ≤ c1.size by
      rw [hfill1.size]
      simp only [xalloc]
      omega)
  have hspell := (hfill1.append (by rwa [Nat.zero_add])).spells
  have hdiff : z1 + base ^ n * z2 + base ^ (n + r) * k2 = x1 + base ^ n * x2 - y := by
    rw [pow_add]
    linear_combination hz1 + base ^ n * hz2
  have hpos : 0 < base ^ (n + r) := by positivity
  simp only [mSub, hlen1, hlen2, hlen3, hrun1, hrun2, bind_eq_bind, bind_some]
  by_cases hborrow : k2 < 0
  · have hk2 : k2 = -1 := by omega
    subst hk2
    have hneg : z1 + base ^ n * z2 < base ^ (n + r) := hspell.lt
    have heq : n = n + r := by
      cases hle with
      | inl hle => linarith
      | inr hle => exact hle
    rw [if_pos hborrow]
    obtain ⟨c3, hcomp, hfill3⟩ := complement_spec hspell
    simp only [hcomp, bind_some]
    have hmagc : Mag (update (update σ sp mone) c ⟨((n + r : ℕ) : ℤ), c3⟩ c) (n + r)
        (base ^ (n + r) - 1 - (z1 + base ^ n * z2)) := by
      rw [update_self]
      exact ⟨rfl, hfill3.spells⟩
    have hmone : Mag (update (update σ sp mone) c ⟨((n + r : ℕ) : ℤ), c3⟩ sp) 1 1 := by
      rw [update_of_ne (by omega), update_self]
      exact mag_mone
    have hn : 1 ≤ n + r := by
      by_contra h0
      have h0' : n + r = 0 := by omega
      rw [h0'] at hspell hdiff
      have hyz := hy.val
      rw [show n = 0 by omega] at hyz hx1
      rw [show r = 0 by omega] at hx2
      rw [hspell.eq_zero, hyz.eq_zero, hx1.eq_zero, hx2.eq_zero] at hdiff
      simp at hdiff
    obtain ⟨σ', k, hmadd, hmag', hk, hframe⟩ := mpMadd_mag depth (show c < sp + 1 by omega)
      (show sp < sp + 1 by omega) (show c < sp + 1 by omega) hmagc hmone hn
    have hval : base ^ (n + r) - 1 - (z1 + base ^ n * z2) + 1 =
        y - (x1 + base ^ n * x2) := by linear_combination -hdiff
    rw [hval] at hmag' hk
    have hylt : y < base ^ n := hy.val.lt
    have hxnn : 0 ≤ x1 + base ^ n * x2 := hx.val.nonneg
    have hkm : k = n + r := by
      apply hk.resolve_right
      rintro ⟨_, hge⟩
      rw [← heq] at hge
      linarith
    rw [hkm] at hmag'
    obtain ⟨σ'', hsub, hcan, hframe'⟩ := subLen_spec (-1) hmag'.val
      (.inr (by linarith))
    rw [hmadd, bind_some, hsub]
    refine ⟨σ'', rfl, ?_, ?_⟩
    · rw [if_neg (by omega), neg_sub] at hcan
      exact hcan
    · intro o ho hoc
      rw [hframe' o hoc, hframe o (by omega) hoc, update_of_ne hoc, update_of_ne (by omega)]
  · have hk2 : k2 = 0 := by omega
    subst hk2
    rw [if_neg hborrow]
    rw [mul_zero, add_zero] at hdiff
    rw [hdiff] at hspell
    obtain ⟨σ', hsub, hcan, hframe⟩ := subLen_spec (σ := setVal σ c c2) (c := c) 0
      (by rw [setVal_self]; exact hspell) (.inl (by rw [setVal_self]; exact hlen))
    rw [hsub]
    refine ⟨σ', rfl, ?_, ?_⟩
    · rw [if_pos rfl] at hcan
      exact hcan
    · intro o ho hoc
      rw [hframe o hoc, setVal_of_ne _ _ hoc]

/-! ### All signs -/

/-- The state in which `mp_madd` and `mp_msub` look at the signs. -/
structure Started (sp : ℕ) (σ σ1 : Store) (c : ℕ) (x y : ℤ) : Prop where
  fst : Canonical (σ1 sp) x
  snd : Canonical (σ1 (sp + 1)) y
  dst : (σ1 c).len = 0
  frame : ∀ o < sp, o ≠ c → σ1 o = σ o

theorem copies_started (ha : a < sp) (hb : b < sp) (hc : c < sp) (hx : Canonical (σ a) x)
    (hy : Canonical (σ b) y) :
    ∃ σ1, copies sp σ a b = some σ1 ∧ Started sp σ (xfree σ1 c) c x y := by
  obtain ⟨σ1, hcopies, hcx, hcy, hframe⟩ := copies_spec ha hb hx.digits hy.digits
  refine ⟨σ1, hcopies, ?_, ?_, xfree_len σ1 c, ?_⟩
  · rw [xfree_of_ne _ (by omega)]
    exact hcx.canonical hx
  · rw [xfree_of_ne _ (by omega)]
    exact hcy.canonical hy
  · intro o ho hoc
    rw [xfree_of_ne _ hoc, hframe o ho]

theorem Canonical.len_nonneg {m : Mint} (h : Canonical m x) : 0 ≤ m.len ↔ 0 ≤ x := by
  rw [← Int.sign_nonneg_iff, h.sign, Int.sign_nonneg_iff]

theorem Canonical.len_nonpos {m : Mint} (h : Canonical m x) : m.len ≤ 0 ↔ x ≤ 0 := by
  rw [← Int.sign_nonpos_iff, h.sign, Int.sign_nonpos_iff]

theorem mAdd_yields (ha : Canonical (σ1 a) x) (hb : Canonical (σ1 b) y)
    (hx : 0 ≤ x) (hy : 0 ≤ y) (hlen : (σ1 b).len ≤ (σ1 a).len) :
    Yields sp σ1 c (mAdd σ1 a b c) (x + y) := by
  obtain ⟨r, hadd, hcan⟩ := addMint_canonical ha hb hx hy hlen
  refine ⟨update σ1 c r, ?_, ?_, fun o _ ho => update_of_ne ho _ _⟩
  · simp only [mAdd, hadd, bind_eq_bind, bind_some]
  · rwa [update_self]

/-- `mp_madd` of numbers that are not negative. -/
theorem mpMadd_nonneg (depth : ℕ) (ha : a < sp) (hb : b < sp) (hc : c < sp)
    (hx : Canonical (σ a) x) (hy : Canonical (σ b) y) (hx0 : 0 ≤ x) (hy0 : 0 ≤ y) :
    Yields sp σ c (mpMadd (depth + 1) sp σ a b c) (x + y) := by
  obtain ⟨σ1, hcopies, hst⟩ := copies_started ha hb hc hx hy
  rw [mpMadd, hcopies]
  simp only [bind_eq_bind, bind_some, hst.fst.len_nonneg, hst.snd.len_nonneg, hx0, hy0, if_true]
  split
  · rename_i hlen
    exact (mAdd_yields hst.fst hst.snd hx0 hy0 hlen).finish (.inl ⟨rfl, rfl⟩) hc le_rfl hst.frame
  · rename_i hlen
    exact (mAdd_yields hst.snd hst.fst hy0 hx0 (by omega)).finish (.inl ⟨rfl, add_comm x y⟩) hc
      le_rfl hst.frame

/-- The longer number is the larger one. -/
theorem Canonical.natAbs_len_le {m : Mint} (hx : Canonical m x) (hy : Canonical m' y)
    (hle : |x| ≤ |y|) : m.len.natAbs ≤ m'.len.natAbs := by
  by_cases h0 : x = 0
  · rw [hx.len_eq_zero.2 h0]
    exact Nat.zero_le _
  · have hlt : base ^ (m.len.natAbs - 1) < base ^ m'.len.natAbs :=
      (hx.le_abs h0).trans_lt (hle.trans_lt hy.digits.lt)
    have := (pow_lt_pow_iff_right₀ (show 1 < base by rw [base_eq]; omega)).1 hlt
    omega

theorem Canonical.natAbs_len_eq {m : Mint} (hx : Canonical m x) (hy : Canonical m' y)
    (heq : |x| = |y|) : m.len.natAbs = m'.len.natAbs :=
  le_antisymm (hx.natAbs_len_le hy heq.le) (hy.natAbs_len_le hx heq.ge)

theorem Canonical.lt_of_len {m : Mint} (hx : Canonical m x) (hy : Canonical m' y)
    (hlen : m.len < m'.len) : x < y := by
  by_contra hle
  have hsx := hx.len_nonneg
  have hsy := hy.len_nonneg
  by_cases hy0 : 0 ≤ y
  · have := hy.natAbs_len_le hx (by rw [abs_of_nonneg hy0, abs_of_nonneg (by omega)]; omega)
    omega
  · by_cases hx0 : 0 ≤ x
    · omega
    · have := hx.natAbs_len_le hy
        (by rw [abs_of_neg (by omega), abs_of_neg (by omega)]; omega)
      omega

theorem mSub_started (depth : ℕ) (hc : c < sp) (hst : Started sp σ σ1 c x y)
    (hx0 : 0 ≤ x) (hy0 : 0 ≤ y) (hlen : (σ1 (sp + 1)).len ≤ (σ1 sp).len) :
    Yields (sp + 2) σ1 c (mSub (mpMadd (depth + 1) (sp + 3)) (sp + 2) σ1 sp (sp + 1) c)
      (x - y) := by
  have hlx := hst.fst.len_nonneg.2 hx0
  have hly := hst.snd.len_nonneg.2 hy0
  apply mSub_spec depth (by omega) (hst.fst.mag hx0) (hst.snd.mag hy0) (by omega) _ hst.dst
  by_cases heq : (σ1 (sp + 1)).len = (σ1 sp).len
  · exact .inr (by rw [heq])
  · exact .inl (hst.snd.lt_of_len hst.fst (by omega)).le

/-- `mp_msub` of numbers that are not negative, the first one not the smaller one. -/
theorem mpMsub_ge (depth : ℕ) (ha : a < sp) (hb : b < sp) (hc : c < sp)
    (hx : Canonical (σ a) x) (hy : Canonical (σ b) y) (hy0 : 0 ≤ y) (hle : y ≤ x) :
    Yields sp σ c (mpMsub (depth + 2) sp σ a b c) (x - y) := by
  have hx0 := hy0.trans hle
  obtain ⟨σ1, hcopies, hst⟩ := copies_started ha hb hc hx hy
  have hlen : (xfree σ1 c (sp + 1)).len ≤ (xfree σ1 c sp).len := by
    by_contra hlt
    have := hst.fst.lt_of_len hst.snd (by omega)
    omega
  rw [mpMsub, hcopies]
  simp only [bind_eq_bind, bind_some, hst.fst.len_nonneg, hst.snd.len_nonneg,
    hx0, hy0, hlen, if_true]
  exact (mSub_started depth hc hst hx0 hy0 hlen).finish (.inl ⟨rfl, rfl⟩) hc (by omega) hst.frame

/-- `mp_msub` of numbers that are not negative. -/
theorem mpMsub_nonneg (depth : ℕ) (ha : a < sp) (hb : b < sp) (hc : c < sp)
    (hx : Canonical (σ a) x) (hy : Canonical (σ b) y) (hx0 : 0 ≤ x) (hy0 : 0 ≤ y) :
    Yields sp σ c (mpMsub (depth + 3) sp σ a b c) (x - y) := by
  by_cases hle : y ≤ x
  · exact mpMsub_ge (depth + 1) ha hb hc hx hy hy0 hle
  obtain ⟨σ1, hcopies, hst⟩ := copies_started ha hb hc hx hy
  rw [mpMsub, hcopies]
  simp only [bind_eq_bind, bind_some, hst.fst.len_nonneg, hst.snd.len_nonneg, hx0, hy0, if_true]
  split
  · rename_i hlen
    exact (mSub_started (depth + 1) hc hst hx0 hy0 hlen).finish (.inl ⟨rfl, rfl⟩) hc (by omega)
      hst.frame
  · exact (mpMsub_ge depth (by omega) (by omega) (show c < sp + 2 by omega) hst.snd hst.fst hx0
      (by omega)).finish (.inr ⟨rfl, (neg_sub y x).symm⟩) hc (by omega) hst.frame

theorem Started.negated (h : Started sp σ σ1 c x y) (hc : c < sp) :
    Started sp σ (negLen σ1 sp) c (-x) y ∧ Started sp σ (negLen σ1 (sp + 1)) c x (-y) := by
  have hne : ∀ n o, o ≠ n → negLen σ1 n o = σ1 o := fun n o ho => negLen_of_ne _ ho
  refine ⟨⟨?_, ?_, ?_, fun o ho hoc => ?_⟩, ?_, ?_, ?_, fun o ho hoc => ?_⟩
  · rw [negLen_self]
    exact h.fst.neg
  · rw [hne _ _ (by omega)]
    exact h.snd
  · rw [hne _ _ (by omega)]
    exact h.dst
  · rw [hne _ _ (by omega), h.frame o ho hoc]
  · rw [hne _ _ (by omega)]
    exact h.fst
  · rw [negLen_self]
    exact h.snd.neg
  · rw [hne _ _ (by omega)]
    exact h.dst
  · rw [hne _ _ (by omega), h.frame o ho hoc]

/-- `mp_madd`. -/
theorem mpMadd_spec (depth : ℕ) (ha : a < sp) (hb : b < sp) (hc : c < sp)
    (hx : Canonical (σ a) x) (hy : Canonical (σ b) y) :
    Yields sp σ c (mpMadd (depth + 4) sp σ a b c) (x + y) := by
  by_cases hpos : 0 ≤ x ∧ 0 ≤ y
  · exact mpMadd_nonneg (depth + 3) ha hb hc hx hy hpos.1 hpos.2
  obtain ⟨σ1, hcopies, hst⟩ := copies_started ha hb hc hx hy
  have hc2 : c < sp + 2 := by omega
  have hneg := hst.negated hc
  have hboth := (hneg.1.negated hc).2
  rw [mpMadd, hcopies]
  simp only [bind_eq_bind, bind_some, hst.fst.len_nonneg, hst.snd.len_nonneg, hst.snd.len_nonpos]
  by_cases hx0 : 0 ≤ x
  · rw [if_pos hx0, if_neg (by omega)]
    exact (mpMsub_nonneg depth (by omega) (by omega) hc2 hneg.2.fst hneg.2.snd hx0
      (by omega)).finish (.inl ⟨rfl, by omega⟩) hc (by omega) hneg.2.frame
  rw [if_neg hx0]
  by_cases hy0 : y ≤ 0
  · rw [if_pos hy0]
    exact (mpMadd_nonneg (depth + 2) (by omega) (by omega) hc2 hboth.fst hboth.snd (by omega)
      (by omega)).finish (.inr ⟨rfl, by omega⟩) hc (by omega) hboth.frame
  · rw [if_neg hy0]
    exact (mpMsub_nonneg depth (by omega) (by omega) hc2 hneg.1.snd hneg.1.fst (by omega)
      (by omega)).finish (.inl ⟨rfl, by omega⟩) hc (by omega) hneg.1.frame

/-- `mp_msub`. -/
theorem mpMsub_spec (depth : ℕ) (ha : a < sp) (hb : b < sp) (hc : c < sp)
    (hx : Canonical (σ a) x) (hy : Canonical (σ b) y) :
    Yields sp σ c (mpMsub (depth + 4) sp σ a b c) (x - y) := by
  by_cases hpos : 0 ≤ x ∧ 0 ≤ y
  · exact mpMsub_nonneg (depth + 1) ha hb hc hx hy hpos.1 hpos.2
  obtain ⟨σ1, hcopies, hst⟩ := copies_started ha hb hc hx hy
  have hc2 : c < sp + 2 := by omega
  have hneg := hst.negated hc
  have hboth := (hneg.1.negated hc).2
  rw [mpMsub, hcopies]
  simp only [bind_eq_bind, bind_some, hst.fst.len_nonneg, hst.snd.len_nonneg, hst.snd.len_nonpos]
  by_cases hx0 : 0 ≤ x
  · rw [if_pos hx0, if_neg (by omega)]
    exact (mpMadd_nonneg (depth + 2) (by omega) (by omega) hc2 hneg.2.fst hneg.2.snd hx0
      (by omega)).finish (.inl ⟨rfl, by omega⟩) hc (by omega) hneg.2.frame
  rw [if_neg hx0]
  by_cases hy0 : y ≤ 0
  · rw [if_pos hy0]
    exact (mpMsub_nonneg depth (by omega) (by omega) hc2 hboth.snd hboth.fst (by omega)
      (by omega)).finish (.inl ⟨rfl, by omega⟩) hc (by omega) hboth.frame
  · rw [if_neg hy0]
    exact (mpMadd_nonneg (depth + 2) (by omega) (by omega) hc2 hneg.1.fst hneg.1.snd (by omega)
      (by omega)).finish (.inr ⟨rfl, by omega⟩) hc (by omega) hneg.1.frame

/-! ### Comparison -/

/-- A canonical number has no leading zeros. -/
theorem mcan_canonical (ha : Canonical (σ a) x) : mcan σ a = some σ := by
  by_cases h0 : (σ a).len = 0
  · rw [mcan, if_pos h0]
  · obtain ⟨n, hn⟩ := Nat.exists_eq_succ_of_ne_zero (Int.natAbs_ne_zero.2 h0)
    have hd := ha.digits
    have ht := ha.top h0
    rw [hn] at hd ht
    obtain ⟨_, d, _, hcell, _⟩ := hd.top
    rw [Nat.zero_add] at hcell
    have hne : d ≠ 0 := by
      intro heq
      exact ht (by rw [Nat.succ_sub_one, hcell, heq])
    simp only [mcan, if_neg h0, hn, significant, hcell, if_neg hne, bind_eq_bind,
      bind_some, if_true]

/-- `mp_mcmp`. -/
theorem mpMcmp_spec (depth : ℕ) (ha : a < sp) (hb : b < sp) (hx : Canonical (σ a) x)
    (hy : Canonical (σ b) y) :
    ∃ res σ', mpMcmp (depth + 4) sp σ a b = some (res, σ') ∧ res.sign = (x - y).sign := by
  simp only [mpMcmp, mcan_canonical hx, mcan_canonical hy, bind_eq_bind, bind_some]
  by_cases hlen : (σ a).len = (σ b).len
  · have hne : ∀ o < sp, update σ sp ⟨0, freed⟩ o = σ o :=
      fun o ho => update_of_ne ho.ne _ _
    have hx' : Canonical (update σ sp ⟨0, freed⟩ a) x := by rwa [hne a ha]
    have hy' : Canonical (update σ sp ⟨0, freed⟩ b) y := by rwa [hne b hb]
    obtain ⟨σ', hsub, hcan, _⟩ := mpMsub_spec depth (show a < sp + 1 by omega)
      (show b < sp + 1 by omega) (show sp < sp + 1 by omega) hx' hy'
    simp only [hlen, ne_eq, not_true_eq_false, if_false, hsub, bind_some]
    exact ⟨_, _, rfl, hcan.sign⟩
  · simp only [ne_eq, hlen, not_false_eq_true, if_true]
    refine ⟨_, _, rfl, ?_⟩
    cases lt_or_gt_of_ne hlen with
    | inl hlt =>
      have := hx.lt_of_len hy hlt
      rw [Int.sign_eq_neg_one_of_neg (by omega), Int.sign_eq_neg_one_of_neg (by omega)]
    | inr hgt =>
      have := hy.lt_of_len hx hgt
      rw [Int.sign_eq_one_of_pos (by omega), Int.sign_eq_one_of_pos (by omega)]

end Sol26.Mp
