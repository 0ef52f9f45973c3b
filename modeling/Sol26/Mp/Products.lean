import Sol26.Mp.Exact
import Sol26.Mp.Mult

/-!
# Products are exact
-/
namespace Sol26.Mp

open Function (update update_of_ne update_self)
open Option (bind_eq_bind bind_some getD_some)

variable {σ : Store} {sp a b c : ℕ} {x y z : ℤ}

/-- The product of two digits, and what a digit and a carry add to it. -/
theorem digit_mul {u v : ℤ} (hu : 0 ≤ u) (hu' : u < base) (hv : 0 ≤ v) (hv' : v < base) :
    0 ≤ u * v ∧ u * v ≤ 1073676289 := by
  rw [base_eq] at *
  have h : u * v ≤ 32767 * 32767 := mul_le_mul (by omega) (by omega) hv (by omega)
  exact ⟨mul_nonneg hu hv, by omega⟩

theorem mulRow_spec {a v : Buf} {n j : ℕ} {x h bc : ℤ} (add : Bool) (ha : a.Spells 0 n x)
    (hbc : 0 ≤ bc) (hbc' : bc < base) (hold : if add then v.Spells j n h else h = 0)
    (hsize : j + n ≤ v.size) :
    ∃ k v' z, mulRow add a bc n 0 j 0 v = some (k, v') ∧ 0 ≤ k ∧ k ≤ base - 1 ∧
      Fills v v' j n z ∧ z + base ^ n * k = h + x * bc := by
  -- the terms of the row: what is there, and the digits of `a` times `bc`
  have hweigh : h + x * bc = 0 + Radix.weigh base (fun i =>
      (if add then (v.read i).getD 0 else 0) + (a.read (i - j)).getD 0 * bc) j n := by
    rw [Radix.weigh_add, zero_add, Radix.weigh_mul bc fun i => (a.read (i - j)).getD 0,
      weigh_shifted ha]
    congr 1
    cases add with
    | true => simpa using hold.weigh.symm
    | false =>
      have h0 : h = 0 := by simpa using hold
      rw [h0]
      have := Radix.weigh_mul (β := base) (p := j) (n := n) 0 fun _ => 0
      simpa using this.symm
  have hstart : mulRow add a bc n 0 j = mulRow add a bc n (j - j) j := by rw [Nat.sub_self]
  rw [hweigh, hstart]
  apply ripple (fun m i => mulRow add a bc m (i - j) i) _ (fun _ _ _ => rfl) _ hsize le_rfl
    (by rw [base_eq]; omega)
  intro m i k c hi hin hk0 hk1 hread
  obtain ⟨u, hu, hu0, hulim⟩ := ha.digit (Nat.zero_le (i - j)) (by omega)
  obtain ⟨w, hw, hw0, hwlim⟩ : ∃ w, addend add v i = some w ∧ 0 ≤ w ∧
      w < base := by
    cases add with
    | true => exact Radix.Spells.digit hold hi hin
    | false => exact ⟨0, rfl, le_rfl, by rw [base_eq]; omega⟩
  have hprod := digit_mul hu0 hulim hbc hbc'
  have hlong : long (u * bc) = some (u * bc) := long_of_mem (by omega) (by omega)
  have hlong' : long (k + (u * bc + w)) = some (k + (u * bc + w)) :=
    long_of_mem (by omega) (by rw [base_eq] at *; omega)
  have hsucc : i + 1 - j = i - j + 1 := by omega
  refine ⟨low15 (k + (u * bc + w)), shift15 (k + (u * bc + w)), ?_, ?_, ?_, ?_, ?_, ?_⟩
  · simp only [low15]
    omega
  · simp only [low15, base_eq]
    omega
  · simp only [shift15]
    omega
  · rw [base_eq] at *
    simp only [shift15]
    omega
  · have hterm : (if add then (v.read i).getD 0 else 0) = w := by
      cases add with
      | true =>
        have hw' : v.read i = some w := hw
        simp only [if_true, hw', getD_some]
      | false => exact Option.some.inj hw
    simp only [hterm, hu, getD_some, low15, shift15, base_eq]
    omega
  · have hw' : addend add c i = some w := by rw [addend, hread, ← addend, hw]
    simp only [mulRow, hu, hw', hlong, hlong', hsucc, bind_eq_bind, bind_some]

/-- A row adds the multiple of `a` that its digit of `b` asks for, at its place. -/
theorem mulRowTop_spec {a b v : Buf} {n j : ℕ} {x d w : ℤ} (add : Bool) (ha : a.Spells 0 n x)
    (hb : b.read j = some d) (hd : 0 ≤ d) (hd' : d < base)
    (hold : if add then v.Spells 0 (j + n) w else j = 0 ∧ w = 0) (hsize : j + n + 1 ≤ v.size) :
    ∃ v', mulRowTop add a b n j v = some v' ∧ v'.size = v.size ∧
      v'.Spells 0 (j + n + 1) (w + base ^ j * (x * d)) := by
  -- the digits below the row, and those that the row is added to
  obtain ⟨l, h, hl, hh, hw⟩ : ∃ l h, v.Spells 0 j l ∧ (if add then v.Spells j n h else h = 0) ∧
      w = l + base ^ j * h := by
    cases add with
    | true =>
      obtain ⟨l, h, hl, hh, hw⟩ := Radix.Spells.split hold
      rw [Nat.zero_add] at hh
      exact ⟨l, h, hl, hh, hw⟩
    | false =>
      obtain ⟨rfl, rfl⟩ : j = 0 ∧ w = 0 := by simpa using hold
      exact ⟨0, 0, .nil 0, rfl, by ring⟩
  obtain ⟨k, v1, z, hrun, hk0, hk1, hfill, hz⟩ :=
    mulRow_spec add ha hd hd' hh (show j + n ≤ v.size by omega)
  obtain ⟨v2, hwr, hsize2, _⟩ := write_exists (show j + n < v1.size by rw [hfill.size]; omega) k
  have htop := hfill.append (Fills.write hwr hk0 (by omega))
  refine ⟨v2, ?_, ?_, ?_⟩
  · simp only [mulRowTop, hb, hrun, bind_eq_bind, bind_some, hwr]
  · rw [hsize2, hfill.size]
  · have hlow := htop.keeps hl (.inl (by omega))
    have hall := hlow.append (by rw [Nat.zero_add]; exact htop.spells)
    rw [← Nat.add_assoc] at hall
    rwa [show l + base ^ j * (z + base ^ n * k) = w + base ^ j * (x * d) by
      rw [hz, hw]; ring] at hall

theorem mulRows_spec {a b v : Buf} {alen n j : ℕ} {x y w : ℤ} (ha : a.Spells 0 alen x)
    (hb : b.Spells j n y) (hv : v.Spells 0 (j + alen) w) (hsize : j + alen + n ≤ v.size) :
    ∃ v', mulRows a b alen n j v = some v' ∧
      v'.Spells 0 (j + alen + n) (w + base ^ j * (x * y)) := by
  induction n generalizing j v w y with
  | zero =>
    rw [hb.eq_zero]
    exact ⟨v, rfl, by simpa using hv⟩
  | succ n ih =>
    cases hb with
    | @cons _ _ d y' hd hd0 hlt rest =>
      obtain ⟨v1, hrow, hsize1, hspell⟩ := mulRowTop_spec true ha hd hd0 hlt hv (by omega)
      rw [Nat.add_right_comm] at hspell
      obtain ⟨v', hrows, hspell'⟩ := ih rest hspell (by omega)
      refine ⟨v', ?_, ?_⟩
      · simp only [mulRows, hrow, bind_eq_bind, bind_some, hrows]
      · rw [show j + alen + (n + 1) = j + 1 + alen + n by omega]
        rwa [show w + base ^ j * (x * (d + base * y')) =
          w + base ^ j * (x * d) + base ^ (j + 1) * (x * y') by ring]

/-- `m_mult` of canonical numbers above zero. The digit at the top is written also when the
length does not count it. -/
theorem multMint_spec {a b : Mint} (ha : Canonical a x) (hb : Canonical b y) (hx : 0 < x)
    (hy : 0 < y) :
    ∃ c, multMint a b = some c ∧ Canonical c (x * y) ∧
      c.val.Spells 0 (a.len.natAbs + b.len.natAbs) (x * y) := by
  have hma := ha.mag hx.le
  have hmb := hb.mag hy.le
  have hxlow := ha.le_abs hx.ne'
  have hylow := hb.le_abs hy.ne'
  rw [abs_of_pos hx] at hxlow
  rw [abs_of_pos hy] at hylow
  have hapos : 0 < a.len := by
    have h0 := mt ha.len_eq_zero.1 hx.ne'
    have h1 := ha.len_nonneg.2 hx.le
    omega
  have hbpos : 0 < b.len := by
    have h0 := mt hb.len_eq_zero.1 hy.ne'
    have h1 := hb.len_nonneg.2 hy.le
    omega
  obtain ⟨m, hm⟩ := Nat.exists_eq_succ_of_ne_zero (show a.len.toNat ≠ 0 by omega)
  obtain ⟨n, hn⟩ := Nat.exists_eq_succ_of_ne_zero (show b.len.toNat ≠ 0 by omega)
  rw [hm] at hma
  rw [hn] at hmb
  rw [show a.len.natAbs - 1 = m by omega] at hxlow
  rw [show b.len.natAbs - 1 = n by omega] at hylow
  cases hmb.val with
  | @cons _ _ d y' hd hd0 hlt rest =>
  obtain ⟨c1, hrow, hsize, hspell⟩ := mulRowTop_spec false hma.val hd hd0 hlt (w := 0)
    (v := xalloc (m + 1 + (n + 1))) (by simp) (by simp only [xalloc]; omega)
  obtain ⟨c2, hrows, hspell'⟩ := mulRows_spec (j := 1) hma.val rest
    (by rwa [Nat.zero_add, Nat.add_comm] at hspell) (by rw [hsize]; simp only [xalloc]; omega)
  have hval : 0 + base ^ 0 * (x * d) + base ^ 1 * (x * y') = x * (d + base * y') := by ring
  rw [hval, show 1 + (m + 1) + n = m + n + 1 + 1 by omega] at hspell'
  have hlow : base ^ (m + n) ≤ x * (d + base * y') := by
    rw [pow_add]
    exact mul_le_mul hxlow hylow (by positivity) hx.le
  obtain ⟨z, t, hz, htop, ht0, _, _⟩ := hspell'.top
  rw [Nat.zero_add] at htop
  simp only [multMint, hm, hn, hrow, hrows, bind_eq_bind, bind_some,
    show m + 1 + (n + 1) - 1 = m + n + 1 by omega, Nat.succ_eq_add_one, Nat.add_sub_cancel, htop]
  have hlen : a.len.natAbs + b.len.natAbs = m + n + 1 + 1 := by omega
  by_cases h0 : t = 0
  · rw [if_pos h0]
    refine ⟨_, rfl, Mag.canonical (n := m + n + 1) ⟨by simp only; omega, ?_⟩ ?_, by rwa [hlen]⟩
    · exact hspell'.drop_zero (by rw [Nat.zero_add, htop, h0])
    · intro _
      have hne := (hspell'.drop_zero (by rw [Nat.zero_add, htop, h0])).top_ne_zero hlow
      rwa [Nat.zero_add] at hne
  · rw [if_neg h0]
    refine ⟨_, rfl, Mag.canonical (n := m + n + 1 + 1) ⟨by simp only; omega, hspell'⟩ ?_,
      by rwa [hlen]⟩
    intro _
    simp only [Nat.add_sub_cancel, htop]
    exact fun heq => h0 (Option.some.inj heq)

/-- What `mp_mult` leaves in `c`. -/
structure Product (m : Mint) (n : ℕ) (z : ℤ) : Prop where
  canonical : Canonical m z
  digits : z ≠ 0 → m.val.Spells 0 n |z|

theorem Product.neg {m : Mint} {n : ℕ} (h : Product m n z) : Product ⟨-m.len, m.val⟩ n (-z) := by
  constructor
  · exact h.canonical.neg
  · intro hz
    rw [abs_neg]
    exact h.digits fun h0 => hz (by rw [h0, neg_zero])

theorem xfree_of_len {σ : Store} (h : (σ c).len = 0) : xfree σ c = σ := by
  rw [xfree, if_neg (not_not.2 h)]

theorem multSign_spec {σ1 : Store} {r : Mint} {n : ℕ} (sign : ℤ) (hc : c < sp)
    (hr : Product r n z) (hframe : ∀ o < sp, o ≠ c → σ1 o = σ o) :
    Product (multSign sp c sign σ1 r c) n (if sign < 0 then -z else z) ∧
      ∀ o < sp, o ≠ c → multSign sp c sign σ1 r o = σ o := by
  have hfree : ∀ τ : Store, (if (τ c).len = 0 then xfree τ c else τ) = τ := by
    intro τ
    split
    · exact xfree_of_len ‹_›
    · rfl
  simp only [multSign, hfree]
  constructor
  · rw [xfree_of_ne _ (by omega), xfree_of_ne _ (by omega)]
    split
    · rw [negLen_self, update_self]
      exact hr.neg
    · rw [update_self]
      exact hr
  · intro o ho hoc
    rw [xfree_of_ne _ (by omega), xfree_of_ne _ (by omega)]
    split
    · rw [negLen_of_ne _ hoc, update_of_ne hoc, hframe o ho hoc]
    · rw [update_of_ne hoc, hframe o ho hoc]

theorem Canonical.len_neg {m : Mint} (h : Canonical m x) : m.len < 0 ↔ x < 0 := by
  rw [← not_le, h.len_nonneg, not_le]

/-- The sign that `mp_mult` takes off a copy. -/
theorem Canonical.unsigned {τ : Store} {o : ℕ} (h : Canonical (τ o) x) :
    Canonical ((if (if x < 0 then (-1 : ℤ) else 1) < 0 then negLen τ o else τ) o) |x| := by
  by_cases hx : x < 0
  · rw [if_pos hx, if_pos (by omega), negLen_self, abs_of_neg hx]
    exact h.neg
  · rw [if_neg hx, if_neg (by omega), abs_of_nonneg (by omega)]
    exact h

theorem ite_negLen_of_ne {τ : Store} {o o' : ℕ} (p : Prop) [Decidable p] (h : o' ≠ o) :
    (if p then negLen τ o else τ) o' = τ o' := by
  split
  · exact negLen_of_ne _ h
  · rfl

theorem mul_abs_sign (x y : ℤ) :
    (if (if x < 0 then (-1 : ℤ) else 1) * (if y < 0 then -1 else 1) < 0 then -(|x| * |y|)
      else |x| * |y|) = x * y := by
  by_cases hx : x < 0 <;> by_cases hy : y < 0 <;>
    simp [hx, hy, abs_of_neg, abs_of_nonneg, not_lt.1]

/-- `mp_mult`. -/
theorem mpMult_spec (ha : a < sp) (hb : b < sp) (hc : c < sp) (hx : Canonical (σ a) x)
    (hy : Canonical (σ b) y) :
    ∃ σ', mpMult sp σ a b c = some σ' ∧
      Product (σ' c) ((σ a).len.natAbs + (σ b).len.natAbs) (x * y) ∧
      ∀ o < sp, o ≠ c → σ' o = σ o := by
  simp only [mpMult, mcan_canonical hx, mcan_canonical hy, bind_eq_bind,
    bind_some, hx.len_eq_zero, hy.len_eq_zero]
  by_cases hzero : x = 0 ∨ y = 0
  · have hxy : x * y = 0 := mul_eq_zero.2 hzero
    rw [if_pos hzero, hxy]
    exact ⟨_, rfl, ⟨.zero (xfree_len σ c), fun h => absurd rfl h⟩, fun o _ ho => xfree_of_ne _ ho⟩
  · rw [if_neg hzero]
    have hx0 : 0 < |x| := abs_pos.2 fun h => hzero (.inl h)
    have hy0 : 0 < |y| := abs_pos.2 fun h => hzero (.inr h)
    obtain ⟨σ1, hcopies, hcx, hcy, hframe⟩ := copies_spec ha hb hx.digits hy.digits
    simp only [hcopies, bind_some, hframe a ha, hframe b hb, hx.len_neg, hy.len_neg]
    set σ2 := xfree (if (if y < 0 then (-1 : ℤ) else 1) < 0 then
      negLen (if (if x < 0 then (-1 : ℤ) else 1) < 0 then negLen σ1 sp else σ1) (sp + 1)
      else if (if x < 0 then (-1 : ℤ) else 1) < 0 then negLen σ1 sp else σ1) c with hσ2
    have hX : Canonical (σ2 sp) |x| := by
      rw [hσ2, xfree_of_ne _ (by omega), ite_negLen_of_ne _ (by omega)]
      exact (hcx.canonical hx).unsigned
    have hY : Canonical (σ2 (sp + 1)) |y| := by
      rw [hσ2, xfree_of_ne _ (by omega)]
      apply Canonical.unsigned
      rw [ite_negLen_of_ne _ (by omega)]
      exact hcy.canonical hy
    have hframe2 : ∀ o < sp, o ≠ c → σ2 o = σ o := by
      intro o ho hoc
      rw [hσ2, xfree_of_ne _ hoc, ite_negLen_of_ne _ (by omega), ite_negLen_of_ne _ (by omega),
        hframe o ho]
    have hlx := hX.natAbs_len_eq hx (abs_abs x)
    have hly := hY.natAbs_len_eq hy (abs_abs y)
    split
    · obtain ⟨r, hrun, hcan, hdig⟩ := multMint_spec hX hY hx0 hy0
      rw [hlx, hly] at hdig
      have hprod : Product r ((σ a).len.natAbs + (σ b).len.natAbs) (|x| * |y|) :=
        ⟨hcan, fun _ => by rwa [abs_of_pos (mul_pos hx0 hy0)]⟩
      have hsign := multSign_spec ((if x < 0 then -1 else 1) * (if y < 0 then -1 else 1)) hc
        hprod hframe2
      rw [mul_abs_sign] at hsign
      rw [hrun]
      exact ⟨_, rfl, hsign⟩
    · obtain ⟨r, hrun, hcan, hdig⟩ := multMint_spec hY hX hy0 hx0
      rw [hlx, hly, Nat.add_comm, mul_comm] at hdig
      rw [mul_comm] at hcan
      have hprod : Product r ((σ a).len.natAbs + (σ b).len.natAbs) (|x| * |y|) :=
        ⟨hcan, fun _ => by rwa [abs_of_pos (mul_pos hx0 hy0)]⟩
      have hsign := multSign_spec ((if x < 0 then -1 else 1) * (if y < 0 then -1 else 1)) hc
        hprod hframe2
      rw [mul_abs_sign] at hsign
      rw [hrun]
      exact ⟨_, rfl, hsign⟩

/-- Sums, differences and products are exact, also when the result is one of the operands, and
the comparison has the sign of the difference. No digit is written outside of its allocation:
the model would fail there. -/
theorem arithmetic_exact (depth : ℕ) (ha : a < sp) (hb : b < sp) (hc : c < sp)
    (hx : Canonical (σ a) x) (hy : Canonical (σ b) y) :
    Yields sp σ c (mpMadd (depth + 4) sp σ a b c) (x + y) ∧
    Yields sp σ c (mpMsub (depth + 4) sp σ a b c) (x - y) ∧
    Yields sp σ c (mpMult sp σ a b c) (x * y) ∧
    ∃ res σ', mpMcmp (depth + 4) sp σ a b = some (res, σ') ∧ res.sign = (x - y).sign := by
  obtain ⟨σ', hrun, hprod, hframe⟩ := mpMult_spec ha hb hc hx hy
  exact ⟨mpMadd_spec depth ha hb hc hx hy, mpMsub_spec depth ha hb hc hx hy,
    ⟨σ', hrun, hprod.canonical, hframe⟩, mpMcmp_spec depth ha hb hx hy⟩

/-- A number of two digits. -/
def twoDigits (lo hi : ℤ) : Mint :=
  ⟨2, ⟨2, fun i => if i = 0 then some lo else if i = 1 then some hi else none⟩⟩

theorem canonical_twoDigits {lo hi : ℤ} (hlo : 0 ≤ lo) (hlob : lo < base) (hhi : 0 < hi)
    (hhib : hi < base) : Canonical (twoDigits lo hi) (lo + base * hi) := by
  apply Mag.canonical (n := 2) ⟨rfl, .cons rfl hlo hlob (.single rfl hhi.le hhib)⟩
  exact fun _ h => hhi.ne' (Option.some.inj h)

/-- Two numbers whose sum carries and whose difference borrows, with the result in the object of
the first. -/
theorem arithmetic_exact_carry :
    Yields 2 (fun o => twoDigits (32762 * o + 5) (2 - o)) 0
        (mpMadd 4 2 (fun o => twoDigits (32762 * o + 5) (2 - o)) 0 1 0)
        (5 + base * 2 + (32767 + base * 1)) ∧
      Yields 2 (fun o => twoDigits (32762 * o + 5) (2 - o)) 0
        (mpMsub 4 2 (fun o => twoDigits (32762 * o + 5) (2 - o)) 0 1 0)
        (5 + base * 2 - (32767 + base * 1)) := by
  have h := arithmetic_exact (σ := fun o => twoDigits (32762 * o + 5) (2 - o)) (a := 0) (b := 1)
    (c := 0) 0 two_pos one_lt_two two_pos
    (canonical_twoDigits (by decide) (by decide) (by decide) (by decide))
    (canonical_twoDigits (by decide) (by decide) (by decide) (by decide))
  exact ⟨h.1, h.2.1⟩

end Sol26.Mp
