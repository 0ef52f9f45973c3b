import Mathlib.Tactic.Linarith
import Mathlib.Tactic.Ring

/-!
# Numbers spelt by the cells of an array

`Spells β cell p n x`: from position `p` on, `n` cells hold digits to the base `β`, the lowest
first, and these digits stand for `x`. The second half is the arithmetic of one digit of a
long division: an estimate from the leading digits against the true quotient.
-/
namespace Sol26.Radix

inductive Spells (β : ℤ) (cell : ℕ → Option ℤ) : ℕ → ℕ → ℤ → Prop
  | nil (p : ℕ) : Spells β cell p 0 0
  | cons {p n : ℕ} {d x : ℤ} (hcell : cell p = some d) (hd : 0 ≤ d) (hlt : d < β)
      (rest : Spells β cell (p + 1) n x) : Spells β cell p (n + 1) (d + β * x)

variable {β : ℤ} {cell cell' : ℕ → Option ℤ} {p n m : ℕ} {x y : ℤ}

namespace Spells

theorem pos_base (h : Spells β cell p (n + 1) x) : 0 < β := by
  cases h with
  | cons hcell hd hlt rest => omega

theorem eq_zero (h : Spells β cell p 0 x) : x = 0 := by
  cases h
  rfl

theorem nonneg (h : Spells β cell p n x) : 0 ≤ x := by
  induction h with
  | nil p => exact le_rfl
  | cons hcell hd hlt rest ih =>
    have := mul_nonneg (hd.trans hlt.le) ih
    omega

theorem lt (h : Spells β cell p n x) : x < β ^ n := by
  induction h with
  | nil p => simp
  | @cons p n d x hcell hd hlt rest ih =>
    have hmul : β * (x + 1) ≤ β * β ^ n := mul_le_mul_of_nonneg_left ih (hd.trans hlt.le)
    rw [pow_succ']
    linarith

theorem congr (h : Spells β cell p n x) (hc : ∀ i, p ≤ i → i < p + n → cell' i = cell i) :
    Spells β cell' p n x := by
  induction h with
  | nil p => exact .nil p
  | @cons p n d x hcell hd hlt rest ih =>
    apply Spells.cons _ hd hlt
    · exact ih fun i h1 h2 => hc i (by omega) (by omega)
    · rw [hc p le_rfl (by omega), hcell]

theorem append (h : Spells β cell p m x) (h' : Spells β cell (p + m) n y) :
    Spells β cell p (m + n) (x + β ^ m * y) := by
  induction h with
  | nil p => simpa using h'
  | @cons p m d x hcell hd hlt rest ih =>
    have hrest := ih (by rwa [Nat.add_assoc, Nat.add_comm 1 m])
    have heq : d + β * x + β ^ (m + 1) * y = d + β * (x + β ^ m * y) := by ring
    rw [heq, Nat.add_right_comm]
    exact .cons hcell hd hlt hrest

theorem split (h : Spells β cell p (m + n) x) :
    ∃ y z, Spells β cell p m y ∧ Spells β cell (p + m) n z ∧ x = y + β ^ m * z := by
  induction m generalizing p x with
  | zero =>
    rw [Nat.zero_add] at h
    exact ⟨0, x, .nil p, h, by simp⟩
  | succ m ih =>
    rw [Nat.add_right_comm] at h
    cases h with
    | cons hcell hd hlt rest =>
      obtain ⟨y, z, hy, hz, rfl⟩ := ih rest
      rw [Nat.add_assoc, Nat.add_comm 1 m] at hz
      exact ⟨_, z, .cons hcell hd hlt hy, hz, by ring⟩

theorem single {d : ℤ} (hcell : cell p = some d) (hd : 0 ≤ d) (hlt : d < β) :
    Spells β cell p 1 d := by
  have := Spells.cons hcell hd hlt (.nil (p + 1))
  simpa using this

theorem of_single (h : Spells β cell p 1 x) : cell p = some x ∧ 0 ≤ x ∧ x < β := by
  cases h with
  | cons hcell hd hlt rest =>
    cases rest
    simpa using ⟨hcell, hd, hlt⟩

/-- The digit at the top. -/
theorem top (h : Spells β cell p (n + 1) x) :
    ∃ y d, Spells β cell p n y ∧ cell (p + n) = some d ∧ 0 ≤ d ∧ d < β ∧ x = y + β ^ n * d := by
  obtain ⟨y, d, hy, hd, rfl⟩ := split h
  exact ⟨y, d, hy, hd.of_single.1, hd.of_single.2.1, hd.of_single.2.2, rfl⟩

theorem unique (h : Spells β cell p n x) (h' : Spells β cell p n y) : x = y := by
  induction h generalizing y with
  | nil p =>
    cases h'
    rfl
  | cons hcell hd hlt rest ih =>
    cases h' with
    | cons hcell' hd' hlt' rest' =>
      rw [hcell] at hcell'
      cases hcell'
      rw [ih rest']

/-- Leading zeros do not count. -/
theorem drop_zero (h : Spells β cell p (n + 1) x) (hz : cell (p + n) = some 0) :
    Spells β cell p n x := by
  obtain ⟨y, d, hy, hd, _, _, rfl⟩ := h.top
  rw [hz] at hd
  cases hd
  simpa using hy

/-- A number whose top digit is not zero is at least the weight of that digit. -/
theorem le_of_top (h : Spells β cell p (n + 1) x) (hz : cell (p + n) ≠ some 0) : β ^ n ≤ x := by
  have hβ := h.pos_base
  obtain ⟨y, d, hy, hd, hd0, _, rfl⟩ := h.top
  have hpos : 1 ≤ d := by
    have : d ≠ 0 := fun heq => hz (heq ▸ hd)
    omega
  have := mul_le_mul_of_nonneg_left hpos (pow_nonneg hβ.le n)
  have := hy.nonneg
  linarith

theorem of_lt (h : Spells β cell p (n + 1) x) (hx : x < β ^ n) : Spells β cell p n x := by
  apply h.drop_zero
  by_contra hz
  exact absurd (h.le_of_top hz) (not_le.2 hx)

theorem top_ne_zero (h : Spells β cell p (n + 1) x) (hx : β ^ n ≤ x) : cell (p + n) ≠ some 0 := by
  intro hz
  exact absurd (h.drop_zero hz).lt (not_lt.2 hx)

end Spells

/-- The sum of the terms from position `p` on, each with the weight of its position. -/
def weigh (β : ℤ) (t : ℕ → ℤ) : ℕ → ℕ → ℤ
  | _, 0 => 0
  | p, n + 1 => t p + β * weigh β t (p + 1) n

theorem weigh_add (t u : ℕ → ℤ) : weigh β (fun i => t i + u i) p n =
    weigh β t p n + weigh β u p n := by
  induction n generalizing p with
  | zero => rfl
  | succ n ih =>
    simp only [weigh, ih]
    ring

theorem weigh_sub (t u : ℕ → ℤ) : weigh β (fun i => t i - u i) p n =
    weigh β t p n - weigh β u p n := by
  induction n generalizing p with
  | zero => rfl
  | succ n ih =>
    simp only [weigh, ih]
    ring

theorem weigh_mul (c : ℤ) (t : ℕ → ℤ) : weigh β (fun i => t i * c) p n = weigh β t p n * c := by
  induction n generalizing p with
  | zero => simp [weigh]
  | succ n ih =>
    simp only [weigh, ih]
    ring

theorem weigh_shift (t : ℕ → ℤ) (j : ℕ) : weigh β (fun i => t (i - j)) (p + j) n =
    weigh β t p n := by
  induction n generalizing p with
  | zero => rfl
  | succ n ih =>
    simp only [weigh, Nat.add_sub_cancel]
    rw [Nat.add_right_comm, ih]

theorem Spells.weigh (h : Spells β cell p n x) : weigh β (fun i => (cell i).getD 0) p n = x := by
  induction h with
  | nil p => rfl
  | cons hcell hd hlt rest ih => simp only [Radix.weigh, hcell, Option.getD_some, ih]

/-- A single digit of a spelt number. -/
theorem Spells.digit (h : Spells β cell p n x) {i : ℕ} (hp : p ≤ i) (hi : i < p + n) :
    ∃ d, cell i = some d ∧ 0 ≤ d ∧ d < β := by
  induction h with
  | nil p => omega
  | @cons p n d x hcell hd hlt rest ih =>
    by_cases heq : i = p
    · exact ⟨d, by rw [heq, hcell], hd, hlt⟩
    · exact ih (by omega) (by omega)

/-! ### The leading digits of a division

`U` is divided by `V`, and only `T` and `D` are looked at, the numbers that the leading digits
spell. -/

section Estimate

variable {K T D r s U V q e : ℤ}

/-- The estimate is not too small. -/
theorem le_estimate (hU : U = T * K + r) (hr : r < K) (hV : V = D * K + s) (hs : 0 ≤ s)
    (hK : 0 < K) (hq : 0 ≤ q) (hle : q * V ≤ U) : q * D ≤ T := by
  have hqs : 0 ≤ q * s := mul_nonneg hq hs
  have hlt : q * D * K < (T + 1) * K := by
    calc q * D * K ≤ q * V := by rw [hV]; linarith
      _ ≤ U := hle
      _ < (T + 1) * K := by rw [hU]; linarith
  have := lt_of_mul_lt_mul_right hlt hK.le
  omega

/-- The estimate is at most one too large. -/
theorem estimate_le (hU : U = T * K + r) (hr : 0 ≤ r) (hV : V = D * K + s) (hs : s < K)
    (hK : 0 < K) (hV0 : 0 ≤ V) (hU0 : 0 ≤ U) (hD : e ≤ D + 1) (hle : e * D ≤ T) :
    (e - 1) * V ≤ U := by
  by_cases he : e ≤ 0
  · have := mul_nonneg (show 0 ≤ 1 - e by omega) hV0
    linarith
  · have h1 : (e - 1) * V ≤ (e - 1) * ((D + 1) * K) := by
      apply mul_le_mul_of_nonneg_left _ (by omega)
      rw [hV]
      linarith
    have h2 : (e - 1) * (D + 1) ≤ T := by linarith
    have h3 := mul_le_mul_of_nonneg_right h2 hK.le
    linarith

end Estimate

end Sol26.Radix
