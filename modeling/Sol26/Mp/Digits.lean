import Mathlib.Tactic.LinearCombination
import Sol26.Lib.Radix
import Sol26.Mp.Madd

/-!
# Buffers of digits

What the accesses to an allocation do to the number spelt in it, and what it means for an
object to be a canonical `MINT` of a given value.
-/
namespace Sol26.Mp

open Function (update update_of_ne update_self)

abbrev base : ℤ := 0o100000

theorem base_eq : base = 32768 := rfl

/-- From position `p` on, `n` digits of the buffer spell `x`. -/
abbrev Buf.Spells (v : Buf) (p n : ℕ) (x : ℤ) : Prop := Radix.Spells base v.read p n x

/-- A number without sign, of `n` digits. -/
structure Mag (m : Mint) (n : ℕ) (x : ℤ) : Prop where
  len : m.len = n
  val : m.val.Spells 0 n x

/-- A canonical `MINT` of value `x`: its length is the number of its 15-bit digits, with the
sign of the number, its top digit is not zero, and zero has length 0. -/
structure Canonical (m : Mint) (x : ℤ) : Prop where
  digits : m.val.Spells 0 m.len.natAbs |x|
  sign : m.len.sign = x.sign
  top : m.len ≠ 0 → m.val.read (m.len.natAbs - 1) ≠ some 0

/-! ### Single accesses -/

variable {v v' : Buf} {i n o p : ℕ} {x : ℤ}

theorem short_digit (h0 : 0 ≤ x) (hx : x < base) : short x = x := by
  rw [base_eq] at hx
  simp only [short]
  omega

theorem long_of_mem (h0 : -0x80000000 ≤ x) (hx : x < 0x80000000) : long x = some x := by
  rw [long, if_pos ⟨h0, hx⟩]

theorem write_of_lt (h : i < v.size) (x : ℤ) :
    v.write i x = some { v with cell := update v.cell i (some (short x)) } := by
  rw [Buf.write, if_pos h]

theorem read_lt (h : v.read i = some x) : i < v.size := by
  rw [Buf.read] at h
  split at h
  · assumption
  · cases h

/-- `v'` is `v` with a number of `n` digits written from position `p` on. -/
structure Fills (v v' : Buf) (p n : ℕ) (x : ℤ) : Prop where
  size : v'.size = v.size
  spells : v'.Spells p n x
  frame : ∀ j, j < p ∨ p + n ≤ j → v'.read j = v.read j

theorem Fills.nil (v : Buf) (p : ℕ) : Fills v v p 0 0 :=
  ⟨rfl, .nil p, fun _ _ => rfl⟩

theorem Fills.write {d : ℤ} (hw : v.write p d = some v')
    (h0 : 0 ≤ d) (hd : d < base) : Fills v v' p 1 d := by
  by_cases hp : p < v.size
  · rw [write_of_lt hp] at hw
    cases hw
    constructor
    · rfl
    · apply Radix.Spells.single _ h0 hd
      simp only [Buf.read, if_pos hp, update_self, short_digit h0 hd]
    · intro j hj
      simp only [Buf.read, update_of_ne (show j ≠ p by omega)]
  · simp [Buf.write, if_neg hp] at hw

theorem Fills.append {w : Buf} {m : ℕ} {y : ℤ} (h : Fills v w p m x)
    (h' : Fills w v' (p + m) n y) : Fills v v' p (m + n) (x + base ^ m * y) := by
  constructor
  · rw [h'.size, h.size]
  · apply Radix.Spells.append _ h'.spells
    exact h.spells.congr fun i _ hi => h'.frame i (.inl (by omega))
  · intro j hj
    rw [h'.frame j (by omega), h.frame j (by omega)]

theorem Fills.cons {w : Buf} {d : ℤ} (hw : v.write p d = some w) (h0 : 0 ≤ d)
    (hd : d < base) (h : Fills w v' (p + 1) n x) : Fills v v' p (n + 1) (d + base * x) := by
  have := (Fills.write hw h0 hd).append h
  rwa [pow_one, Nat.add_comm 1 n] at this

/-- Digits that are not written stay. -/
theorem Fills.keeps {q m : ℕ} {y : ℤ} (h : Fills v v' p n x)
    (hy : v.Spells q m y) (hout : q + m ≤ p ∨ p + n ≤ q) : v'.Spells q m y :=
  hy.congr fun i _ _ => h.frame i (by omega)

theorem write_exists (h : i < v.size) (x : ℤ) :
    ∃ w, v.write i x = some w ∧ w.size = v.size ∧ ∀ j, j ≠ i → w.read j = v.read j := by
  refine ⟨_, write_of_lt h x, rfl, ?_⟩
  intro j hj
  simp only [Buf.read, update_of_ne hj]

/-- A loop that goes over the digits from `p` on and leaves at each a digit and a carry for the
next one. -/
theorem ripple (loop : ℕ → ℕ → ℤ → Buf → Option (ℤ × Buf)) (t : ℕ → ℤ) {lo hi : ℤ}
    {N : ℕ} (hnil : ∀ i k c, loop 0 i k c = some (k, c))
    (hstep : ∀ n i k c, p ≤ i → i < p + N → lo ≤ k → k ≤ hi → c.read i = v.read i →
      ∃ d k', 0 ≤ d ∧ d < base ∧ lo ≤ k' ∧ k' ≤ hi ∧ d + base * k' = k + t i ∧
        loop (n + 1) i k c = (c.write i d).bind (loop n (i + 1) k'))
    (hsize : p + N ≤ v.size) {k : ℤ} (hlo : lo ≤ k) (hhi : k ≤ hi) :
    ∃ k' v' z, loop N p k v = some (k', v') ∧ lo ≤ k' ∧ k' ≤ hi ∧ Fills v v' p N z ∧
      z + base ^ N * k' = k + Radix.weigh base t p N := by
  -- the loop at position `i`, with everything from there on as it was at the start
  suffices h : ∀ n i k c, p ≤ i → i + n = p + N → lo ≤ k → k ≤ hi → c.size = v.size →
      (∀ j, i ≤ j → c.read j = v.read j) →
      ∃ k' c' z, loop n i k c = some (k', c') ∧ lo ≤ k' ∧ k' ≤ hi ∧ Fills c c' i n z ∧
        z + base ^ n * k' = k + Radix.weigh base t i n from
    h N p k v le_rfl rfl hlo hhi rfl fun _ _ => rfl
  intro n
  induction n with
  | zero =>
    intro i k c _ _ hlo hhi _ _
    exact ⟨k, c, 0, hnil i k c, hlo, hhi, .nil c i, by simp [Radix.weigh]⟩
  | succ n ih =>
    intro i k c hp hi hlo hhi hc hread
    obtain ⟨d, k', hd0, hd, hlo', hhi', hsum, hrun⟩ :=
      hstep n i k c hp (by omega) hlo hhi (hread i le_rfl)
    obtain ⟨w, hw, hwsize, hwread⟩ := write_exists (show i < c.size by omega) d
    obtain ⟨k'', c', z, hloop, hlo'', hhi'', hfill, hz⟩ :=
      ih (i + 1) k' w (by omega) (by omega) hlo' hhi' (by omega)
        fun j hj => by rw [hwread j (by omega), hread j (by omega)]
    refine ⟨k'', c', _, ?_, hlo'', hhi'', hfill.cons hw hd0 hd, ?_⟩
    · rw [hrun, hw, Option.bind_some, hloop]
    · rw [Radix.weigh, pow_succ]
      linear_combination base * hz + hsum

/-- The digits of `a`, counted from position `j` on. -/
theorem weigh_shifted {a : Buf} (ha : a.Spells 0 n x) (j : ℕ) :
    Radix.weigh base (fun i => (a.read (i - j)).getD 0) j n = x := by
  have hshift := Radix.weigh_shift (β := base) (p := 0) (n := n) (fun i => (a.read i).getD 0) j
  rw [Nat.zero_add] at hshift
  rw [hshift, ha.weigh]

/-! ### Copies, leading zeros -/

theorem copyDigits_spec {src : Buf} {j : ℕ} (h : src.Spells j n x) (dst : Buf)
    (hsize : j + n ≤ dst.size) :
    ∃ dst', copyDigits src n j dst = some dst' ∧ Fills dst dst' j n x := by
  induction n generalizing j x dst with
  | zero =>
    cases h
    exact ⟨dst, rfl, .nil dst j⟩
  | succ n ih =>
    cases h with
    | cons hcell h0 hd rest =>
      rename_i d y
      obtain ⟨w, hw, hwsize, _⟩ := write_exists (show j < dst.size by omega) d
      obtain ⟨dst', hcopy, hfill⟩ := ih rest w (by omega)
      refine ⟨dst', ?_, Fills.cons hw h0 hd hfill⟩
      simp only [copyDigits, hcell, hw, Option.bind_eq_bind, Option.bind_some, hcopy]

theorem significant_spec (h : v.Spells 0 n x) :
    ∃ j ≤ n, significant v n = some j ∧ v.Spells 0 j x ∧ (j ≠ 0 → v.read (j - 1) ≠ some 0) := by
  induction n with
  | zero => exact ⟨0, le_rfl, rfl, h, fun hne => absurd rfl hne⟩
  | succ n ih =>
    obtain ⟨_, d, _, hcell, _⟩ := h.top
    rw [Nat.zero_add] at hcell
    simp only [significant, hcell, Option.bind_eq_bind, Option.bind_some]
    by_cases hd : d = 0
    · subst hd
      obtain ⟨j, hj, hsig, hspell, htop⟩ := ih (h.drop_zero (by rwa [Nat.zero_add]))
      exact ⟨j, by omega, by rw [if_pos rfl, hsig], hspell, htop⟩
    · refine ⟨n + 1, le_rfl, by rw [if_neg hd], h, ?_⟩
      intro _
      rw [Nat.add_sub_cancel, hcell]
      exact fun heq => hd (Option.some.inj heq)

/-! ### Objects -/

theorem setLen_self (σ : Store) (a : ℕ) (len : ℤ) : setLen σ a len a = ⟨len, (σ a).val⟩ := by
  simp only [setLen, update_self]

theorem setLen_of_ne (σ : Store) {a : ℕ} (len : ℤ) (h : o ≠ a) : setLen σ a len o = σ o := by
  rw [setLen, update_of_ne h]

theorem setVal_self (σ : Store) (a : ℕ) (v : Buf) : setVal σ a v a = ⟨(σ a).len, v⟩ := by
  simp only [setVal, update_self]

theorem setVal_of_ne (σ : Store) {a : ℕ} (v : Buf) (h : o ≠ a) : setVal σ a v o = σ o := by
  rw [setVal, update_of_ne h]

theorem xfree_len (σ : Store) (a : ℕ) : (xfree σ a a).len = 0 := by
  rw [xfree]
  split
  · rw [setLen_self]
  · rename_i h
    exact not_not.1 h

theorem xfree_of_ne (σ : Store) {a : ℕ} (h : o ≠ a) : xfree σ a o = σ o := by
  rw [xfree]
  split
  · rw [setLen_of_ne _ _ h, setVal_of_ne _ _ h]
  · rfl

theorem negLen_self (σ : Store) (a : ℕ) : negLen σ a a = ⟨-(σ a).len, (σ a).val⟩ :=
  setLen_self σ a _

theorem negLen_of_ne (σ : Store) {a : ℕ} (h : o ≠ a) : negLen σ a o = σ o :=
  setLen_of_ne σ _ h

theorem Canonical.zero {m : Mint} (h : m.len = 0) : Canonical m 0 := by
  constructor
  · rw [h]
    exact .nil 0
  · rw [h]
  · exact fun hne => absurd h hne

theorem Canonical.len_eq_zero {m : Mint} (h : Canonical m x) : m.len = 0 ↔ x = 0 := by
  rw [← Int.sign_eq_zero_iff_zero, h.sign, Int.sign_eq_zero_iff_zero]

theorem Canonical.neg {m : Mint} (h : Canonical m x) : Canonical ⟨-m.len, m.val⟩ (-x) := by
  constructor
  · simpa only [Int.natAbs_neg, abs_neg] using h.digits
  · simp only [Int.sign_neg, h.sign]
  · simpa only [Int.natAbs_neg, ne_eq, neg_eq_zero] using h.top

/-- A canonical number that is not negative, seen without its sign. -/
theorem Canonical.mag {m : Mint} (h : Canonical m x) (hx : 0 ≤ x) : Mag m m.len.toNat x := by
  have hlen : 0 ≤ m.len := by
    rw [← Int.sign_nonneg_iff, h.sign, Int.sign_nonneg_iff]
    exact hx
  constructor
  · exact (Int.toNat_of_nonneg hlen).symm
  · have := h.digits
    rw [abs_of_nonneg hx] at this
    rwa [show m.len.toNat = m.len.natAbs by omega]

theorem Mag.canonical {m : Mint} (h : Mag m n x)
    (htop : n ≠ 0 → m.val.read (n - 1) ≠ some 0) : Canonical m x := by
  have habs : m.len.natAbs = n := by rw [h.len, Int.natAbs_natCast]
  constructor
  · rw [habs, abs_of_nonneg h.val.nonneg]
    exact h.val
  · rw [h.len]
    have hval := h.val
    cases n with
    | zero =>
      cases hval
      rfl
    | succ n =>
      have hle := hval.le_of_top (by rw [Nat.zero_add]; exact htop (Nat.succ_ne_zero n))
      have hpos : 0 < x := lt_of_lt_of_le (by positivity) hle
      rw [Int.sign_eq_one_of_pos hpos, Int.sign_eq_one_of_pos (by omega)]
  · rw [habs]
    intro hne
    apply htop
    rw [h.len] at hne
    exact_mod_cast hne

/-- The weight of the top digit is a lower bound. -/
theorem Canonical.le_abs {m : Mint} (h : Canonical m x) (hx : x ≠ 0) :
    base ^ (m.len.natAbs - 1) ≤ |x| := by
  have hne : m.len ≠ 0 := fun h0 => hx (h.len_eq_zero.1 h0)
  have hd := h.digits
  obtain ⟨n, hn⟩ := Nat.exists_eq_succ_of_ne_zero (Int.natAbs_ne_zero.2 hne)
  have ht := h.top hne
  rw [hn] at hd ht ⊢
  exact hd.le_of_top (by rwa [Nat.zero_add])

end Sol26.Mp
