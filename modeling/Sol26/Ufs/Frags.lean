import Sol26.Ufs.Bitmap

/-!
# Runs of free fragments in a block

The tables of `ufs_tables.c` and `fragacct`.  What they are for is said by `IsRun`: a maximal run
of free fragments of a block.  A block has at most eight fragments, so that the tables are checked
entry by entry.
-/

namespace Sol26.Ufs

/-- `around` and `inside`: used as `((map & around) == inside)`. -/
def around (siz : ℕ) : ℕ :=
  [0x3, 0x7, 0xf, 0x1f, 0x3f, 0x7f, 0xff, 0x1ff, 0x3ff].getD siz 0

def inside (siz : ℕ) : ℕ :=
  [0x0, 0x2, 0x6, 0xe, 0x1e, 0x3e, 0x7e, 0xfe, 0x1fe].getD siz 0

def fragtbl124 : List ℕ :=
  [
    0x00, 0x16, 0x16, 0x2a, 0x16, 0x16, 0x26, 0x4e, 0x16, 0x16, 0x16, 0x3e,
    0x2a, 0x3e, 0x4e, 0x8a, 0x16, 0x16, 0x16, 0x3e, 0x16, 0x16, 0x36, 0x5e,
    0x16, 0x16, 0x16, 0x3e, 0x3e, 0x3e, 0x5e, 0x9e, 0x16, 0x16, 0x16, 0x3e,
    0x16, 0x16, 0x36, 0x5e, 0x16, 0x16, 0x16, 0x3e, 0x3e, 0x3e, 0x5e, 0x9e,
    0x2a, 0x3e, 0x3e, 0x2a, 0x3e, 0x3e, 0x2e, 0x6e, 0x3e, 0x3e, 0x3e, 0x3e,
    0x2a, 0x3e, 0x6e, 0xaa, 0x16, 0x16, 0x16, 0x3e, 0x16, 0x16, 0x36, 0x5e,
    0x16, 0x16, 0x16, 0x3e, 0x3e, 0x3e, 0x5e, 0x9e, 0x16, 0x16, 0x16, 0x3e,
    0x16, 0x16, 0x36, 0x5e, 0x16, 0x16, 0x16, 0x3e, 0x3e, 0x3e, 0x5e, 0x9e,
    0x26, 0x36, 0x36, 0x2e, 0x36, 0x36, 0x26, 0x6e, 0x36, 0x36, 0x36, 0x3e,
    0x2e, 0x3e, 0x6e, 0xae, 0x4e, 0x5e, 0x5e, 0x6e, 0x5e, 0x5e, 0x6e, 0x4e,
    0x5e, 0x5e, 0x5e, 0x7e, 0x6e, 0x7e, 0x4e, 0xce, 0x16, 0x16, 0x16, 0x3e,
    0x16, 0x16, 0x36, 0x5e, 0x16, 0x16, 0x16, 0x3e, 0x3e, 0x3e, 0x5e, 0x9e,
    0x16, 0x16, 0x16, 0x3e, 0x16, 0x16, 0x36, 0x5e, 0x16, 0x16, 0x16, 0x3e,
    0x3e, 0x3e, 0x5e, 0x9e, 0x16, 0x16, 0x16, 0x3e, 0x16, 0x16, 0x36, 0x5e,
    0x16, 0x16, 0x16, 0x3e, 0x3e, 0x3e, 0x5e, 0x9e, 0x3e, 0x3e, 0x3e, 0x3e,
    0x3e, 0x3e, 0x3e, 0x7e, 0x3e, 0x3e, 0x3e, 0x3e, 0x3e, 0x3e, 0x7e, 0xbe,
    0x2a, 0x3e, 0x3e, 0x2a, 0x3e, 0x3e, 0x2e, 0x6e, 0x3e, 0x3e, 0x3e, 0x3e,
    0x2a, 0x3e, 0x6e, 0xaa, 0x3e, 0x3e, 0x3e, 0x3e, 0x3e, 0x3e, 0x3e, 0x7e,
    0x3e, 0x3e, 0x3e, 0x3e, 0x3e, 0x3e, 0x7e, 0xbe, 0x4e, 0x5e, 0x5e, 0x6e,
    0x5e, 0x5e, 0x6e, 0x4e, 0x5e, 0x5e, 0x5e, 0x7e, 0x6e, 0x7e, 0x4e, 0xce,
    0x8a, 0x9e, 0x9e, 0xaa, 0x9e, 0x9e, 0xae, 0xce, 0x9e, 0x9e, 0x9e, 0xbe,
    0xaa, 0xbe, 0xce, 0x8a]

def fragtbl8 : List ℕ :=
  [
    0x00, 0x01, 0x01, 0x02, 0x01, 0x01, 0x02, 0x04, 0x01, 0x01, 0x01, 0x03,
    0x02, 0x03, 0x04, 0x08, 0x01, 0x01, 0x01, 0x03, 0x01, 0x01, 0x03, 0x05,
    0x02, 0x03, 0x03, 0x02, 0x04, 0x05, 0x08, 0x10, 0x01, 0x01, 0x01, 0x03,
    0x01, 0x01, 0x03, 0x05, 0x01, 0x01, 0x01, 0x03, 0x03, 0x03, 0x05, 0x09,
    0x02, 0x03, 0x03, 0x02, 0x03, 0x03, 0x02, 0x06, 0x04, 0x05, 0x05, 0x06,
    0x08, 0x09, 0x10, 0x20, 0x01, 0x01, 0x01, 0x03, 0x01, 0x01, 0x03, 0x05,
    0x01, 0x01, 0x01, 0x03, 0x03, 0x03, 0x05, 0x09, 0x01, 0x01, 0x01, 0x03,
    0x01, 0x01, 0x03, 0x05, 0x03, 0x03, 0x03, 0x03, 0x05, 0x05, 0x09, 0x11,
    0x02, 0x03, 0x03, 0x02, 0x03, 0x03, 0x02, 0x06, 0x03, 0x03, 0x03, 0x03,
    0x02, 0x03, 0x06, 0x0a, 0x04, 0x05, 0x05, 0x06, 0x05, 0x05, 0x06, 0x04,
    0x08, 0x09, 0x09, 0x0a, 0x10, 0x11, 0x20, 0x40, 0x01, 0x01, 0x01, 0x03,
    0x01, 0x01, 0x03, 0x05, 0x01, 0x01, 0x01, 0x03, 0x03, 0x03, 0x05, 0x09,
    0x01, 0x01, 0x01, 0x03, 0x01, 0x01, 0x03, 0x05, 0x03, 0x03, 0x03, 0x03,
    0x05, 0x05, 0x09, 0x11, 0x01, 0x01, 0x01, 0x03, 0x01, 0x01, 0x03, 0x05,
    0x01, 0x01, 0x01, 0x03, 0x03, 0x03, 0x05, 0x09, 0x03, 0x03, 0x03, 0x03,
    0x03, 0x03, 0x03, 0x07, 0x05, 0x05, 0x05, 0x07, 0x09, 0x09, 0x11, 0x21,
    0x02, 0x03, 0x03, 0x02, 0x03, 0x03, 0x02, 0x06, 0x03, 0x03, 0x03, 0x03,
    0x02, 0x03, 0x06, 0x0a, 0x03, 0x03, 0x03, 0x03, 0x03, 0x03, 0x03, 0x07,
    0x02, 0x03, 0x03, 0x02, 0x06, 0x07, 0x0a, 0x12, 0x04, 0x05, 0x05, 0x06,
    0x05, 0x05, 0x06, 0x04, 0x05, 0x05, 0x05, 0x07, 0x06, 0x07, 0x04, 0x0c,
    0x08, 0x09, 0x09, 0x0a, 0x09, 0x09, 0x0a, 0x0c, 0x10, 0x11, 0x11, 0x12,
    0x20, 0x21, 0x40, 0x80]

/-- `fragtbl[frag][map]`. -/
def fragtbl (frag map : ℕ) : ℕ := (if frag = 8 then fragtbl8 else fragtbl124).getD map 0

/-- The inner loop of `fragacct`: how often it comes to `fraglist[siz] += cnt`. -/
def acctLoop (frag fragmap siz : ℕ) : ℕ → ℕ → ℕ → ℕ → ℕ
  | 0, _, _, _ => 0
  | fuel + 1, pos, field, subfield =>
    if frag < pos then 0
    else if fragmap &&& field = subfield then
      acctLoop frag fragmap siz fuel (pos + siz + 1) (field <<< siz <<< 1)
        (subfield <<< siz <<< 1) + 1
    else acctLoop frag fragmap siz fuel (pos + 1) (field <<< 1) (subfield <<< 1)

/-- How often `fragacct` counts a run of `siz` fragments in the block. -/
def acctCount (frag fragmap siz : ℕ) : ℕ :=
  let inblk := fragtbl frag fragmap <<< 1
  if inblk &&& 1 <<< (siz + frag % 8) = 0 then 0
  else acctLoop frag (fragmap <<< 1) siz (frag + 1) siz (around siz) (inside siz)

/-- `fragacct`: update the frsum fields to reflect addition or deletion of some frags. -/
def fragacct (frag fragmap : ℕ) (fraglist : ℕ → ℤ) (cnt : ℤ) (siz : ℕ) : ℤ :=
  if 1 ≤ siz ∧ siz < frag then fraglist siz + acctCount frag fragmap siz * cnt
  else fraglist siz

/-- The fragments `p .. p + k - 1` are a maximal run of set bits among the first `frag`. -/
def IsRun (frag : ℕ) (free : ℕ → Bool) (p k : ℕ) : Prop :=
  p + k ≤ frag ∧ (∀ j < k, free (p + j) = true) ∧ (p = 0 ∨ free (p - 1) = false) ∧
    (p + k = frag ∨ free (p + k) = false)

instance (frag : ℕ) (free : ℕ → Bool) (p k : ℕ) : Decidable (IsRun frag free p k) :=
  inferInstanceAs (Decidable (_ ∧ _ ∧ _ ∧ _))

/-- The number of maximal runs of length `k`. -/
def runs (frag : ℕ) (free : ℕ → Bool) (k : ℕ) : ℕ :=
  (List.range frag).countP fun p => IsRun frag free p k

/-- The pattern of a run of `siz` fragments at `p`, as the code looks for it: the run, and a clear
bit on each side. -/
def patternAt (blk siz p : ℕ) : Bool := blk <<< 1 &&& around siz <<< p == inside siz <<< p

theorem testBit_around {k : ℕ} (hk : k ≤ 8) (i : ℕ) :
    (around k).testBit i = decide (i < k + 2) := by
  have h : around k = 2 ^ (k + 2) - 1 := by
    interval_cases k <;> rfl
  rw [h, Nat.testBit_two_pow_sub_one]

theorem testBit_inside {k : ℕ} (hk : k ≤ 8) (i : ℕ) :
    (inside k).testBit i = decide (1 ≤ i ∧ i < k + 1) := by
  have h : inside k = (2 ^ k - 1) <<< 1 := by
    interval_cases k <;> rfl
  rw [h, Nat.testBit_shiftLeft, Nat.testBit_two_pow_sub_one]
  by_cases hi : 1 ≤ i
  · have hiff : (i - 1 < k) ↔ (1 ≤ i ∧ i < k + 1) := by omega
    simp [hi, hiff]
  · simp [hi]

/-- The pattern stands at `p` if and only if a maximal run starts there. -/
theorem patternAt_iff {frag m k p : ℕ} (hm : m < 2 ^ frag) (hk : k ≤ 8) (hp : p + k ≤ frag) :
    patternAt m k p = true ↔ IsRun frag m.testBit p k := by
  have hbit : ∀ i, (m <<< 1 &&& around k <<< p).testBit i = (inside k <<< p).testBit i ↔
      (p ≤ i → i < p + k + 2 →
        ((1 ≤ i ∧ m.testBit (i - 1) = true) ↔ (p + 1 ≤ i ∧ i < p + k + 1))) := by
    intro i
    rw [Nat.testBit_and, Nat.testBit_shiftLeft, Nat.testBit_shiftLeft, Nat.testBit_shiftLeft,
      testBit_around hk, testBit_inside hk, Bool.eq_iff_iff]
    simp only [Bool.and_eq_true, decide_eq_true_eq]
    constructor
    · intro h hlo hhi
      rw [← and_iff_left (a := 1 ≤ i ∧ m.testBit (i - 1) = true) (b := i ≥ p ∧ i - p < k + 2)
        ⟨hlo, by omega⟩, h]
      omega
    · intro h
      by_cases hin : p ≤ i ∧ i < p + k + 2
      · rw [h hin.1 hin.2]
        omega
      · constructor
        · intro hleft
          exact absurd ⟨hleft.2.1, by omega⟩ hin
        · intro hright
          exact absurd ⟨hright.1, by omega⟩ hin
  have hhigh : ∀ i, frag ≤ i → m.testBit i = false := fun i hi =>
    Nat.testBit_lt_two_pow (lt_of_lt_of_le hm (Nat.pow_le_pow_right (by decide) hi))
  rw [patternAt, beq_iff_eq]
  constructor
  · intro heq
    have hall := fun i => (hbit i).mp (by rw [heq])
    refine ⟨hp, fun j hj => ?_, ?_, ?_⟩
    · have h := ((hall (p + j + 1)) (by omega) (by omega)).mpr (by omega)
      exact h.2
    · by_cases hzero : p = 0
      · exact .inl hzero
      · right
        rw [Bool.eq_false_iff]
        intro htrue
        have h := ((hall p) (le_refl p) (by omega)).mp ⟨by omega, htrue⟩
        omega
    · right
      rw [Bool.eq_false_iff]
      intro htrue
      have h := ((hall (p + k + 1)) (by omega) (by omega)).mp ⟨by omega, htrue⟩
      omega
  · intro ⟨_, hrun, hleft, hright⟩
    refine Nat.eq_of_testBit_eq fun i => (hbit i).mpr fun hlo hhi => ?_
    constructor
    · intro ⟨hpos, htrue⟩
      by_contra hout
      have hcase : i = p ∨ i = p + k + 1 := by omega
      cases hcase with
      | inl hi =>
        subst hi
        rw [hleft.resolve_left (by omega)] at htrue
        exact absurd htrue (by decide)
      | inr hi =>
        subst hi
        rw [Nat.add_sub_cancel] at htrue
        cases hright with
        | inl hend =>
          rw [hend, hhigh frag (le_refl _)] at htrue
          exact absurd htrue (by decide)
        | inr hclear =>
          rw [hclear] at htrue
          exact absurd htrue (by decide)
    · intro hin
      have h := hrun (i - (p + 1)) (by omega)
      rw [show p + (i - (p + 1)) = i - 1 by omega] at h
      exact ⟨by omega, h⟩

theorem mem_fragSizes (g : Geometry) : g.frag ∈ [1, 2, 4, 8] := by
  simpa using g.frag_cases

end Sol26.Ufs
