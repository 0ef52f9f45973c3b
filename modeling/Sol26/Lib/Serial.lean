import Mathlib.Tactic

/-!
# Serial numbers

Positions in an unbounded sequence of which only the value modulo `2 ^ 32` is known. Two of them
compare by the sign of their difference as a signed word, which is right for positions that are
less than half the range apart.
-/
namespace Sol26.Serial

/-- The difference of two words as a signed word. -/
def diff (a b : ℕ) : ℤ := Int.bmod ((a : ℤ) - b) (2 ^ 32)

/-- The word of a position. -/
def word (x : ℕ) : ℕ := x % 2 ^ 32

variable {x y : ℕ}

theorem diff_word (hlo : y ≤ x + 2 ^ 31) (hhi : x < y + 2 ^ 31) :
    diff (word x) (word y) = (x : ℤ) - y := by
  unfold diff word Int.bmod
  dsimp only
  split_ifs <;> omega

theorem word_inj (hlo : y ≤ x + 2 ^ 31) (hhi : x ≤ y + 2 ^ 31) : word x = word y ↔ x = y := by
  unfold word
  omega

theorem word_add (x n : ℕ) : word (word x + n) = word (x + n) := by
  unfold word
  omega

end Sol26.Serial
