import Mathlib.Tactic

/-!
# Rearrangements of a part of an array

An array is a function on indices. A rearrangement of a part of it moves elements within the
part and leaves the others at their place: it is made of exchanges, and rotations are among them.
-/
namespace Sol26

variable {α : Type*} {lo hi lo' hi' : ℕ} {a b c : ℕ → α}

/-- The second array has the elements of the first one, those outside of the part at their
place. -/
def Rearranged (lo hi : ℕ) (a b : ℕ → α) : Prop :=
  ∃ σ : Equiv.Perm ℕ, (∀ x, ¬ (lo ≤ x ∧ x < hi) → σ x = x) ∧ ∀ x, b x = a (σ x)

namespace Rearranged

theorem refl (lo hi : ℕ) (a : ℕ → α) : Rearranged lo hi a a :=
  ⟨1, fun _ _ => rfl, fun _ => rfl⟩

theorem trans (h : Rearranged lo hi a b) (h' : Rearranged lo hi b c) : Rearranged lo hi a c := by
  obtain ⟨σ, hfix, hσ⟩ := h
  obtain ⟨τ, hfix', hτ⟩ := h'
  refine ⟨τ.trans σ, ?_, ?_⟩
  · intro x hx
    rw [Equiv.trans_apply, hfix' x hx, hfix x hx]
  · intro x
    rw [hτ, hσ, Equiv.trans_apply]

theorem mono (h : Rearranged lo hi a b) (hlo : lo' ≤ lo) (hhi : hi ≤ hi') :
    Rearranged lo' hi' a b := by
  obtain ⟨σ, hfix, hσ⟩ := h
  exact ⟨σ, fun x hx => hfix x (by omega), hσ⟩

theorem outside (h : Rearranged lo hi a b) {x : ℕ} (hx : ¬ (lo ≤ x ∧ x < hi)) : b x = a x := by
  obtain ⟨σ, hfix, hσ⟩ := h
  rw [hσ, hfix x hx]

/-- An element of the part comes from the part. -/
theorem inside (h : Rearranged lo hi a b) {x : ℕ} (hx : lo ≤ x ∧ x < hi) :
    ∃ y, lo ≤ y ∧ y < hi ∧ b x = a y := by
  obtain ⟨σ, hfix, hσ⟩ := h
  by_cases hy : lo ≤ σ x ∧ σ x < hi
  · exact ⟨σ x, hy.1, hy.2, hσ x⟩
  · -- otherwise its origin would stay where it is
    have hsame : σ x = x := σ.injective (hfix (σ x) hy)
    rw [hsame] at hy
    exact absurd hx hy

theorem forall_inside (h : Rearranged lo hi a b) {p : α → Prop}
    (hp : ∀ x, lo ≤ x → x < hi → p (a x)) : ∀ x, lo ≤ x → x < hi → p (b x) := by
  intro x hlo hhi
  obtain ⟨y, hy, hy', heq⟩ := h.inside ⟨hlo, hhi⟩
  rw [heq]
  exact hp y hy hy'

theorem swap {i j : ℕ} (hi' : lo ≤ i ∧ i < hi) (hj : lo ≤ j ∧ j < hi) (a : ℕ → α) :
    Rearranged lo hi a fun x => a (Equiv.swap i j x) := by
  refine ⟨Equiv.swap i j, ?_, fun _ => rfl⟩
  intro x hx
  apply Equiv.swap_apply_of_ne_of_ne
  · rintro rfl
    exact hx hi'
  · rintro rfl
    exact hx hj

/-- A rearrangement of the first elements is a permutation of their list. -/
theorem perm {n : ℕ} (h : Rearranged 0 n a b) :
    ((List.range n).map b).Perm ((List.range n).map a) := by
  obtain ⟨σ, hfix, hσ⟩ := h
  have hmem : ∀ x, σ x < n ↔ x < n := by
    intro x
    constructor
    · intro hx
      by_contra hge
      rw [hfix x (by omega)] at hx
      exact hge hx
    · intro hx
      by_contra hge
      have := σ.injective (hfix (σ x) (by omega))
      omega
  have hrange : ((List.range n).map σ).Perm (List.range n) := by
    rw [List.perm_ext_iff_of_nodup (List.nodup_range.map σ.injective) List.nodup_range]
    intro x
    rw [List.mem_range, List.mem_map]
    constructor
    · rintro ⟨y, hy, rfl⟩
      exact (hmem y).2 (List.mem_range.1 hy)
    · intro hx
      refine ⟨σ.symm x, List.mem_range.2 ?_, σ.apply_symm_apply x⟩
      rw [← hmem, σ.apply_symm_apply]
      exact hx
  have hmap := hrange.map a
  rw [List.map_map] at hmap
  rw [show b = a ∘ σ from funext hσ]
  exact hmap

end Rearranged

/-- The element at `hi` is put before those from `lo` on. -/
def rotated (lo hi : ℕ) (a : ℕ → α) (x : ℕ) : α :=
  if x = lo then a hi else if lo < x ∧ x ≤ hi then a (x - 1) else a x

theorem rotated_self (lo : ℕ) (a : ℕ → α) : rotated lo lo a = a := by
  funext x
  rw [rotated]
  split_ifs with h h'
  · rw [h]
  · omega
  · rfl

theorem rearranged_rotated (h : lo ≤ hi) (a : ℕ → α) :
    Rearranged lo (hi + 1) a (rotated lo hi a) := by
  induction hi, h using Nat.le_induction generalizing a with
  | base =>
    rw [rotated_self]
    exact .refl _ _ a
  | succ k hk ih =>
    -- exchange the last two, then rotate the rest
    have hstep : rotated lo k (fun x => a (Equiv.swap k (k + 1) x)) = rotated lo (k + 1) a := by
      funext x
      simp only [rotated]
      split_ifs with h1 h2 h3 h4
      · rw [Equiv.swap_apply_left]
      · rw [Equiv.swap_apply_of_ne_of_ne (by omega) (by omega)]
      · omega
      · rw [show x = k + 1 by omega, Equiv.swap_apply_right, Nat.add_sub_cancel]
      · rw [Equiv.swap_apply_of_ne_of_ne (by omega) (by omega)]
    rw [← hstep]
    exact (Rearranged.swap (by omega) (by omega) a).trans ((ih _).mono le_rfl (by omega))

end Sol26
