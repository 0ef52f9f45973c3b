import Mathlib.Tactic

/-!
# Pieces and gaps

Half-open pieces of the natural numbers in order, what they cover, and the gaps they leave.
-/
namespace Sol26.Gaps

/-- Pieces in order and without overlap, none of them empty, from `a` on. -/
def Pieces : ℕ → List (ℕ × ℕ) → Prop
  | _, [] => True
  | a, p :: l => a ≤ p.1 ∧ p.1 < p.2 ∧ Pieces p.2 l

/-- The numbers in the pieces. -/
def cover (l : List (ℕ × ℕ)) : Set ℕ := { x | ∃ p ∈ l, p.1 ≤ x ∧ x < p.2 }

/-- Where the last piece ends, or `a`. -/
def top : ℕ → List (ℕ × ℕ) → ℕ
  | a, [] => a
  | _, p :: l => top p.2 l

/-- The gaps from `a` up to the last piece. -/
def gaps : ℕ → List (ℕ × ℕ) → ℕ
  | _, [] => 0
  | a, p :: l => (if a < p.1 then 1 else 0) + gaps p.2 l

/-- The first number from `s` on that is in no piece. -/
def lead : ℕ → List (ℕ × ℕ) → ℕ
  | s, [] => s
  | s, p :: l => if p.1 ≤ s then lead (max s p.2) l else s

/-- The number of maximal runs outside a set below `n`: each begins at 0 or after an element. -/
noncomputable def gapCount (C : Set ℕ) (n : ℕ) : ℕ :=
  Set.ncard { x | x < n ∧ x ∉ C ∧ (x = 0 ∨ x - 1 ∈ C) }

variable {a b s x n : ℕ} {p : ℕ × ℕ} {l l' : List (ℕ × ℕ)}

@[simp] theorem mem_cover_nil : x ∈ cover [] ↔ False := by simp [cover]

@[simp] theorem mem_cover_cons : x ∈ cover (p :: l) ↔ (p.1 ≤ x ∧ x < p.2) ∨ x ∈ cover l := by
  simp [cover]

theorem Pieces.mono (h : Pieces b l) (hab : a ≤ b) : Pieces a l := by
  cases l with
  | nil => trivial
  | cons p l => exact ⟨hab.trans h.1, h.2⟩

theorem Pieces.le_of_mem (h : Pieces a l) (hx : x ∈ cover l) : a ≤ x := by
  induction l generalizing a with
  | nil => simp at hx
  | cons p l ih =>
    obtain ⟨h1, h2, h3⟩ := h
    cases mem_cover_cons.mp hx with
    | inl hx => omega
    | inr hx =>
      have := ih h3 hx
      omega

theorem Pieces.le_top (h : Pieces a l) : a ≤ top a l := by
  induction l generalizing a with
  | nil => exact le_rfl
  | cons p l ih =>
    obtain ⟨h1, h2, h3⟩ := h
    have := ih h3
    unfold top
    omega

theorem Pieces.lt_top (h : Pieces a l) (hx : x ∈ cover l) : x < top a l := by
  induction l generalizing a with
  | nil => simp at hx
  | cons p l ih =>
    obtain ⟨-, -, h3⟩ := h
    cases mem_cover_cons.mp hx with
    | inl hx =>
      have := h3.le_top
      unfold top
      omega
    | inr hx => exact ih h3 hx

theorem top_append : top a (l ++ [p]) = p.2 := by
  induction l generalizing a with
  | nil => rfl
  | cons q l ih => exact ih

theorem gaps_append : gaps a (l ++ [p]) = gaps a l + if top a l < p.1 then 1 else 0 := by
  induction l generalizing a with
  | nil =>
    change (if a < p.1 then 1 else 0) + 0 = 0 + (if a < p.1 then 1 else 0)
    omega
  | cons q l ih =>
    change _ + gaps q.2 (l ++ [p]) = _ + gaps q.2 l + (if top q.2 l < p.1 then 1 else 0)
    rw [ih, Nat.add_assoc]

/-- The last number below the top is in the last piece. -/
theorem Pieces.pred_top_mem (h : Pieces a l) (hne : l ≠ []) : top a l - 1 ∈ cover l := by
  induction l generalizing a with
  | nil => exact absurd rfl hne
  | cons p l ih =>
    obtain ⟨-, h2, h3⟩ := h
    cases l with
    | nil =>
      simp only [top, mem_cover_cons, mem_cover_nil, or_false]
      omega
    | cons q l =>
      have := ih h3 (by simp)
      exact mem_cover_cons.mpr (.inr this)

/-- The beginnings of the gaps from `a` on. -/
theorem Pieces.ncard_gaps (h : Pieces a l) :
    Set.ncard { x | a ≤ x ∧ x < top a l ∧ x ∉ cover l ∧ (x = a ∨ x - 1 ∈ cover l) } = gaps a l := by
  induction l generalizing a with
  | nil =>
    rw [gaps, Set.ncard_eq_zero ((Set.finite_Iio (top a [])).subset fun x hx => hx.2.1)]
    ext x
    simp only [top, Set.mem_ofPred_eq, Set.mem_empty_iff_false, iff_false]
    omega
  | cons p l ih =>
    obtain ⟨h1, h2, h3⟩ := h
    have hle : p.2 ≤ top p.2 l := h3.le_top
    have hlow : ∀ x, x < p.2 → x ∉ cover l := fun x hx hmem => by
      have := h3.le_of_mem hmem
      omega
    -- past `p` the gaps are those of the rest
    have hpast : ∀ x, p.2 ≤ x →
        ((x = a ∨ x - 1 ∈ cover (p :: l)) ↔ (x = p.2 ∨ x - 1 ∈ cover l)) := by
      intro x hx
      rw [mem_cover_cons]
      by_cases hmem : x - 1 ∈ cover l
      · simp [hmem]
      · simp only [hmem, or_false]
        omega
    have hset : { x | a ≤ x ∧ x < top a (p :: l) ∧ x ∉ cover (p :: l) ∧
          (x = a ∨ x - 1 ∈ cover (p :: l)) } =
        (if a < p.1 then {a} else ∅) ∪
          { x | p.2 ≤ x ∧ x < top p.2 l ∧ x ∉ cover l ∧ (x = p.2 ∨ x - 1 ∈ cover l) } := by
      ext x
      by_cases hx : p.2 ≤ x
      · have hna : x ∉ (if a < p.1 then {a} else ∅ : Set ℕ) := by
          split_ifs
          · simp only [Set.mem_singleton_iff]
            omega
          · simp
        have hor := hpast x hx
        have hcov : x ∈ cover (p :: l) ↔ x ∈ cover l := by
          rw [mem_cover_cons]
          exact or_iff_right (by omega)
        have hax : a ≤ x := by omega
        simp only [Set.mem_ofPred_eq, Set.mem_union, hna, false_or, hor, hcov, top, hax, hx]
      · have hl := hlow x (by omega)
        have hl' := hlow (x - 1) (by omega)
        split_ifs with ha
        · simp only [Set.mem_ofPred_eq, Set.mem_union, Set.mem_singleton_iff, mem_cover_cons, hl,
            hl', or_false, top, hx, false_and]
          constructor
          · rintro ⟨h4, h5, h6, h7⟩
            omega
          · rintro rfl
            exact ⟨le_rfl, by omega, by omega, .inl rfl⟩
        · simp only [Set.mem_ofPred_eq, Set.mem_union, Set.mem_empty_iff_false, mem_cover_cons, hl,
            hl', or_false, top, hx, false_and, iff_false]
          omega
    have hfin : Set.Finite { x | p.2 ≤ x ∧ x < top p.2 l ∧ x ∉ cover l ∧
        (x = p.2 ∨ x - 1 ∈ cover l) } :=
      (Set.finite_Iio (top p.2 l)).subset fun x hx => hx.2.1
    rw [hset, gaps, ← ih h3]
    split_ifs with ha
    · rw [Set.singleton_union, Set.ncard_insert_of_notMem _ hfin]
      · omega
      · simp only [Set.mem_ofPred_eq]
        omega
    · simp

theorem Pieces.gaps_eq (h : Pieces 0 l) : gaps 0 l = gapCount (cover l) (top 0 l) := by
  rw [← h.ncard_gaps, gapCount]
  congr 1
  ext x
  simp

/-- No gap: everything below the top is covered. -/
theorem Pieces.gaps_eq_zero (h : Pieces a l) :
    gaps a l = 0 ↔ ∀ x, a ≤ x → x < top a l → x ∈ cover l := by
  induction l generalizing a with
  | nil =>
    simp only [gaps, top, true_iff]
    omega
  | cons p l ih =>
    obtain ⟨h1, h2, h3⟩ := h
    have hle : p.2 ≤ top p.2 l := h3.le_top
    simp only [gaps, top, mem_cover_cons, Nat.add_eq_zero_iff, ih h3]
    constructor
    · rintro ⟨ha, hl⟩ x hax hx
      have : ¬ a < p.1 := by
        intro hlt
        simp [hlt] at ha
      by_cases hxp : p.2 ≤ x
      · exact .inr (hl x hxp hx)
      · left
        omega
    · intro hall
      constructor
      · have hna : ¬ a < p.1 := by
          intro hlt
          cases hall a le_rfl (by omega) with
          | inl h => omega
          | inr h =>
            have := h3.le_of_mem h
            omega
        simp [hna]
      · intro x hx hxt
        cases hall x (by omega) hxt with
        | inl h => omega
        | inr h => exact h

theorem le_lead : s ≤ lead s l := by
  induction l generalizing s with
  | nil => exact le_rfl
  | cons p l ih =>
    unfold lead
    split_ifs with h
    · exact (le_max_left _ _).trans ih
    · exact le_rfl

/-- Everything from `s` up to the lead is covered. -/
theorem mem_cover_of_lt_lead (hs : s ≤ x) (hx : x < lead s l) : x ∈ cover l := by
  induction l generalizing s with
  | nil =>
    simp only [lead] at hx
    omega
  | cons p l ih =>
    unfold lead at hx
    split_ifs at hx with h
    · rw [mem_cover_cons]
      by_cases hxp : x < p.2
      · left
        omega
      · exact .inr (ih (by omega) hx)
    · omega

theorem Pieces.lead_notMem (h : Pieces a l) : lead s l ∉ cover l := by
  induction l generalizing a s with
  | nil => simp
  | cons p l ih =>
    obtain ⟨-, h2, h3⟩ := h
    rw [mem_cover_cons]
    unfold lead
    split_ifs with hp
    · have hle : max s p.2 ≤ lead (max s p.2) l := le_lead
      rintro (hx | hx)
      · omega
      · exact ih h3 hx
    · rintro (hx | hx)
      · omega
      · have := h3.le_of_mem hx
        omega

end Sol26.Gaps
