import Sol26.Qsort.Elements

/-!
# The partition of `qst`

The loop moves elements within its part only, and it leaves the pivot at a place where no element
before it is larger and none behind it is smaller. The pivot itself may move in every pass.
-/
namespace Sol26.Qsort

open Option (bind_eq_bind bind_some)

variable {β : Type} {A : Args β} {m m' m'' : ℕ → β} {lo hi i j k mid base max : ℕ}

/-- The comparison is a total preorder. -/
structure Args.Preorder (A : Args β) : Prop where
  total : ∀ x y, A.qcmp x y ≤ 0 ∨ A.qcmp y x ≤ 0
  trans : ∀ x y z, A.qcmp x y ≤ 0 → A.qcmp y z ≤ 0 → A.qcmp x z ≤ 0

/-- The order of two elements of the array. -/
def Args.le (A : Args β) (m : ℕ → β) (i j : ℕ) : Prop :=
  A.qcmp (elem A.qsz m i) (elem A.qsz m j) ≤ 0

theorem Args.Preorder.le_of_not (h : A.Preorder) (hlt : ¬ A.le m i j) : A.le m j i :=
  (h.total _ _).resolve_left hlt

theorem Args.Preorder.refl (h : A.Preorder) (m : ℕ → β) (i : ℕ) : A.le m i i :=
  (h.total _ _).elim id id

theorem cmp_of_lt (hi : i < A.n) (hj : j < A.n) (m : ℕ → β) :
    A.cmp m i j = some (A.qcmp (elem A.qsz m i) (elem A.qsz m j)) :=
  if_pos ⟨hi, hj⟩

/-- The elements of a part are moved within the part. -/
structure Moved (A : Args β) (lo hi : ℕ) (m m' : ℕ → β) : Prop where
  elems : Rearranged lo hi (elem A.qsz m) (elem A.qsz m')
  rest : ∀ x, A.n * A.qsz ≤ x → m' x = m x

theorem Moved.refl (lo hi : ℕ) (m : ℕ → β) : Moved A lo hi m m := ⟨.refl _ _ _, fun _ _ => rfl⟩

theorem Moved.trans (h : Moved A lo hi m m') (h' : Moved A lo hi m' m'') : Moved A lo hi m m'' :=
  ⟨h.elems.trans h'.elems, fun x hx => (h'.rest x hx).trans (h.rest x hx)⟩

theorem Moved.mono {lo' hi' : ℕ} (h : Moved A lo hi m m') (hlo : lo' ≤ lo) (hhi : hi ≤ hi') :
    Moved A lo' hi' m m' :=
  ⟨h.elems.mono hlo hhi, h.rest⟩

theorem swap_moved (hi' : lo ≤ i ∧ i < hi) (hj : lo ≤ j ∧ j < hi) (hn : hi ≤ A.n)
    (hne : i ≠ j) (m : ℕ → β) :
    ∃ m', A.swap i j m = some m' ∧ Moved A lo hi m m' ∧
      elem A.qsz m' i = elem A.qsz m j ∧ elem A.qsz m' j = elem A.qsz m i ∧
      ∀ t, t ≠ i → t ≠ j → elem A.qsz m' t = elem A.qsz m t := by
  obtain ⟨m', hswap, helems, hrest⟩ := swap_elems (A := A) (show i < A.n by omega)
    (show j < A.n by omega) hne m
  refine ⟨m', hswap, ⟨?_, hrest⟩, ?_, ?_, ?_⟩
  · rw [helems]
    exact .swap hi' hj _
  · simp only [helems, Equiv.swap_apply_left]
  · simp only [helems, Equiv.swap_apply_right]
  · intro t hti htj
    simp only [helems, Equiv.swap_apply_of_ne_of_ne hti htj]

/-! ### The scans -/

theorem scanUp_spec (hk : i + k = mid) (hmid : mid < A.n) :
    ∃ i', A.scanUp m mid k i = some i' ∧ i ≤ i' ∧ i' ≤ mid ∧
      (∀ x, i ≤ x → x < i' → A.le m x mid) ∧ (i' < mid → ¬ A.le m i' mid) := by
  induction k generalizing i with
  | zero => exact ⟨i, rfl, le_rfl, by omega, by omega, by omega⟩
  | succ k ih =>
    rw [Args.scanUp, cmp_of_lt (by omega) hmid, bind_eq_bind, bind_some]
    split_ifs with hle
    · obtain ⟨i', hscan, hlo, hhi, hbelow, hstop⟩ := ih (show i + 1 + k = mid by omega)
      refine ⟨i', hscan, by omega, hhi, ?_, hstop⟩
      intro x hx hx'
      by_cases hxi : x = i
      · rw [hxi]
        exact hle
      · exact hbelow x (by omega) hx'
    · exact ⟨i, rfl, le_rfl, by omega, by omega, fun _ => hle⟩

theorem scanDown_spec (hk : mid + k = j) (hj : j < A.n) :
    ∃ j' found, A.scanDown m mid k j = some (j', found) ∧ mid ≤ j' ∧ j' ≤ j ∧
      (∀ x, j' < x → x ≤ j → A.le m mid x) ∧
      (found = true → mid < j' ∧ ¬ A.le m mid j') ∧ (found = false → j' = mid) := by
  induction k generalizing j with
  | zero => exact ⟨j, false, rfl, by omega, le_rfl, by omega, by simp, by omega⟩
  | succ k ih =>
    rw [Args.scanDown, cmp_of_lt (by omega) hj, bind_eq_bind, bind_some]
    split_ifs with hle
    · obtain ⟨j', found, hscan, hlo, hhi, habove, hfound, hnot⟩ :=
        ih (show mid + k = j - 1 by omega) (by omega)
      refine ⟨j', found, hscan, hlo, by omega, ?_, hfound, hnot⟩
      intro x hx hx'
      by_cases hxj : x = j
      · rw [hxj]
        exact hle
      · exact habove x hx (by omega)
    · exact ⟨j, true, rfl, by omega, le_rfl, by omega, fun _ => ⟨by omega, hle⟩, by simp⟩

/-! ### The loop -/

/-- No element of the part up to `i` is larger than the one at `mid`, and none behind `j` is
smaller. -/
structure Around (A : Args β) (lo hi i mid j : ℕ) (m : ℕ → β) : Prop where
  below : ∀ x, lo ≤ x → x < i → A.le m x mid
  above : ∀ x, j < x → x < hi → A.le m mid x

theorem Around.congr (h : Around A lo hi i mid j m) {i' mid' j' : ℕ}
    (hpivot : elem A.qsz m' mid' = elem A.qsz m mid)
    (hbelow : ∀ x, lo ≤ x → x < i' → (x < i ∧ elem A.qsz m' x = elem A.qsz m x) ∨
      A.qcmp (elem A.qsz m' x) (elem A.qsz m mid) ≤ 0)
    (habove : ∀ x, j' < x → x < hi → (j < x ∧ elem A.qsz m' x = elem A.qsz m x) ∨
      A.qcmp (elem A.qsz m mid) (elem A.qsz m' x) ≤ 0) : Around A lo hi i' mid' j' m' := by
  constructor
  · intro x hx hx'
    rw [Args.le, hpivot]
    rcases hbelow x hx hx' with ⟨hlt, heq⟩ | hle
    · rw [heq]
      exact h.below x hx hlt
    · exact hle
  · intro x hx hx'
    rw [Args.le, hpivot]
    rcases habove x hx hx' with ⟨hlt, heq⟩ | hle
    · rw [heq]
      exact h.above x hlt hx'
    · exact hle

theorem partition_spec (hpre : A.Preorder) {fuel : ℕ} {m0 : ℕ → β} (hn : hi ≤ A.n) (hlo : lo ≤ i)
    (hi' : i ≤ mid) (hj : mid ≤ j) (hhi : j < hi) (hfuel : j - i < fuel)
    (hmoved0 : Moved A lo hi m0 m) (h : Around A lo hi i mid j m) :
    ∃ p m', A.partition fuel i mid j m = some (p, m') ∧ lo ≤ p ∧ p < hi ∧ Moved A lo hi m0 m' ∧
      Around A lo hi p p p m' := by
  induction fuel generalizing i mid j m with
  | zero => omega
  | succ fuel ih =>
    obtain ⟨i', hup, hi1, hi2, hbelow, hstop⟩ :=
      scanUp_spec (A := A) (m := m) (show i + (mid - i) = mid by omega) (by omega)
    obtain ⟨j', found, hdown, hj1, hj2, habove, hfound, hnot⟩ :=
      scanDown_spec (A := A) (m := m) (show mid + (j - mid) = j by omega) (by omega)
    have hscan : Around A lo hi i' mid j' m :=
      ⟨fun x hx hx' => if hxi : x < i then h.below x hx hxi else hbelow x (by omega) hx',
        fun x hx hx' => if hxj : j < x then h.above x hxj hx' else habove x hx (by omega)⟩
    simp only [Args.partition, hup, hdown, bind_eq_bind, bind_some]
    cases found with
    | true =>
      obtain ⟨hmj, hlt⟩ := hfound rfl
      obtain ⟨m', hswap, hmoved, hati, hatj, hother⟩ := swap_moved (A := A)
        (show lo ≤ i' ∧ i' < hi by omega) (show lo ≤ j' ∧ j' < hi by omega) hn (by omega) m
      simp only [if_true, hswap, bind_some]
      have hbelow' : ∀ x, lo ≤ x → x < i' + 1 → (x < i' ∧ elem A.qsz m' x = elem A.qsz m x) ∨
          A.qcmp (elem A.qsz m' x) (elem A.qsz m mid) ≤ 0 := by
        intro x _ _
        by_cases hxi : x = i'
        · rw [hxi, hati]
          exact .inr (hpre.le_of_not hlt)
        · exact .inl ⟨by omega, hother x hxi (by omega)⟩
      by_cases heq : i' = mid
      · -- the pivot goes to the place of the smaller element
        subst heq
        rw [if_pos rfl]
        apply ih (by omega) (by omega) (by omega) (by omega) (by omega) (hmoved0.trans hmoved)
        exact hscan.congr hatj hbelow' fun x hx _ => .inl ⟨hx, hother x (by omega) (by omega)⟩
      · rw [if_neg heq]
        apply ih (by omega) (by omega) (by omega) (by omega) (by omega) (hmoved0.trans hmoved)
        apply hscan.congr (hother mid (by omega) (by omega)) hbelow'
        intro x hx hx'
        by_cases hxj : x = j'
        · rw [hxj, hatj]
          exact .inr (hpre.le_of_not (hstop (by omega)))
        · exact .inl ⟨by omega, hother x (by omega) hxj⟩
    | false =>
      have hjm := hnot rfl
      subst hjm
      simp only [Bool.false_eq_true, if_false]
      by_cases heq : i' = j'
      · subst heq
        rw [if_pos rfl]
        exact ⟨i', m, rfl, by omega, by omega, hmoved0, hscan⟩
      · -- the pivot goes down to the place of the larger element
        rw [if_neg heq]
        obtain ⟨m', hswap, hmoved, hati, hatj, hother⟩ := swap_moved (A := A)
          (show lo ≤ i' ∧ i' < hi by omega) (show lo ≤ j' ∧ j' < hi by omega) hn (by omega) m
        simp only [hswap, bind_some]
        apply ih (by omega) (by omega) (by omega) (by omega) (by omega) (hmoved0.trans hmoved)
        apply hscan.congr hati
        · intro x hx hx'
          exact .inl ⟨hx', hother x (by omega) (by omega)⟩
        · intro x hx hx'
          by_cases hxj : x = j'
          · rw [hxj, hatj]
            exact .inr (hpre.le_of_not (hstop (by omega)))
          · exact .inl ⟨by omega, hother x (by omega) hxj⟩

/-! ### The pivot -/

theorem median_spec (hmid : base ≤ mid ∧ mid < max) (hn : max ≤ A.n) (m : ℕ → β) :
    ∃ j, A.median m base mid max = some j ∧ base ≤ j ∧ j < max := by
  have hcmp : ∀ x y : ℕ, base ≤ x ∧ x < max → base ≤ y ∧ y < max → ∃ c, A.cmp m x y = some c :=
    fun x y hx hy => ⟨_, cmp_of_lt (by omega) (by omega) m⟩
  have hlast : base ≤ max - 1 ∧ max - 1 < max := by omega
  have hside : ∀ (p : Prop) [Decidable p] (x y : ℕ), base ≤ x ∧ x < max → base ≤ y ∧ y < max →
      base ≤ (if p then x else y) ∧ (if p then x else y) < max := by
    intro p _ x y hx hy
    split_ifs
    · exact hx
    · exact hy
  have hbase : base ≤ base ∧ base < max := by omega
  obtain ⟨c, hc⟩ := hcmp base mid hbase hmid
  obtain ⟨c', hc'⟩ := hcmp _ _ (hside (0 < c) base mid hbase hmid) hlast
  have hloser := hside ((if 0 < c then base else mid) = base) mid base hmid hbase
  obtain ⟨c'', hc''⟩ := hcmp _ _ hloser hlast
  simp only [Args.median, hc, hc', hc'', bind_eq_bind, bind_some]
  split_ifs
  all_goals exact ⟨_, rfl, by omega⟩

theorem middle_spec (hmid : base ≤ mid ∧ mid < max) (hn : max ≤ A.n) (lo : ℤ) (m : ℕ → β) :
    ∃ m', A.middle base mid max lo m = some m' ∧ Moved A base max m m' := by
  rw [Args.middle]
  split_ifs with hlo
  · obtain ⟨j, hj, hj1, hj2⟩ := median_spec hmid hn m
    simp only [hj, bind_eq_bind, bind_some]
    split_ifs with hne
    · obtain ⟨m', hswap, hmoved, -⟩ := swap_moved hmid ⟨hj1, hj2⟩ hn (Ne.symm hne) m
      exact ⟨m', hswap, hmoved⟩
    · exact ⟨m, rfl, .refl _ _ m⟩
  · exact ⟨m, rfl, .refl _ _ m⟩

end Sol26.Qsort
