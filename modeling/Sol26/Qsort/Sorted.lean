import Sol26.Qsort.Quick

/-!
# `qsort` sorts

The insertion sort has no check of the bounds. It needs none: the quicksort leaves the least
element among the first ones, it is put into the first place, and no search for a place goes
beyond it.
-/
namespace Sol26.Qsort

open Option (bind_eq_bind bind_some)

variable {β : Type} {A : Args β} {m m' : ℕ → β} {k min : ℕ}

theorem least_spec (hpre : A.Preorder) {lo j : ℕ} (hj : j < lo) (hn : lo + k ≤ A.n)
    (hleast : ∀ x < lo, A.le m j x) :
    ∃ j', A.least m k lo j = some j' ∧ j' < lo + k ∧ ∀ x < lo + k, A.le m j' x := by
  induction k generalizing lo j with
  | zero => exact ⟨j, rfl, hj, hleast⟩
  | succ k ih =>
    rw [Args.least, cmp_of_lt (by omega) (by omega), bind_eq_bind, bind_some]
    have hnext : (if 0 < A.qcmp (elem A.qsz m j) (elem A.qsz m lo) then lo else j) < lo + 1 ∧
        ∀ x < lo + 1, A.le m
          (if 0 < A.qcmp (elem A.qsz m j) (elem A.qsz m lo) then lo else j) x := by
      split_ifs with hgt
      · have hle : A.le m lo j := hpre.le_of_not (by rw [Args.le]; omega)
        refine ⟨by omega, fun x hx => ?_⟩
        by_cases hxl : x = lo
        · rw [hxl]
          exact hpre.refl m lo
        · exact hpre.trans _ _ _ hle (hleast x (by omega))
      · refine ⟨by omega, fun x hx => ?_⟩
        by_cases hxl : x = lo
        · rw [hxl, Args.le]
          omega
        · exact hleast x (by omega)
    obtain ⟨j', hj', hlt, hle⟩ := ih hnext.1 (by omega) hnext.2
    exact ⟨j', hj', by omega, fun x hx => hle x (by omega)⟩

/-- The search for the place stops at the first element at the latest. -/
theorem place_spec {hi : ℕ} (hle : hi ≤ min) (hmin : min < A.n) (hpos : 0 < hi)
    (hfirst : A.le m 0 min) :
    ∃ h, A.place m min hi = some h ∧ h < hi ∧ A.le m h min ∧
      ∀ x, h < x → x < hi → ¬ A.le m x min := by
  induction hi with
  | zero => omega
  | succ hi ih =>
    rw [Args.place, cmp_of_lt (by omega) hmin, bind_eq_bind, bind_some]
    split_ifs with hgt
    · have hne : hi ≠ 0 := by
        rintro rfl
        rw [Args.le] at hfirst
        omega
      obtain ⟨h, hplace, hlt, hh, hbetween⟩ := ih (by omega) (by omega)
      refine ⟨h, hplace, by omega, hh, ?_⟩
      intro x hx hx'
      by_cases hxh : x = hi
      · rw [hxh, Args.le]
        omega
      · exact hbetween x hx (by omega)
    · exact ⟨hi, rfl, by omega, by rw [Args.le]; omega, by omega⟩

/-- The elements up to `min` are in order. -/
def Ordered (A : Args β) (min : ℕ) (m : ℕ → β) : Prop := ∀ x y, x < y → y < min → A.le m x y

theorem Ordered.append {h : ℕ} (hpre : A.Preorder) (ho : Ordered A min m) (hmin : h + 1 = min)
    (hle : A.le m h min) : Ordered A (min + 1) m := by
  intro x y hxy hy
  by_cases hym : y = min
  · subst hym
    by_cases hxh : x = h
    · rw [hxh]
      exact hle
    · exact hpre.trans _ _ _ (ho x h (by omega) (by omega)) hle
  · exact ho x y hxy (by omega)

/-- An element is put behind those that are not larger. -/
theorem Ordered.insert {h : ℕ} (hpre : A.Preorder) (ho : Ordered A min m) (hlt : h < min)
    (hle : A.le m h min) (hbetween : ∀ x, h < x → x < min → ¬ A.le m x min)
    (helems : elem A.qsz m' = rotated (h + 1) min (elem A.qsz m)) :
    Ordered A (min + 1) m' := by
  have hbefore : ∀ {x}, x ≤ h → elem A.qsz m' x = elem A.qsz m x := by
    intro x hx
    rw [helems, rotated, if_neg (by omega), if_neg (by omega)]
  have hplace : elem A.qsz m' (h + 1) = elem A.qsz m min := by
    rw [helems, rotated, if_pos rfl]
  have hbehind : ∀ {x}, h + 1 < x → x ≤ min → elem A.qsz m' x = elem A.qsz m (x - 1) := by
    intro x hx hx'
    rw [helems, rotated, if_neg (by omega), if_pos ⟨hx, hx'⟩]
  have hupto : ∀ {x}, x ≤ h → A.le m x min := by
    intro x hx
    by_cases hxh : x = h
    · rw [hxh]
      exact hle
    · exact hpre.trans _ _ _ (ho x h (by omega) (by omega)) hle
  intro x y hxy hy
  rw [Args.le]
  by_cases hyh : y ≤ h
  · rw [hbefore hyh, hbefore (show x ≤ h by omega)]
    exact ho x y hxy (by omega)
  · by_cases hyp : y = h + 1
    · rw [hyp, hplace, hbefore (show x ≤ h by omega)]
      exact hupto (by omega)
    · rw [hbehind (show h + 1 < y by omega) (by omega)]
      by_cases hxh : x ≤ h
      · rw [hbefore hxh]
        exact ho x (y - 1) (by omega) (by omega)
      · by_cases hxp : x = h + 1
        · rw [hxp, hplace]
          exact hpre.le_of_not (hbetween (y - 1) (by omega) (by omega))
        · rw [hbehind (show h + 1 < x by omega) (by omega)]
          exact ho (x - 1) (y - 1) (by omega) (by omega)

theorem insertionSort_spec (hpre : A.Preorder) (hk : min + k = A.n) (hpos : 0 < min)
    (ho : Ordered A min m) (hfirst : ∀ x < A.n, A.le m 0 x) :
    ∃ m', A.insertionSort k min m = some m' ∧ Moved A 0 A.n m m' ∧ Ordered A A.n m' := by
  induction k generalizing min m with
  | zero =>
    obtain rfl : min = A.n := by omega
    exact ⟨m, rfl, .refl _ _ m, ho⟩
  | succ k ih =>
    obtain ⟨h, hplace, hlt, hle, hbetween⟩ := place_spec (A := A) (m := m) (le_refl min)
      (by omega) hpos (hfirst min (by omega))
    simp only [Args.insertionSort, hplace, bind_eq_bind, bind_some]
    by_cases heq : h + 1 = min
    · rw [if_neg (by omega)]
      exact ih (by omega) (by omega) (ho.append hpre heq hle) hfirst
    · rw [if_pos heq]
      obtain ⟨m1, hinsert, helems, hrest⟩ := insert_elems (A := A) (show h + 1 ≤ min by omega)
        (by omega) m
      have hmoved : Moved A 0 A.n m m1 := by
        refine ⟨?_, hrest⟩
        rw [helems]
        exact (rearranged_rotated (by omega) _).mono (Nat.zero_le _) (by omega)
      have hfirst1 : ∀ x < A.n, A.le m1 0 x := by
        intro x hx
        have hzero : elem A.qsz m1 0 = elem A.qsz m 0 := by
          rw [helems, rotated, if_neg (by omega), if_neg (by omega)]
        obtain ⟨y, -, hy, hxy⟩ := hmoved.elems.inside ⟨Nat.zero_le x, hx⟩
        rw [Args.le, hzero, hxy]
        exact hfirst y hy
      obtain ⟨m2, hsort, hmoved2, hsorted⟩ := ih (by omega) (by omega)
        (ho.insert hpre hlt hle hbetween helems) hfirst1
      simp only [hinsert, bind_some]
      exact ⟨m2, hsort, hmoved.trans hmoved2, hsorted⟩

/-- With the least element among the first `hi`, the rest of `qsort` sorts. -/
theorem finish_spec (hpre : A.Preorder) {hi : ℕ} (hpos : 0 < hi) (hn : hi ≤ A.n)
    (hleast : ∀ y, hi ≤ y → y < A.n → ∃ x < hi, A.le m x y) :
    ∃ m', A.finish hi m = some m' ∧ Moved A 0 A.n m m' ∧ Ordered A A.n m' := by
  obtain ⟨j, hj, hjlt, hjle⟩ := least_spec (A := A) (m := m) (k := hi - 1) hpre
    (show 0 < 1 by omega) (by omega) (fun x hx => by rw [Nat.lt_one_iff.1 hx]; exact hpre.refl m 0)
  have hall : ∀ x < A.n, A.le m j x := by
    intro x hx
    by_cases hxh : x < hi
    · exact hjle x (by omega)
    · obtain ⟨y, hy, hyx⟩ := hleast x (by omega) hx
      exact hpre.trans _ _ _ (hjle y (by omega)) hyx
  have hone : ∀ m1 : ℕ → β, Ordered A 1 m1 := fun m1 x y hxy hy => by omega
  simp only [Args.finish, hj, bind_eq_bind, bind_some]
  by_cases hj0 : j = 0
  · subst hj0
    rw [if_neg (by omega)]
    exact insertionSort_spec hpre (by omega) (by omega) (hone m) hall
  · rw [if_pos hj0]
    obtain ⟨m1, hswap, helems, hrest⟩ := swapChars_elems (A := A) (show j < A.n by omega)
      (show 0 < A.n by omega) hj0 m
    rw [Nat.zero_mul] at hswap
    have hmoved : Moved A 0 A.n m m1 := by
      refine ⟨?_, hrest⟩
      rw [helems]
      exact .swap (by omega) (by omega) _
    have hfirst : ∀ x < A.n, A.le m1 0 x := by
      intro x hx
      have hzero : elem A.qsz m1 0 = elem A.qsz m j := by
        simp only [helems, Equiv.swap_apply_right]
      obtain ⟨y, -, hy, hxy⟩ := hmoved.elems.inside ⟨Nat.zero_le x, hx⟩
      rw [Args.le, hzero, hxy]
      exact hall y hy
    obtain ⟨m2, hsort, hmoved2, hsorted⟩ := insertionSort_spec hpre (k := A.n - 1)
      (show 1 + (A.n - 1) = A.n by omega) (by omega) (hone m1) hfirst
    simp only [hswap, bind_some]
    exact ⟨m2, hsort, hmoved.trans hmoved2, hsorted⟩

/-- The elements of the array. -/
def Args.elements (A : Args β) (m : ℕ → β) : List (List β) :=
  (List.range A.n).map (elem A.qsz m)

/-- Every array is sorted, without an access outside of its elements and with at most 31 frames
on the stack. -/
theorem qsort_sorts (hpre : A.Preorder) (hsmall : A.Small) (m : ℕ → β) :
    ∃ m', A.qsort m = some m' ∧ (A.elements m').Perm (A.elements m) ∧
      (A.elements m').Pairwise (fun x y => A.qcmp x y ≤ 0) ∧
      ∀ x, A.n * A.qsz ≤ x → m' x = m x := by
  have hresult : ∃ m', A.qsort m = some m' ∧ Moved A 0 A.n m m' ∧ Ordered A A.n m' := by
    rw [Args.qsort]
    split_ifs with hfew hmany
    · exact ⟨m, rfl, .refl _ _ m, fun x y hxy hy => by omega⟩
    · obtain ⟨m1, hqst, hmoved, hnear⟩ := qst_spec hpre hsmall hmany m
      have hT : THRESH = 14 := rfl
      obtain ⟨m2, hfinish, hmoved2, hsorted⟩ := finish_spec (A := A) (m := m1) hpre
        (show 0 < THRESH by omega) hmany
        (fun y hy hy' => ⟨0, by omega, hnear 0 y (by omega) hy'⟩)
      simp only [hqst, bind_eq_bind, bind_some]
      exact ⟨m2, hfinish, hmoved.trans hmoved2, hsorted⟩
    · exact finish_spec hpre (by omega) le_rfl (fun y hy hy' => by omega)
  obtain ⟨m', hqsort, hmoved, hsorted⟩ := hresult
  refine ⟨m', hqsort, hmoved.elems.perm, ?_, hmoved.rest⟩
  rw [Args.elements, List.pairwise_map]
  refine List.pairwise_lt_range.imp_of_mem ?_
  intro x y _ hy hxy
  exact hsorted x y hxy (List.mem_range.1 hy)

/-- Forty elements of two bytes each, ordered by the first of them. -/
def forty : Args ℕ := ⟨40, 2, fun x y => (x.headD 0 : ℤ) - y.headD 0, false⟩

theorem qsort_sorts_forty :
    ∃ m', forty.qsort (fun x => 23 * x % 17) = some m' ∧
      (forty.elements m').Perm (forty.elements fun x => 23 * x % 17) ∧
      (forty.elements m').Pairwise (fun x y => forty.qcmp x y ≤ 0) := by
  have hpre : forty.Preorder :=
    ⟨fun x y => by simp only [forty]; omega, fun x y z hxy hyz => by simp only [forty] at *; omega⟩
  obtain ⟨m', hm', hperm, hsorted, -⟩ := qsort_sorts hpre ⟨by decide, by decide⟩ fun x => 23 * x % 17
  exact ⟨m', hm', hperm, hsorted⟩

end Sol26.Qsort
