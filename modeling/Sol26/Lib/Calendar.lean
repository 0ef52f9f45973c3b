import Mathlib.Tactic

/-!
# The Gregorian calendar

Days are numbered from 1 January 1970, years are astronomical, and the months of a year are
numbered from zero. A day is named by its year and its day of the year, or by its year, its month
and its day of the month; both names are unique.
-/
namespace Sol26.Calendar

/-- The leap years. -/
def Leap (y : ℤ) : Prop := 4 ∣ y ∧ (100 ∣ y → 400 ∣ y)

instance (y : ℤ) : Decidable (Leap y) := by unfold Leap; infer_instance

def yearLength (y : ℤ) : ℤ := if Leap y then 366 else 365

def monthLength (y : ℤ) : ℕ → ℕ
  | 1 => if Leap y then 29 else 28
  | 3 | 5 | 8 | 10 => 30
  | _ => 31

/-- The days of the year before a month. -/
def monthStart (y : ℤ) : ℕ → ℤ
  | 0 => 0
  | k + 1 => monthStart y k + monthLength y k

/-- The number of the first day of a year. -/
def yearStart (y : ℤ) : ℤ :=
  365 * (y - 1970) + ((y - 1) / 4 - 492) - ((y - 1) / 100 - 19) + ((y - 1) / 400 - 4)

/-- The day of the week, from Sunday; day zero was a Thursday. -/
def weekday (n : ℤ) : ℤ := (4 + n) % 7

theorem leap_iff (y : ℤ) : Leap y ↔ y % 4 = 0 ∧ (y % 100 ≠ 0 ∨ y % 400 = 0) := by
  unfold Leap
  omega

theorem yearStart_succ (y : ℤ) : yearStart (y + 1) = yearStart y + yearLength y := by
  unfold yearStart yearLength
  simp only [leap_iff]
  split_ifs <;> omega

theorem yearLength_pos (y : ℤ) : 0 < yearLength y := by
  unfold yearLength
  split_ifs <;> norm_num

theorem yearStart_strictMono : StrictMono yearStart := by
  refine strictMono_int_of_lt_succ fun y => ?_
  have h := yearLength_pos y
  rw [yearStart_succ]
  omega

/-- The year of a day is unique. -/
theorem year_unique {y y' d d' : ℤ} (h : yearStart y + d = yearStart y' + d') (h0 : 0 ≤ d)
    (h1 : d < yearLength y) (h0' : 0 ≤ d') (h1' : d' < yearLength y') : y = y' ∧ d = d' := by
  have hnext : ∀ {a b : ℤ}, a < b → yearStart a + yearLength a ≤ yearStart b := fun {a b} hab => by
    rw [← yearStart_succ]
    exact yearStart_strictMono.monotone hab
  have hy : y = y' := by
    by_contra hne
    obtain hlt | hlt := lt_or_gt_of_ne hne
    · have := hnext hlt
      omega
    · have := hnext hlt
      omega
  subst hy
  exact ⟨rfl, by omega⟩

theorem monthLength_mem (y : ℤ) (k : ℕ) : 28 ≤ monthLength y k ∧ monthLength y k ≤ 31 := by
  unfold monthLength
  split
  · split_ifs <;> norm_num
  all_goals norm_num

theorem monthStart_year (y : ℤ) : monthStart y 12 = yearLength y := by
  simp only [monthStart, monthLength, yearLength]
  split_ifs <;> norm_num

theorem monthStart_strictMono (y : ℤ) : StrictMono (monthStart y) := by
  refine strictMono_nat_of_lt_succ fun k => ?_
  have h := monthLength_mem y k
  simp only [monthStart]
  omega

/-- The month of a day of the year is unique. -/
theorem month_unique {y : ℤ} {k k' : ℕ} {d d' : ℤ}
    (h : monthStart y k + d = monthStart y k' + d') (h0 : 0 ≤ d) (h1 : d < monthLength y k)
    (h0' : 0 ≤ d') (h1' : d' < monthLength y k') : k = k' ∧ d = d' := by
  have hnext : ∀ {a b : ℕ}, a < b → monthStart y a + monthLength y a ≤ monthStart y b :=
    fun {a b} hab => (monthStart_strictMono y).monotone (Nat.succ_le_of_lt hab)
  have hk : k = k' := by
    by_contra hne
    obtain hlt | hlt := lt_or_gt_of_ne hne
    · have := hnext hlt
      omega
    · have := hnext hlt
      omega
  subst hk
  exact ⟨rfl, by omega⟩

/-! ### Weekdays of a month -/

/-- The days of the year in a month that fall on a day of the week, in order. -/
def weekdaysIn (y : ℤ) (k : ℕ) (wd : ℤ) : List ℤ :=
  ((List.range (monthLength y k)).map fun i : ℕ => monthStart y k + (i : ℤ)).filter fun d =>
    weekday (yearStart y + d) = wd

/-- The `n`-th day of a month that falls on a day of the week; the fifth is the last one. -/
def nthWeekday (y : ℤ) (k n : ℕ) (wd : ℤ) : Option ℤ :=
  if n = 5 then (weekdaysIn y k wd).getLast? else (weekdaysIn y k wd)[n - 1]?

/-- How many days of a month come before the first one that falls on a day of the week. -/
def untilWeekday (y : ℤ) (k : ℕ) (wd : ℤ) : ℤ :=
  (wd - weekday (yearStart y + monthStart y k)) % 7

/-- Every seventh day of a stretch of at least four and less than five weeks. -/
private theorem sevenths :
    ∀ len < 32, 28 ≤ len → ∀ f < 7,
      (List.range len).filter (fun i => i % 7 = f) =
        [f, f + 7, f + 14, f + 21] ++ if f + 28 < len then [f + 28] else [] := by
  decide +kernel

theorem weekdaysIn_eq (y : ℤ) (k : ℕ) (wd : ℤ) (h0 : 0 ≤ wd) (h7 : wd < 7) :
    weekdaysIn y k wd =
      let first := monthStart y k + untilWeekday y k wd
      [first, first + 7, first + 14, first + 21] ++
        if untilWeekday y k wd + 28 < monthLength y k then [first + 28] else [] := by
  obtain ⟨f, hf⟩ : ∃ f : ℕ, untilWeekday y k wd = f := by
    refine ⟨(untilWeekday y k wd).toNat, ?_⟩
    unfold untilWeekday
    omega
  have hf7 : f < 7 := by
    unfold untilWeekday at hf
    omega
  have hlen := monthLength_mem y k
  have hfilter : (fun i : ℕ => decide (weekday (yearStart y + (monthStart y k + (i : ℤ))) = wd)) =
      fun i => decide (i % 7 = f) := by
    funext i
    unfold untilWeekday weekday at hf
    refine decide_eq_decide.2 ?_
    unfold weekday
    omega
  unfold weekdaysIn
  rw [List.filter_map, Function.comp_def, hfilter, sevenths _ (by omega) hlen.1 f hf7, hf]
  by_cases h : f + 28 < monthLength y k
  · have h' : (f : ℤ) + 28 < monthLength y k := by omega
    simp [h, h', add_assoc]
  · have h' : ¬ (f : ℤ) + 28 < monthLength y k := by omega
    simp [h, h', add_assoc]

theorem untilWeekday_mem (y : ℤ) (k : ℕ) (wd : ℤ) :
    0 ≤ untilWeekday y k wd ∧ untilWeekday y k wd < 7 := by
  unfold untilWeekday
  omega

theorem nthWeekday_lt_five {y wd : ℤ} {k n : ℕ} (h0 : 0 ≤ wd) (h7 : wd < 7) (hn : 1 ≤ n)
    (hn5 : n < 5) :
    nthWeekday y k n wd = some (monthStart y k + untilWeekday y k wd + 7 * (n - 1 : ℤ)) := by
  rw [nthWeekday, if_neg (by omega), weekdaysIn_eq y k wd h0 h7]
  dsimp only
  rw [List.getElem?_append_left (by simp; omega)]
  interval_cases n <;> simp

theorem nthWeekday_five {y wd : ℤ} {k : ℕ} (h0 : 0 ≤ wd) (h7 : wd < 7) :
    nthWeekday y k 5 wd = some (monthStart y k + untilWeekday y k wd +
      if untilWeekday y k wd + 28 < monthLength y k then 28 else 21) := by
  rw [nthWeekday, if_pos rfl, weekdaysIn_eq y k wd h0 h7]
  dsimp only
  split_ifs <;> simp

end Sol26.Calendar
