import Sol26.Lib.Calendar

/-!
# Broken-down time

`offtime_u` of `time_comm.c` turns seconds since the epoch into the fields of a `struct tm`: days
and seconds of the day first, then years and months by subtraction.
-/
namespace Sol26.Time

open Calendar

def secsPerDay : ℤ := 86400
def secsPerHour : ℤ := 3600
def secsPerMin : ℤ := 60

/-- `struct tm`. -/
structure Tm where
  sec : ℤ
  min : ℤ
  hour : ℤ
  mday : ℤ
  mon : ℤ
  year : ℤ
  wday : ℤ
  yday : ℤ
  isdst : ℤ
deriving DecidableEq, Repr

/-- `isleap` of `tzfile.h`. -/
def isleap (y : ℤ) : Bool := y.tmod 4 == 0 && (y.tmod 100 != 0 || y.tmod 400 == 0)

/-- `__year_lengths`. -/
def yearLengths (leap : Bool) : ℤ := if leap then 366 else 365

/-- `__mon_lengths`. -/
def monLengths (leap : Bool) : List ℤ :=
  if leap then [31, 29, 31, 30, 31, 30, 31, 31, 30, 31, 30, 31]
  else [31, 28, 31, 30, 31, 30, 31, 31, 30, 31, 30, 31]

/-- `while (rem < 0)`. -/
def borrowDays : ℕ → ℤ → ℤ → ℤ × ℤ
  | 0, rem, days => (rem, days)
  | fuel + 1, rem, days =>
    if rem < 0 then borrowDays fuel (rem + secsPerDay) (days - 1) else (rem, days)

/-- `while (rem >= SECS_PER_DAY)`. -/
def carryDays : ℕ → ℤ → ℤ → ℤ × ℤ
  | 0, rem, days => (rem, days)
  | fuel + 1, rem, days =>
    if secsPerDay ≤ rem then carryDays fuel (rem - secsPerDay) (days + 1) else (rem, days)

/-- The year loop for days from the epoch on. -/
def yearsUp : ℕ → ℤ → ℤ → ℤ × ℤ
  | 0, y, days => (y, days)
  | fuel + 1, y, days =>
    if days < yearLengths (isleap y) then (y, days)
    else yearsUp fuel (y + 1) (days - yearLengths (isleap y))

/-- The year loop for days before the epoch. -/
def yearsDown : ℕ → ℤ → ℤ → ℤ × ℤ
  | 0, y, days => (y, days)
  | fuel + 1, y, days =>
    if days + yearLengths (isleap (y - 1)) < 0 then
      yearsDown fuel (y - 1) (days + yearLengths (isleap (y - 1)))
    else (y - 1, days + yearLengths (isleap (y - 1)))

/-- The month loop, over what is left of the row of month lengths. -/
def months : List ℤ → ℤ → ℤ → ℤ × ℤ
  | [], mon, days => (mon, days)
  | len :: ip, mon, days => if len ≤ days then months ip (mon + 1) (days - len) else (mon, days)

def years (days : ℤ) : ℤ × ℤ :=
  if 0 ≤ days then yearsUp (days.toNat + 1) 1970 days else yearsDown (-days).toNat 1970 days

def offtime (clock offset : ℤ) : Tm :=
  let rem0 := clock.tmod secsPerDay + offset
  let (rem1, days1) := borrowDays (-rem0).toNat rem0 (clock.tdiv secsPerDay)
  let (rem, days) := carryDays rem1.toNat rem1 days1
  let wday := (4 + days).tmod 7
  let (y, yday) := years days
  let (mon, left) := months (monLengths (isleap y)) 0 yday
  { sec := (rem.tmod secsPerHour).tmod secsPerMin
    min := (rem.tmod secsPerHour).tdiv secsPerMin
    hour := rem.tdiv secsPerHour
    mday := left + 1
    mon := mon
    year := y - 1900
    wday := if wday < 0 then wday + 7 else wday
    yday := yday
    isdst := 0 }

def gmtime (clock : ℤ) : Tm := offtime clock 0

/-! ### The fields are the date -/

/-- The fields are the Gregorian date, the weekday and the time of day of a second. -/
structure Tm.IsAt (tm : Tm) (s : ℤ) : Prop where
  day : yearStart (tm.year + 1900) + tm.yday = s / 86400
  yday_nonneg : 0 ≤ tm.yday
  yday_lt : tm.yday < yearLength (tm.year + 1900)
  date : ∃ k < 12, tm.mon = ((k : ℕ) : ℤ) ∧
    monthStart (tm.year + 1900) k + (tm.mday - 1) = tm.yday ∧
    1 ≤ tm.mday ∧ tm.mday ≤ monthLength (tm.year + 1900) k
  wday : tm.wday = weekday (s / 86400)
  hour : 0 ≤ tm.hour ∧ tm.hour < 24
  min : 0 ≤ tm.min ∧ tm.min < 60
  sec : 0 ≤ tm.sec ∧ tm.sec < 60
  time : tm.hour * 3600 + tm.min * 60 + tm.sec = s % 86400

/-- A second is determined by its fields. -/
theorem Tm.IsAt.inj {tm : Tm} {s s' : ℤ} (h : tm.IsAt s) (h' : tm.IsAt s') : s = s' := by
  have hd := h.day.symm.trans h'.day
  have ht := h.time.symm.trans h'.time
  omega

theorem isleap_iff (y : ℤ) : isleap y = true ↔ Leap y := by
  simp only [isleap, leap_iff, Bool.and_eq_true, Bool.or_eq_true, beq_iff_eq, bne_iff_ne, ne_eq]
  have h := fun n : ℤ => Int.dvd_iff_tmod_eq_zero (a := n) (b := y)
  have e := fun n : ℤ => Int.dvd_iff_emod_eq_zero (a := n) (b := y)
  simp only [← h, ← e]

theorem yearLengths_isleap (y : ℤ) : yearLengths (isleap y) = yearLength y := by
  unfold yearLengths yearLength
  simp only [isleap_iff]

theorem monLengths_isleap (y : ℤ) :
    monLengths (isleap y) = (List.range 12).map fun k : ℕ => ((monthLength y k : ℕ) : ℤ) := by
  unfold monLengths
  simp only [isleap_iff]
  by_cases h : Leap y <;> simp [List.range_succ, monthLength, h]

theorem borrowDays_spec : ∀ (fuel : ℕ) (rem days : ℤ), -rem ≤ fuel →
    0 ≤ (borrowDays fuel rem days).1 ∧
    (borrowDays fuel rem days).1 + secsPerDay * (borrowDays fuel rem days).2 =
      rem + secsPerDay * days := by
  intro fuel
  induction fuel with
  | zero =>
    intro rem days h
    exact ⟨by simpa [borrowDays] using h, rfl⟩
  | succ fuel ih =>
    intro rem days h
    rw [borrowDays]
    split_ifs with hr
    · obtain ⟨h0, he⟩ := ih (rem + secsPerDay) (days - 1) (by unfold secsPerDay; omega)
      exact ⟨h0, by rw [he]; ring⟩
    · exact ⟨by omega, rfl⟩

theorem carryDays_spec : ∀ (fuel : ℕ) (rem days : ℤ), 0 ≤ rem → rem ≤ fuel →
    0 ≤ (carryDays fuel rem days).1 ∧ (carryDays fuel rem days).1 < secsPerDay ∧
    (carryDays fuel rem days).1 + secsPerDay * (carryDays fuel rem days).2 =
      rem + secsPerDay * days := by
  intro fuel
  induction fuel with
  | zero =>
    intro rem days h0 h
    exact ⟨h0, by simp only [carryDays, secsPerDay]; omega, rfl⟩
  | succ fuel ih =>
    intro rem days h0 h
    rw [carryDays]
    split_ifs with hr
    · unfold secsPerDay at hr
      obtain ⟨h0, h1, he⟩ := ih (rem - secsPerDay) (days + 1) (by unfold secsPerDay; omega)
        (by unfold secsPerDay; omega)
      exact ⟨h0, h1, by rw [he]; ring⟩
    · exact ⟨by omega, by omega, rfl⟩

theorem yearsUp_spec : ∀ (fuel : ℕ) (y days : ℤ), 0 ≤ days → days < fuel →
    0 ≤ (yearsUp fuel y days).2 ∧
    (yearsUp fuel y days).2 < yearLength (yearsUp fuel y days).1 ∧
    yearStart (yearsUp fuel y days).1 + (yearsUp fuel y days).2 = yearStart y + days := by
  intro fuel
  induction fuel with
  | zero =>
    intro y days h0 h
    omega
  | succ fuel ih =>
    intro y days h0 h
    rw [yearsUp, yearLengths_isleap]
    have hpos := yearLength_pos y
    split_ifs with hd
    · exact ⟨h0, hd, rfl⟩
    · obtain ⟨h0, h1, he⟩ := ih (y + 1) (days - yearLength y) (by omega) (by omega)
      refine ⟨h0, h1, ?_⟩
      rw [he, yearStart_succ]
      ring

theorem yearsDown_spec : ∀ (fuel : ℕ) (y days : ℤ), days < 0 → -days ≤ fuel →
    0 ≤ (yearsDown fuel y days).2 ∧
    (yearsDown fuel y days).2 < yearLength (yearsDown fuel y days).1 ∧
    yearStart (yearsDown fuel y days).1 + (yearsDown fuel y days).2 = yearStart y + days := by
  intro fuel
  induction fuel with
  | zero =>
    intro y days h0 h
    omega
  | succ fuel ih =>
    intro y days h0 h
    have hpos := yearLength_pos (y - 1)
    have hstart := yearStart_succ (y - 1)
    rw [sub_add_cancel] at hstart
    rw [yearsDown, yearLengths_isleap]
    split_ifs with hd
    · obtain ⟨h0, h1, he⟩ := ih (y - 1) (days + yearLength (y - 1)) hd (by omega)
      exact ⟨h0, h1, by rw [he]; omega⟩
    · exact ⟨by dsimp only; omega, by dsimp only; omega, by dsimp only; omega⟩

theorem years_spec (days : ℤ) :
    0 ≤ (years days).2 ∧ (years days).2 < yearLength (years days).1 ∧
    yearStart (years days).1 + (years days).2 = days := by
  have hepoch : yearStart 1970 = 0 := by decide
  unfold years
  split_ifs with h
  · obtain ⟨h0, h1, he⟩ := yearsUp_spec (days.toNat + 1) 1970 days h (by omega)
    exact ⟨h0, h1, by rw [he, hepoch, zero_add]⟩
  · obtain ⟨h0, h1, he⟩ := yearsDown_spec (-days).toNat 1970 days (by omega) (by omega)
    exact ⟨h0, h1, by rw [he, hepoch, zero_add]⟩

/-- The month loop started at month `k` with `n` months of the year to go. -/
theorem months_spec (y : ℤ) : ∀ (n k : ℕ) (days : ℤ), 0 ≤ days →
    monthStart y k + days < monthStart y (k + n) →
    ∃ j < k + n, ∃ d : ℤ,
      months ((List.range' k n).map fun i : ℕ => ((monthLength y i : ℕ) : ℤ)) k days =
      (((j : ℕ) : ℤ), d) ∧ 0 ≤ d ∧ d < monthLength y j ∧
      monthStart y j + d = monthStart y k + days := by
  intro n
  induction n with
  | zero =>
    intro k days h0 h
    rw [Nat.add_zero] at h
    omega
  | succ n ih =>
    intro k days h0 h
    rw [List.range'_succ, List.map_cons, months]
    split_ifs with hd
    · have hstart : monthStart y (k + 1) = monthStart y k + monthLength y k := rfl
      obtain ⟨j, hj, d, he, hd0, hd1, hs⟩ := ih (k + 1) (days - monthLength y k) (by omega)
        (by rw [show k + 1 + n = k + (n + 1) by omega]; omega)
      refine ⟨j, by omega, d, ?_, hd0, hd1, by omega⟩
      rw [← he]
      push_cast
      rfl
    · exact ⟨k, by omega, days, rfl, h0, by omega, rfl⟩

/-- `offtime_u` computes the Gregorian date. -/
theorem offtime_isAt (clock offset : ℤ) : (offtime clock offset).IsAt (clock + offset) := by
  set rem0 := clock.tmod secsPerDay + offset with hrem0
  obtain ⟨hb0, hb⟩ := borrowDays_spec (-rem0).toNat rem0 (clock.tdiv secsPerDay) (by omega)
  set b := borrowDays (-rem0).toNat rem0 (clock.tdiv secsPerDay) with hbdef
  obtain ⟨hc0, hc1, hc⟩ := carryDays_spec b.1.toNat b.1 b.2 hb0 (by omega)
  set c := carryDays b.1.toNat b.1 b.2 with hcdef
  have hsum : c.1 + 86400 * c.2 = clock + offset := by
    have hdm := Int.tmod_add_mul_tdiv clock secsPerDay
    rw [hb, hrem0] at hc
    unfold secsPerDay at hc hdm
    omega
  unfold secsPerDay at hc1
  have hday : (clock + offset) / 86400 = c.2 := by omega
  have hrem : (clock + offset) % 86400 = c.1 := by omega
  obtain ⟨hy0, hy1, hy⟩ := years_spec c.2
  set y := years c.2 with hydef
  obtain ⟨k, hk, d, hm, hd0, hd1, hs⟩ := months_spec y.1 12 0 y.2 hy0
    (by rw [Nat.zero_add, monthStart_year]; simpa [monthStart] using hy1)
  rw [← List.range_eq_range', ← monLengths_isleap] at hm
  have hoff : offtime clock offset =
      { sec := (c.1.tmod secsPerHour).tmod secsPerMin
        min := (c.1.tmod secsPerHour).tdiv secsPerMin
        hour := c.1.tdiv secsPerHour
        mday := d + 1
        mon := k
        year := y.1 - 1900
        wday := if (4 + c.2).tmod 7 < 0 then (4 + c.2).tmod 7 + 7 else (4 + c.2).tmod 7
        yday := y.2
        isdst := 0 } := by
    simp only [offtime, ← hrem0, ← hbdef, ← hcdef, ← hydef]
    rw [show months (monLengths (isleap y.1)) 0 y.2 = ((k : ℤ), d) from hm]
  have htime : c.1.tdiv 3600 = c.1 / 3600 ∧ c.1.tmod 3600 = c.1 % 3600 :=
    ⟨Int.tdiv_eq_ediv_of_nonneg hc0, Int.tmod_eq_emod_of_nonneg hc0⟩
  have hmin : (c.1 % 3600).tdiv 60 = c.1 % 3600 / 60 ∧ (c.1 % 3600).tmod 60 = c.1 % 3600 % 60 :=
    ⟨Int.tdiv_eq_ediv_of_nonneg (by omega), Int.tmod_eq_emod_of_nonneg (by omega)⟩
  rw [hoff]
  unfold secsPerHour secsPerMin
  rw [htime.1, htime.2, hmin.1, hmin.2]
  constructor
  · simpa [hday] using hy
  · exact hy0
  · simpa using hy1
  · refine ⟨k, by omega, rfl, ?_, by dsimp only; omega, ?_⟩
    · simpa [monthStart] using hs
    · simp only [sub_add_cancel]
      omega
  · rw [hday]
    unfold weekday
    dsimp only
    have h := Int.tmod_add_mul_tdiv (4 + c.2) 7
    have hlo := Int.lt_tmod_of_pos (4 + c.2) (b := 7) (by decide)
    have hhi := Int.tmod_lt_of_pos (4 + c.2) (b := 7) (by decide)
    split_ifs <;> omega
  all_goals
    dsimp only
    omega

theorem gmtime_isAt (clock : ℤ) : (gmtime clock).IsAt clock := by
  simpa [gmtime] using offtime_isAt clock 0

@[simp] theorem gmtime_isdst (clock : ℤ) : (gmtime clock).isdst = 0 := rfl

end Sol26.Time
