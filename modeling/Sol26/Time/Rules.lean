import Sol26.Time.Zone

/-!
# Daylight saving by rule

`posixgetdst` turns the two rules of a POSIX zone into days of the local year. The day it finds is
compared with the calendar: the `n`-th weekday of the month, or the day of a leap or common year.
The comparison fails where the code takes the length of the following month for that of the month
and where it asks for the leap year with a year counted from 1900.
-/
namespace Sol26.Time

open Calendar
open Option (bind_eq_bind bind_eq_some_iff bind_none bind_some pure_def)

/-- The local year of a time. -/
def yearOf (t : ℤ) : ℤ := (gmtime t).year + 1900

/-- The day of the year a rule names. -/
def Rule.dayIn (y : ℤ) : Rule → Option ℤ
  | .day jul => some jul
  | .julian jul => some (if Leap y ∧ 59 < jul + 1 then jul + 1 else jul)
  | .month m n d => nthWeekday y (m - 1).toNat n.toNat d

/-- The rules `posixsubdst` lets through. -/
def Rule.Valid : Rule → Prop
  | .day jul => 0 ≤ jul ∧ jul ≤ 365
  | .julian jul => 0 ≤ jul ∧ jul ≤ 364
  | .month m n d => (1 ≤ m ∧ m ≤ 12) ∧ (1 ≤ n ∧ n ≤ 5) ∧ 0 ≤ d ∧ d ≤ 6

/-- Where the code finds the day of a rule. The next month stands in for the month only at a fifth
week, no later week may be asked for in December, and from March on the year 2000 is a day short. -/
def Rule.Fits (y : ℤ) : Rule → Prop
  | .day _ => True
  | .julian jul => y = 2000 → jul + 1 ≤ 59
  | .month m n d =>
    let k := (m - 1).toNat
    let late : ℤ := if y = 2000 ∧ 3 ≤ m then 1 else 0
    let next : ℤ := if y = 2000 ∧ m = 1 then 28 else monthLength y (k + 1)
    (n = 1 ∨ m ≠ 12) ∧ (n ≤ 4 → untilWeekday y k d + late ≤ 6) ∧
      (n = 5 → (untilWeekday y k d + 28 < monthLength y k ↔
        untilWeekday y k d + 28 + late < next))

instance (y : ℤ) (r : Rule) : Decidable (r.Fits y) := by
  cases r <;> unfold Rule.Fits <;> infer_instance

/-! ### The rules that are read -/

variable {p : List Char} {r start stop : Rule} {k : ℕ} {d et m n st t y : ℤ}

theorem bounded_mem {p' : List Char} {lo hi v : ℤ} (h : bounded p lo hi = some (p', v)) :
    lo ≤ v ∧ v ≤ hi := by
  simp only [bounded, bind_eq_bind, bind_eq_some_iff] at h
  obtain ⟨⟨q, w⟩, -, hv⟩ := h
  dsimp only at hv
  split_ifs at hv with hw
  simp only [pure_def, Option.some.injEq, Prod.mk.injEq] at hv
  omega

theorem posixsubdst_valid {p' : List Char} (h : posixsubdst p = some (p', r, t)) : r.Valid := by
  simp only [posixsubdst, bind_eq_bind, pure_def, bind_some, bind_none] at h
  split_ifs at h
  · simp only [bind_eq_some_iff] at h
    obtain ⟨⟨q, jul⟩, hb, ⟨q', t'⟩, -, he⟩ := h
    cases he
    exact bounded_mem hb
  · simp only [bind_eq_some_iff] at h
    obtain ⟨⟨q, jul⟩, hb, ⟨q', t'⟩, -, he⟩ := h
    cases he
    have := bounded_mem hb
    exact ⟨by omega, by omega⟩
  · simp only [bind_eq_some_iff] at h
    obtain ⟨⟨q, m⟩, hm, q2, -, ⟨q3, n⟩, hn, q4, -, ⟨q5, d⟩, hd, ⟨q', t'⟩, -, he⟩ := h
    cases he
    exact ⟨bounded_mem hm, bounded_mem hn, bounded_mem hd⟩

theorem posixRules_valid
    (h : posixRules p = some ((start, st), (stop, et))) : start.Valid ∧ stop.Valid := by
  simp only [posixRules, bind_eq_bind, bind_eq_some_iff] at h
  obtain ⟨⟨q, r, t⟩, h1, q', -, ⟨q2, r', t'⟩, h2, he⟩ := h
  cases he
  exact ⟨posixsubdst_valid h1, posixsubdst_valid h2⟩

/-! ### The years of a 32-bit clock -/

theorem int_mem (x : ℤ) : -2147483648 ≤ int x ∧ int x ≤ 2147483647 := by
  unfold int Int.bmod
  dsimp only
  split_ifs <;> omega

theorem yearOf_mem (h0 : -2147483648 ≤ t) (h1 : t ≤ 2147483647) :
    1901 ≤ yearOf t ∧ yearOf t ≤ 2038 := by
  have h := gmtime_isAt t
  have hday := h.day
  have hlt := h.yday_lt
  have hnn := h.yday_nonneg
  rw [← yearOf] at hday hlt
  have hlo : yearStart 1901 = -25202 := by decide
  have hhi : yearStart 2039 = 25202 := by decide
  constructor
  · by_contra hy
    have := yearStart_strictMono.monotone (show yearOf t + 1 ≤ 1901 by omega)
    rw [yearStart_succ] at this
    omega
  · by_contra hy
    have := yearStart_strictMono.monotone (show 2039 ≤ yearOf t by omega)
    omega

/-- A leap year by its year from 1900: right but for the year 2000. -/
theorem isleap_short (h0 : 1901 ≤ y) (h1 : y ≤ 2038) :
    isleap (y - 1900) = (isleap y && decide (y ≠ 2000)) := by
  rw [Bool.eq_iff_iff, Bool.and_eq_true, decide_eq_true_iff, isleap_iff, isleap_iff, leap_iff,
    leap_iff]
  omega

/-! ### The day of a rule -/

theorem entry_nat (table : List ℤ) (k : ℕ) : entry table (k : ℤ) = table[k]? := by
  simp [entry]

theorem entry_ydayToMonth (hk : k < 12) :
    entry (ydayToMonth (isleap y)) k = some (monthStart y k) := by
  rw [entry_nat]
  unfold ydayToMonth
  simp only [isleap_iff]
  interval_cases k <;> by_cases h : Leap y <;> simp [monthStart, monthLength, h]

theorem entry_monLengths (hk : k < 12) :
    entry (monLengths (isleap y)) k = some (monthLength y k : ℤ) := by
  rw [entry_nat, monLengths_isleap]
  simp [hk]

theorem entry_monLengths_december (leap : Bool) : entry (monLengths leap) 12 = none := by
  cases leap <;> decide

private theorem firstDay_nat : ∀ a < 7, ∀ b < 7,
    firstDay 7 ((a : ℕ) : ℤ) ((b : ℕ) : ℤ) 1 = some (1 + ((b : ℤ) - a) % 7) := by
  decide

theorem firstDay_eq {wd : ℤ} (hw0 : 0 ≤ wd) (hw : wd < 7) (hd0 : 0 ≤ d) (hd : d < 7) :
    firstDay 7 wd d 1 = some (1 + (d - wd) % 7) := by
  obtain ⟨a, rfl⟩ := Int.eq_ofNat_of_zero_le hw0
  obtain ⟨b, rfl⟩ := Int.eq_ofNat_of_zero_le hd0
  exact firstDay_nat a (by omega) b (by omega)

/-- The weeks stop at the length of the following month. -/
theorem addWeeks_eq {leap : Bool} {len : ℤ} (hn1 : 1 ≤ n) (hn5 : n ≤ 5)
    (hlen : n ≠ 1 → entry (monLengths leap) m = some len) (h28 : 28 ≤ len) (hd : d ≤ 7) :
    addWeeks leap m (n - 1).toNat d =
      some (d + if n = 5 then (if d + 28 ≤ len then 28 else 21) else 7 * (n - 1)) := by
  have h1 : ¬ len < d + 7 := by omega
  have h2 : ¬ len < d + 7 + 7 := by omega
  have h3 : ¬ len < d + 7 + 7 + 7 := by omega
  interval_cases n
  · simp [addWeeks]
  · simp [addWeeks, hlen, h1]
  · simp [addWeeks, hlen, h1, h2]
    ring
  · simp [addWeeks, hlen, h1, h2, h3]
    ring
  · by_cases h : d + 28 ≤ len
    · simp [addWeeks, hlen, h1, h2, h3, show ¬ len < d + 7 + 7 + 7 + 7 by omega, h]
      ring
    · simp [addWeeks, hlen, h1, h2, h3, show len < d + 7 + 7 + 7 + 7 by omega, h]
      ring

/-- The weekday of the first of January, from the fields of any day of the year. -/
theorem wdJan01_eq (t : ℤ) :
    (let wd := (gmtime t).wday - (gmtime t).yday.tmod 7
     if wd < 0 then wd + 7 else wd) = weekday (yearStart (yearOf t)) := by
  have h := gmtime_isAt t
  have hwday := h.wday
  have hyday := h.yday_nonneg
  rw [← h.day, ← yearOf] at hwday
  rw [hwday, Int.tmod_eq_emod_of_nonneg hyday]
  unfold weekday
  dsimp only
  split_ifs <;> omega

/-- The code's day for a month rule, from the tables it reads. -/
theorem ruleDay_month {before len : ℤ}
    (hv : (Rule.month m n d).Valid)
    (hbefore : entry (ydayToMonth (isleap (gmtime t).year)) (m - 1) = some before)
    (hb0 : 0 ≤ before)
    (hlen : n ≠ 1 → entry (monLengths (isleap (gmtime t).year)) m = some len)
    (h28 : 28 ≤ len) :
    ruleDay (gmtime t) (.month m n d) =
      let first := (d - weekday (yearStart (yearOf t) + before)) % 7
      some (before + first +
        if n = 5 then (if first + 28 < len then 28 else 21) else 7 * (n - 1)) := by
  obtain ⟨-, ⟨hn1, hn5⟩, hd0, hd6⟩ := hv
  have hwd : ((weekday (yearStart (yearOf t))) + before).tmod 7 =
      weekday (yearStart (yearOf t) + before) := by
    unfold weekday
    rw [Int.tmod_eq_emod_of_nonneg (by omega)]
    omega
  have hw0 : 0 ≤ weekday (yearStart (yearOf t) + before) ∧
      weekday (yearStart (yearOf t) + before) < 7 := by
    unfold weekday
    omega
  simp only [ruleDay, hbefore, bind_eq_bind, bind_some]
  rw [wdJan01_eq t, hwd, firstDay_eq hw0.1 hw0.2 hd0 (by omega), bind_some,
    addWeeks_eq hn1 hn5 hlen h28 (by omega), bind_some]
  simp only [pure_def, Option.some.injEq]
  split_ifs <;> omega

/-- The calendar's day for a month rule, in the same form. -/
theorem dayIn_month (hv : (Rule.month m n d).Valid) :
    (Rule.month m n d).dayIn y =
      let first := untilWeekday y (m - 1).toNat d
      some (monthStart y (m - 1).toNat + first + if n = 5 then
        (if first + 28 < monthLength y (m - 1).toNat then 28 else 21) else 7 * (n - 1)) := by
  obtain ⟨-, ⟨hn1, hn5⟩, hd0, hd6⟩ := hv
  rw [Rule.dayIn]
  by_cases h5 : n = 5
  · subst h5
    exact nthWeekday_five hd0 (by omega)
  · rw [nthWeekday_lt_five hd0 (by omega) (by omega) (by omega)]
    simp only [h5, if_false, Option.some.injEq]
    omega

/-- In December no later week can be looked up. -/
theorem ruleDay_december {tm : Tm} (hn : 1 < n) : ruleDay tm (.month 12 n d) = none := by
  obtain ⟨w, hw⟩ : ∃ w, (n - 1).toNat = w + 1 := ⟨(n - 2).toNat, by omega⟩
  simp only [ruleDay, hw, addWeeks, entry_monLengths_december, bind_eq_bind,
    bind_none, Option.bind_fun_none]

/-- The year whose tables the code reads. -/
def tableYear (y : ℤ) : ℤ := if y = 2000 then 1999 else y

theorem isleap_tableYear (h0 : -2147483648 ≤ t) (h1 : t ≤ 2147483647) :
    isleap (gmtime t).year = isleap (tableYear (yearOf t)) := by
  obtain ⟨hy0, hy1⟩ := yearOf_mem h0 h1
  rw [show (gmtime t).year = yearOf t - 1900 by unfold yearOf; omega, isleap_short hy0 hy1]
  unfold tableYear
  split_ifs with h
  · rw [h]
    decide
  · simp [h]

theorem monthStart_tableYear (hk : k < 12) :
    monthStart (tableYear y) k = monthStart y k - if y = 2000 ∧ 2 ≤ k then 1 else 0 := by
  unfold tableYear
  by_cases h : y = 2000
  · subst h
    revert k
    decide
  · simp [h]

theorem monthLength_tableYear (hk : k < 12) :
    (monthLength (tableYear y) (k + 1) : ℤ) =
      if y = 2000 ∧ k = 0 then 28 else (monthLength y (k + 1) : ℤ) := by
  unfold tableYear
  by_cases h : y = 2000
  · subst h
    revert k
    decide
  · simp [h]

theorem thirty_le_monthLength (y : ℤ) (hk : 2 ≤ k) : 30 ≤ monthLength y (k + 1) := by
  unfold monthLength
  split
  · omega
  all_goals norm_num

/-- The code's day and the calendar's agree exactly where the rule fits. -/
theorem month_agrees_iff (hv : (Rule.month m n d).Valid) (hdec : n = 1 ∨ m ≠ 12) :
    let k := (m - 1).toNat
    let before := monthStart (tableYear y) k
    let first := (d - weekday (yearStart y + before)) % 7
    (before + first + (if n = 5 then
        (if first + 28 < monthLength (tableYear y) (k + 1) then 28 else 21) else 7 * (n - 1)) =
      monthStart y k + untilWeekday y k d + (if n = 5 then
        (if untilWeekday y k d + 28 < monthLength y k then 28 else 21) else 7 * (n - 1))) ↔
      (Rule.month m n d).Fits y := by
  obtain ⟨⟨hm1, hm12⟩, ⟨hn1, hn5⟩, hd0, hd6⟩ := hv
  have hk : (m - 1).toNat < 12 := by omega
  have hlen := monthLength_mem y (m - 1).toNat
  have hnext := monthLength_mem y ((m - 1).toNat + 1)
  have hmem := untilWeekday_mem y (m - 1).toNat d
  dsimp only [Rule.Fits]
  rw [monthStart_tableYear hk, monthLength_tableYear hk]
  set k := (m - 1).toNat with hkdef
  set u := untilWeekday y k d with hu
  have hfirst : ∀ late : ℤ,
      (d - weekday (yearStart y + (monthStart y k - late))) % 7 = (u + late) % 7 := by
    intro late
    rw [hu]
    unfold untilWeekday weekday
    omega
  rw [hfirst]
  have hlate : (y = 2000 ∧ 3 ≤ m) = (y = 2000 ∧ 2 ≤ k) := propext (by omega)
  have hjan : (y = 2000 ∧ m = 1) = (y = 2000 ∧ k = 0) := propext (by omega)
  simp only [hlate, hjan]
  by_cases hl : y = 2000 ∧ 2 ≤ k
  · -- the code's month begins a day early, so it may take in the last day of the month before
    have h30 := thirty_le_monthLength y hl.2
    have hj : ¬ (y = 2000 ∧ k = 0) := by omega
    simp only [if_pos hl, if_neg hj]
    clear_value u
    split_ifs <;> omega
  · simp only [if_neg hl, add_zero, sub_zero]
    rw [Int.emod_eq_of_lt hmem.1 hmem.2]
    generalize (if y = 2000 ∧ k = 0 then (28 : ℤ) else monthLength y (k + 1)) = next
    clear_value u
    split_ifs <;> omega

theorem ruleDay_iff (hv : r.Valid) (h0 : -2147483648 ≤ t) (h1 : t ≤ 2147483647) :
    ruleDay (gmtime t) r = r.dayIn (yearOf t) ↔ r.Fits (yearOf t) := by
  obtain ⟨hy0, hy1⟩ := yearOf_mem h0 h1
  cases r with
  | day jul => simp [ruleDay, Rule.dayIn, Rule.Fits]
  | julian jul =>
    simp only [ruleDay, Rule.dayIn, Rule.Fits, isleap_tableYear h0 h1, Bool.and_eq_true,
      isleap_iff, decide_eq_true_iff, Option.some.injEq]
    unfold tableYear
    by_cases h : yearOf t = 2000
    · have hleap : Leap 2000 := by decide
      have hnot : ¬ Leap 1999 := by decide
      simp only [h, if_true, hleap, hnot, true_and, false_and, if_false, true_imp_iff]
      split_ifs <;> omega
    · have hmarch : (58 < jul) = (59 < jul + 1) := propext (by omega)
      simp only [h, if_false, false_imp_iff, hmarch]
  | month m n d =>
    by_cases hdec : n = 1 ∨ m ≠ 12
    · have hv' := hv
      obtain ⟨⟨hm1, hm12⟩, ⟨hn1, hn5⟩, hd0, hd6⟩ := hv'
      obtain ⟨k, hk⟩ : ∃ k : ℕ, m = k + 1 := ⟨(m - 1).toNat, by omega⟩
      have hbefore : entry (ydayToMonth (isleap (gmtime t).year)) (m - 1) =
          some (monthStart (tableYear (yearOf t)) k) := by
        rw [isleap_tableYear h0 h1, hk, add_sub_cancel_right]
        exact entry_ydayToMonth (by omega)
      have hlen : n ≠ 1 → entry (monLengths (isleap (gmtime t).year)) m =
          some (monthLength (tableYear (yearOf t)) (k + 1) : ℤ) := by
        intro hn
        rw [isleap_tableYear h0 h1, hk]
        exact_mod_cast entry_monLengths (show k + 1 < 12 by omega)
      rw [ruleDay_month hv hbefore ((monthStart_strictMono _).monotone (Nat.zero_le k)) hlen
        (by exact_mod_cast (monthLength_mem _ _).1), dayIn_month hv]
      have := month_agrees_iff (y := yearOf t) hv hdec
      rw [show (m - 1).toNat = k by omega] at this ⊢
      simpa only [Option.some.injEq] using this
    · obtain ⟨hn, hm⟩ := not_or.1 hdec
      have hn1 := hv.2.1.1
      rw [not_not] at hm
      subst hm
      rw [ruleDay_december (by omega), dayIn_month hv]
      simp only [Rule.Fits, reduceCtorEq, false_iff]
      exact fun h => hdec h.1

/-! ### The passes of `posixgetdst` -/

/-- A pass reads its tables within bounds and finds the days of both rules in the local year. -/
def RightPass (t : ℤ) (start stop : Rule) : Prop :=
  ∃ lsd led, dstPass t start stop = some (lsd, led) ∧
    start.dayIn (yearOf t) = some lsd ∧ stop.dayIn (yearOf t) = some led

/-- By the calendar the alternate time goes over the end of the year. -/
def Southern (t : ℤ) (start stop : Rule) : Prop :=
  ∃ lsd led, start.dayIn (yearOf t) = some lsd ∧ stop.dayIn (yearOf t) = some led ∧ led < lsd

/-- Every day `posixgetdst` computes is the day of its rule: those of the first pass, in the
standard time, and those of the second pass if there is one, in the alternate time. -/
def RightDays (z : Zone) (tim : ℤ) (start stop : Rule) : Prop :=
  RightPass (int (tim - z.timezone)) start stop ∧
    (Southern (int (tim - z.timezone)) start stop → RightPass (int (tim - z.altzone)) start stop)

/-- Both rules fit the local year of a time. -/
def FitBoth (t : ℤ) (start stop : Rule) : Prop :=
  start.Fits (yearOf t) ∧ stop.Fits (yearOf t)

theorem exists_dayIn (hv : r.Valid) (y : ℤ) : ∃ d, r.dayIn y = some d := by
  cases r with
  | day jul | julian jul => exact ⟨_, rfl⟩
  | month m n d => exact ⟨_, dayIn_month hv⟩

theorem rightPass_iff (hs : start.Valid) (he : stop.Valid) (x : ℤ) :
    RightPass (int x) start stop ↔ FitBoth (int x) start stop := by
  obtain ⟨h0, h1⟩ := int_mem x
  rw [FitBoth, ← ruleDay_iff hs h0 h1, ← ruleDay_iff he h0 h1]
  obtain ⟨s, hs'⟩ := exists_dayIn hs (yearOf (int x))
  obtain ⟨e, he'⟩ := exists_dayIn he (yearOf (int x))
  simp only [RightPass, dstPass, hs', he', bind_eq_bind, Option.some.injEq,
    bind_eq_some_iff, pure_def, Prod.mk.injEq]
  constructor
  · rintro ⟨lsd, led, ⟨a, ha, b, hb, rfl, rfl⟩, rfl, rfl⟩
    exact ⟨ha, hb⟩
  · intro ⟨ha, hb⟩
    exact ⟨s, e, ⟨s, ha, e, hb, rfl, rfl⟩, rfl, rfl⟩

theorem rightDays_iff (hs : start.Valid) (he : stop.Valid) (z : Zone) (tim : ℤ) :
    RightDays z tim start stop ↔ FitBoth (int (tim - z.timezone)) start stop ∧
      (Southern (int (tim - z.timezone)) start stop →
        FitBoth (int (tim - z.altzone)) start stop) := by
  rw [RightDays, rightPass_iff hs he, rightPass_iff hs he]

/-- With the right days, `posixgetdst` stores the changes of the year of its last pass. -/
theorem RightDays.stores {z : Zone} {tim : ℤ}
    (hp : posixRules p = some ((start, st), (stop, et))) (h : RightDays z tim start stop) :
    ∃ t lsd led,
      (¬ Southern (int (tim - z.timezone)) start stop ∧ t = int (tim - z.timezone) ∨
        Southern (int (tim - z.timezone)) start stop ∧ t = int (tim - z.altzone)) ∧
      start.dayIn (yearOf t) = some lsd ∧ stop.dayIn (yearOf t) = some led ∧
      posixgetdst z p tim = some (some (int (lsd * secsPerDay + st),
        int (led * secsPerDay + et - (z.timezone - z.altzone)))) := by
  obtain ⟨⟨lsd, led, hpass, hs, he⟩, hsouth⟩ := h
  by_cases hle : lsd ≤ led
  · refine ⟨_, lsd, led, .inl ⟨?_, rfl⟩, hs, he, ?_⟩
    · rintro ⟨lsd', led', hs', he', hlt⟩
      rw [hs, Option.some.injEq] at hs'
      rw [he, Option.some.injEq] at he'
      omega
    · simp [posixgetdst, hp, dstDays, hpass, hle]
  · have hS : Southern (int (tim - z.timezone)) start stop := ⟨lsd, led, hs, he, by omega⟩
    obtain ⟨lsd', led', hpass', hs', he'⟩ := hsouth hS
    refine ⟨_, lsd', led', .inr ⟨hS, rfl⟩, hs', he', ?_⟩
    simp [posixgetdst, hp, dstDays, hpass, hle, hpass']

/-- The rules of a zone select the right days exactly where they fit the local year, and then
`posixgetdst` stores the changes at these days. -/
theorem posixgetdst_rightDays_iff (z : Zone) (tim : ℤ)
    (hp : posixRules p = some ((start, st), (stop, et))) :
    (RightDays z tim start stop ↔ FitBoth (int (tim - z.timezone)) start stop ∧
      (Southern (int (tim - z.timezone)) start stop →
        FitBoth (int (tim - z.altzone)) start stop)) ∧
    (RightDays z tim start stop → ∃ t lsd led,
      (¬ Southern (int (tim - z.timezone)) start stop ∧ t = int (tim - z.timezone) ∨
        Southern (int (tim - z.timezone)) start stop ∧ t = int (tim - z.altzone)) ∧
      start.dayIn (yearOf t) = some lsd ∧ stop.dayIn (yearOf t) = some led ∧
      posixgetdst z p tim = some (some (int (lsd * secsPerDay + st),
        int (led * secsPerDay + et - (z.timezone - z.altzone))))) := by
  obtain ⟨hs, he⟩ := posixRules_valid hp
  exact ⟨rightDays_iff hs he z tim, RightDays.stores hp⟩

/-- The zone five hours west of Greenwich, with an hour of daylight saving. -/
def eastern : Zone :=
  { timezone := 18000, altzone := 14400, daylight := true, startDst := -1, endDst := -1,
    isInDst := false, isPosix := true }

/-- First Sunday in April to last Sunday in October. -/
def aprilOctober : List Char :=
  ['M', '4', '.', '1', '.', '0', ',', 'M', '1', '0', '.', '5', '.', '0']

theorem posixRules_aprilOctober :
    posixRules aprilOctober = some ((.month 4 1 0, 7200), (.month 10 5 0, 7200)) := by
  decide

/-- In August 1998 the rules select the right days. -/
theorem posixgetdst_rightDays_1998 :
    posixRules aprilOctober = some ((.month 4 1 0, 7200), (.month 10 5 0, 7200)) ∧
    RightDays eastern 904000000 (.month 4 1 0) (.month 10 5 0) := by
  refine ⟨posixRules_aprilOctober,
    (posixgetdst_rightDays_iff eastern 904000000 posixRules_aprilOctober).1.2 ⟨?_, ?_⟩⟩
  · unfold FitBoth
    decide
  · intro ⟨lsd, led, hs, he, hlt⟩
    have hs' : (Rule.month 4 1 0).dayIn (yearOf (int (904000000 - eastern.timezone))) =
        some 94 := by decide
    have he' : (Rule.month 10 5 0).dayIn (yearOf (int (904000000 - eastern.timezone))) =
        some 297 := by decide
    rw [hs'] at hs
    rw [he'] at he
    cases hs
    cases he
    omega

/-- In August 1999 the last Sunday in October is the thirty-first, and the code takes the
twenty-fourth. -/
theorem not_rightDays_1999 :
    posixRules aprilOctober = some ((.month 4 1 0, 7200), (.month 10 5 0, 7200)) ∧
    ¬ RightDays eastern 936000000 (.month 4 1 0) (.month 10 5 0) := by
  refine ⟨posixRules_aprilOctober, ?_⟩
  rintro ⟨⟨lsd, led, hpass, -, he⟩, -⟩
  have h : dstPass (int (936000000 - eastern.timezone)) (.month 4 1 0) (.month 10 5 0) =
      some (93, 296) := by decide
  have hday : (Rule.month 10 5 0).dayIn (yearOf (int (936000000 - eastern.timezone))) =
      some 303 := by decide
  rw [h] at hpass
  rw [hday] at he
  cases hpass
  cases he

end Sol26.Time
