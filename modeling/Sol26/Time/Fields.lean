import Sol26.Time.Make

/-!
# Fields out of range

A zone that is a POSIX rule without alternate time has one offset. There `mktime` is to take fields
of any size, and to give the second that they add up to and the fields of that second. It does so
unless the month is the least integer, or the flag is negative and the last zone file was in
alternate time, or the local time does not fit into a word.
-/
namespace Sol26.Time

open Calendar
open Option (bind_eq_bind bind_some pure_def)

variable {env : Env} {zone t : ℤ} {tm : Tm} {z : Zone}

/-- The value of `TZ` is a rule with one offset, of no more than 24 hours, 59 minutes and 59
seconds. -/
structure Env.Fixed (env : Env) (zone : ℤ) : Prop where
  reads : ∃ p q, getzname env.tz = some p ∧ gettime p true = (some q, zone) ∧ getzname q = none
  bound : |zone| ≤ 89999

/-- The state that `_ltzset_u` leaves. -/
def Zone.fixed (z : Zone) (zone : ℤ) : Zone where
  timezone := zone
  altzone := zone
  daylight := false
  startDst := 0
  endDst := 0
  isInDst := z.isInDst
  isPosix := true

/-- The year from 1900 on, with the years of the month. -/
def Tm.fullYear (tm : Tm) : ℤ := tm.year + tm.mon / 12

/-- The month, from zero on. -/
def Tm.fullMonth (tm : Tm) : ℕ := (tm.mon % 12).toNat

/-- The second of universal time that the fields add up to. -/
def Tm.total (tm : Tm) : ℤ :=
  tm.sec + 60 * tm.min + 3600 * tm.hour +
    86400 * (tm.mday - 1 + yearStart (tm.fullYear + 1900) +
      monthStart (tm.fullYear + 1900) tm.fullMonth)

/-- The month is a word, and the year is between 1970 and 2037. -/
structure Tm.Regular (tm : Tm) : Prop where
  mon : int tm.mon = tm.mon
  year : 70 ≤ tm.fullYear ∧ tm.fullYear ≤ 137

/-- `mktime` returns a second, and leaves its fields. -/
def Makes (env : Env) (z : Zone) (tm : Tm) (t zone : ℤ) : Prop :=
  ∃ tm' z', mktime env tm z = some (t, tm', z') ∧ tm'.IsAt (t - zone) ∧ tm'.isdst = 0

theorem ltzset_fixed (h : env.Fixed zone) (tim : ℤ) (z : Zone) :
    ltzset env tim z = some (z.fixed zone) := by
  obtain ⟨p, q, hname, htime, hend⟩ := h.reads
  have hne : env.tz ≠ [] := by
    intro hnil
    simp [hnil, getzname] at hname
  simp [ltzset, hne, hname, htime, setPosix, hend, Zone.fixed]

theorem localtime_fixed (h : env.Fixed zone) (timep : ℤ) (z : Zone) :
    localtime env timep z = some (gmtime (int (timep - zone)), z.fixed zone) := by
  simp [localtime, ltzset_fixed h, Zone.fixed]

/-- The month is brought into the year, unless it cannot be negated. -/
theorem normMonth_regular (h : tm.Regular) (hmon : tm.mon ≠ -2147483648) :
    tm.normMonth = { tm with year := tm.fullYear, mon := tm.fullMonth } := by
  have hword := h.mon ▸ int_mem tm.mon
  have hyear := h.year
  unfold Tm.fullYear at hyear
  unfold Tm.normMonth Tm.fullYear Tm.fullMonth
  by_cases hlarge : 12 ≤ tm.mon
  · rw [if_pos hlarge, Int.tdiv_eq_ediv_of_nonneg (by omega),
      Int.tmod_eq_emod_of_nonneg (by omega), int_of_mem (by omega) (by omega),
      Int.toNat_of_nonneg (by omega)]
  rw [if_neg hlarge]
  by_cases hneg : tm.mon < 0
  · rw [if_pos hneg, int_of_mem (by omega) (by omega)]
    dsimp only
    rw [Int.tdiv_eq_ediv_of_nonneg (by omega), Int.tmod_eq_emod_of_nonneg (by omega),
      Int.toNat_of_nonneg (by omega)]
    by_cases hzero : -tm.mon % 12 = 0
    · rw [if_pos hzero, int_of_mem (by omega) (by omega)]
      rw [Tm.mk.injEq]
      omega
    · rw [if_neg hzero, int_of_mem (x := tm.year - -tm.mon / 12) (by omega) (by omega),
        int_of_mem (by omega) (by omega), Tm.mk.injEq]
      omega
  · have hyear' : tm.year + tm.mon / 12 = tm.year := by omega
    have hmon' : tm.mon % 12 = tm.mon := by omega
    rw [if_neg hneg, Int.toNat_of_nonneg (by omega), hyear', hmon']

theorem asGmt_regular (h : tm.Regular) (hmon : tm.mon ≠ -2147483648) :
    tm.asGmt = some (int tm.total) := by
  have hy0 : 69 ≤ tm.fullYear := by
    have := h.year
    omega
  have hy1 : tm.fullYear ≤ 138 := by
    have := h.year
    omega
  have hk : tm.fullMonth < 12 := by
    unfold Tm.fullMonth
    omega
  simp only [Tm.asGmt, normMonth_regular h hmon, leap_short hy0 hy1, entry_ydayToMonth hk,
    bind_eq_bind, bind_some, pure_def, Option.some.injEq, int_add_int]
  congr 1
  unfold Tm.total secsPerMin secsPerHour secsPerDay
  rw [yearStart_short hy0 hy1]
  ring

/-- The least month is its own negative, and leads outside the table of months. -/
theorem asGmt_least (h : tm.Regular) (hmon : tm.mon = -2147483648) : tm.asGmt = none := by
  have hyear := h.year
  unfold Tm.fullYear at hyear
  have hneg : int (-tm.mon) = -2147483648 := by
    rw [hmon]
    decide
  have hnorm : tm.normMonth.mon = 20 := by
    unfold Tm.normMonth
    rw [if_neg (by omega), if_pos (by omega), hneg]
    rfl
  have hentry : ∀ leap, entry (ydayToMonth leap) 20 = none := by decide
  simp [Tm.asGmt, hnorm, hentry]

/-- The second that the code arrives at, before it looks for the fields. -/
def Zone.arrives (z : Zone) (tm : Tm) (zone t : ℤ) : ℤ :=
  if tm.isdst < 0 ∧ z.isInDst = true then int (t - zone) else t

theorem guessOffset_fixed (z : Zone) (secs : ℤ) (h0 : 0 ≤ t) (h1 : t < 2 ^ 31) :
    guessOffset (z.fixed zone) secs t = if z.isInDst then 0 else zone := by
  have hgap : |int (zone - zone)| = 0 := by
    rw [sub_self]
    rfl
  have ht : int t = t := int_of_mem (by omega) (by omega)
  simp only [guessOffset, Zone.fixed, hgap, sub_zero, ht]
  by_cases hdst : z.isInDst = true
  · rw [if_pos hdst, if_pos hdst, if_neg (by omega)]
  · rw [if_neg hdst, if_neg hdst, if_pos h0, if_neg (by omega)]

theorem correctPosix_fixed (env : Env) (z : Zone) (secs x : ℤ) :
    correctPosix env secs (gmtime x) (z.fixed zone) = some (secs, gmtime x, z.fixed zone) := by
  have hat := gmtime_isAt x
  have hpos : 0 ≤ (gmtime x).ofYear := by
    have h₁ := hat.yday_nonneg
    have h2 := hat.hour.1
    have h3 := hat.min.1
    have h4 := hat.sec.1
    unfold Tm.ofYear secsPerDay secsPerHour secsPerMin
    omega
  have hlater : ¬ (gmtime x).ofYear < 0 := not_lt.2 hpos
  simp [correctPosix, Zone.fixed, hlater, show int 0 = 0 from rfl]

/-- The second that the code arrives at with the flag of the fields. -/
theorem mktime_fixed (h : env.Fixed zone) (hreg : tm.Regular) (hmon : tm.mon ≠ -2147483648)
    (ht : tm.total + zone = t) (h0 : 0 ≤ t) (h1 : t < 2 ^ 31) :
    mktime env tm z =
      let secs := z.arrives tm zone t
      some (if secs < 0 then (-1, tm.normMonth, z.fixed zone)
        else (secs, gmtime (int (secs - zone)), z.fixed zone)) := by
  have hword : int t = t := int_of_mem (by omega) (by omega)
  have hyear : 69 ≤ tm.normMonth.year ∧ tm.normMonth.year ≤ 138 := by
    have := hreg.year
    rw [normMonth_regular hreg hmon]
    dsimp only
    omega
  have hlow : ¬ tm.normMonth.year < 69 := not_lt.2 hyear.1
  have hhigh : ¬ 138 < tm.normMonth.year := not_lt.2 hyear.2
  have hflag : tm.normMonth.isdst = tm.isdst := by
    rw [normMonth_regular hreg hmon]
  have hsum : int (int tm.total + zone) = t := by
    rw [int_add_int, ht, hword]
  have hstate : (z.fixed zone).fixed zone = z.fixed zone := rfl
  have hback : int (int tm.total) = int (t - zone) := by
    rw [← ht, add_sub_cancel_right]
    exact int_of_mem (int_mem _).1 (int_mem _).2
  unfold Zone.arrives
  simp only [mktime, asGmt_regular hreg hmon, ltzset_fixed h, bind_eq_bind,
    bind_some, pure_def, hflag, hlow, hhigh, or_false]
  by_cases hpos : 0 < tm.isdst
  · have hneg : ¬ tm.isdst < 0 := by omega
    simp only [if_pos hpos, bind_some, localtime_fixed h, hneg, false_and, if_false,
      Zone.fixed, hsum]
    split_ifs <;> rfl
  by_cases hzero : tm.isdst = 0
  · have hneg : ¬ tm.isdst < 0 := by omega
    simp only [if_neg hpos, if_pos hzero, bind_some, localtime_fixed h, hneg, false_and,
      if_false, Zone.fixed, hsum]
    split_ifs <;> rfl
  · have hneg : tm.isdst < 0 := by omega
    have hguess : (if 0 < (z.fixed zone).timezone ∧ 0 < (z.fixed zone).altzone then
        min (z.fixed zone).timezone (z.fixed zone).altzone
        else max (z.fixed zone).timezone (z.fixed zone).altzone) = zone := by
      simp [Zone.fixed]
    simp only [if_neg hpos, if_neg hzero, hguess, hsum, hstate, guessOffset_fixed z _ h0 h1,
      bind_some, localtime_fixed h, hneg, true_and, correctPosix_fixed,
      show (z.fixed zone).isPosix = true from rfl, if_true]
    by_cases hdst : z.isInDst = true
    · simp only [if_pos hdst, add_zero, hback]
      split_ifs <;> rfl
    · simp only [if_neg hdst, hsum]
      split_ifs <;> rfl

/-- The fields of a local time are right just if it fits into a word. -/
theorem isAt_word {x : ℤ} : (gmtime (int x)).IsAt x ↔ int x = x := by
  constructor
  · intro hat
    exact (gmtime_isAt _).inj hat
  · intro hx
    have hat := gmtime_isAt (int x)
    rwa [hx] at hat ⊢

/-- In a zone with one offset, `offtime_u` gives the date of every second, and `mktime` makes the
second that the fields add up to, and its fields, unless the month is the least word, the flag is
negative and the alternate time of an earlier zone file is remembered, or the local time does not
fit into a word. -/
theorem fixed_zone_exact (h : env.Fixed zone) (z : Zone) :
    (∀ t, 0 ≤ t → t < 2 ^ 31 → (offtime t (-zone)).IsAt (t - zone)) ∧
      ∀ tm t, tm.Regular → tm.total + zone = t → 0 ≤ t → t < 2 ^ 31 →
        (Makes env z tm t zone ↔
          tm.mon ≠ -2147483648 ∧ (tm.isdst < 0 ∧ z.isInDst = true → zone = 0) ∧
            t - zone < 2 ^ 31) := by
  constructor
  · intro t _ _
    exact offtime_isAt t (-zone)
  intro tm t hreg ht h0 h1
  have hbound := abs_le.1 h.bound
  unfold Makes
  by_cases hmon : tm.mon = -2147483648
  · simp [mktime, asGmt_least hreg hmon, hmon]
  rw [mktime_fixed h hreg hmon ht h0 h1]
  dsimp only
  have hfits : int (t - zone) = t - zone ↔ t - zone < 2 ^ 31 := by
    constructor
    · intro heq
      have := int_mem (t - zone)
      omega
    · intro hlt
      exact int_of_mem (by omega) (by omega)
  by_cases hslip : tm.isdst < 0 ∧ z.isInDst = true
  · rw [Zone.arrives, if_pos hslip]
    by_cases hzone : zone = 0
    · subst hzone
      have hword : int t = t := int_of_mem (by omega) (by omega)
      have hat := gmtime_isAt t
      have hlt : t < 2147483648 := h1
      simp [hmon, hword, not_lt.2 h0, hat, hlt]
    · have hne : int (t - zone) ≠ t := by
        intro heq
        have := int_mem (t - zone)
        unfold int Int.bmod at heq
        dsimp only at heq
        split_ifs at heq <;> omega
      constructor
      · rintro ⟨tm', z', heq, -⟩
        have hfirst := congrArg Prod.fst (Option.some.inj heq)
        split_ifs at hfirst with hlt
        · omega
        · exact absurd hfirst hne
      · rintro ⟨-, hsame, -⟩
        exact absurd (hsame hslip) hzone
  · rw [Zone.arrives, if_neg hslip, if_neg (not_lt.2 h0)]
    simp only [hslip, IsEmpty.forall_iff, true_and, ne_eq, hmon, not_false_eq_true, ← hfits,
      ← isAt_word]
    constructor
    · rintro ⟨tm', z', heq, hat, -⟩
      cases heq
      exact hat
    · intro hat
      exact ⟨_, _, rfl, hat, rfl⟩

/-- `TZ` is `EST5`. -/
def est5 : Env where
  tz := ['E', 'S', 'T', '5']
  tzload := fun _ => none
  now := 0
  led := 0

theorem est5_fixed : est5.Fixed 18000 :=
  ⟨⟨['5'], [], by decide, by decide, by decide⟩, by decide⟩

/-- The state at the start of a program. -/
def noZone : Zone where
  timezone := 0
  altzone := 0
  daylight := false
  startDst := -1
  endDst := -1
  isInDst := false
  isPosix := false

/-- Thirteen months and minus one day after the start of 1998. -/
def odd : Tm where
  sec := 0
  min := 0
  hour := 0
  mday := -1
  mon := 13
  year := 98
  wday := 0
  yday := 0
  isdst := -1

theorem fixed_zone_exact_odd : Makes est5 noZone odd 917672400 18000 :=
  ((fixed_zone_exact est5_fixed noZone).2 odd 917672400 ⟨by decide, by decide⟩ (by decide)
    (by decide) (by decide)).2 ⟨by decide, by decide, by decide⟩

/-- `TZ` is `CET-1`. -/
def cet1 : Env := { est5 with tz := ['C', 'E', 'T', '-', '1'] }

theorem cet1_fixed : cet1.Fixed (-3600) :=
  ⟨⟨['-', '1'], [], by decide, by decide, by decide⟩, by decide⟩

/-- The least month, in a year that makes it one of 1999. -/
def leastMonth : Tm := { odd with mon := -2147483648, year := 178957070 }

/-- The nineteenth of January 2038, as a day of December. -/
def lastDay : Tm := { odd with hour := 4, mday := 50, mon := 11, year := 137 }

/-- With the alternate time of another zone remembered the result is five hours off; the least
month leads outside the table; and the fields of the last local times are those of 1901. -/
theorem fixed_zone_inexact :
    est5.Fixed 18000 ∧ cet1.Fixed (-3600) ∧
      ¬ Makes est5 { noZone with isInDst := true } odd 917672400 18000 ∧
      (leastMonth.Regular ∧ ¬ Makes est5 noZone leastMonth (leastMonth.total + 18000) 18000) ∧
      lastDay.Regular ∧ lastDay.total - 3600 = 2147482800 ∧
      ¬ Makes cet1 noZone lastDay 2147482800 (-3600) := by
  refine ⟨est5_fixed, cet1_fixed, ?_, ⟨⟨by decide, by decide⟩, ?_⟩,
    ⟨by decide, by decide⟩, by decide, ?_⟩
  · rintro ⟨tm', z', heq, -⟩
    have hsecs : (mktime est5 odd { noZone with isInDst := true }).map Prod.fst =
        some 917654400 := by decide
    rw [heq] at hsecs
    simp at hsecs
  · rintro ⟨tm', z', heq, -⟩
    have hnone : mktime est5 leastMonth noZone = none := by decide
    simp [hnone] at heq
  · rintro ⟨tm', z', heq, hat, -⟩
    have hfields : (mktime cet1 lastDay noZone).map (fun r => r.2.1) =
        some (gmtime (-2147480896)) := by decide
    rw [heq] at hfields
    have htm : tm' = gmtime (-2147480896) := Option.some.inj hfields
    rw [htm] at hat
    have := (gmtime_isAt (-2147480896)).inj hat
    omega

end Sol26.Time
