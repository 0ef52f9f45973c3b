import Sol26.Lib.Calendar

/-!
# Time of day

Model of `utc_to_tod` and `tod_to_utc` from `uts/common/os/timers.c`. The first keeps its last
result, and while only the seconds change it returns that. An `int` has 32 bits; `wrap` is taken
where a result may leave that range.
-/
namespace Sol26.Timers

open Calendar
open Int (shiftLeft_eq)

/-- `todinfo_t` -/
@[ext] structure Todinfo where
  sec : ℤ
  min : ℤ
  hour : ℤ
  dow : ℤ
  day : ℤ
  month : ℤ
  year : ℤ
  deriving DecidableEq

/-- A value of type `int`. -/
def wrap (x : ℤ) : ℤ := (x + 2 ^ 31) % 2 ^ 32 - 2 ^ 31

/-- `days_thru_month` -/
def daysThruMonth : List ℤ :=
  let leap := [0, 0, 31, 60, 91, 121, 152, 182, 213, 244, 274, 305, 335, 366, 0, 0]
  let plain := [0, 0, 31, 59, 90, 120, 151, 181, 212, 243, 273, 304, 334, 365, 0, 0]
  leap ++ plain ++ plain ++ plain

/-- `saved_tod` and `saved_utc` -/
structure Saved where
  tod : Todinfo
  utc : ℤ

/-- The values they are loaded with. -/
def Saved.init : Saved := ⟨⟨0, 0, 0, 0, 0, 0, 0⟩, -60⟩

/-- The day of the year, for a year that may be too late. -/
def dayOf (dse : ℕ) (year : ℤ) : ℤ := dse - 365 * (year - 70) - (year - 69) >>> (2 : ℕ)

theorem seventy_lt_of_dayOf_neg {dse : ℕ} {year : ℤ} (h : dayOf dse year < 0) : 70 < year := by
  rw [dayOf, Int.shiftRight_eq_div_pow] at h
  omega

/-- The search for the year, downwards. -/
def findYear (dse : ℕ) (year : ℤ) : ℤ :=
  if dayOf dse (year - 1) < 0 then findYear dse (year - 1) else year - 1
  termination_by year.toNat
  decreasing_by
    have := seventy_lt_of_dayOf_neg ‹_›
    omega

/-- The search for the month; `none` if it leaves the table. -/
def findMonth (day : ℤ) (month : ℕ) : Option ℕ :=
  if h : month + 1 < 64 then
    if daysThruMonth.get ⟨month + 1, h⟩ ≤ day then findMonth day (month + 1) else some month
  else none
  termination_by 64 - month

/-- The part of `utc_to_tod` after the look at the saved values. -/
def freshTod (utc : ℕ) : Option Todinfo := do
  let dse := utc / 86400
  let year := findYear dse (dse / 365 + 72)
  let day := dayOf dse year
  let month ← findMonth day ((year % 4).toNat <<< 4 + 1)
  let first ← daysThruMonth[month]?
  return {
    sec := utc % 60
    min := utc % 3600 / 60
    hour := utc % 86400 / 3600
    dow := (dse + 4) % 7 + 1
    day := day - first + 1
    month := (month &&& 15 : ℕ)
    year := year }

/-- `utc_to_tod` -/
def utcToTod (s : Saved) (utc : ℤ) : Option (Todinfo × Saved) :=
  let utc := if utc < 0 then 0 else utc
  let sec := wrap (s.tod.sec + wrap (utc - s.utc))
  if 0 ≤ sec ∧ sec < 60 then
    -- only the seconds changed
    let tod := { s.tod with sec := sec }
    some (tod, ⟨tod, utc⟩)
  else do
    let tod ← freshTod utc.toNat
    return (tod, ⟨tod, utc⟩)

/-- The check that `tod_to_utc` makes if `DEBUG` is defined. -/
def todInvalid (tod : Todinfo) (month : ℕ) : Bool :=
  tod.year < 70 ∨ 138 < tod.year ∨ tod.month < 1 ∨ 12 < tod.month ∨ tod.day < 1 ∨
    daysThruMonth.getD (month + 1) 0 - daysThruMonth.getD month 0 < tod.day ∨
    tod.hour < 0 ∨ 23 < tod.hour ∨ tod.min < 0 ∨ 59 < tod.min ∨ tod.sec < 0 ∨ 59 < tod.sec

/-- The arithmetic of `tod_to_utc`, from the years since 1970, the leap days before, the day of the
year and the time. -/
def utcOf (year leap yday hour min sec : ℤ) : ℤ :=
  let utc := year
  let utc := wrap (utc + (utc <<< (3 : ℕ) + utc <<< (6 : ℕ)))
  let utc := wrap (utc + (utc <<< (2 : ℕ) + leap))
  let utc := wrap (utc + yday)
  let utc := wrap (utc <<< (3 : ℕ) + utc <<< (4 : ℕ) + hour)
  let utc := wrap (utc <<< (6 : ℕ) - utc <<< (2 : ℕ) + min)
  -- the shift by 6 may overflow, the difference does not
  wrap (wrap (utc <<< (6 : ℕ)) - utc <<< (2 : ℕ) + sec)

/-- `tod_to_utc`; `none` if the month is outside the table. -/
def todToUtc (debug : Bool) (tod : Todinfo) : Option ℤ := do
  let month := (tod.month + (tod.year % 4) <<< (4 : ℕ)).toNat
  if debug && todInvalid tod month then return 0
  let first ← daysThruMonth[month]?
  return utcOf (tod.year - 70) ((tod.year - 69) >>> (2 : ℕ)) (first + tod.day - 1) tod.hour tod.min
    tod.sec

/-! ### Dates -/

namespace Todinfo

/-- The fields are a Gregorian date and a time of day. -/
structure Valid (tod : Todinfo) : Prop where
  month : 1 ≤ tod.month ∧ tod.month ≤ 12
  day : 1 ≤ tod.day ∧ tod.day ≤ monthLength (1900 + tod.year) (tod.month - 1).toNat
  hour : 0 ≤ tod.hour ∧ tod.hour < 24
  min : 0 ≤ tod.min ∧ tod.min < 60
  sec : 0 ≤ tod.sec ∧ tod.sec < 60

def yday (tod : Todinfo) : ℤ := monthStart (1900 + tod.year) (tod.month - 1).toNat + (tod.day - 1)

/-- The days since the epoch. -/
def days (tod : Todinfo) : ℤ := yearStart (1900 + tod.year) + tod.yday

/-- The seconds since the epoch. -/
def seconds (tod : Todinfo) : ℤ := 86400 * tod.days + 3600 * tod.hour + 60 * tod.min + tod.sec

/-- The date, the time of day and the weekday of a second. -/
structure At (tod : Todinfo) (utc : ℤ) : Prop extends tod.Valid where
  seconds : tod.seconds = utc
  dow : tod.dow = weekday (utc / 86400) + 1

theorem Valid.yday_bounds {tod : Todinfo} (h : tod.Valid) :
    0 ≤ tod.yday ∧ tod.yday < yearLength (1900 + tod.year) := by
  obtain ⟨hm, hd⟩ := And.intro h.month h.day
  have h0 := (monthStart_strictMono (1900 + tod.year)).monotone (Nat.zero_le (tod.month - 1).toNat)
  have h12 := (monthStart_strictMono (1900 + tod.year)).monotone
    (show (tod.month - 1).toNat + 1 ≤ 12 by omega)
  rw [monthStart_year, monthStart] at h12
  rw [monthStart] at h0
  unfold yday
  omega

theorem Valid.year_bounds {tod : Todinfo} (h : tod.Valid) (h0 : 0 ≤ tod.seconds)
    (hlt : tod.seconds < 2 ^ 31) : 70 ≤ tod.year ∧ tod.year ≤ 138 := by
  obtain ⟨hd0, hd⟩ := h.yday_bounds
  have hsucc := yearStart_succ (1900 + tod.year)
  obtain ⟨⟨hh, hh'⟩, ⟨hm, hm'⟩, hs, hs'⟩ := And.intro h.hour (And.intro h.min h.sec)
  have h1970 : yearStart 1970 = 0 := by decide
  have h2039 : yearStart 2039 = 25202 := by decide
  unfold seconds days at *
  constructor
  · by_contra hy
    have := yearStart_strictMono.monotone (show 1900 + tod.year + 1 ≤ 1970 by omega)
    omega
  · by_contra hy
    have := yearStart_strictMono.monotone (show 2039 ≤ 1900 + tod.year by omega)
    omega

/-- A second has one date and one time of day. -/
theorem Valid.eq_of_seconds {tod tod' : Todinfo} (h : tod.Valid) (h' : tod'.Valid)
    (hs : tod.seconds = tod'.seconds) : tod = { tod' with dow := tod.dow } := by
  obtain ⟨hd0, hd⟩ := h.yday_bounds
  obtain ⟨hd0', hd'⟩ := h'.yday_bounds
  obtain ⟨⟨hm, hm12⟩, ⟨h1, h2⟩, ⟨h3, h4⟩, ⟨h5, h6⟩, h7, h8⟩ := h
  obtain ⟨⟨hm', hm12'⟩, ⟨h1', h2'⟩, ⟨h3', h4'⟩, ⟨h5', h6'⟩, h7', h8'⟩ := h'
  unfold seconds at hs
  obtain ⟨hyear, hyday⟩ := year_unique (show tod.days = tod'.days by omega) hd0 hd hd0' hd'
  have hdays : tod.days = tod'.days := by omega
  have hhour : tod.hour = tod'.hour := by omega
  have hmin : tod.min = tod'.min := by omega
  unfold yday at hyday
  rw [hyear] at hyday h2
  obtain ⟨hmonth, hday⟩ := month_unique hyday (by omega) (by omega) (by omega) (by omega)
  ext
  · exact (by omega : tod.sec = tod'.sec)
  · exact hmin
  · exact hhour
  · rfl
  · exact (by omega : tod.day = tod'.day)
  · exact (by omega : tod.month = tod'.month)
  · exact (by omega : tod.year = tod'.year)

end Todinfo

/-! ### The table -/

theorem leap_iff_mod_four {y : ℤ} (h0 : 0 < y) (h : y < 200) : Leap (1900 + y) ↔ y % 4 = 0 := by
  rw [leap_iff]
  omega

theorem dayOf_eq {dse : ℕ} {y : ℤ} (h0 : 70 ≤ y) (h : y ≤ 200) :
    dayOf dse y = dse - yearStart (1900 + y) := by
  rw [dayOf, Int.shiftRight_eq_div_pow, yearStart]
  omega

/-- A row of the table holds the days before each month. -/
theorem daysThruMonth_eq {y : ℤ} (h0 : 0 < y) (h : y < 200) {k : ℕ} (hk : k ≤ 12) :
    daysThruMonth[(y % 4).toNat <<< 4 + 1 + k]? = some (monthStart (1900 + y) k) := by
  have hleap := leap_iff_mod_four h0 h
  obtain ⟨r, hr⟩ : ∃ r : ℕ, y % 4 = r := ⟨(y % 4).toNat, by omega⟩
  have hr4 : r < 4 := by omega
  rw [hr] at hleap ⊢
  interval_cases r
  all_goals
    norm_num at hleap
    interval_cases k <;> simp [daysThruMonth, monthStart, monthLength, hleap]

/-! ### From seconds to the date -/

/-- The search ends at the year of the day. -/
theorem findYear_spec (dse : ℕ) (year : ℤ) (h : dayOf dse year < 0) :
    0 ≤ dayOf dse (findYear dse year) ∧ dayOf dse (findYear dse year + 1) < 0 := by
  fun_induction findYear dse year with
  | case1 year hneg ih => exact ih hneg
  | case2 year hpos => exact ⟨not_lt.1 hpos, by rwa [Int.sub_add_cancel]⟩

/-- The search ends at the month of the day. -/
theorem findMonth_spec {y day : ℤ} (h0 : 0 < y) (h : y < 200)
    (hday : day < monthStart (1900 + y) 12) {k : ℕ} (hk : k ≤ 11)
    (hle : monthStart (1900 + y) k ≤ day) :
    ∃ k' ≤ 11, findMonth day ((y % 4).toNat <<< 4 + 1 + k) = some ((y % 4).toNat <<< 4 + 1 + k') ∧
      monthStart (1900 + y) k' ≤ day ∧ day < monthStart (1900 + y) (k' + 1) := by
  have hrow := daysThruMonth_eq h0 h (show k + 1 ≤ 12 by omega)
  obtain ⟨hlt, hget⟩ := List.getElem?_eq_some_iff.1 hrow
  have hlen : daysThruMonth.length = 64 := rfl
  rw [findMonth, dif_pos (show (y % 4).toNat <<< 4 + 1 + k + 1 < 64 from hlt)]
  change ∃ k' ≤ 11, (if daysThruMonth[(y % 4).toNat <<< 4 + 1 + (k + 1)] ≤ day then _ else _) = _ ∧
    _
  rw [hget]
  by_cases hnext : monthStart (1900 + y) (k + 1) ≤ day
  · have hk' : k + 1 ≤ 11 := by
      by_contra hc
      obtain rfl : k = 11 := by omega
      exact hnext.not_gt hday
    rw [if_pos hnext]
    exact findMonth_spec h0 h hday hk' hnext
  · rw [if_neg hnext]
    exact ⟨k, hk, rfl, hle, not_le.1 hnext⟩
  termination_by 12 - k

theorem freshTod_spec {utc : ℕ} (h : utc < 2 ^ 31) :
    ∃ tod, freshTod utc = some tod ∧ tod.At utc := by
  obtain ⟨hge, hlt⟩ := findYear_spec (utc / 86400) ((utc / 86400 : ℕ) / 365 + 72)
    (by rw [dayOf, Int.shiftRight_eq_div_pow]; omega)
  unfold freshTod
  dsimp only
  generalize hy : findYear (utc / 86400) ((utc / 86400 : ℕ) / 365 + 72) = y at *
  have h70 := seventy_lt_of_dayOf_neg hlt
  have h138 : y ≤ 138 := by
    rw [dayOf, Int.shiftRight_eq_div_pow] at hge
    omega
  have hsucc := yearStart_succ (1900 + y)
  rw [dayOf_eq (by omega) (by omega), ← add_assoc, hsucc] at hlt
  rw [dayOf_eq (by omega) (by omega)] at hge
  obtain ⟨k, hk, hfind, hle, hgt⟩ := @findMonth_spec y (dayOf (utc / 86400) y) (by omega) (by omega)
    (by rw [monthStart_year, dayOf_eq (by omega) (by omega)]; omega) 0 (by omega)
    (by rw [monthStart, dayOf_eq (by omega) (by omega)]; omega)
  rw [Nat.add_zero] at hfind
  rw [hfind, Option.bind_eq_bind, Option.bind_some, daysThruMonth_eq (by omega) (by omega)
    (show k ≤ 12 by omega)]
  rw [dayOf_eq (by omega) (by omega)] at *
  rw [monthStart] at hgt
  have hmonth : ((y % 4).toNat <<< 4 + 1 + k) &&& 15 = k + 1 := by
    rw [Nat.and_two_pow_sub_one_eq_mod _ 4, Nat.shiftLeft_eq]
    omega
  have hk' : (((k + 1 : ℕ) : ℤ) - 1).toNat = k := by omega
  refine ⟨_, rfl, ?_⟩
  rw [hmonth]
  refine ⟨⟨?_, ?_, ?_, ?_, ?_⟩, ?_, ?_⟩
  · dsimp only
    omega
  · dsimp only
    rw [hk']
    omega
  · dsimp only
    omega
  · dsimp only
    omega
  · dsimp only
    omega
  · unfold Todinfo.seconds Todinfo.days Todinfo.yday
    dsimp only
    rw [hk']
    omega
  · unfold weekday
    dsimp only
    omega

/-! ### The saved values -/

/-- The saved values are those they are loaded with, or belong together. -/
def Saved.Ok (s : Saved) : Prop :=
  s = .init ∨ (0 ≤ s.utc ∧ s.utc < 2 ^ 31) ∧ s.tod.At s.utc

/-- Within a minute only the seconds change. -/
theorem Todinfo.At.same_minute {tod : Todinfo} {u utc : ℤ} (h : tod.At u)
    (h0 : 0 ≤ tod.sec + (utc - u)) (hlt : tod.sec + (utc - u) < 60) :
    { tod with sec := tod.sec + (utc - u) : Todinfo }.At utc := by
  obtain ⟨⟨hm, hd, hh, hmin, hs⟩, hsec, hdow⟩ := h
  have hday : utc / 86400 = u / 86400 := by
    unfold Todinfo.seconds at hsec
    omega
  refine ⟨⟨hm, hd, hh, hmin, h0, hlt⟩, ?_, ?_⟩
  · unfold Todinfo.seconds at *
    change 86400 * tod.days + _ + _ + _ = _
    dsimp only
    omega
  · rw [hday]
    exact hdow

/-- A call gives the date of its second, whatever was saved. -/
theorem utcToTod_spec {s : Saved} {utc : ℤ} (hs : s.Ok) (h0 : 0 ≤ utc) (hlt : utc < 2 ^ 31) :
    ∃ tod, utcToTod s utc = some (tod, ⟨tod, utc⟩) ∧ tod.At utc := by
  unfold utcToTod
  rw [if_neg (not_lt.2 h0)]
  dsimp only
  split_ifs with hsec
  · rcases hs with rfl | ⟨⟨hu0, hu⟩, hat⟩
    · unfold Saved.init wrap at hsec
      dsimp only at hsec
      omega
    · have hs := hat.sec
      have hw : wrap (s.tod.sec + wrap (utc - s.utc)) = s.tod.sec + (utc - s.utc) := by
        -- the saved minute does not begin before the epoch
        have hu := hat.seconds
        unfold Todinfo.seconds at hu
        unfold wrap
        omega
      rw [hw] at hsec ⊢
      exact ⟨_, rfl, hat.same_minute hsec.1 hsec.2⟩
  · obtain ⟨n, rfl⟩ := Int.eq_ofNat_of_zero_le h0
    obtain ⟨tod, htod, hat⟩ := @freshTod_spec n (by omega)
    rw [Int.toNat_natCast, htod]
    exact ⟨tod, rfl, hat⟩

/-- A sequence of calls of `utc_to_tod`, with the results. -/
def utcToTods (s : Saved) : List ℤ → Option (List Todinfo × Saved)
  | [] => some ([], s)
  | utc :: utcs => do
    let (tod, s) ← utcToTod s utc
    let (tods, s) ← utcToTods s utcs
    return (tod :: tods, s)

theorem utcToTods_spec {s : Saved} (hs : s.Ok) {utcs : List ℤ}
    (h : ∀ u ∈ utcs, 0 ≤ u ∧ u < 2 ^ 31) :
    ∃ tods s', utcToTods s utcs = some (tods, s') ∧ s'.Ok ∧
      List.Forall₂ (fun tod utc => tod.At utc ∧ 0 ≤ utc ∧ utc < 2 ^ 31) tods utcs := by
  induction utcs generalizing s with
  | nil => exact ⟨[], s, rfl, hs, .nil⟩
  | cons utc utcs ih =>
    obtain ⟨⟨h0, hlt⟩, hrest⟩ := List.forall_mem_cons.1 h
    obtain ⟨tod, htod, hat⟩ := utcToTod_spec hs h0 hlt
    obtain ⟨tods, s', htods, hs', hall⟩ := @ih ⟨tod, utc⟩ (.inr ⟨⟨h0, hlt⟩, hat⟩) hrest
    rw [utcToTods, htod]
    refine ⟨tod :: tods, s', ?_, hs', .cons ⟨hat, h0, hlt⟩ hall⟩
    rw [Option.bind_eq_bind, Option.bind_some]
    dsimp only
    rw [htods]
    rfl

/-! ### And back -/

theorem wrap_eq {x : ℤ} (h0 : -2 ^ 31 ≤ x) (h : x < 2 ^ 31) : wrap x = x := by
  unfold wrap
  omega

theorem utcOf_eq {year leap yday hour min sec : ℤ} (hy : 0 ≤ year ∧ year ≤ 68)
    (hl : 0 ≤ leap ∧ leap ≤ 17) (hd : 0 ≤ yday ∧ yday < 366) (hh : 0 ≤ hour ∧ hour < 24)
    (hm : 0 ≤ min ∧ min < 60) (hs : 0 ≤ sec ∧ sec < 60)
    (hlt : 86400 * (365 * year + leap + yday) + 3600 * hour + 60 * min + sec < 2 ^ 31) :
    utcOf year leap yday hour min sec =
      86400 * (365 * year + leap + yday) + 3600 * hour + 60 * min + sec := by
  have e1 : wrap (year + (year <<< (3 : ℕ) + year <<< (6 : ℕ))) = 73 * year := by
    rw [shiftLeft_eq, shiftLeft_eq, wrap]
    omega
  unfold utcOf
  dsimp only
  rw [e1]
  generalize hw : 73 * year = w
  have e2 : wrap (w + (w <<< (2 : ℕ) + leap)) = 365 * year + leap := by
    rw [shiftLeft_eq, wrap]
    omega
  have e3 : wrap (365 * year + leap + yday) = 365 * year + leap + yday :=
    wrap_eq (by omega) (by omega)
  rw [e2, e3]
  have hd0 : 0 ≤ 365 * year + leap + yday := by omega
  clear e1 e2 e3 hw
  generalize 365 * year + leap + yday = d at *
  have e4 : wrap (d <<< (3 : ℕ) + d <<< (4 : ℕ) + hour) = 24 * d + hour := by
    rw [shiftLeft_eq, shiftLeft_eq, wrap]
    omega
  rw [e4]
  generalize hx : 24 * d + hour = x
  have e5 : wrap (x <<< (6 : ℕ) - x <<< (2 : ℕ) + min) = 60 * x + min := by
    rw [shiftLeft_eq, shiftLeft_eq, wrap]
    omega
  rw [e5]
  generalize hz : 60 * x + min = z
  rw [shiftLeft_eq, shiftLeft_eq, wrap, wrap]
  omega

theorem todToUtc_spec {tod : Todinfo} (debug : Bool) (hv : tod.Valid) (h0 : 0 ≤ tod.seconds)
    (hlt : tod.seconds < 2 ^ 31) : todToUtc debug tod = some tod.seconds := by
  obtain ⟨h70, h138⟩ := hv.year_bounds h0 hlt
  obtain ⟨hd0, hd⟩ := hv.yday_bounds
  obtain ⟨⟨hm, hm12⟩, ⟨h1, h2⟩, hh, hmin, hs⟩ := hv
  obtain ⟨k, hk⟩ : ∃ k : ℕ, tod.month = k + 1 := ⟨(tod.month - 1).toNat, by omega⟩
  have hmonth : (tod.month + (tod.year % 4) <<< (4 : ℕ)).toNat =
      (tod.year % 4).toNat <<< 4 + 1 + k := by
    rw [hk, Nat.shiftLeft_eq, shiftLeft_eq]
    omega
  have hk' : (tod.month - 1).toNat = k := by omega
  have hrow := @daysThruMonth_eq tod.year (by omega) (by omega) k (by omega)
  have hnext := @daysThruMonth_eq tod.year (by omega) (by omega) (k + 1) (by omega)
  have hvalid : todInvalid tod ((tod.year % 4).toNat <<< 4 + 1 + k) = false := by
    rw [hk'] at h2
    unfold todInvalid
    rw [decide_eq_false_iff_not, List.getD_eq_getElem?_getD, List.getD_eq_getElem?_getD, hrow,
      add_assoc _ k 1, hnext]
    simp only [Option.getD_some, monthStart]
    omega
  unfold todToUtc
  dsimp only
  rw [hmonth, hvalid, Bool.and_false, if_neg (by decide), hrow]
  have hstart : yearStart (1900 + tod.year) = 365 * (tod.year - 70) + (tod.year - 69) / 4 := by
    unfold yearStart
    omega
  have hlength : yearLength (1900 + tod.year) ≤ 366 := by
    unfold yearLength
    split_ifs <;> omega
  have hyday : monthStart (1900 + tod.year) k + tod.day - 1 = tod.yday := by
    rw [Todinfo.yday, hk']
    omega
  unfold Todinfo.seconds Todinfo.days at h0 hlt ⊢
  rw [hstart] at h0 hlt ⊢
  rw [Int.shiftRight_eq_div_pow, Option.bind_eq_bind, Option.bind_some, hyday]
  exact congrArg some (utcOf_eq (by omega) (by omega) (by omega) hh hmin hs (by omega))

/-- The conversions are inverse to each other. Any sequence of calls of `utc_to_tod` gives the date,
the time of day and the weekday of each second, which `tod_to_utc` takes back to the second; and
after any such sequence `tod_to_utc` of a valid date and `utc_to_tod` give the date again, with its
weekday. -/
theorem utcToTods_todToUtc (debug : Bool) (utcs : List ℤ) (h : ∀ u ∈ utcs, 0 ≤ u ∧ u < 2 ^ 31) :
    ∃ tods s, utcToTods .init utcs = some (tods, s) ∧
      List.Forall₂ (fun tod utc => tod.At utc ∧ todToUtc debug tod = some utc) tods utcs ∧
      ∀ tod : Todinfo, tod.Valid → 0 ≤ tod.seconds → tod.seconds < 2 ^ 31 →
        ∃ utc s', todToUtc debug tod = some utc ∧
          utcToTod s utc = some ({ tod with dow := weekday (utc / 86400) + 1 }, s') := by
  obtain ⟨tods, s, hcalls, hs, hall⟩ := utcToTods_spec (.inl rfl) h
  refine ⟨tods, s, hcalls, ?_, fun tod hv h0 hlt => ?_⟩
  · refine hall.imp fun tod utc ⟨hat, h0, hlt⟩ => ⟨hat, ?_⟩
    obtain rfl := hat.seconds
    exact todToUtc_spec debug hat.toValid h0 hlt
  · obtain ⟨tod', htod', hat⟩ := utcToTod_spec hs h0 hlt
    have heq := hat.toValid.eq_of_seconds hv hat.seconds
    rw [hat.dow] at heq
    exact ⟨tod.seconds, _, todToUtc_spec debug hv h0 hlt, heq ▸ htod'⟩

/-- The leap day of 2000, a Tuesday, after a call for the epoch. -/
theorem utcToTods_todToUtc_leapDay :
    ∃ tods s s', utcToTods .init [0] = some (tods, s) ∧
      utcToTod s 951782400 = some (⟨0, 0, 0, 3, 29, 2, 100⟩, s') := by
  obtain ⟨tods, s, hcalls, -, hback⟩ := utcToTods_todToUtc true [0] (by decide)
  obtain ⟨utc, s', hutc, h⟩ := hback ⟨0, 0, 0, 0, 29, 2, 100⟩
    ⟨by decide, by decide, by decide, by decide, by decide⟩ (by decide) (by decide)
  obtain rfl : 951782400 = utc := Option.some.inj (by rw [← hutc]; decide)
  exact ⟨tods, s, s', hcalls, h⟩

end Sol26.Timers
