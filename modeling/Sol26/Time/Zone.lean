import Sol26.Time.Broken

/-!
# The time zone

The static state of `time_comm.c` and the functions that set it: `_ltzset_u` reads the zone name,
first as a POSIX rule and then as the name of a zone file, and leaves one standard offset, one
alternate offset and one pair of change times. `localtime_u` and `mktime` work from these.

Long and int are 32-bit words. A function returns `none` where the source reads outside a table.
The zone abbreviations are not modelled.
-/
namespace Sol26.Time

/-- The 32-bit signed word of a value. -/
def int (x : ℤ) : ℤ := Int.bmod x (2 ^ 32)

def intMax : ℤ := 2147483647

/-- An element of a table, `none` outside of it. -/
def entry (table : List ℤ) (i : ℤ) : Option ℤ := if 0 ≤ i then table[i.toNat]? else none

/-- `__yday_to_month` and `__lyday_to_month`. -/
def ydayToMonth (leap : Bool) : List ℤ :=
  if leap then [0, 31, 60, 91, 121, 152, 182, 213, 244, 274, 305, 335]
  else [0, 31, 59, 90, 120, 151, 181, 212, 243, 273, 304, 334]

/-! ### Zone files -/

/-- `struct ttinfo`. -/
structure Ttinfo where
  gmtoff : ℤ
  isdst : Bool
deriving DecidableEq, Repr

/-- A zone file as `_tzload` accepts it: every transition has a type of the list of types. -/
structure ZoneTable where
  ats : List ℤ
  types : List ℕ
  ttis : List Ttinfo
  length_types : types.length = ats.length
  types_lt : ∀ k ∈ types, k < ttis.length
  ttis_ne : ttis ≠ []
  ats_int : ∀ a ∈ ats, int a = a
  gmtoff_int : ∀ tt ∈ ttis, int tt.gmtoff = tt.gmtoff

/-- The first type of a table. -/
def ZoneTable.first (T : ZoneTable) : Ttinfo := T.ttis.head T.ttis_ne

/-- The transitions with their types. -/
def ZoneTable.transitions (T : ZoneTable) : List (ℤ × Ttinfo) :=
  T.ats.zip (T.types.map fun k => T.ttis.getD k T.first)

/-- What the zone functions read from outside: the value of `TZ`, the zone files, the clock, and
the word the uninitialised `led` of `getdst` happens to hold. -/
structure Env where
  tz : List Char
  tzload : List Char → Option ZoneTable
  now : ℤ
  led : ℤ

/-- The static state. -/
structure Zone where
  timezone : ℤ
  altzone : ℤ
  daylight : Bool
  startDst : ℤ
  endDst : ℤ
  isInDst : Bool
  isPosix : Bool
deriving DecidableEq, Repr

/-- The time at which the transition after these takes place. -/
def nextAt : List (ℤ × Ttinfo) → ℤ
  | [] => intMax
  | next :: _ => next.1

/-- One transition of the loop of `_ltzset_u`. -/
def Zone.enter (z : Zone) (start stop : ℤ) (tt : Ttinfo) : Zone :=
  if tt.isdst then
    { z with
      daylight := true
      isInDst := true
      altzone := int (-tt.gmtoff)
      startDst := start
      endDst := stop }
  else { z with timezone := int (-tt.gmtoff), isInDst := false }

/-- The transitions at or before `tim`. -/
def enterAll (tim : ℤ) : List (ℤ × Ttinfo) → Zone → Zone
  | [], z => z
  | (a, tt) :: rest, z => if a ≤ tim then enterAll tim rest (z.enter a (nextAt rest) tt) else z

/-- The name of the zone file, without the colon that marks it. -/
def olsonName : List Char → List Char
  | ':' :: name => name
  | name => name

/-- The zone file part of `_ltzset_u`. -/
def setOlson (env : Env) (tim : ℤ) (z : Zone) : Zone :=
  let z := { z with isPosix := false }
  match env.tzload (olsonName env.tz) with
  | none => z
  | some T =>
    enterAll (if tim = 0 then env.now else tim) T.transitions
      { z with timezone := int (-T.first.gmtoff), daylight := false, startDst := 0, endDst := 0 }

/-! ### Zone rules -/

def isdigit (c : Char) : Bool := decide ('0' ≤ c ∧ c ≤ '9')

def goodTZchar (c : Char) : Bool :=
  decide ('!' ≤ c ∧ c ≤ '~') && !isdigit c && c != ',' && c != '-' && c != '+'

/-- The digits of `getdigit`, with the value so far. -/
def digits : ℤ → List Char → List Char × ℤ
  | d, [] => ([], d)
  | d, c :: p =>
    if isdigit c then digits (int (d * 10 + ((c.toNat : ℤ) - '0'.toNat))) p else (c :: p, d)

def getdigit (p : List Char) : Option (List Char × ℤ) :=
  if p.head?.any isdigit then some (digits 0 p) else none

def getzname (p : List Char) : Option (List Char) :=
  if p.head? = some ':' then none
  else if p.head?.any goodTZchar then some (p.dropWhile goodTZchar) else none

/-- `gettime`: the rest of the text, none at an error, and the time it stores in either case. -/
def gettime (p : List Char) (f : Bool) : Option (List Char) × ℤ :=
  let sign := f && p.head? = some '-'
  let p := if f && (p.head? = some '-' || p.head? = some '+') then p.tail else p
  let store := fun t : ℤ => if sign then int (-t) else t
  match getdigit p with
  | none => (none, store 0)
  | some (p, hours) =>
    let t := int (hours * secsPerHour)
    if p.head? = some ':' then
      match getdigit p.tail with
      | none => (none, store t)
      | some (p, mins) =>
        let t := int (t + mins * secsPerMin)
        if p.head? = some ':' then
          match getdigit p.tail with
          | none => (none, store t)
          | some (p, secs) => (some p, store (int (t + secs)))
        else (some p, store t)
    else (some p, store t)

/-- The optional time of a rule. -/
def ruleTime (p : List Char) (default : ℤ) : Option (List Char × ℤ) :=
  if p.head? = some '/' then
    match gettime p.tail false with
    | (some p, t) => some (p, t)
    | (none, _) => none
  else some (p, default)

/-- `getdst`: the changes of a zone in the form of days of the year. -/
def getdst (env : Env) (z : Zone) (p : List Char) : Option (ℤ × ℤ) := do
  let (p, lsd) ← getdigit p
  let lsd := lsd - 1
  if lsd < 0 ∨ 365 < lsd then none
  let (p, st) ← ruleTime p 0
  let (led, et) ←
    if p.head? = some ',' then do
      let (p, led) ← getdigit p.tail
      let led := led - 1
      if led < 0 ∨ 365 < led then none
      let (_, et) ← ruleTime p 0
      pure (led, et)
    else pure (env.led, 0)
  pure (int (lsd * secsPerDay + st), int (led * secsPerDay + et - (z.timezone - z.altzone)))

/-- The three forms of a rule, with the numbers as `posixsubdst` leaves them. -/
inductive Rule where
  | day (jul : ℤ)
  | julian (jul : ℤ)
  | month (m n d : ℤ)
deriving DecidableEq, Repr

/-- A number of a rule that has to be within bounds. -/
def bounded (p : List Char) (lo hi : ℤ) : Option (List Char × ℤ) := do
  let (p, v) ← getdigit p
  if v < lo ∨ hi < v then none else pure (p, v)

/-- A separator of a rule. -/
def expect (c : Char) (p : List Char) : Option (List Char) :=
  if p.head? = some c then some p.tail else none

def posixsubdst (p : List Char) : Option (List Char × Rule × ℤ) := do
  let (p, rule) ←
    if p.head?.any isdigit then do
      let (p, jul) ← bounded p 0 365
      pure (p, Rule.day jul)
    else if p.head? = some 'J' then do
      let (p, jul) ← bounded p.tail 1 365
      pure (p, Rule.julian (jul - 1))
    else if p.head? = some 'M' then do
      let (p, m) ← bounded p.tail 1 12
      let p ← expect '.' p
      let (p, n) ← bounded p 1 5
      let p ← expect '.' p
      let (p, d) ← bounded p 0 6
      pure (p, Rule.month m n d)
    else none
  let (p, t) ← ruleTime p 7200
  pure (p, rule, t)

/-- `for (d = 1; wd != stdd; ++d)`. -/
def firstDay : ℕ → ℤ → ℤ → ℤ → Option ℤ
  | 0, _, _, _ => none
  | fuel + 1, wd, stdd, d =>
    if wd = stdd then some d else firstDay fuel ((wd + 1).tmod 7) stdd (d + 1)

/-- `for (w = 1; w != stdn; ++w)`, with the number of weeks to go. -/
def addWeeks (leap : Bool) (m : ℤ) : ℕ → ℤ → Option ℤ
  | 0, d => some d
  | w + 1, d => do
    let len ← entry (monLengths leap) m
    if len < d + 7 then pure d else addWeeks leap m w (d + 7)

/-- The day of the year of a rule, in the year of `std_tm`. -/
def ruleDay (tm : Tm) : Rule → Option ℤ
  | .day jul => some jul
  | .julian jul => some (if isleap tm.year && decide (58 < jul) then jul + 1 else jul)
  | .month m n d => do
    let wd := tm.wday - tm.yday.tmod 7
    let wdJan01 := if wd < 0 then wd + 7 else wd
    let before ← entry (ydayToMonth (isleap tm.year)) (m - 1)
    let first ← firstDay 7 ((wdJan01 + before).tmod 7) d 1
    let day ← addWeeks (isleap tm.year) m (n - 1).toNat first
    pure (before + day - 1)

/-- One pass of the loop of `posixgetdst`, at a local time. -/
def dstPass (t : ℤ) (start stop : Rule) : Option (ℤ × ℤ) := do
  let lsd ← ruleDay (gmtime t) start
  let led ← ruleDay (gmtime t) stop
  pure (lsd, led)

/-- The loop: a second pass, in the alternate time, when the rules are of the southern
hemisphere. -/
def dstDays (timezone altzone tim : ℤ) (start stop : Rule) : Option (ℤ × ℤ) := do
  let (lsd, led) ← dstPass (int (tim - timezone)) start stop
  if lsd ≤ led then pure (lsd, led) else dstPass (int (tim - altzone)) start stop

/-- The rules after the comma. -/
def posixRules (p : List Char) : Option ((Rule × ℤ) × (Rule × ℤ)) := do
  let (p, start, st) ← posixsubdst p
  let p ← expect ',' p
  let (_, stop, et) ← posixsubdst p
  pure ((start, st), (stop, et))

/-- `posixgetdst`; the inner `none` is its return at unreadable rules. -/
def posixgetdst (z : Zone) (p : List Char) (tim : ℤ) : Option (Option (ℤ × ℤ)) :=
  match posixRules p with
  | none => some none
  | some ((start, st), (stop, et)) => do
    let (lsd, led) ← dstDays z.timezone z.altzone tim start stop
    pure (some (int (lsd * secsPerDay + st),
      int (led * secsPerDay + et - (z.timezone - z.altzone))))

/-- The rules of a zone, after the separator. -/
def setRules (env : Env) (tim : ℤ) (z : Zone) (p : List Char) : Option Zone := do
  let change ←
    if p.head? = some ';' then pure (getdst env z p.tail) else posixgetdst z p.tail tim
  match change with
  | none => pure z
  | some (s, e) => pure { z with startDst := s, endDst := e }

/-- The POSIX part of `_ltzset_u`, after the standard zone has been read. -/
def setPosix (env : Env) (tim : ℤ) (z : Zone) (p : List Char) : Option Zone :=
  let z := { z with
    isPosix := true
    altzone := int (z.timezone - secsPerHour)
    startDst := 0
    endDst := 0
    daylight := false }
  match getzname p with
  | none => some { z with altzone := z.timezone }
  | some p =>
    let z := { z with startDst := -1, endDst := -1, daylight := true }
    if p = [] then some z
    else if p.head? = some ';' ∨ p.head? = some ',' then setRules env tim z p
    else
      match gettime p true with
      | (none, alt) => some { z with altzone := alt }
      | (some p, alt) =>
        if p.head? = some ';' ∨ p.head? = some ',' then
          setRules env tim { z with altzone := alt } p
        else some { z with altzone := alt }

/-- `_ltzset_u`. -/
def ltzset (env : Env) (tim : ℤ) (z : Zone) : Option Zone :=
  if env.tz = [] then some { z with timezone := 0, altzone := 0, daylight := false }
  else
    match getzname env.tz with
    | none => some (setOlson env tim z)
    | some p =>
      match gettime p true with
      | (none, t) => some (setOlson env tim { z with timezone := t })
      | (some p, t) => setPosix env tim { z with timezone := t } p

/-! ### Local time -/

/-- `__daytab`: first year, first and last day. -/
def daytab : List (ℤ × ℤ × ℤ) :=
  [(87, 96, 303), (76, 119, 303), (75, 58, 303), (74, 5, 333), (69, 119, 303), (0, 119, 303)]

def sunday (tm : Tm) (d : ℤ) : ℤ :=
  let d := if 58 ≤ d then d + ((if tm.year.tmod 4 = 0 then 366 else 365) - 365) else d
  d - (d - tm.yday + tm.wday + 700).tmod 7

def getusa (tm : Tm) : Option (ℤ × ℤ) := do
  let (_, daylb, dayle) ← daytab.find? fun row => decide (row.1 ≤ tm.year)
  pure (sunday tm daylb * secsPerDay + 2 * secsPerHour, sunday tm dayle * secsPerDay + secsPerHour)

/-- The seconds since the start of the year. -/
def Tm.ofYear (tm : Tm) : ℤ :=
  tm.yday * secsPerDay + tm.hour * secsPerHour + tm.min * secsPerMin + tm.sec

/-- The test for the alternate time, in the northern and in the southern hemisphere. -/
def inAlternate (daybegin dayend curr : ℤ) : Bool :=
  if daybegin ≤ dayend then decide (daybegin ≤ curr ∧ curr < dayend)
  else !decide (dayend ≤ curr ∧ curr < daybegin)

/-- `localtime_u`. -/
def localtime (env : Env) (timep : ℤ) (z : Zone) : Option (Tm × Zone) := do
  let z ← ltzset env timep z
  let tm := gmtime (int (timep - z.timezone))
  if z.daylight then
    let curr := if z.isPosix then tm.ofYear else int (timep - z.timezone)
    let (daybegin, dayend) ←
      if z.startDst = -1 ∧ z.endDst = -1 then getusa tm
      else
        let adjust := if z.isInDst then z.timezone else 0
        pure (int (z.startDst - adjust), int (z.endDst - adjust))
    if inAlternate daybegin dayend curr then
      pure ({ gmtime (int (timep - z.altzone)) with isdst := 1 }, z)
    else pure (tm, z)
  else pure (tm, z)

/-! ### From local time -/

/-- The month brought into the year. -/
def Tm.normMonth (tm : Tm) : Tm :=
  if 12 ≤ tm.mon then
    { tm with year := int (tm.year + tm.mon.tdiv 12), mon := tm.mon.tmod 12 }
  else if tm.mon < 0 then
    let temp := int (-tm.mon)
    let tm := { tm with mon := 0, year := int (tm.year - temp.tdiv 12) }
    if temp.tmod 12 = 0 then tm
    else { tm with year := int (tm.year - 1), mon := 12 - temp.tmod 12 }
  else tm

/-- The fields as seconds, as if they were universal time. -/
def Tm.asGmt (tm : Tm) : Option ℤ := do
  let secs := int (tm.sec + secsPerMin * tm.min + secsPerHour * tm.hour +
    secsPerDay * (tm.mday - 1))
  let tm := tm.normMonth
  let secs := int (secs + (365 * secsPerDay * (tm.year - 70) +
    secsPerDay * ((tm.year + 3).tdiv 4 - 1 - 17)))
  let days ← entry (ydayToMonth (decide (tm.year.tmod 4 = 0))) tm.mon
  pure (int (secs + secsPerDay * days))

/-- The offset `mktime` guesses when the caller does not know whether it is the alternate time:
`timezone`, `altzone` or none at all. -/
def guessOffset (z : Zone) (secs guessed : ℤ) : ℤ :=
  let gap := |int (z.timezone - z.altzone)|
  if z.isInDst then
    if z.startDst ≤ guessed ∧ guessed < z.endDst then
      if gap ≤ int (guessed - z.startDst) ∧ z.startDst ≤ int (secs - gap) then z.altzone
      else z.timezone
    else 0
  else if z.endDst ≤ guessed then
    if int (guessed - z.endDst) < gap then z.altzone else z.timezone
  else z.timezone

/-- The last correction for an unknown flag, in a zone given by rules. -/
def correctPosix (env : Env) (secs : ℤ) (tm : Tm) (z : Zone) : Option (ℤ × Tm × Zone) := do
  let gap := int (z.timezone - z.altzone)
  let (daybegin, dayend) ←
    if z.startDst = -1 ∧ z.endDst = -1 then getusa tm else pure (z.startDst, z.endDst)
  let temp := tm.ofYear
  let later :=
    if daybegin ≤ dayend then decide (daybegin ≤ temp ∧ temp < int (dayend + gap))
    else !decide (int (dayend + gap) ≤ temp ∧ temp < daybegin)
  if later then do
    let secs := int (secs - gap)
    let (tm, z) ← localtime env secs z
    pure (secs, tm, z)
  else pure (secs, tm, z)

/-- `mktime`: the seconds, the fields it leaves in the caller's structure, and the state. -/
def mktime (env : Env) (tm : Tm) (z : Zone) : Option (ℤ × Tm × Zone) := do
  let secs ← tm.asGmt
  let norm := tm.normMonth
  let z ← ltzset env secs z
  let (secs, z) ←
    if 0 < norm.isdst then pure (int (secs + z.altzone), z)
    else if norm.isdst = 0 then pure (int (secs + z.timezone), z)
    else do
      let guessed := int (secs +
        if 0 < z.timezone ∧ 0 < z.altzone then min z.timezone z.altzone
        else max z.timezone z.altzone)
      let z ← ltzset env guessed z
      pure (int (secs + guessOffset z secs guessed), z)
  let (tptr, z) ← localtime env secs z
  let (secs, tptr, z) ←
    if norm.isdst < 0 ∧ z.isPosix = true then correctPosix env secs tptr z
    else pure (secs, tptr, z)
  if secs < 0 ∨ norm.year < 69 ∨ 138 < norm.year then pure (-1, norm, z)
  else pure (secs, tptr, z)

end Sol26.Time
