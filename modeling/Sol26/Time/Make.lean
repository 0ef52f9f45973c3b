import Sol26.Time.Local

/-!
# From local time back

`mktime` looks the zone up at the local time, read as universal time, and adds the offset it finds
for the caller's flag. It returns the time the fields came from exactly when that look-up finds the
offset `localtime_u` had applied.
-/
namespace Sol26.Time

open Calendar
open Option (bind_eq_bind bind_some pure_def)

variable {T : ZoneTable} {t : ℤ}

/-- The seconds of the fields of a time between 1969 and 2038. -/
theorem yearStart_short {y : ℤ} (h0 : 69 ≤ y) (h1 : y ≤ 138) :
    yearStart (y + 1900) = 365 * (y - 70) + ((y + 3).tdiv 4 - 1 - 17) := by
  rw [Int.tdiv_eq_ediv_of_nonneg (by omega)]
  unfold yearStart
  omega

theorem leap_short {y : ℤ} (h0 : 69 ≤ y) (h1 : y ≤ 138) :
    decide (y.tmod 4 = 0) = isleap (y + 1900) := by
  rw [Bool.eq_iff_iff, decide_eq_true_iff, isleap_iff, leap_iff,
    Int.tmod_eq_emod_of_nonneg (by omega)]
  omega

theorem int_add_int (a b : ℤ) : int (int a + b) = int (a + b) := by
  unfold int
  exact Int.bmod_add_bmod

theorem Tm.IsAt.normMonth_eq {tm : Tm} {s : ℤ} (h : tm.IsAt s) : tm.normMonth = tm := by
  obtain ⟨k, hk, hmon, -⟩ := h.date
  rw [Tm.normMonth, if_neg (by omega), if_neg (by omega)]

theorem Tm.IsAt.exists_asGmt {tm : Tm} {s : ℤ} (h : tm.IsAt s) : ∃ secs, tm.asGmt = some secs := by
  obtain ⟨k, hk, hmon, -⟩ := h.date
  have hentry : ∀ leap, ∃ d, entry (ydayToMonth leap) tm.mon = some d := by
    intro leap
    rw [hmon, entry_nat]
    have hlen : k < (ydayToMonth leap).length := by
      cases leap <;> simpa [ydayToMonth] using hk
    exact ⟨_, List.getElem?_eq_getElem hlen⟩
  obtain ⟨d, hd⟩ := hentry (decide (tm.year.tmod 4 = 0))
  simp only [Tm.asGmt, h.normMonth_eq, hd, bind_eq_bind, bind_some, pure_def]
  exact ⟨_, rfl⟩

theorem Tm.IsAt.asGmt_eq {tm : Tm} {s : ℤ} (h : tm.IsAt s) (hy0 : 69 ≤ tm.year)
    (hy1 : tm.year ≤ 138) (hs : int s = s) : tm.asGmt = some s := by
  obtain ⟨k, hk, hmon, hyday, -⟩ := h.date
  have hday := h.day
  have htime := h.time
  rw [yearStart_short hy0 hy1, ← hyday] at hday
  simp only [Tm.asGmt, h.normMonth_eq, leap_short hy0 hy1, hmon, entry_ydayToMonth hk,
    bind_eq_bind, bind_some, pure_def, Option.some.injEq, int_add_int]
  rw [← hs]
  congr 1
  unfold secsPerMin secsPerHour secsPerDay
  omega

/-! ### Both directions -/

/-- `mktime` returns `t` for the fields `localtime_u` produces for it. -/
def Inverts (env : Env) (z : Zone) (t : ℤ) : Prop :=
  ∃ tm z1 tm' z2, localtime env t z = some (tm, z1) ∧ mktime env tm z1 = some (t, tm', z2)

/-- The fields are of 1969 or later, and the look-up at the local time finds the offset they were
made with. Where it finds no alternate time at all, the offset of the last call is still there. -/
def ZoneTable.SameOffset (T : ZoneTable) (env : Env) (t : ℤ) : Prop :=
  let offset := T.offset t t
  let wall := int (t + offset)
  wall ≥ -31536000 ∧
    if T.Alternate t t then
      ∀ s, T.dstSpan (env.lookup wall) = some s → s.tt.gmtoff = offset
    else T.stdOffset (env.lookup wall) = offset

/-- The offset `mktime` adds for a known flag. -/
def Zone.offsetFor (z : Zone) (isdst : ℤ) : ℤ := if 0 < isdst then z.altzone else z.timezone

theorem mktime_eq {env : Env} (h : env.Loads T) (hT : T.Sorted) {tm : Tm} {s secs : ℤ}
    (hat : tm.IsAt s) (hsecs : tm.asGmt = some secs) (hflag : 0 ≤ tm.isdst) (z : Zone) :
    ∃ tm' z', mktime env tm z =
      some (let final := int (secs + (T.zoneAt (env.lookup secs) z).offsetFor tm.isdst)
        if final < 0 ∨ tm.year < 69 ∨ 138 < tm.year then -1 else final, tm', z') := by
  have hneg : ¬ tm.isdst < 0 := by omega
  have hmem := int_mem (secs + (T.zoneAt (env.lookup secs) z).offsetFor tm.isdst)
  unfold Zone.offsetFor at hmem ⊢
  by_cases hp : 0 < tm.isdst
  · simp only [if_pos hp] at hmem ⊢
    simp only [mktime, hsecs, hat.normMonth_eq, ltzset_eq h hT, bind_eq_bind,
      bind_some, if_pos hp, pure_def, localtime_eq h hT _ hmem.1 hmem.2, hneg,
      false_and, if_false]
    split_ifs <;> exact ⟨_, _, rfl⟩
  · have hz : tm.isdst = 0 := by omega
    simp only [if_neg hp] at hmem ⊢
    simp only [mktime, hsecs, hat.normMonth_eq, ltzset_eq h hT, bind_eq_bind,
      bind_some, if_neg hp, if_pos hz, pure_def, localtime_eq h hT _ hmem.1 hmem.2,
      hneg, false_and, if_false]
    split_ifs <;> exact ⟨_, _, rfl⟩

/-- Adding back an offset returns the time exactly if it is the offset that was taken. -/
theorem int_add_back {t g g' : ℤ} (ht : int t = t) (hg : -2147483648 ≤ g ∧ g ≤ 2147483647)
    (hg' : -2147483648 ≤ g' ∧ g' ≤ 2147483647) :
    int (int (t + g) + int (-g')) = t ↔ g' = g := by
  rw [int_add_int, add_comm, int_add_int]
  constructor
  · intro he
    unfold int Int.bmod at he
    dsimp only at he
    split_ifs at he <;> omega
  · rintro rfl
    rw [show -g' + (t + g') = t by ring, ht]

theorem offset_mem (T : ZoneTable) (look t : ℤ) :
    -2147483648 ≤ T.offset look t ∧ T.offset look t ≤ 2147483647 := by
  unfold ZoneTable.offset
  split_ifs with h
  · obtain ⟨s, hs, -⟩ := h
    rw [hs]
    exact (T.words (mem_of_dstSpan hs)).gmtoff
  · exact stdOffset_mem T look

theorem wall_year (x : ℤ) : (gmtime (int x)).year ≤ 138 ∧
    (69 ≤ (gmtime (int x)).year ↔ int x ≥ -31536000) := by
  have hx := int_mem x
  have hmem := yearOf_mem hx.1 hx.2
  have h := gmtime_isAt (int x)
  have hday := h.day
  have hlt := h.yday_lt
  have hnn := h.yday_nonneg
  have hstart : yearStart 1969 = -365 := by decide
  rw [← yearOf] at hday hlt
  have hyear : (gmtime (int x)).year = yearOf (int x) - 1900 := by
    unfold yearOf
    omega
  rw [hyear]
  refine ⟨by omega, ⟨fun hy => ?_, fun hy => ?_⟩⟩
  · have := yearStart_strictMono.monotone (show 1969 ≤ yearOf (int x) by omega)
    omega
  · by_contra hlt69
    have := yearStart_strictMono.monotone (show yearOf (int x) + 1 ≤ 1969 by omega)
    rw [yearStart_succ] at this
    omega

/-- The offset that is found again. -/
theorem offsetFor_iff (T : ZoneTable) (env : Env) (z : Zone) (ht : int t = t) :
    int (int (t + T.offset t t) + (T.zoneAt (env.lookup (int (t + T.offset t t)))
      (T.zoneAt t z)).offsetFor (if T.Alternate t t then 1 else 0)) = t ↔
    if T.Alternate t t then
      ∀ s, T.dstSpan (env.lookup (int (t + T.offset t t))) = some s →
        s.tt.gmtoff = T.offset t t
    else T.stdOffset (env.lookup (int (t + T.offset t t))) = T.offset t t := by
  have hoff := offset_mem T t t
  set look := env.lookup (int (t + T.offset t t)) with hlook
  by_cases hA : T.Alternate t t
  · simp only [if_pos hA, Zone.offsetFor, zero_lt_one, if_true]
    cases hs : T.dstSpan look with
    | some s =>
      have hw := (T.words (mem_of_dstSpan hs)).gmtoff
      have halt : (T.zoneAt look (T.zoneAt t z)).altzone = int (-s.tt.gmtoff) := by
        simp [ZoneTable.zoneAt, hs]
      rw [halt, int_add_back ht hoff hw]
      simp
    | none =>
      -- the state of the call of `localtime_u` is left
      obtain ⟨s, hst, -⟩ := id hA
      have halt : (T.zoneAt look (T.zoneAt t z)).altzone = int (-T.offset t t) := by
        simp [ZoneTable.zoneAt, hs, ZoneTable.offset, if_pos hA, hst]
      rw [halt, int_add_back ht hoff hoff]
      simp
  · simp only [if_neg hA, Zone.offsetFor, lt_self_iff_false, if_false]
    exact int_add_back ht hoff (stdOffset_mem T look)

/-- `mktime` inverts `localtime_u` exactly where the look-up at the local time finds the same
offset. -/
theorem mktime_localtime_iff {env : Env} (h : env.Loads T) (hT : T.Sorted) (z : Zone)
    (h0 : 2 ^ 17 ≤ t) (h1 : t < 2 ^ 31 - 2 ^ 17) :
    Inverts env z t ↔ T.SameOffset env t := by
  have ht : int t = t := int_of_mem (by omega) (by omega)
  have hlook : env.lookup t = t := if_neg (by omega)
  have hloc := localtime_eq h hT z (t := t) (by omega) (by omega)
  rw [hlook] at hloc
  set wall := int (t + T.offset t t) with hwall
  obtain ⟨hy1, hy0⟩ := wall_year (t + T.offset t t)
  rw [← hwall] at hy1 hy0
  have hat : (T.fields t t).IsAt wall := (Tm.isAt_flag _ _).2 rfl
  have hyear : (T.fields t t).year = (gmtime wall).year := rfl
  have hflag : (T.fields t t).isdst = if T.Alternate t t then 1 else 0 := rfl
  obtain ⟨secs, hsecs⟩ := hat.exists_asGmt
  obtain ⟨tm', z2, hmk⟩ := mktime_eq h hT hat hsecs
    (by rw [hflag]; split_ifs <;> norm_num) (T.zoneAt t z)
  rw [hflag, hyear] at hmk
  have hinv : Inverts env z t ↔ ∃ tm' z2, mktime env (T.fields t t) (T.zoneAt t z) =
      some (t, tm', z2) := by
    unfold Inverts
    rw [hloc]
    constructor
    · rintro ⟨tm, z1, tm', z2, he, hm⟩
      cases he
      exact ⟨tm', z2, hm⟩
    · rintro ⟨tm', z2, hm⟩
      exact ⟨_, _, tm', z2, rfl, hm⟩
  rw [hinv, hmk, ZoneTable.SameOffset]
  dsimp only
  rw [← hwall, ← hy0]
  by_cases hyear69 : 69 ≤ (gmtime wall).year
  · have hword : int wall = wall := by
      rw [hwall]
      exact int_of_mem (int_mem _).1 (int_mem _).2
    have hs := hat.asGmt_eq hyear69 hy1 hword
    rw [hsecs, Option.some.injEq] at hs
    rw [hs, ← offsetFor_iff T env z ht, ← hwall]
    simp only [hyear69, true_and, Option.some.injEq, Prod.mk.injEq]
    generalize int (wall + (T.zoneAt (env.lookup wall) (T.zoneAt t z)).offsetFor
      (if T.Alternate t t then 1 else 0)) = final
    constructor
    · rintro ⟨_, _, he, -⟩
      split_ifs at he with hcond
      · omega
      · exact he
    · intro he
      refine ⟨_, _, ?_, rfl, rfl⟩
      rw [he, if_neg (by omega)]
  · simp only [hyear69, false_and, iff_false]
    rintro ⟨_, _, he⟩
    simp only [Option.some.injEq, Prod.mk.injEq] at he
    rw [if_pos (by omega)] at he
    omega

/-- In the alternate time of 1999 the fields lead back. -/
theorem mktime_localtime_summer : Inverts easternEnv eastern 930000000 := by
  refine (mktime_localtime_iff loads_summer1999 sorted_summer1999 eastern (by norm_num)
    (by norm_num)).2 ⟨by decide, ?_⟩
  rw [if_pos (by decide)]
  intro s hs
  have hspan : summer1999.dstSpan (easternEnv.lookup (int (930000000 +
      summer1999.offset 930000000 930000000))) =
      some ⟨923209200, 941349600, ⟨-14400, true⟩⟩ := by decide
  rw [hspan] at hs
  cases hs
  decide

/-- A zone that moves from five hours west to eight hours west, always in standard time. -/
def movedWest : ZoneTable where
  ats := [100000000, 200000000]
  types := [0, 1]
  ttis := [⟨-18000, false⟩, ⟨-28800, false⟩]
  length_types := rfl
  types_lt := by simp
  ttis_ne := by simp
  ats_int := by decide
  gmtoff_int := by decide

def movedEnv : Env where
  tz := [':', 'W']
  tzload := fun _ => some movedWest
  now := 946000000
  led := 0

/-- An hour after the move, the look-up at the local time still finds the old offset. -/
theorem not_inverts_movedWest :
    movedEnv.Loads movedWest ∧ movedWest.Sorted ∧ ¬ Inverts movedEnv eastern 200003600 := by
  refine ⟨⟨by simp [movedEnv], ?_, rfl⟩, by unfold ZoneTable.Sorted; decide, ?_⟩
  · intro p hp
    simp [movedEnv, getzname] at hp
  · rintro ⟨tm, z1, tm', z2, hloc, hmk⟩
    have h : ((localtime movedEnv 200003600 eastern).bind fun r => mktime movedEnv r.1 r.2).map
        (fun r => r.1) = some 199992800 := by decide
    rw [hloc, bind_some, hmk] at h
    simp at h

end Sol26.Time
