import Sol26.Time.Rules

/-!
# Local time from a zone file

`_ltzset_u` reduces a zone file to the standard offset and the alternate offset most recently in
force and to the span of the last alternate period. `localtime_u` chooses between the two offsets
by comparing the time, shifted by the standard offset, with that span.
-/
namespace Sol26.Time

/-- A transition with the time of the one after it. -/
structure Span where
  start : ℤ
  stop : ℤ
  tt : Ttinfo
deriving DecidableEq, Repr

def spans : List (ℤ × Ttinfo) → List Span
  | [] => []
  | (a, tt) :: rest => ⟨a, nextAt rest, tt⟩ :: spans rest

namespace ZoneTable

variable (T : ZoneTable) (t : ℤ)

/-- The transitions are in order. -/
def Sorted : Prop := T.ats.Pairwise (· < ·)

/-- The latest transition at or before a time. -/
def latest : Option (ℤ × Ttinfo) := (T.transitions.filter fun a => decide (a.1 ≤ t)).getLast?

/-- The spans entered by a time. -/
def reached : List Span := (spans T.transitions).filter fun s => decide (s.start ≤ t)

/-- The last span entered. -/
def lastSpan : Option Span := (T.reached t).getLast?

/-- The last span of alternate time entered. -/
def dstSpan : Option Span := ((T.reached t).filter fun s => s.tt.isdst).getLast?

/-- The offset of the last standard time entered, at first that of the first type. -/
def stdOffset : ℤ :=
  ((T.reached t).filter fun s => !s.tt.isdst).getLast?.elim T.first.gmtoff fun s => s.tt.gmtoff

/-- A time is in alternate time by the table. -/
def InDst : Prop := ∃ s, T.lastSpan t = some s ∧ s.tt.isdst = true

instance : Decidable (T.InDst t) :=
  decidable_of_iff ((T.lastSpan t).any fun s => s.tt.isdst) (by simp [InDst, Option.any_eq_true])

/-- The static state left by a look-up at a time. -/
def zoneAt (z : Zone) : Zone where
  timezone := int (-T.stdOffset t)
  altzone := (T.dstSpan t).elim z.altzone fun s => int (-s.tt.gmtoff)
  daylight := (T.dstSpan t).isSome
  startDst := (T.dstSpan t).elim 0 Span.start
  endDst := (T.dstSpan t).elim 0 Span.stop
  isInDst := (T.lastSpan t).elim z.isInDst fun s => s.tt.isdst
  isPosix := false

end ZoneTable

/-- The zone name names a zone file, which holds the table. -/
structure Env.Loads (env : Env) (T : ZoneTable) : Prop where
  name_ne : env.tz ≠ []
  not_posix : ∀ p, getzname env.tz = some p → (gettime p true).1 = none
  loaded : env.tzload (olsonName env.tz) = some T

/-- The time for which `_ltzset_u` looks: at zero it takes the clock instead. -/
def Env.lookup (env : Env) (tim : ℤ) : ℤ := if tim = 0 then env.now else tim

/-! ### The state after a look-up -/

theorem enterAll_eq (tim : ℤ) : ∀ (l : List (ℤ × Ttinfo)) (z : Zone),
    enterAll tim l z = ((spans l).takeWhile fun s => decide (s.start ≤ tim)).foldl
      (fun z s => z.enter s.start s.stop s.tt) z
  | [], z => rfl
  | (a, tt) :: rest, z => by
    rw [enterAll, spans, List.takeWhile_cons]
    by_cases h : a ≤ tim
    · simp [h, enterAll_eq tim rest]
    · simp [h]

theorem spans_map : ∀ l : List (ℤ × Ttinfo), (spans l).map (fun s => (s.start, s.tt)) = l
  | [] => rfl
  | (a, tt) :: rest => by rw [spans, List.map_cons, spans_map rest]

theorem ZoneTable.transitions_fst (T : ZoneTable) : T.transitions.map Prod.fst = T.ats := by
  unfold ZoneTable.transitions
  rw [List.map_fst_zip]
  simp [T.length_types]

theorem ZoneTable.spans_start (T : ZoneTable) : (spans T.transitions).map Span.start = T.ats := by
  have h := congrArg (List.map Prod.fst) (spans_map T.transitions)
  rw [List.map_map, T.transitions_fst] at h
  exact h

variable {T : ZoneTable} {t : ℤ}

/-- In a list in order, the elements up to a bound come first. -/
theorem takeWhile_eq_filter {l : List Span} (h : (l.map Span.start).Pairwise (· < ·)) (t : ℤ) :
    (l.takeWhile fun s => decide (s.start ≤ t)) = l.filter fun s => decide (s.start ≤ t) := by
  induction l with
  | nil => rfl
  | cons s l ih =>
    rw [List.map_cons, List.pairwise_cons] at h
    rw [List.takeWhile_cons, List.filter_cons]
    by_cases hs : s.start ≤ t
    · simp [hs, ih h.2]
    · have hnone : l.filter (fun s => decide (s.start ≤ t)) = [] := by
        rw [List.filter_eq_nil_iff]
        intro x hx
        have := h.1 x.start (List.mem_map_of_mem hx)
        simp only [decide_eq_true_eq]
        omega
      simp [hs, hnone]

/-- The loop of `_ltzset_u` leaves what the last standard and the last alternate span say. -/
theorem foldl_enter (l : List Span) (z : Zone) :
    l.foldl (fun z s => z.enter s.start s.stop s.tt) z =
      { timezone := (l.filter fun s => !s.tt.isdst).getLast?.elim z.timezone
          fun s => int (-s.tt.gmtoff)
        altzone := (l.filter fun s => s.tt.isdst).getLast?.elim z.altzone
          fun s => int (-s.tt.gmtoff)
        daylight := (l.filter fun s => s.tt.isdst).getLast?.elim z.daylight fun _ => true
        startDst := (l.filter fun s => s.tt.isdst).getLast?.elim z.startDst Span.start
        endDst := (l.filter fun s => s.tt.isdst).getLast?.elim z.endDst Span.stop
        isInDst := l.getLast?.elim z.isInDst fun s => s.tt.isdst
        isPosix := z.isPosix } := by
  induction l using List.reverseRecOn with
  | nil => rfl
  | append_singleton l s ih =>
    rw [List.foldl_append, List.foldl_cons, List.foldl_nil, ih]
    by_cases hs : s.tt.isdst <;> simp [Zone.enter, hs, List.filter_append]

variable {env : Env} {tt : Ttinfo} {a : ℤ}

theorem setOlson_eq (h : env.Loads T) (hT : T.Sorted) (tim : ℤ) (z : Zone) :
    setOlson env tim z = T.zoneAt (env.lookup tim) z := by
  have hsorted : ((spans T.transitions).map Span.start).Pairwise (· < ·) := by
    rw [T.spans_start]
    exact hT
  simp only [setOlson, h.loaded]
  rw [enterAll_eq, takeWhile_eq_filter hsorted, foldl_enter]
  unfold ZoneTable.zoneAt ZoneTable.stdOffset ZoneTable.dstSpan ZoneTable.lastSpan
    ZoneTable.reached Env.lookup
  congr 1
  all_goals
    generalize List.getLast? _ = x
    cases x <;> rfl

theorem ltzset_eq (h : env.Loads T) (hT : T.Sorted) (tim : ℤ) (z : Zone) :
    ltzset env tim z = some (T.zoneAt (env.lookup tim) z) := by
  rw [ltzset, if_neg h.name_ne]
  cases hname : getzname env.tz with
  | none => rw [← setOlson_eq h hT tim z]
  | some p =>
    have hn := h.not_posix p hname
    dsimp only
    split
    · rw [setOlson_eq h hT tim]
      rfl
    · simp_all

/-! ### The spans of a table -/

theorem lastSpan_stop {s : Span} : ∀ {l : List (ℤ × Ttinfo)},
    ((spans l).filter fun s => decide (s.start ≤ t)).getLast? = some s →
    t < s.stop ∨ s.stop = intMax
  | [], h => by simp [spans] at h
  | (a, tt) :: rest, h => by
    rw [spans, List.filter_cons] at h
    by_cases hrest : (spans rest).filter (fun s => decide (s.start ≤ t)) = []
    · -- the span is the first one, so the next transition is after the time
      have hs : s = ⟨a, nextAt rest, tt⟩ := by
        rw [hrest] at h
        split_ifs at h
        · simpa using h.symm
        · simp at h
      subst hs
      cases rest with
      | nil => exact .inr rfl
      | cons next rest =>
        left
        have := List.filter_eq_nil_iff.1 hrest ⟨next.1, nextAt rest, next.2⟩ (by simp [spans])
        simpa [nextAt] using this
    · refine lastSpan_stop (l := rest) ?_
      obtain ⟨x, xs, hx⟩ := List.exists_cons_of_ne_nil hrest
      rw [hx] at h ⊢
      split_ifs at h
      · simpa using h
      · exact h

theorem start_lt_stop : ∀ {l : List (ℤ × Ttinfo)}, (l.map Prod.fst).Pairwise (· < ·) →
    ∀ s ∈ spans l, s.start < s.stop ∨ s.stop = intMax
  | [], _, s, hs => by simp [spans] at hs
  | (a, tt) :: rest, h, s, hs => by
    rw [List.map_cons, List.pairwise_cons] at h
    rw [spans, List.mem_cons] at hs
    obtain rfl | hs := hs
    · cases rest with
      | nil => exact .inr rfl
      | cons next rest => exact .inl (h.1 next.1 (by simp))
    · exact start_lt_stop h.2 s hs

theorem stop_eq : ∀ {l : List (ℤ × Ttinfo)}, ∀ s ∈ spans l,
    s.stop = intMax ∨ s.stop ∈ l.map Prod.fst
  | [], s, hs => by simp [spans] at hs
  | (a, tt) :: rest, s, hs => by
    rw [spans, List.mem_cons] at hs
    obtain rfl | hs := hs
    · cases rest with
      | nil => exact .inl rfl
      | cons next rest => exact .inr (by simp [nextAt])
    · exact (stop_eq s hs).imp_right (List.mem_cons_of_mem a)

/-- The words of a span of the table are 32-bit words. -/
structure Span.Words (s : Span) : Prop where
  start : -2147483648 ≤ s.start ∧ s.start ≤ 2147483647
  stop : -2147483648 ≤ s.stop ∧ s.stop ≤ 2147483647
  gmtoff : -2147483648 ≤ s.tt.gmtoff ∧ s.tt.gmtoff ≤ 2147483647

theorem ZoneTable.ats_mem (T : ZoneTable) (h : a ∈ T.ats) : -2147483648 ≤ a ∧ a ≤ 2147483647 := by
  have := int_mem a
  rwa [T.ats_int a h] at this

theorem ZoneTable.gmtoff_mem (T : ZoneTable) (h : tt ∈ T.ttis) :
    -2147483648 ≤ tt.gmtoff ∧ tt.gmtoff ≤ 2147483647 := by
  have := int_mem tt.gmtoff
  rwa [T.gmtoff_int tt h] at this

theorem ZoneTable.transition_type (T : ZoneTable) {x : ℤ × Ttinfo} (h : x ∈ T.transitions) :
    x.2 ∈ T.ttis := by
  have h2 := (List.of_mem_zip (a := x.1) (b := x.2) h).2
  obtain ⟨k, hk, he⟩ := List.mem_map.1 h2
  rw [← he, List.getD_eq_getElem?_getD, List.getElem?_eq_getElem (T.types_lt k hk)]
  exact List.getElem_mem _

theorem ZoneTable.words (T : ZoneTable) {s : Span} (h : s ∈ spans T.transitions) : s.Words := by
  have hstart : s.start ∈ T.ats := by
    rw [← T.spans_start]
    exact List.mem_map_of_mem h
  have htt : (s.start, s.tt) ∈ T.transitions := by
    rw [← spans_map T.transitions]
    exact List.mem_map_of_mem h
  refine ⟨T.ats_mem hstart, ?_, T.gmtoff_mem (T.transition_type htt)⟩
  obtain hstop | hstop := stop_eq s h
  · rw [hstop]
    decide
  · rw [T.transitions_fst] at hstop
    exact T.ats_mem hstop

theorem mem_of_dstSpan {s : Span} (h : T.dstSpan t = some s) : s ∈ spans T.transitions :=
  List.mem_of_mem_filter (List.mem_of_mem_filter (List.mem_of_getLast? h))

theorem stdOffset_mem (T : ZoneTable) (t : ℤ) :
    -2147483648 ≤ T.stdOffset t ∧ T.stdOffset t ≤ 2147483647 := by
  unfold ZoneTable.stdOffset
  cases h : ((T.reached t).filter fun s => !s.tt.isdst).getLast? with
  | none => exact T.gmtoff_mem (List.head_mem _)
  | some s =>
    exact (T.words (List.mem_of_mem_filter (List.mem_of_mem_filter
      (List.mem_of_getLast? h)))).gmtoff

theorem dstSpan_of_lastSpan {s : Span} (h : T.lastSpan t = some s) (hs : s.tt.isdst = true) :
    T.dstSpan t = some s := by
  obtain ⟨ys, hys⟩ := List.getLast?_eq_some_iff.1 h
  simp [ZoneTable.dstSpan, hys, List.filter_append, hs]

theorem stdOffset_of_lastSpan {s : Span} (h : T.lastSpan t = some s) (hs : s.tt.isdst = false) :
    T.stdOffset t = s.tt.gmtoff := by
  obtain ⟨ys, hys⟩ := List.getLast?_eq_some_iff.1 h
  simp [ZoneTable.stdOffset, hys, List.filter_append, hs]

theorem lastSpan_of_latest (h : T.latest t = some (a, tt)) :
    ∃ s, T.lastSpan t = some s ∧ s.tt = tt := by
  unfold ZoneTable.latest at h
  rw [← spans_map T.transitions, List.filter_map, List.getLast?_map] at h
  obtain ⟨s, hs, he⟩ := Option.map_eq_some_iff.1 h
  exact ⟨s, hs, congrArg Prod.snd he⟩

/-! ### The choice of the offset -/

/-- `localtime_u` takes the alternate time for `t` after a look-up at `look`: in alternate time it
compares the time itself with the span, in standard time the time shifted by the offset. -/
def ZoneTable.Alternate (T : ZoneTable) (look t : ℤ) : Prop :=
  ∃ s, T.dstSpan look = some s ∧
    s.start ≤ (if T.InDst look then t else int (t + T.stdOffset look)) ∧
    (if T.InDst look then t else int (t + T.stdOffset look)) < s.stop

theorem int_sub_neg (t g : ℤ) : int (t - int (-g)) = int (t + g) := by
  unfold int
  rw [Int.sub_bmod_bmod, sub_neg_eq_add]

theorem int_of_mem {x : ℤ} (h0 : -2147483648 ≤ x) (h1 : x ≤ 2147483647) : int x = x := by
  unfold int
  exact Int.bmod_eq_of_le (by omega) (by omega)

/-- Turning the clock does not move a time in or out of a span. -/
theorem inAlternate_shift {b x c : ℤ} (ha : -2147483648 ≤ a) (hab : a ≤ b)
    (hb : b ≤ 2147483647) (hx0 : -2147483648 ≤ x) (hx1 : x ≤ 2147483647) :
    inAlternate (int (a - c)) (int (b - c)) (int (x - c)) = decide (a ≤ x ∧ x < b) := by
  have hword : ∀ y : ℤ, ∃ k : ℤ, int y = y + 4294967296 * k := fun y => by
    refine ⟨(int y - y) / 4294967296, ?_⟩
    unfold int Int.bmod
    dsimp only
    split_ifs <;> omega
  obtain ⟨i, hi⟩ := hword (a - c)
  obtain ⟨j, hj⟩ := hword (b - c)
  obtain ⟨k, hk⟩ := hword (x - c)
  have h1 := int_mem (a - c)
  have h2 := int_mem (b - c)
  have h3 := int_mem (x - c)
  unfold inAlternate
  rw [hi, hj, hk] at *
  split_ifs with h
  · rw [decide_eq_decide]
    omega
  · rw [← decide_not, decide_eq_decide]
    omega

instance (look t : ℤ) : Decidable (T.Alternate look t) :=
  decidable_of_iff ((T.dstSpan look).any fun s => decide
    (s.start ≤ (if T.InDst look then t else int (t + T.stdOffset look)) ∧
      (if T.InDst look then t else int (t + T.stdOffset look)) < s.stop))
    (by simp [ZoneTable.Alternate, Option.any_eq_true])

/-- The offset `localtime_u` applies. -/
def ZoneTable.offset (T : ZoneTable) (look t : ℤ) : ℤ :=
  if T.Alternate look t then (T.dstSpan look).elim 0 fun s => s.tt.gmtoff else T.stdOffset look

/-- The fields `localtime_u` returns. -/
def ZoneTable.fields (T : ZoneTable) (look t : ℤ) : Tm :=
  { gmtime (int (t + T.offset look t)) with isdst := if T.Alternate look t then 1 else 0 }

theorem isInDst_zoneAt {look : ℤ} {s : Span} (h : T.dstSpan look = some s) (z : Zone) :
    (T.zoneAt look z).isInDst = decide (T.InDst look) := by
  have hne : T.reached look ≠ [] := fun h0 => by
    simp [ZoneTable.dstSpan, h0] at h
  have hlast : T.lastSpan look = some ((T.reached look).getLast hne) :=
    List.getLast?_eq_some_getLast hne
  simp [ZoneTable.zoneAt, ZoneTable.InDst, hlast]

theorem inAlternate_zoneAt {look : ℤ} {s : Span} (hT : T.Sorted) (h : T.dstSpan look = some s)
    (z : Zone) (h0 : -2147483648 ≤ t) (h1 : t ≤ 2147483647) :
    let adjust := if (T.zoneAt look z).isInDst then (T.zoneAt look z).timezone else 0
    inAlternate (int (s.start - adjust)) (int (s.stop - adjust))
      (int (t - (T.zoneAt look z).timezone)) = decide (T.Alternate look t) := by
  have hw := T.words (mem_of_dstSpan h)
  have hle : s.start ≤ s.stop := by
    obtain hlt | hmax := start_lt_stop (by rw [T.transitions_fst]; exact hT) s (mem_of_dstSpan h)
    · exact hlt.le
    · rw [hmax]
      exact hw.start.2
  have halt : ∀ x, x = (if T.InDst look then t else int (t + T.stdOffset look)) →
      (T.Alternate look t ↔ s.start ≤ x ∧ x < s.stop) := by
    rintro x rfl
    simp [ZoneTable.Alternate, h]
  dsimp only
  rw [isInDst_zoneAt h]
  by_cases hin : T.InDst look
  · rw [if_pos (decide_eq_true hin), inAlternate_shift hw.start.1 hle hw.stop.2 h0 h1,
      decide_eq_decide, halt t (by rw [if_pos hin])]
  · have hx : int (t - (T.zoneAt look z).timezone) = int (t + T.stdOffset look) :=
      int_sub_neg t (T.stdOffset look)
    have hmem := int_mem (t + T.stdOffset look)
    have hshift := inAlternate_shift (c := 0) hw.start.1 hle hw.stop.2 hmem.1 hmem.2
    simp only [sub_zero, int_of_mem hmem.1 hmem.2] at hshift
    simp only [decide_eq_true_eq, if_neg hin, hx, sub_zero]
    rw [hshift, decide_eq_decide, halt _ (by rw [if_neg hin])]

/-- What `localtime_u` does with a zone file. -/
theorem localtime_eq (h : env.Loads T) (hT : T.Sorted) (z : Zone)
    (h0 : -2147483648 ≤ t) (h1 : t ≤ 2147483647) :
    localtime env t z = some (T.fields (env.lookup t) t, T.zoneAt (env.lookup t) z) := by
  rw [localtime, ltzset_eq h hT]
  set look := env.lookup t with hlook
  have hstd : int (t - (T.zoneAt look z).timezone) = int (t + T.stdOffset look) :=
    int_sub_neg t (T.stdOffset look)
  cases hs : T.dstSpan look with
  | none =>
    have hno : ¬ T.Alternate look t := by simp [ZoneTable.Alternate, hs]
    have hday : (T.zoneAt look z).daylight = false := by simp [ZoneTable.zoneAt, hs]
    simp only [Option.bind_eq_bind, Option.bind_some, hday, Bool.false_eq_true, if_false, hstd,
      Option.pure_def]
    simp only [ZoneTable.fields, ZoneTable.offset, if_neg hno]
    rfl
  | some s =>
    have hday : (T.zoneAt look z).daylight = true := by simp [ZoneTable.zoneAt, hs]
    have hposix : (T.zoneAt look z).isPosix = false := rfl
    have hstart : (T.zoneAt look z).startDst = s.start := by simp [ZoneTable.zoneAt, hs]
    have hstop : (T.zoneAt look z).endDst = s.stop := by simp [ZoneTable.zoneAt, hs]
    have halt : int (t - (T.zoneAt look z).altzone) = int (t + s.tt.gmtoff) := by
      rw [← int_sub_neg]
      simp [ZoneTable.zoneAt, hs]
    have husa : ¬ (s.start = -1 ∧ s.stop = -1) := by
      have := start_lt_stop (by rw [T.transitions_fst]; exact hT) s (mem_of_dstSpan hs)
      unfold intMax at this
      omega
    simp only [Option.bind_eq_bind, Option.bind_some, hday, hposix, hstart, hstop, if_true,
      Bool.false_eq_true, if_false, if_neg husa, Option.pure_def,
      inAlternate_zoneAt hT hs z h0 h1, halt, decide_eq_true_eq]
    simp only [ZoneTable.fields, ZoneTable.offset, hs, Option.elim_some]
    by_cases hA : T.Alternate look t
    · simp only [if_pos hA]
    · simp only [if_neg hA, hstd]
      rfl

/-! ### Following the table -/

/-- `localtime_u` returns the date of a time at the offset of a type, with the flag of the type. -/
def Follows (env : Env) (z : Zone) (t : ℤ) (tt : Ttinfo) : Prop :=
  ∃ tm z', localtime env t z = some (tm, z') ∧ tm.IsAt (t + tt.gmtoff) ∧
    tm.isdst = if tt.isdst then 1 else 0

/-- The local time is a 32-bit word; alternate time has not come to the last second of the clock;
in standard time the local time, read as universal time, is not in the last alternate span. -/
def ZoneTable.Clear (T : ZoneTable) (t : ℤ) (tt : Ttinfo) : Prop :=
  (-2147483648 ≤ t + tt.gmtoff ∧ t + tt.gmtoff ≤ 2147483647) ∧
    (tt.isdst = true → t < intMax) ∧
    (tt.isdst = false → ∀ s, T.dstSpan t = some s →
      ¬ (s.start ≤ t + tt.gmtoff ∧ t + tt.gmtoff < s.stop))

/-- At time zero the offsets and the span are those of the present. -/
def ZoneTable.ClearAtEpoch (T : ZoneTable) (now : ℤ) (tt : Ttinfo) : Prop :=
  let local0 := if T.InDst now then 0 else T.stdOffset now
  (tt.isdst = true → ∃ s, T.dstSpan now = some s ∧ s.tt.gmtoff = tt.gmtoff ∧
      s.start ≤ local0 ∧ local0 < s.stop) ∧
    (tt.isdst = false → T.stdOffset now = tt.gmtoff ∧
      ∀ s, T.dstSpan now = some s → ¬ (s.start ≤ local0 ∧ local0 < s.stop))

theorem Tm.isAt_flag {s : ℤ} (x flag : ℤ) :
    ({ gmtime x with isdst := flag } : Tm).IsAt s ↔ x = s := by
  have h : ({ gmtime x with isdst := flag } : Tm).IsAt x := by
    obtain ⟨h1, h2, h3, h4, h5, h6, h7, h8, h9⟩ := gmtime_isAt x
    exact ⟨h1, h2, h3, h4, h5, h6, h7, h8, h9⟩
  constructor
  · exact h.inj
  · rintro rfl
    exact h

theorem follows_iff_offset (h : env.Loads T) (hT : T.Sorted) (z : Zone)
    (h0 : -2147483648 ≤ t) (h1 : t ≤ 2147483647) (tt : Ttinfo) :
    Follows env z t tt ↔ int (t + T.offset (env.lookup t) t) = t + tt.gmtoff ∧
      (T.Alternate (env.lookup t) t ↔ tt.isdst = true) := by
  unfold Follows
  rw [localtime_eq h hT z h0 h1]
  simp only [Option.some.injEq, Prod.mk.injEq, ZoneTable.fields]
  constructor
  · rintro ⟨tm, z', ⟨rfl, rfl⟩, hat, hflag⟩
    refine ⟨(Tm.isAt_flag _ _).1 hat, ?_⟩
    dsimp only at hflag
    by_cases hA : T.Alternate (env.lookup t) t <;> by_cases hd : tt.isdst = true <;>
      simp [hA, hd] at hflag ⊢
  · rintro ⟨hoff, hiff⟩
    refine ⟨_, _, ⟨rfl, rfl⟩, (Tm.isAt_flag _ _).2 hoff, ?_⟩
    simp only [hiff]

theorem alternate_iff_of_isdst {s : Span} (hl : T.lastSpan t = some s) (hs : s.tt.isdst = true)
    (h1 : t ≤ 2147483647) : T.Alternate t t ↔ t < intMax := by
  have hd := dstSpan_of_lastSpan hl hs
  have hin : T.InDst t := ⟨s, hl, hs⟩
  have hstart : s.start ≤ t := by
    have := (List.mem_filter.1 (List.mem_of_getLast? hl)).2
    simpa using this
  have hstop := lastSpan_stop hl
  have hw := (T.words (mem_of_dstSpan hd)).stop.2
  simp only [ZoneTable.Alternate, hd, Option.some.injEq, exists_eq_left', if_pos hin]
  unfold intMax at *
  omega

theorem not_inDst_of_lastSpan {s : Span} (hl : T.lastSpan t = some s) (hs : s.tt.isdst = false) :
    ¬ T.InDst t := by
  rintro ⟨s', hl', hs'⟩
  rw [hl, Option.some.injEq] at hl'
  subst hl'
  simp [hs] at hs'

theorem clear_iff {s : Span} (hl : T.lastSpan t = some s) (h1 : t ≤ 2147483647) :
    int (t + T.offset t t) = t + s.tt.gmtoff ∧ (T.Alternate t t ↔ s.tt.isdst = true) ↔
      T.Clear t s.tt := by
  unfold ZoneTable.Clear
  have hint : int (t + s.tt.gmtoff) = t + s.tt.gmtoff ↔
      -2147483648 ≤ t + s.tt.gmtoff ∧ t + s.tt.gmtoff ≤ 2147483647 := by
    constructor
    · intro he
      rw [← he]
      exact int_mem _
    · exact fun he => int_of_mem he.1 he.2
  by_cases hd : s.tt.isdst = true
  · -- in alternate time only the last second of the clock is outside of the span
    rw [alternate_iff_of_isdst hl hd h1]
    by_cases hmax : t < intMax
    · have hA := (alternate_iff_of_isdst hl hd h1).2 hmax
      rw [← hint, ZoneTable.offset, if_pos hA, dstSpan_of_lastSpan hl hd]
      simp [hd, hmax]
    · simp [hd, hmax]
  · rw [Bool.not_eq_true] at hd
    have hin := not_inDst_of_lastSpan hl hd
    have hstd := stdOffset_of_lastSpan hl hd
    by_cases hA : T.Alternate t t
    · -- the flag is wrong
      refine iff_of_false (by simp [hA, hd]) ?_
      rintro ⟨hr, -, hno⟩
      obtain ⟨s', hs', hx⟩ := hA
      rw [if_neg hin, hstd, hint.2 hr] at hx
      exact hno hd s' hs' hx
    · rw [ZoneTable.offset, if_neg hA, hstd, hint]
      simp only [hd, hA, Bool.false_eq_true, and_true, false_imp_iff, true_and, true_imp_iff]
      refine ⟨fun hr => ⟨hr, fun s' hs' hx => hA ⟨s', hs', ?_⟩⟩, fun hr => hr.1⟩
      rw [if_neg hin, hstd, hint.2 hr]
      exact hx

theorem epoch_iff (T : ZoneTable) (env : Env) (tt : Ttinfo) :
    int (0 + T.offset (env.lookup 0) 0) = 0 + tt.gmtoff ∧
        (T.Alternate (env.lookup 0) 0 ↔ tt.isdst = true) ↔
      T.ClearAtEpoch env.now tt := by
  have hstd := stdOffset_mem T env.now
  have hx : (if T.InDst env.now then 0 else int (0 + T.stdOffset env.now)) =
      if T.InDst env.now then 0 else T.stdOffset env.now := by
    rw [zero_add, int_of_mem hstd.1 hstd.2]
  rw [show env.lookup 0 = env.now from rfl]
  unfold ZoneTable.ClearAtEpoch ZoneTable.offset
  by_cases hA : T.Alternate env.now 0
  · have hA' := hA
    obtain ⟨s, hs, hlo, hhi⟩ := hA'
    rw [hx] at hlo hhi
    have hw := (T.words (mem_of_dstSpan hs)).gmtoff
    by_cases hd : tt.isdst = true
    · simp [hA, hs, hd, int_of_mem hw.1 hw.2, hlo, hhi]
    · simp [hA, hs, hd, hlo, hhi]
  · have hno : ∀ s, T.dstSpan env.now = some s →
        ¬ (s.start ≤ (if T.InDst env.now then 0 else T.stdOffset env.now) ∧
          (if T.InDst env.now then 0 else T.stdOffset env.now) < s.stop) := by
      intro s hs hspan
      rw [← hx] at hspan
      exact hA ⟨s, hs, hspan⟩
    by_cases hd : tt.isdst = true
    · simp only [hA, hd, if_false, false_iff, not_true_eq_false, and_false, true_imp_iff,
        Bool.true_eq_false, false_imp_iff, and_true]
      rintro ⟨s, hs, -, hspan⟩
      exact hno s hs hspan
    · rw [Bool.not_eq_true] at hd
      simp only [hA, hd, if_false, Bool.false_eq_true, and_true, false_imp_iff, true_and,
        true_imp_iff, zero_add, int_of_mem hstd.1 hstd.2]
      exact ⟨fun he => ⟨he, hno⟩, fun he => he.1⟩

/-- Local time follows the table exactly where the table is clear. -/
theorem localtime_follows_iff (h : env.Loads T) (hT : T.Sorted) (z : Zone) (h0 : -2147483648 ≤ t)
    (h1 : t ≤ 2147483647) (hl : T.latest t = some (a, tt)) :
    Follows env z t tt ↔ if t = 0 then T.ClearAtEpoch env.now tt else T.Clear t tt := by
  rw [follows_iff_offset h hT z h0 h1]
  split_ifs with ht
  · subst ht
    exact epoch_iff T env tt
  · rw [show env.lookup t = t from if_neg ht]
    obtain ⟨s, hs, rfl⟩ := lastSpan_of_latest hl
    exact clear_iff hs h1

/-- Five hours west of Greenwich, with the alternate time of 1999. -/
def summer1999 : ZoneTable where
  ats := [923209200, 941349600]
  types := [1, 0]
  ttis := [⟨-18000, false⟩, ⟨-14400, true⟩]
  length_types := rfl
  types_lt := by simp
  ttis_ne := by simp
  ats_int := by decide
  gmtoff_int := by decide

def easternEnv : Env where
  tz := [':', 'E']
  tzload := fun _ => some summer1999
  now := 946000000
  led := 0

theorem loads_summer1999 : easternEnv.Loads summer1999 where
  name_ne := by simp [easternEnv]
  not_posix := by
    intro p hp
    simp [easternEnv, getzname] at hp
  loaded := rfl

theorem sorted_summer1999 : summer1999.Sorted := by
  unfold ZoneTable.Sorted
  decide

/-- A day after the change back the local time is right. -/
theorem localtime_follows_december :
    summer1999.latest 941436000 = some (941349600, ⟨-18000, false⟩) ∧
    Follows easternEnv eastern 941436000 ⟨-18000, false⟩ := by
  have hl : summer1999.latest 941436000 = some (941349600, ⟨-18000, false⟩) := by decide
  refine ⟨hl, (localtime_follows_iff loads_summer1999 sorted_summer1999 eastern (by norm_num)
    (by norm_num) hl).2 ?_⟩
  rw [if_neg (by norm_num)]
  refine ⟨by norm_num, by simp, fun _ s hs => ?_⟩
  have hspan : summer1999.dstSpan 941436000 =
      some ⟨923209200, 941349600, ⟨-14400, true⟩⟩ := by decide
  rw [hspan] at hs
  cases hs
  norm_num

/-- An hour after the change back the code still reports the alternate time. -/
theorem not_follows_afterChange :
    summer1999.Sorted ∧ easternEnv.Loads summer1999 ∧ summer1999.first.isdst = false ∧
    summer1999.latest 941353200 = some (941349600, ⟨-18000, false⟩) ∧
    ¬ Follows easternEnv eastern 941353200 ⟨-18000, false⟩ := by
  refine ⟨sorted_summer1999, loads_summer1999, rfl, by decide, ?_⟩
  rintro ⟨tm, z', h, -, hflag⟩
  have hdst : (localtime easternEnv 941353200 eastern).map (fun r => r.1.isdst) = some 1 := by
    decide
  rw [h] at hdst
  simp only [Option.map_some, Option.some.injEq] at hdst
  simp [hdst] at hflag

end Sol26.Time
