import Mathlib.Tactic

/-!
# Describing a lock range and asking for it again

`reclock` turns a flock request into a closed byte range, `create_flock` and
`report_blocker` turn a range back into `l_start` and `l_len`. All arithmetic is
64 bits wide: `u64` stores an integer in a `u_offset_t`, `s64` reads a `u_offset_t`
as an `offset_t`. The sentinel MAX_U_OFF_T is a `ulong_t` of 32 bits. Of a lock
descriptor there is the type, the byte range, the owner, and the bit of `l_state` that
is tested.
-/
namespace Sol26.Flock

/-- `l_type`: F_RDLCK, F_WRLCK and F_UNLCK. -/
inductive LockType
  | rdlck
  | wrlck
  | unlck
  deriving DecidableEq, Repr

/-- `l_pid` and `l_sysid` of the flock request behind a lock. -/
structure Owner where
  pid : ℤ
  sysid : ℤ
  deriving DecidableEq, Repr

/-- A lock descriptor; `lockmgr` is LOCKMGR_LOCK of `l_state`. -/
structure Lock where
  type : LockType
  start : ℕ
  stop : ℕ
  owner : Owner
  lockmgr : Bool := false
  deriving DecidableEq, Repr

/-- Error numbers. Failures of VOP_GETATTR carry whatever the file system returned. -/
inductive Errno
  | einval
  | getattr (code : ℕ)
  deriving DecidableEq, Repr

def maxUOffT : ℕ := 2 ^ 32 - 1
def maxUOffsetT : ℕ := 2 ^ 64 - 1
def maxEnd : ℕ := 2 ^ 63 - 1

/-- Conversion to `u_offset_t`. -/
def u64 (z : ℤ) : ℕ := (z % 2 ^ 64).toNat

/-- Conversion of a `u_offset_t` to `offset_t`. -/
def s64 (n : ℕ) : ℤ := if n < 2 ^ 63 then n else n - 2 ^ 64

theorem u64_s64 {n : ℕ} (h : n < 2 ^ 64) : u64 (s64 n) = n := by
  unfold u64 s64
  split <;> omega

/-- The fields of `flock64_t` that the conversions read or write. -/
structure Flock64 where
  type : LockType
  whence : ℤ
  start : ℤ
  len : ℤ
  owner : Owner
  deriving DecidableEq, Repr

/-- The RCMDLCK branch of `reclock`: no range checking for remote requests. -/
def rcmdlckRange (f : Flock64) : ℕ × ℕ :=
  (u64 f.start, if f.len = 0 then maxUOffsetT else u64 (u64 f.start + (f.len - 1)))

/-- `attr` is the outcome of VOP_GETATTR, read only for SEEK_END. -/
def flkConvertLockData (f : Flock64) (attr : Except Errno ℤ) (offset : ℤ) (max : ℕ) :
    Except Errno (ℕ × ℕ) := do
  let start ←
    if f.whence = 0 then pure (u64 f.start)
    else if f.whence = 1 then pure (u64 (f.start + offset))
    else if f.whence = 2 then do
      let size ← attr
      pure (u64 (f.start + size))
    else throw .einval
  if f.len = 0 then pure (start, max)
  else if 0 < f.len then pure (start, u64 (start + (f.len - 1)))
  else pure (u64 (start + f.len + 1), start)

def flkCheckLockData (start stop max : ℕ) : Except Errno Unit :=
  if max < start ∨ (max < stop ∧ stop ≠ maxUOffT) then throw .einval
  else if stop < start then throw .einval
  else pure ()

/-- The canonical range `reclock` gives a request, lock manager or local. -/
def reclockRange (rcmd : Bool) (f : Flock64) (attr : Except Errno ℤ) (offset : ℤ) :
    Except Errno (ℕ × ℕ) :=
  if rcmd then pure (rcmdlckRange f)
  else do
    let r ← flkConvertLockData f attr offset maxEnd
    flkCheckLockData r.1 r.2 maxEnd
    pure r

def createFlock (l : Lock) : Flock64 where
  type := l.type
  whence := 0
  start := s64 l.start
  len := if l.stop = maxUOffT then 0 else s64 (u64 (l.stop - l.start + 1))
  owner := l.owner

/-- `report_blocker`: what an F_GETLK request is told about the lock in its way. -/
def reportBlocker (blocker request : Lock) : Flock64 where
  type := blocker.type
  whence := 0
  start :=
    if request.lockmgr then s64 blocker.start
    else if maxEnd < blocker.start then maxEnd else blocker.start
  len :=
    if request.lockmgr then
      if blocker.stop = maxUOffT then 0 else s64 (u64 (blocker.stop - blocker.start + 1))
    else if maxEnd < blocker.start then 0
    else if maxEnd ≤ blocker.stop then 0
    else s64 (u64 (blocker.stop - blocker.start + 1))
  owner := blocker.owner

theorem flkCheckLockData_ok {start stop max : ℕ} :
    flkCheckLockData start stop max = .ok () ↔
      start ≤ max ∧ (stop ≤ max ∨ stop = maxUOffT) ∧ start ≤ stop := by
  unfold flkCheckLockData
  split_ifs with h1 h2
  · exact iff_of_false (by simp) (by omega)
  · exact iff_of_false (by simp) (by omega)
  · exact iff_of_true rfl (by omega)

theorem reclockRange_local_ok {f : Flock64} {attr : Except Errno ℤ} {offset : ℤ}
    {r : ℕ × ℕ} : reclockRange false f attr offset = .ok r ↔
      flkConvertLockData f attr offset maxEnd = .ok r ∧
        flkCheckLockData r.1 r.2 maxEnd = .ok () := by
  simp only [reclockRange, Bool.false_eq_true, if_false, bind, Except.bind, pure, Except.pure]
  cases hc : flkConvertLockData f attr offset maxEnd with
  | error e => simp
  | ok q =>
    cases hk : flkCheckLockData q.1 q.2 maxEnd with
    | error e =>
      simp only [hk, reduceCtorEq, Except.ok.injEq, false_iff, not_and]
      rintro rfl
      simp [hk]
    | ok u =>
      simp only [hk, Except.ok.injEq]
      constructor
      · rintro rfl
        exact ⟨rfl, hk⟩
      · exact fun h => h.1

/-- Ranges found on the lock lists: ordered, and for local locks below MAXEND. -/
structure Placed (rcmd : Bool) (start stop : ℕ) : Prop where
  ordered : start ≤ stop
  width : stop < 2 ^ 64
  bounded : rcmd = false → stop ≤ maxEnd

/-- The three ways a length prints: the full 64-bit range wraps to zero, short ranges
print as they are, and ranges of 2^63 bytes or more come out negative. -/
theorem s64_len {start stop : ℕ} (h : start ≤ stop) (hw : stop < 2 ^ 64) :
    (start = 0 ∧ stop = 2 ^ 64 - 1 ∧ s64 (u64 (stop - start + 1)) = 0) ∨
    (stop - start + 1 < 2 ^ 63 ∧ s64 (u64 (stop - start + 1)) = stop - start + 1) ∨
    (2 ^ 63 ≤ stop - start + 1 ∧ stop - start + 1 < 2 ^ 64 ∧
      s64 (u64 (stop - start + 1)) = stop - start + 1 - 2 ^ 64) := by
  unfold s64 u64
  split <;> omega

/-- A lock-manager request for the range that `create_flock` (or `report_blocker`)
prints. The width of MAX_U_OFF_T makes 2^32-1 the one end that reads as "to the
end of the file". -/
theorem rcmdlckRange_len {f : Flock64} {start stop : ℕ} (h : Placed true start stop)
    (hs : f.start = s64 start)
    (hl : f.len = if stop = maxUOffT then 0 else s64 (u64 (stop - start + 1))) :
    rcmdlckRange f = (start, stop) ↔ stop ≠ maxUOffT := by
  obtain ⟨h1, h2, -⟩ := h
  have hstart : u64 f.start = start := by rw [hs]; exact u64_s64 (by omega)
  simp only [rcmdlckRange, hstart, hl, Prod.mk.injEq, true_and]
  by_cases hm : stop = maxUOffT
  · simp only [hm, if_true, ne_eq, not_true_eq_false, iff_false]
    decide
  · simp only [hm, if_false, ne_eq, not_false_eq_true, iff_true]
    obtain ⟨-, hstop, hlen⟩ | ⟨-, hlen⟩ | ⟨-, hlt, hlen⟩ := s64_len h1 h2
    · rw [if_pos hlen, hstop, maxUOffsetT]
    all_goals
      rw [hlen, if_neg (by omega), u64]
      omega

/-- A local request for a range that `create_flock` prints. -/
theorem reclockRange_createFlock_local {l : Lock} (h : Placed false l.start l.stop)
    (attr : Except Errno ℤ) (offset : ℤ) :
    reclockRange false (createFlock l) attr offset = .ok (l.start, l.stop) ↔
      l.stop ≠ maxUOffT ∧ ¬ (l.start = 0 ∧ l.stop = maxEnd) := by
  obtain ⟨h1, h2, h3⟩ := h
  have h3 : l.stop ≤ 2 ^ 63 - 1 := h3 rfl
  have hstart : u64 (s64 l.start) = l.start := u64_s64 (by omega)
  rw [reclockRange_local_ok, flkCheckLockData_ok]
  simp only [flkConvertLockData, createFlock, if_true, bind, Except.bind, pure, Except.pure, hstart]
  by_cases hm : l.stop = maxUOffT
  · simp only [hm, if_true, Except.ok.injEq, Prod.mk.injEq, true_and, ne_eq, not_true_eq_false,
      false_and, iff_false, not_and]
    exact fun h => absurd h (by decide)
  · simp only [hm, if_false, ne_eq, not_false_eq_true, true_and, maxEnd]
    obtain ⟨-, hstop, -⟩ | ⟨hlt, hlen⟩ | ⟨hle, -, hlen⟩ := s64_len h1 h2
    · omega
    · rw [hlen, if_neg (by omega), if_pos (by omega), u64]
      simp only [Except.ok.injEq, Prod.mk.injEq, true_and]
      omega
    · -- only the range from 0 to MAXEND is this long: its length reads as -2^63
      rw [hlen, if_neg (by omega), if_neg (by omega), u64]
      simp only [Except.ok.injEq, Prod.mk.injEq]
      omega

/-- The pair printed for a placed lock denotes the lock's own range exactly when the
range does not end at 2^32-1 and is not the whole of a local file; what a lock manager
query is told denotes the blocker's range exactly when that does not end at 2^32-1. -/
theorem description_roundTrip_iff (rcmd : Bool) (l : Lock) (h : Placed rcmd l.start l.stop)
    (attr : Except Errno ℤ) (offset : ℤ) (query : Lock) (hq : query.lockmgr = true) :
    (reclockRange rcmd (createFlock l) attr offset = .ok (l.start, l.stop) ↔
      l.stop ≠ maxUOffT ∧ (rcmd = false → ¬ (l.start = 0 ∧ l.stop = maxEnd))) ∧
    (rcmdlckRange (reportBlocker l query) = (l.start, l.stop) ↔ l.stop ≠ maxUOffT) := by
  have htrue : Placed true l.start l.stop := ⟨h.ordered, h.width, by simp⟩
  refine ⟨?_, rcmdlckRange_len htrue (by simp [reportBlocker, hq]) (by simp [reportBlocker, hq])⟩
  cases rcmd with
  | true =>
    have := rcmdlckRange_len (f := createFlock l) htrue rfl rfl
    simpa [reclockRange, pure, Except.pure] using this
  | false => simpa using reclockRange_createFlock_local h attr offset

/-- A read lock on bytes 10 to 19 of a local file survives the round trip. -/
theorem description_roundTrip_tenBytes :
    reclockRange false (createFlock ⟨.rdlck, 10, 19, ⟨7, 0⟩, false⟩) (.ok 0) 0 = .ok (10, 19) :=
  (description_roundTrip_iff false ⟨.rdlck, 10, 19, ⟨7, 0⟩, false⟩
    ⟨by decide, by decide, by decide⟩ (.ok 0) 0 ⟨.wrlck, 0, 19, ⟨8, 3⟩, true⟩ rfl).1.mpr (by decide)

/-- The whole-file lock (l_start 0, l_len 0) is printed with a negative length and
rejected when asked for again; a lock manager lock that ends at 2^32-1 is printed as
reaching to the end of the file. -/
theorem description_roundTrip_fails :
    reclockRange false ⟨.wrlck, 0, 0, 0, ⟨7, 0⟩⟩ (.ok 0) 0 = .ok (0, maxEnd) ∧
    reclockRange false (createFlock ⟨.wrlck, 0, maxEnd, ⟨7, 0⟩, false⟩) (.ok 0) 0 =
      .error .einval ∧
    reclockRange true ⟨.wrlck, 0, 0, 2 ^ 32, ⟨7, 3⟩⟩ (.ok 0) 0 = .ok (0, 2 ^ 32 - 1) ∧
    reclockRange true (createFlock ⟨.wrlck, 0, 2 ^ 32 - 1, ⟨7, 3⟩, true⟩) (.ok 0) 0 =
      .ok (0, 2 ^ 64 - 1) := by
  refine ⟨by rfl, by rfl, by rfl, by rfl⟩

section Exact

variable (f : Flock64) (size offset : ℤ)

/-- The exact position that `l_start` is counted to. -/
def exactStart : ℤ :=
  f.start + if f.whence = 0 then 0 else if f.whence = 1 then offset else size

/-- The first and the last byte that a request asks for, as exact integers. A negative length asks
for the bytes that end just before the start. -/
def asked : ℤ × ℤ :=
  let start := exactStart f size offset
  if 0 < f.len then (start, start + f.len - 1)
  else if f.len = 0 then (start, maxEnd)
  else (start + f.len, start - 1)

/-- A local request is given the range that it asks for or none, and none if the range is empty,
negative or goes beyond MAXEND. -/
def Denotes : Prop :=
  (∀ r : ℕ × ℕ, reclockRange false f (.ok size) offset = .ok r →
    ((r.1 : ℤ), (r.2 : ℤ)) = asked f size offset) ∧
  ((asked f size offset).2 < (asked f size offset).1 ∨ (asked f size offset).1 < 0 ∨
      (maxEnd : ℤ) < (asked f size offset).2 →
    ∃ e, reclockRange false f (.ok size) offset = .error e)

variable {f size offset}

/-- The fields of a request are 64-bit, and the file has a size and an offset. -/
structure Asks (f : Flock64) (size offset : ℤ) : Prop where
  whence : f.whence = 0 ∨ f.whence = 1 ∨ f.whence = 2
  start : -2 ^ 63 ≤ f.start ∧ f.start < 2 ^ 63
  len : -2 ^ 63 ≤ f.len ∧ f.len < 2 ^ 63
  size : 0 ≤ size ∧ size < 2 ^ 63
  offset : 0 ≤ offset ∧ offset < 2 ^ 63

theorem Asks.exactStart_bounds (h : Asks f size offset) :
    -2 ^ 63 ≤ exactStart f size offset ∧ exactStart f size offset < 2 ^ 64 - 1 := by
  obtain ⟨-, hs, -, hz, ho⟩ := h
  unfold exactStart
  split_ifs <;> omega

/-- The conversion computes with the start modulo 2^64. -/
theorem Asks.convert_eq (h : Asks f size offset) :
    flkConvertLockData f (.ok size) offset maxEnd =
      let start := u64 (exactStart f size offset)
      .ok (if f.len = 0 then (start, maxEnd) else if 0 < f.len then (start, u64 (start + (f.len - 1)))
        else (u64 (start + f.len + 1), start)) := by
  simp only [flkConvertLockData, exactStart, bind, Except.bind, pure, Except.pure]
  rcases h.whence with hw | hw | hw <;> simp only [hw] <;> norm_num <;> split_ifs <;> rfl

/-- When a request is granted a range, and which one: nothing wraps without being refused. -/
theorem Asks.reclockRange_ok (h : Asks f size offset) (r : ℕ × ℕ) :
    reclockRange false f (.ok size) offset = .ok r ↔
      if 0 ≤ f.len then
        ((r.1 : ℤ), (r.2 : ℤ)) = asked f size offset ∧ 0 ≤ (r.1 : ℤ) ∧ (r.2 : ℤ) ≤ maxEnd ∧ r.1 ≤ r.2
      else (r.1 : ℤ) = exactStart f size offset + f.len + 1 ∧ (r.2 : ℤ) = exactStart f size offset ∧
        (r.2 : ℤ) ≤ maxEnd := by
  obtain ⟨hlo, hhi⟩ := h.exactStart_bounds
  obtain ⟨hl, hl'⟩ := h.len
  rw [reclockRange_local_ok, flkCheckLockData_ok, h.convert_eq]
  simp only [Except.ok.injEq, asked, maxEnd, maxUOffT, u64]
  obtain ⟨r1, r2⟩ := r
  generalize exactStart f size offset = S at *
  generalize f.len = n at *
  by_cases hn : n = 0
  · simp only [hn, ↓reduceIte, lt_irrefl, le_refl, Prod.mk.injEq]
    omega
  · by_cases hpos : 0 < n
    · simp only [hn, hpos, ↓reduceIte, hpos.le, Prod.mk.injEq]
      omega
    · simp only [hn, hpos, ↓reduceIte, show ¬ 0 ≤ n by omega, Prod.mk.injEq]
      omega

/-- The range conversion is exact when the length is not negative. For a negative length the range
that is granted ends at the start and not just before it, so that the conversion is only right when
it refuses the request. -/
theorem denotes_iff (f : Flock64) (size offset : ℤ) (h : Asks f size offset) :
    Denotes f size offset ↔
      0 ≤ f.len ∨ (maxEnd : ℤ) < exactStart f size offset ∨
        exactStart f size offset + f.len + 1 < 0 := by
  have hok := h.reclockRange_ok
  have hres : (∃ r, reclockRange false f (.ok size) offset = .ok r) ∨
      ∃ e, reclockRange false f (.ok size) offset = .error e := by
    cases reclockRange false f (.ok size) offset with
    | ok r => exact .inl ⟨r, rfl⟩
    | error e => exact .inr ⟨e, rfl⟩
  by_cases hn : 0 ≤ f.len
  · simp only [if_pos hn] at hok
    refine iff_of_true ⟨fun r hr => ((hok r).mp hr).1, fun hbad => ?_⟩ (.inl hn)
    apply hres.resolve_left
    rintro ⟨r, hr⟩
    obtain ⟨hasked, hlo, hhi, hle⟩ := (hok r).mp hr
    rw [← hasked] at hbad
    dsimp only at hbad
    omega
  · simp only [if_neg hn] at hok
    -- a granted range ends one byte too late
    have hnot : Denotes f size offset ↔ ¬ ∃ r, reclockRange false f (.ok size) offset = .ok r := by
      constructor
      · rintro ⟨hden, -⟩ ⟨r, hr⟩
        have hasked := hden r hr
        rw [asked, if_neg (by omega), if_neg (by omega), Prod.mk.injEq] at hasked
        have := ((hok r).mp hr).2.1
        omega
      · exact fun hno => ⟨fun r hr => absurd ⟨r, hr⟩ hno, fun _ => hres.resolve_left hno⟩
    rw [hnot, ← not_iff_not, not_not]
    constructor
    · rintro ⟨r, hr⟩
      obtain ⟨h1, h2, h3⟩ := (hok r).mp hr
      omega
    · intro hc
      refine ⟨((exactStart f size offset + f.len + 1).toNat, (exactStart f size offset).toNat), ?_⟩
      rw [hok]
      dsimp only
      omega

/-- The ten bytes before the current offset 100, asked for with a positive length. -/
theorem denotes_tenBytes : Denotes ⟨.rdlck, 1, -10, 10, ⟨7, 0⟩⟩ 200 100 :=
  (denotes_iff ⟨.rdlck, 1, -10, 10, ⟨7, 0⟩⟩ 200 100
    ⟨by decide, by decide, by decide, by decide, by decide⟩).mpr (.inl (by decide))

/-- The last ten bytes of a file of 100 bytes, asked for with `l_whence` 2, `l_start` 0 and `l_len`
-10, come out as bytes 91 to 100. -/
theorem not_denotes_lastTen :
    reclockRange false ⟨.rdlck, 2, 0, -10, ⟨7, 0⟩⟩ (.ok 100) 0 = .ok (91, 100) ∧
    asked ⟨.rdlck, 2, 0, -10, ⟨7, 0⟩⟩ 100 0 = (90, 99) ∧
    ¬ Denotes ⟨.rdlck, 2, 0, -10, ⟨7, 0⟩⟩ 100 0 := by
  have hr : reclockRange false ⟨.rdlck, 2, 0, -10, ⟨7, 0⟩⟩ (.ok 100) 0 = .ok (91, 100) := rfl
  have ha : asked ⟨.rdlck, 2, 0, -10, ⟨7, 0⟩⟩ 100 0 = (90, 99) := by decide
  refine ⟨hr, ha, fun hden => ?_⟩
  have heq := hden.1 _ hr
  rw [ha] at heq
  simp at heq

end Exact

end Sol26.Flock
