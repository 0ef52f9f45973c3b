import Mathlib.Tactic

/-!
# Interval timers

Model of `setitimer`, `itimerfix` and `itimerdecr` from `uts/common/os/timers.c`, the last of which
takes the length of a clock tick from an interval timer and reloads the timer when it expires. The
values are far from the ends of a `long`, so the fields are integers.
-/
namespace Sol26.Timers

structure Timeval where
  tvSec : ℤ
  tvUsec : ℤ
  deriving DecidableEq

structure Itimerval where
  itInterval : Timeval
  itValue : Timeval
  deriving DecidableEq

/-- `MICROSEC` -/
def microsec : ℤ := 1000000

/-- `timerisset` -/
def Timeval.isSet (tv : Timeval) : Bool := tv.tvSec ≠ 0 ∨ tv.tvUsec ≠ 0

/-- `itimerfix`, with the length of a tick; the result is `none` for `EINVAL`. -/
def itimerfix (usecPerTick : ℤ) (tv : Timeval) : Option Timeval :=
  if tv.tvSec < 0 ∨ 100000000 < tv.tvSec ∨ tv.tvUsec < 0 ∨ microsec ≤ tv.tvUsec then none
  else if tv.tvSec = 0 ∧ tv.tvUsec ≠ 0 ∧ tv.tvUsec < usecPerTick then
    some { tv with tvUsec := usecPerTick }
  else some tv

/-- `xsetitimer` for a timer that runs by ticks: what it is set to, or `none` for `EINVAL`. -/
def xsetitimer (usecPerTick : ℤ) (aitv : Itimerval) : Option Itimerval := do
  let itValue ← itimerfix usecPerTick aitv.itValue
  match itimerfix usecPerTick aitv.itInterval with
  | some itInterval => some ⟨itInterval, itValue⟩
  | none => if itValue.isSet then none else some { aitv with itValue }

/-- The end of `itimerdecr`, from the label `expire`: `usec` is what remains of the tick. -/
def expire (itp : Itimerval) (usec : ℤ) : Itimerval :=
  if itp.itInterval.isSet then
    let v := { itp.itInterval with tvUsec := itp.itInterval.tvUsec - usec }
    { itp with itValue := if v.tvUsec < 0 then ⟨v.tvSec - 1, v.tvUsec + microsec⟩ else v }
  else { itp with itValue := { itp.itValue with tvUsec := 0 } }

/-- The value less the tick, with a second borrowed if need be. -/
def Timeval.less (tv : Timeval) (usec : ℤ) : Timeval :=
  let tv := if tv.tvUsec < usec then ⟨tv.tvSec - 1, tv.tvUsec + microsec⟩ else tv
  { tv with tvUsec := tv.tvUsec - usec }

/-- `itimerdecr`; the result is 0 if the timer expires. -/
def itimerdecr (itp : Itimerval) (usec : ℤ) : Itimerval × ℤ :=
  if itp.itValue.tvUsec < usec ∧ itp.itValue.tvSec = 0 then
    -- expired, and already in next interval
    (expire itp (usec - itp.itValue.tvUsec), 0)
  else
    let itp := { itp with itValue := itp.itValue.less usec }
    if itp.itValue.isSet then (itp, 1) else (expire itp 0, 0)

/-- The microseconds of a time. -/
def Timeval.total (tv : Timeval) : ℤ := microsec * tv.tvSec + tv.tvUsec

structure Timeval.Normal (tv : Timeval) : Prop where
  sec : 0 ≤ tv.tvSec
  usec : 0 ≤ tv.tvUsec
  lt : tv.tvUsec < microsec

/-- `k` calls with the tick `usec`, each made while the timer is set, of which `n` returned 0. -/
inductive Calls (usec : ℤ) (itp : Itimerval) : ℕ → ℕ → Itimerval → Prop
  | none : Calls usec itp 0 0 itp
  | call {k n : ℕ} {it : Itimerval} : Calls usec itp k n it → it.itValue.isSet →
      Calls usec itp (k + 1) (if (itimerdecr it usec).2 = 0 then n + 1 else n)
        (itimerdecr it usec).1

namespace Timeval

theorem isSet_iff {tv : Timeval} (h : tv.Normal) : tv.isSet ↔ 0 < tv.total := by
  have h0 := h.sec
  have h1 := h.usec
  unfold isSet total microsec
  simp only [decide_eq_true_eq]
  omega

theorem total_eq_zero {tv : Timeval} (h : tv.Normal) (hn : ¬ tv.isSet) : tv.total = 0 := by
  rw [isSet_iff h] at hn
  have h0 := h.sec
  have h1 := h.usec
  unfold total microsec at *
  omega

theorem less_spec {tv : Timeval} {usec : ℤ} (h : tv.Normal) (h0 : 0 < usec) (hlt : usec < microsec)
    (hle : usec ≤ tv.total) : (tv.less usec).Normal ∧ (tv.less usec).total = tv.total - usec := by
  obtain ⟨hs, hu, hm⟩ := h
  unfold less total microsec at *
  split_ifs with hb
  · exact ⟨⟨by dsimp only; omega, by dsimp only; omega, by unfold microsec; dsimp only; omega⟩,
      by dsimp only; omega⟩
  · exact ⟨⟨hs, by dsimp only; omega, by unfold microsec; dsimp only; omega⟩, by dsimp only; omega⟩

end Timeval

/-- What the timer is loaded with is normalised, and zero or as long as a tick. It is the time asked
for, or a tick if that is longer. -/
theorem itimerfix_spec {tick : ℤ} {tv tv' : Timeval} (h0 : 0 < tick) (hlt : tick < microsec)
    (h : itimerfix tick tv = some tv') :
    tv'.Normal ∧ (tv'.total = 0 ∨ tick ≤ tv'.total) ∧ tv.total ≤ tv'.total ∧
      tv'.total ≤ max tick tv.total := by
  unfold itimerfix at h
  unfold Timeval.total
  split_ifs at h with hbad hshort
  · cases h
    refine ⟨⟨hshort.1.ge, h0.le, hlt⟩, ?_, ?_, ?_⟩ <;> dsimp only <;> rw [hshort.1] <;> omega
  · cases h
    unfold microsec at *
    exact ⟨⟨by omega, by omega, by unfold microsec; omega⟩, by omega, le_rfl, le_max_right _ _⟩

/-- The reloaded value is the interval less what remains of the tick. -/
theorem expire_spec {itp : Itimerval} {usec : ℤ} (hi : itp.itInterval.Normal) (h0 : 0 ≤ usec)
    (hlt : usec < microsec) (hle : itp.itInterval.isSet → usec ≤ itp.itInterval.total)
    (hsec : itp.itValue.tvSec = 0) :
    (expire itp usec).itInterval = itp.itInterval ∧ (expire itp usec).itValue.Normal ∧
      (expire itp usec).itValue.total =
        if itp.itInterval.isSet then itp.itInterval.total - usec else 0 := by
  obtain ⟨hs, hu, hm⟩ := hi
  unfold expire
  by_cases hset : itp.itInterval.isSet = true
  · have hle := hle hset
    rw [if_pos hset, if_pos hset]
    unfold Timeval.total microsec at *
    dsimp only
    split_ifs with hneg
    · exact ⟨rfl, ⟨by dsimp only; omega, by dsimp only; omega, by unfold microsec; dsimp only; omega⟩,
        by dsimp only; omega⟩
    · exact ⟨rfl, ⟨hs, by dsimp only; omega, by unfold microsec; dsimp only; omega⟩,
        by dsimp only; omega⟩
  · rw [if_neg hset, if_neg hset]
    exact ⟨rfl, ⟨hsec.ge, le_rfl, show 0 < microsec by decide⟩, by simp [Timeval.total, hsec]⟩

section

variable {T : ℤ} {itp it : Itimerval} {k n : ℕ}

/-- A tick that does not reach the end of the interval. -/
theorem itimerdecr_running (hv : it.itValue.Normal) (h0 : 0 < T) (hlt : T < microsec)
    (h : T < it.itValue.total) :
    itimerdecr it T = ({ it with itValue := it.itValue.less T }, 1) := by
  obtain ⟨hn, ht⟩ := Timeval.less_spec hv h0 hlt h.le
  have hset : (it.itValue.less T).isSet = true := (Timeval.isSet_iff hn).2 (by omega)
  have hsec : ¬ (it.itValue.tvUsec < T ∧ it.itValue.tvSec = 0) := by
    unfold Timeval.total microsec at h
    omega
  unfold itimerdecr
  rw [if_neg hsec]
  dsimp only
  rw [if_pos hset]

/-- A tick that reaches the end of the interval. What remains of it is taken from the next one. -/
theorem itimerdecr_expired (hv : it.itValue.Normal) (hi : it.itInterval.Normal) (h0 : 0 < T)
    (hlt : T < microsec) (hle : it.itInterval.isSet → T ≤ it.itInterval.total)
    (hpos : 0 < it.itValue.total) (h : it.itValue.total ≤ T) :
    (itimerdecr it T).2 = 0 ∧ (itimerdecr it T).1.itInterval = it.itInterval ∧
      (itimerdecr it T).1.itValue.Normal ∧
      (itimerdecr it T).1.itValue.total =
        if it.itInterval.isSet then it.itInterval.total + it.itValue.total - T else 0 := by
  have hs := hv.sec
  have hu := hv.usec
  by_cases hsec : it.itValue.tvUsec < T ∧ it.itValue.tvSec = 0
  · have htotal : it.itValue.total = it.itValue.tvUsec := by
      rw [Timeval.total, hsec.2]
      ring
    obtain ⟨h1, h2, h3⟩ := @expire_spec it (T - it.itValue.tvUsec) hi (by omega) (by omega)
      (fun hset => by have := hle hset; omega) hsec.2
    rw [itimerdecr, if_pos hsec]
    refine ⟨rfl, h1, h2, h3.trans ?_⟩
    split_ifs <;> omega
  · -- the end of the interval is met exactly
    have heq : it.itValue.total = T := by
      unfold Timeval.total microsec at *
      omega
    obtain ⟨hn, ht⟩ := Timeval.less_spec hv h0 hlt heq.ge
    have hset : ¬ (it.itValue.less T).isSet = true := by
      rw [Timeval.isSet_iff hn]
      omega
    have hzero : (it.itValue.less T).tvSec = 0 := by
      have := hn.sec
      have := hn.usec
      unfold Timeval.total microsec at ht heq
      omega
    obtain ⟨h1, h2, h3⟩ := @expire_spec { it with itValue := it.itValue.less T } 0 hi le_rfl
      (by decide) (fun hset => by have := hle hset; dsimp only; omega) hzero
    unfold itimerdecr
    rw [if_neg hsec]
    dsimp only
    rw [if_neg hset]
    refine ⟨rfl, h1, h2, h3.trans ?_⟩
    dsimp only
    split_ifs <;> omega

/-- The timer after `k` ticks and `n` expiries. It runs, and the time left tells how far it is from
the next expiry, or it has expired for good. -/
structure Ticked (T : ℤ) (itp : Itimerval) (k n : ℕ) (it : Itimerval) : Prop where
  interval : it.itInterval = itp.itInterval
  normal : it.itValue.Normal
  left : 0 < it.itValue.total ∧
      it.itValue.total = itp.itValue.total + n * itp.itInterval.total - k * T ∧
      (1 ≤ n → it.itValue.total ≤ itp.itInterval.total) ∨
    it.itValue.total = 0 ∧ itp.itInterval.total = 0 ∧ n = 1 ∧ itp.itValue.total ≤ k * T

theorem Calls.ticked (h0 : 0 < T) (hlt : T < microsec) (hv : itp.itValue.Normal)
    (hpos : 0 < itp.itValue.total) (hi : itp.itInterval.Normal)
    (hI : itp.itInterval.total = 0 ∨ T ≤ itp.itInterval.total) (h : Calls T itp k n it) :
    Ticked T itp k n it := by
  induction h with
  | none =>
    exact ⟨rfl, hv, .inl ⟨hpos, by push_cast; ring, fun h => absurd h (by decide)⟩⟩
  | @call k n it _ hset ih =>
    obtain ⟨hint, hnormal, hleft⟩ := ih
    rw [Timeval.isSet_iff hnormal] at hset
    obtain ⟨-, heq, hle⟩ : _ := hleft.resolve_right fun h => by omega
    have hk : ((k + 1 : ℕ) : ℤ) * T = k * T + T := by
      push_cast
      ring
    by_cases hrun : T < it.itValue.total
    · obtain ⟨hn, ht⟩ := Timeval.less_spec hnormal h0 hlt hrun.le
      rw [itimerdecr_running hnormal h0 hlt hrun]
      dsimp only
      rw [if_neg (by decide)]
      refine ⟨hint, hn, .inl ⟨?_, ?_, fun h => ?_⟩⟩
      · dsimp only
        omega
      · rw [hk]
        dsimp only
        omega
      · have := hle h
        dsimp only
        omega
    · have hset' : it.itInterval.isSet → T ≤ it.itInterval.total := fun h => by
        have := (Timeval.isSet_iff (hint ▸ hi)).1 h
        rw [hint] at *
        omega
      obtain ⟨h1, h2, h3, h4⟩ := itimerdecr_expired hnormal (hint ▸ hi) h0 hlt hset' hset
        (not_lt.1 hrun)
      have hn : ((n + 1 : ℕ) : ℤ) * itp.itInterval.total =
          n * itp.itInterval.total + itp.itInterval.total := by
        push_cast
        ring
      rw [if_pos h1]
      rw [hint] at h4
      refine ⟨h2.trans hint, h3, ?_⟩
      rw [h4, hk, hn]
      split_ifs with hset
      · have := (Timeval.isSet_iff hi).1 hset
        exact .inl ⟨by omega, by omega, fun _ => by omega⟩
      · have hI : itp.itInterval.total = 0 := Timeval.total_eq_zero hi hset
        have hn0 : n = 0 := by
          by_contra hne
          have := hle (Nat.one_le_iff_ne_zero.2 hne)
          omega
        rw [hn0, hI] at heq
        exact .inr ⟨rfl, hI, by omega, by push_cast at heq; omega⟩

/-- The times at which a timer is due that have come: its expiries are exactly these. -/
theorem Ticked.expiries (h : Ticked T itp k n it) (hpos : 0 < itp.itInterval.total) :
    {m : ℕ | itp.itValue.total + m * itp.itInterval.total ≤ k * T} = Set.Iio n := by
  obtain ⟨hp, heq, hle⟩ := h.left.resolve_right fun h => by omega
  ext m
  rw [Set.mem_ofPred_eq, Set.mem_Iio]
  constructor
  · intro hm
    by_contra hmn
    have : (n : ℤ) * itp.itInterval.total ≤ m * itp.itInterval.total :=
      mul_le_mul_of_nonneg_right (by exact_mod_cast not_lt.1 hmn) hpos.le
    omega
  · intro hm
    have hmn : (m : ℤ) + 1 ≤ n := by exact_mod_cast hm
    have := mul_le_mul_of_nonneg_right hmn hpos.le
    have := hle (by omega)
    linarith

/-- An interval timer does not drift. After `k` ticks its value is normalised, and the number of
ticks at which it expired is the number of its due times that have come. -/
theorem itimerdecr_due (h0 : 0 < T) (hlt : T < microsec) (hv : itp.itValue.Normal)
    (hpos : 0 < itp.itValue.total) (hi : itp.itInterval.Normal)
    (hI : itp.itInterval.total = 0 ∨ T ≤ itp.itInterval.total) (h : Calls T itp k n it) :
    it.itValue.Normal ∧
    (0 < itp.itInterval.total → it.itValue.isSet ∧
      n = {m : ℕ | itp.itValue.total + m * itp.itInterval.total ≤ k * T}.ncard) ∧
    (itp.itInterval.total = 0 → n = if itp.itValue.total ≤ k * T then 1 else 0) := by
  have ht := h.ticked h0 hlt hv hpos hi hI
  refine ⟨ht.normal, fun hset => ?_, fun hzero => ?_⟩
  · obtain ⟨hp, -⟩ := ht.left.resolve_right fun h => by omega
    rw [ht.expiries hset, Timeval.isSet_iff ht.normal, ← Finset.coe_range, Set.ncard_coe_finset,
      Finset.card_range]
    exact ⟨hp, rfl⟩
  · rcases ht.left with ⟨hp, heq, hle⟩ | ⟨-, -, hn, hle⟩
    · rw [hzero] at heq hle
      have hn : n = 0 := by
        by_contra hne
        have := hle (Nat.one_le_iff_ne_zero.2 hne)
        omega
      rw [if_neg (by omega), hn]
    · rw [if_pos hle, hn]

/-- A timer of 25 milliseconds, then of 15, and a tick of 10. -/
def shortTimer : Itimerval := ⟨⟨0, 15000⟩, ⟨0, 25000⟩⟩

/-- Of four ticks the third and the fourth find it expired, at 25 and at 40 milliseconds. -/
theorem itimerdecr_due_shortTimer : 2 = {m : ℕ | (25000 : ℤ) + m * 15000 ≤ 4 * 10000}.ncard := by
  have hcalls : Calls 10000 shortTimer 4 2 ⟨⟨0, 15000⟩, ⟨0, 15000⟩⟩ :=
    .call (.call (.call (.call .none rfl) rfl) rfl) rfl
  exact ((itimerdecr_due (by decide) (by decide) ⟨by decide, by decide, by decide⟩ (by decide)
    ⟨by decide, by decide, by decide⟩ (.inr (by decide)) hcalls).2.1 (by decide)).2

/-- A timer set by a call never expires before the times asked for, and it expires at the first tick
at which it is due, times shorter than a tick being a tick. -/
theorem xsetitimer_punctual {aitv : Itimerval} (h0 : 0 < T) (hlt : T < microsec)
    (hcall : xsetitimer T aitv = some itp) (hset : itp.itValue.isSet) (h : Calls T itp k n it) :
    (∀ m : ℕ, m < n → aitv.itValue.total + m * aitv.itInterval.total ≤ k * T) ∧
    (it.itValue.isSet → k * T < max T aitv.itValue.total + n * max T aitv.itInterval.total) := by
  obtain ⟨v, hv, hrest⟩ := Option.bind_eq_some_iff.mp hcall
  obtain ⟨hvn, -, hvlow, hvhigh⟩ := itimerfix_spec h0 hlt hv
  cases hi : itimerfix T aitv.itInterval with
  | none =>
    -- a bad interval passes only with a value that is not set
    rw [hi] at hrest
    dsimp only at hrest
    split_ifs at hrest with hs
    cases hrest
    exact absurd hset hs
  | some i =>
    rw [hi] at hrest
    cases hrest
    obtain ⟨hin, hi0, hilow, hihigh⟩ := itimerfix_spec h0 hlt hi
    have ht := h.ticked h0 hlt hvn ((Timeval.isSet_iff hvn).1 hset) hin hi0
    constructor
    · intro m hm
      have hlast : (m : ℤ) * i.total ≤ (n - 1) * i.total :=
        mul_le_mul_of_nonneg_right (by omega) (by omega)
      have hasked := mul_le_mul_of_nonneg_left hilow m.cast_nonneg
      rcases ht.left with ⟨-, heq, hle⟩ | ⟨-, -, hn, hle⟩
      · have := hle (by omega)
        dsimp only at *
        linarith
      · rw [show m = 0 by omega, Nat.cast_zero, zero_mul, add_zero]
        exact hvlow.trans hle
    · intro hs
      rw [Timeval.isSet_iff ht.normal] at hs
      obtain ⟨-, heq, -⟩ := ht.left.resolve_right fun h => by omega
      have hlong := mul_le_mul_of_nonneg_left hihigh n.cast_nonneg
      dsimp only at *
      linarith

/-- A timer for 25 milliseconds, and then for 15, has expired twice after four ticks and not three
times after five. -/
theorem xsetitimer_punctual_shortTimer :
    (25000 + (1 : ℕ) * 15000 ≤ (4 : ℕ) * (10000 : ℤ)) ∧
      (5 : ℕ) * (10000 : ℤ) < max 10000 25000 + (2 : ℕ) * max 10000 15000 := by
  have hcall : xsetitimer 10000 shortTimer = some shortTimer := rfl
  have h₄ : Calls 10000 shortTimer 4 2 ⟨⟨0, 15000⟩, ⟨0, 15000⟩⟩ :=
    .call (.call (.call (.call .none rfl) rfl) rfl) rfl
  have h5 : Calls 10000 shortTimer 5 2 ⟨⟨0, 15000⟩, ⟨0, 5000⟩⟩ := .call h₄ rfl
  exact ⟨(xsetitimer_punctual (by decide) (by decide) hcall rfl h₄).1 1 one_lt_two,
    (xsetitimer_punctual (by decide) (by decide) hcall rfl h5).2 rfl⟩

end

end Sol26.Timers
