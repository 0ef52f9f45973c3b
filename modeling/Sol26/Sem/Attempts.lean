import Sol26.Sem.Reasons

/-!
# Attempts keep the reasons of the sleepers

An attempt that performs an operation wakes whoever may have lost the reason to sleep, and one
that fails takes its operations back, so that those who still sleep have the reason they had. A
process that goes to sleep itself has a reason.
-/
namespace Sol26.Sem

open Function (update update_of_ne update_self)
open View (val)

variable {info : Seminfo} {id : ℤ} {nsems : ℕ} {free bt : Bool} {pick : Pick}
  {q q' : Queues} {w : Sleeper} {cv : Cv} {op : Sembuf} {ops done : List Sembuf}
  {s t : State} {v : View}

def State.vals (s : State) (n : ℕ) : ℤ := (s.sem n).semval

/-- The queues and the counts in the course of an attempt. -/
structure During (nsems : ℕ) (bt : Bool) (pick : Pick) (q : Queues) (s : State) : Prop where
  counted : Counted s.sem bt (q.wakeAll pick s.wakes)
  waiting : Waiting nsems s.vals (q.wakeAll pick s.wakes)

theorem During.congr (h : During nsems bt pick q s) (hsem : t.sem = s.sem)
    (hwakes : t.wakes = s.wakes) : During nsems bt pick q t := by
  have hvals : t.vals = s.vals := by funext n; rw [State.vals, hsem, State.vals]
  exact ⟨by rw [hsem, hwakes]; exact h.counted, by rw [hvals, hwakes]; exact h.waiting⟩

theorem vals_addVal {n : ℕ} {x : ℤ} (h : 0 ≤ s.vals n + x) (h' : s.vals n + x < 65536) :
    (s.addVal n x).vals = update s.vals n (s.vals n + x) :=
  congrArg val (show (s.addVal n x).view false = _ from view_addVal h h')

theorem count_addVal (n : ℕ) (x : ℤ) (m : ℕ) (k : Kind) :
    ((s.addVal n x).sem m).count k = (s.sem m).count k := by
  simp only [State.addVal, State.setSem]
  by_cases hm : m = n
  · subst hm
    rw [update_self]
    cases k <;> rfl
  · rw [update_of_ne hm]

theorem vals_wakeNcnt (n : ℕ) (signal : Bool) : (s.wakeNcnt n signal).vals = s.vals :=
  congrArg val (show (s.wakeNcnt n signal).view false = _ from view_wakeNcnt s n signal)

theorem vals_wakeZcnt (n : ℕ) (signal : Bool) : (s.wakeZcnt n signal).vals = s.vals :=
  congrArg val (show (s.wakeZcnt n signal).view false = _ from view_wakeZcnt s n signal)

theorem wakeAll_wake (s : State) (x : Wake) :
    q.wakeAll pick (s.wake x).wakes = (q.wakeAll pick s.wakes).wake pick x :=
  wakeAll_append pick q s.wakes [x]

theorem binary_wakeNcnt (s : State) (n : ℕ) (signal : Bool) :
    (s.wakeNcnt n signal).binary = s.binary := by
  rw [State.wakeNcnt]
  split_ifs <;> rfl

theorem binary_wakeZcnt (s : State) (n : ℕ) (signal : Bool) :
    (s.wakeZcnt n signal).binary = s.binary := by
  rw [State.wakeZcnt]
  split_ifs <;> rfl

/-- An operation that adds to a semaphore. -/
theorem During.up (h : During nsems bt pick q s) (hone : bt = true → nsems = 1)
    (hpos : 0 < op.op) (hval : 0 ≤ s.vals op.num) (hmax : s.vals op.num + op.op < 65536) :
    During nsems bt pick q
      (((s.addVal op.num op.op).wakeNcnt op.num (op.op = 1 ∧ bt)).wakeZcnt op.num
        (op.op = 1 ∧ bt)) := by
  have hvals := vals_addVal (show 0 ≤ s.vals op.num + op.op by omega) hmax
  have hcount := h.counted.congr (count_addVal op.num op.op)
  have hother : ∀ n ≠ op.num, (s.addVal op.num op.op).vals n = s.vals n :=
    fun n hn => by rw [hvals, update_of_ne hn]
  have hself : (s.addVal op.num op.op).vals op.num = s.vals op.num + op.op := by
    rw [hvals, update_self]
  have hnonzero : ∀ n, s.vals n ≠ 0 → (s.addVal op.num op.op).vals n ≠ 0 := by
    intro n hn
    by_cases hnn : n = op.num
    · rw [hnn, hself]
      omega
    · rw [hother n hnn]
      exact hn
  -- the value is positive, so nobody who waits for zero is woken
  have hzero : (s.addVal op.num op.op).wakeNcnt op.num (op.op = 1 ∧ bt) =
      ((s.addVal op.num op.op).wakeNcnt op.num (op.op = 1 ∧ bt)).wakeZcnt op.num
        (op.op = 1 ∧ bt) := by
    have hne := congrFun (vals_wakeNcnt (s := s.addVal op.num op.op) op.num (op.op = 1 ∧ bt)) op.num
    rw [hself, State.vals] at hne
    rw [State.wakeZcnt, if_pos (.inr (by omega))]
  have hkeep := vals_wakeNcnt (s := s.addVal op.num op.op) op.num (op.op = 1 ∧ bt)
  rw [← hzero]
  rw [State.wakeNcnt] at hkeep ⊢
  split_ifs at hkeep ⊢ with h0 hsignal
  · refine ⟨hcount, h.waiting.mono (.refl _) ?_ fun n _ => hnonzero n⟩
    intro n hn
    by_cases hnn : n = op.num
    · subst hnn
      exact absurd (hcount.ncnt _ h0) hn
    · exact (hother n hnn).le
  · obtain ⟨hop, rfl⟩ := of_decide_eq_true hsignal
    constructor
    · rw [wakeAll_wake]
      exact hcount.signal pick op.num
    · have hwait := h.waiting.signal h.counted (hone rfl) pick hval
      rw [← hop, ← hvals, ← hkeep] at hwait
      rw [wakeAll_wake]
      exact hwait
  · constructor
    · rw [wakeAll_wake]
      exact hcount.broadcast pick ⟨op.num, .ncnt⟩
    · rw [wakeAll_wake, hkeep]
      refine h.waiting.broadcast pick ⟨op.num, .ncnt⟩ ?_ fun n _ => hnonzero n
      intro n hn
      exact (hother n fun heq => hn (by rw [heq])).le

/-- Those who wait for zero are woken when the value is zero. -/
theorem wakeZcnt_counted (hc : Counted s.sem bt (q.wakeAll pick s.wakes)) (n : ℕ) :
    Counted (s.wakeZcnt n false).sem bt (q.wakeAll pick (s.wakeZcnt n false).wakes) ∧
      Woke (q.wakeAll pick s.wakes) (q.wakeAll pick (s.wakeZcnt n false).wakes) ∧
      ((q.wakeAll pick (s.wakeZcnt n false).wakes).queue ⟨n, .zcnt⟩ ≠ [] → s.vals n ≠ 0) := by
  simp only [State.wakeZcnt, Bool.false_eq_true, if_false]
  split_ifs with h0
  · exact ⟨hc, .refl _, fun hnil => h0.resolve_left fun h0 => hnil (hc.zcnt n h0)⟩
  · rw [wakeAll_wake]
    refine ⟨hc.broadcast pick ⟨n, .zcnt⟩, woke_wake pick _ _, fun hnil => absurd ?_ hnil⟩
    exact update_self _ _ _

/-- The queues after an operation that takes from a semaphore. -/
theorem down_counted (hc : Counted s.sem bt (q.wakeAll pick s.wakes)) (hneg : op.op < 0)
    (hval : 0 ≤ s.vals op.num + op.op) (hmax : s.vals op.num < 65536) :
    let s' := (s.addVal op.num op.op).wakeZcnt op.num false
    Counted s'.sem bt (q.wakeAll pick s'.wakes) ∧
      Woke (q.wakeAll pick s.wakes) (q.wakeAll pick s'.wakes) ∧
      s'.vals = update s.vals op.num (s.vals op.num + op.op) ∧
      ∀ n, (q.wakeAll pick s'.wakes).queue ⟨n, .zcnt⟩ ≠ [] → s.vals n ≠ 0 → s'.vals n ≠ 0 := by
  intro s'
  have hvals := vals_addVal hval (show s.vals op.num + op.op < 65536 by omega)
  have hkeep : s'.vals = (s.addVal op.num op.op).vals := vals_wakeZcnt op.num false
  obtain ⟨hcount, hwoke, hzero⟩ := wakeZcnt_counted (s := s.addVal op.num op.op)
    (hc.congr (count_addVal op.num op.op)) op.num
  refine ⟨hcount, hwoke, hkeep.trans hvals, ?_⟩
  intro n hnil hne
  rw [hkeep]
  by_cases hn : n = op.num
  · subst hn
    exact hzero hnil
  · rw [hvals, update_of_ne hn]
    exact hne

/-- An operation that takes from a semaphore. -/
theorem During.down (h : During nsems bt pick q s) (hneg : op.op < 0)
    (hval : 0 ≤ s.vals op.num + op.op) (hmax : s.vals op.num < 65536) :
    During nsems bt pick q ((s.addVal op.num op.op).wakeZcnt op.num false) := by
  obtain ⟨hcount, hwoke, hvals, hzero⟩ := down_counted h.counted hneg hval hmax
  refine ⟨hcount, h.waiting.mono hwoke ?_ hzero⟩
  intro n _
  rw [hvals]
  by_cases hn : n = op.num
  · rw [hn, update_self]
    omega
  · rw [update_of_ne hn]

/-! ### The end of an attempt -/

theorem adjust_frame (info : Seminfo) (free : Bool) (id : ℤ) (op : Sembuf) (x : ℤ) (s : State) :
    (s.adjust info free id op x).1.sem = s.sem ∧ (s.adjust info free id op x).1.wakes = s.wakes ∧
      (s.adjust info free id op x).1.binary = s.binary := by
  rw [State.adjust]
  split_ifs <;> exact ⟨rfl, rfl, rfl⟩

/-- `semundo` changes neither counts nor queues. -/
theorem semundo_frame (info : Seminfo) (free : Bool) (id : ℤ) (done : List Sembuf) (s : State) :
    (∀ n k, ((semundo info free id done s).sem n).count k = (s.sem n).count k) ∧
      (semundo info free id done s).wakes = s.wakes ∧
      (semundo info free id done s).binary = s.binary := by
  induction done generalizing s with
  | nil => exact ⟨fun _ _ => rfl, rfl, rfl⟩
  | cons op done ih =>
    rw [semundo]
    split_ifs
    · exact ih s
    · have hframe := adjust_frame info free id op (short (-op.op)) (s.addVal op.num (-op.op))
      have hrest := ih ((s.addVal op.num (-op.op)).adjust info free id op (short (-op.op))).1
      rw [hframe.1, hframe.2.1, hframe.2.2] at hrest
      exact ⟨fun n k => (hrest.1 n k).trans (count_addVal op.num (-op.op) n k), hrest.2⟩

/-- Counts and reasons between attempts. -/
structure Sound (nsems : ℕ) (s : State) (q : Queues) : Prop where
  counted : Counted s.sem (s.binary && nsems = 1) q
  waiting : Waiting nsems s.vals q

/-- What was done is taken back: everybody who still sleeps has the old reason. -/
theorem During.undo (h : During nsems bt pick q s) (hfit : info.Fits) (hv : v.Good info)
    (hq : Waiting nsems v.val q) (hbt : (s.binary && nsems = 1) = bt)
    (htrail : Trail info id v done (s.view free)) :
    Sound nsems (semundo info free id done s)
      (q.wakeAll pick (semundo info free id done s).wakes) := by
  obtain ⟨hcount, hwakes, hbinary⟩ := semundo_frame info free id done s
  have hvals : (semundo info free id done s).vals = v.val :=
    congrArg val (view_semundo hfit hv htrail)
  constructor
  · rw [hbinary, hbt, hwakes]
    exact h.counted.congr hcount
  · rw [hvals, hwakes]
    exact hq.mono (woke_wakeAll pick q s.wakes) (fun _ _ => le_rfl) fun _ _ hn => hn

theorem sleep_queue {n : ℕ} {k : Kind} {w' : Sleeper} {m : ℕ} {k' : Kind}
    (h : w' ∈ (q.sleep ⟨n, k⟩ w).queue ⟨m, k'⟩) :
    w' ∈ q.queue ⟨m, k'⟩ ∨ (w' = w ∧ m = n ∧ k' = k) := by
  by_cases hcv : (⟨m, k'⟩ : Cv) = ⟨n, k⟩
  · cases hcv
    simp only [Queues.sleep, update_self, List.mem_append, List.mem_singleton] at h
    tauto
  · simp only [Queues.sleep, update_of_ne hcv] at h
    exact .inl h

theorem sleep_nil {n : ℕ} {k : Kind} (cv : Cv) (hcv : cv ≠ ⟨n, k⟩) :
    (q.sleep ⟨n, k⟩ w).queue cv = q.queue cv :=
  update_of_ne hcv _ _

theorem Counted.sleep {sem : ℕ → Sema} {n : ℕ} {k : Kind} (h : Counted sem bt q)
    (hunit : bt = true → k = .ncnt → w.unit n = true) :
    Counted (update sem n ((sem n).setCount ((sem n).count k + 1) k)) bt (q.sleep ⟨n, k⟩ w) := by
  have hcount := count_update sem n ((sem n).count k + 1) k
  refine .intro ?_ ?_ ?_ ?_
  · intro cv h0
    by_cases hcv : cv = ⟨n, k⟩
    · subst hcv
      rw [hcount, if_pos ⟨rfl, rfl⟩] at h0
      omega
    · rw [sleep_nil cv hcv]
      rw [hcount, if_neg (fun heq => hcv (by cases cv; simp_all))] at h0
      exact h.nil h0
  · intro hbt m
    have hm := hcount m .ncnt
    by_cases hcv : (⟨m, .ncnt⟩ : Cv) = ⟨n, k⟩
    · cases hcv
      rw [if_pos ⟨rfl, rfl⟩] at hm
      refine le_trans ?_ hm.ge
      simp only [Queues.sleep, update_self, List.length_append, List.length_singleton,
        add_le_add_iff_right]
      exact h.all hbt _
    · rw [if_neg (fun heq => hcv (by rw [heq.1, heq.2]))] at hm
      rw [sleep_nil _ hcv]
      exact (h.all hbt m).trans hm.ge
  · intro hbt m w' hw'
    rcases sleep_queue hw' with hw' | ⟨rfl, rfl, hk⟩
    · exact h.unit hbt m w' hw'
    · exact hunit hbt hk.symm
  · exact h.woken

theorem Waiting.sleepNcnt {n : ℕ} {val : ℕ → ℤ} (h : Waiting nsems val q)
    (hshort : Short n (val n) w.ops) : Waiting nsems val (q.sleep ⟨n, .ncnt⟩ w) := by
  constructor
  · intro m w' hw'
    rcases sleep_queue hw' with hw' | ⟨rfl, rfl, -⟩
    · exact h.larger m w' hw'
    · exact .inl hshort
  · intro m w' hw'
    rcases sleep_queue hw' with hw' | ⟨-, -, hk⟩
    · exact h.zero m w' hw'
    · cases hk

theorem Waiting.sleepZcnt {n : ℕ} {val : ℕ → ℤ} (h : Waiting nsems val q) (hval : val n ≠ 0)
    (hzero : WaitsZero n w.ops) : Waiting nsems val (q.sleep ⟨n, .zcnt⟩ w) := by
  constructor
  · intro m w' hw'
    rcases sleep_queue hw' with hw' | ⟨-, -, hk⟩
    · exact h.larger m w' hw'
    · cases hk
  · intro m w' hw'
    rcases sleep_queue hw' with hw' | ⟨rfl, rfl, -⟩
    · exact h.zero m w' hw'
    · exact ⟨hval, hzero⟩

/-- A process goes to sleep for a larger value. -/
theorem Sound.sleepNcnt (h : Sound nsems s q) (hneg : op.op < 0)
    (hshort : Short op.num (s.vals op.num) w.ops)
    (hunit : (s.binary && nsems = 1) = true → op.op = -1 → w.unit op.num = true) :
    Sound nsems (s.sleepNcnt op) (q.sleep ⟨op.num, .ncnt⟩ w) := by
  have hvals : (s.sleepNcnt op).vals = s.vals :=
    congrArg val (show (s.sleepNcnt op).view false = _ from view_sleepNcnt s op)
  refine ⟨?_, by rw [hvals]; exact h.waiting.sleepNcnt hshort⟩
  simp only [State.sleepNcnt]
  split_ifs with hbig
  · exact Counted.not_binary (h.counted.not_binary.sleep (k := .ncnt) (by simp))
  · exact h.counted.sleep (k := .ncnt) fun hbt _ => hunit hbt (by omega)

/-- A process goes to sleep for zero. -/
theorem Sound.sleepZcnt (h : Sound nsems s q) (hval : s.vals op.num ≠ 0)
    (hzero : WaitsZero op.num w.ops) :
    Sound nsems (s.sleepZcnt op) (q.sleep ⟨op.num, .zcnt⟩ w) := by
  have hvals : (s.sleepZcnt op).vals = s.vals :=
    congrArg val (show (s.sleepZcnt op).view false = _ from view_sleepZcnt s op)
  refine ⟨?_, by rw [hvals]; exact h.waiting.sleepZcnt hval hzero⟩
  exact h.counted.sleep (k := .zcnt) (by simp)

theorem wakes_sleepNcnt (s : State) (op : Sembuf) : (s.sleepNcnt op).wakes = s.wakes := by
  rw [State.sleepNcnt]
  split_ifs <;> rfl

/-! ### Attempts -/

/-- No wait for zero comes after operations of the same call that change the value. -/
def ZeroFirst (ops : List Sembuf) : Prop :=
  ∀ pre op post, ops = pre ++ op :: post → op.op = 0 → total op.num pre = 0

/-- A call that takes something does nothing else. -/
def TakesAlone (ops : List Sembuf) : Prop := ops.length = 1 ∨ ∀ op ∈ ops, 0 ≤ op.op

/-- The unit that a call waits for, when it is the only operation that takes something. -/
theorem TakesAlone.unit (h : TakesAlone w.ops) (hops : w.ops = done.reverse ++ op :: ops)
    (hop : op.op = -1) : w.unit op.num = true := by
  rw [unit_iff]
  refine ⟨op, ?_, rfl, hop⟩
  rcases h with hlen | hpos
  · rw [hops] at hlen ⊢
    simp only [List.length_append, List.length_reverse, List.length_cons] at hlen
    rw [List.length_eq_zero_iff.1 (show done.length = 0 by omega),
      List.length_eq_zero_iff.1 (show ops.length = 0 by omega)]
    rfl
  · have := hpos op (by rw [hops]; simp)
    omega

/-- Between the start and the end of an attempt that sees no unit it owes. -/
theorem semopLoop_sound (hfit : info.Fits) (hv : v.Good info) (hq : Waiting nsems v.val q)
    (hzero : ZeroFirst w.ops) (halone : bt = true → TakesAlone w.ops) (ops : List Sembuf)
    (hops : w.ops = done.reverse ++ ops) (hbt : (s.binary && nsems = 1) = bt)
    (htrail : Trail info id v done (s.view free)) (h : During nsems bt pick q s) :
    Sound nsems (semopLoop info free id bt done ops s).2
      (q.settle pick w (semopLoop info free id bt done ops s)) := by
  induction ops generalizing done s with
  | nil =>
    rw [← hbt] at h
    exact ⟨h.counted, h.waiting⟩
  | cons op ops ih =>
    have hmax := hfit.semvmx
    have hgood : 0 ≤ s.vals op.num ∧ s.vals op.num ≤ info.semvmx :=
      (htrail.good hfit hv).val op.num
    have hsem : s.vals op.num = (s.sem op.num).semval := rfl
    have hnow : s.vals op.num = v.val op.num + total op.num done.reverse := by
      rw [total_reverse]
      exact htrail.val_eq hfit hv op.num
    have hback : (semundo info free id done s).vals = v.val :=
      congrArg val (view_semundo hfit hv htrail)
    have hnext : w.ops = (op :: done).reverse ++ ops := by simp [hops]
    have hone : bt = true → nsems = 1 := by
      intro h1
      rw [h1, Bool.and_eq_true, decide_eq_true_eq] at hbt
      exact hbt.2
    have hundo := h.undo hfit hv hq hbt htrail
    have hpass := semopLoop_pass info free id bt done op ops s
    revert hpass
    generalize semopLoop info free id bt done (op :: ops) s = r
    intro hpass
    cases hpass with
    | fail u e hview =>
      have htrail' : Trail info id v done (State.view free { s with undo := u }) := by
        rw [hview]
        exact htrail
      exact (h.congr (t := { s with undo := u }) rfl rfl).undo hfit hv hq hbt htrail'
    | up u hpos hle hadj =>
      refine ih hnext ?_ ?_ ?_
      · rw [binary_wakeZcnt, binary_wakeNcnt]
        exact hbt
      · rw [view_wakeZcnt, view_wakeNcnt]
        exact trail_nonzero hfit htrail (by omega) hle hadj
      · exact (h.congr (t := { s with undo := u }) rfl rfl).up hone hpos hgood.1
          (show s.vals op.num + op.op < 65536 by omega)
    | down u hneg hle hadj =>
      refine ih hnext ?_ ?_ ?_
      · rw [binary_wakeZcnt]
        exact hbt
      · rw [view_wakeZcnt]
        exact trail_nonzero hfit htrail hle (by omega) hadj
      · exact (h.congr (t := { s with undo := u }) rfl rfl).down hneg
          (show 0 ≤ s.vals op.num + op.op by omega) (show s.vals op.num < 65536 by omega)
    | zero _ _ hadj => exact ih hnext hbt (htrail.cons hadj) h
    | sleepNcnt hneg hlt =>
      rw [Queues.settle, wakes_sleepNcnt]
      refine hundo.sleepNcnt hneg ?_ ?_
      · rw [hback]
        exact ⟨done.reverse, op, ops, hops, rfl, hneg, by omega⟩
      · intro hbin hop
        rw [(semundo_frame info free id done s).2.2, hbt] at hbin
        exact (halone hbin).unit hops hop
    | sleepZcnt hz hne =>
      have htotal := hzero done.reverse op ops hops hz
      refine hundo.sleepZcnt ?_ ⟨done.reverse, op, ops, hops, rfl, hz, htotal⟩
      rw [hback]
      omega

end Sol26.Sem
