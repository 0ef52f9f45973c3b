import Mathlib.Data.List.Count
import Sol26.Sem.Waiters

/-!
# Why a process sleeps in `semop`

What is known of every sleeper: one that waits for a larger value finds the value too small at
the operation where it fell asleep, or, on a set with one semaphore, it waits for one unit and
there are no more units than processes that were woken to take one. One that waits for zero
finds another value.
-/
namespace Sol26.Sem

open Function (update update_of_ne update_self)

variable {info : Seminfo} {id : ℤ} {nsems : ℕ} {free bt : Bool} {pick : Pick}
  {q q' : Queues} {sem sem' : ℕ → Sema} {val val' : ℕ → ℤ} {w : Sleeper} {cv : Cv}
  {op : Sembuf} {ops done : List Sembuf} {s t : State} {v : View}

/-- A call for one unit of a semaphore. -/
def Sleeper.unit (n : ℕ) (w : Sleeper) : Bool :=
  match w.ops with
  | [op] => op.num = n ∧ op.op = -1
  | _ => false

/-- The processes that were woken and will take one unit. -/
def Queues.units (q : Queues) (n : ℕ) : ℕ := q.woken.countP fun x => x.2.unit n

/-- One of the operations waits for a larger value. -/
def Short (n : ℕ) (x : ℤ) (ops : List Sembuf) : Prop :=
  ∃ pre op post, ops = pre ++ op :: post ∧ op.num = n ∧ op.op < 0 ∧ x + total n pre < -op.op

/-- One of the operations waits for zero, and those before it leave the value as it is. -/
def WaitsZero (n : ℕ) (ops : List Sembuf) : Prop :=
  ∃ pre op post, ops = pre ++ op :: post ∧ op.num = n ∧ op.op = 0 ∧ total n pre = 0

/-- The counts tell when somebody sleeps. In a binary set all sleepers for a larger value wait
for one unit, and all of them are counted. -/
structure Counted (sem : ℕ → Sema) (bt : Bool) (q : Queues) : Prop where
  ncnt : ∀ n, (sem n).semncnt = 0 → q.queue ⟨n, .ncnt⟩ = []
  zcnt : ∀ n, (sem n).semzcnt = 0 → q.queue ⟨n, .zcnt⟩ = []
  all : bt = true → ∀ n, (q.queue ⟨n, .ncnt⟩).length ≤ (sem n).semncnt
  unit : bt = true → ∀ n, ∀ w ∈ q.queue ⟨n, .ncnt⟩, w.unit n = true
  woken : bt = true → ∀ n w, (⟨n, .ncnt⟩, w) ∈ q.woken → w.unit n = true

/-- Nobody sleeps without a reason. -/
structure Waiting (nsems : ℕ) (val : ℕ → ℤ) (q : Queues) : Prop where
  larger : ∀ n, ∀ w ∈ q.queue ⟨n, .ncnt⟩,
    Short n (val n) w.ops ∨ (nsems = 1 ∧ w.unit n = true ∧ val n ≤ q.units n)
  zero : ∀ n, ∀ w ∈ q.queue ⟨n, .zcnt⟩, val n ≠ 0 ∧ WaitsZero n w.ops

/-! ### Waking -/

theorem wake_signal (pick : Pick) (q : Queues) (cv : Cv) :
    (q.queue cv = [] ∧ q.wake pick (.signal cv) = q) ∨
      ∃ i w, (q.queue cv)[i]? = some w ∧ q.wake pick (.signal cv) =
        ⟨update q.queue cv ((q.queue cv).eraseIdx i), (cv, w) :: q.woken⟩ := by
  by_cases hnil : q.queue cv = []
  · left
    simp [Queues.wake, hnil]
  · right
    have hlt : pick cv (q.queue cv) % (q.queue cv).length < (q.queue cv).length :=
      Nat.mod_lt _ (List.length_pos_iff.2 hnil)
    refine ⟨_, _, List.getElem?_eq_getElem hlt, ?_⟩
    simp only [Queues.wake, List.getElem?_eq_getElem hlt]

/-- Nobody falls asleep by a wake-up, and nobody who was woken is forgotten. -/
structure Woke (q q' : Queues) : Prop where
  sublist : ∀ cv, (q'.queue cv).Sublist (q.queue cv)
  woken : ∀ x ∈ q'.woken, x ∈ q.woken ∨ x.2 ∈ q.queue x.1
  units : ∀ n, q.units n ≤ q'.units n

theorem Woke.queue (h : Woke q q') (cv : Cv) (w : Sleeper) (hw : w ∈ q'.queue cv) :
    w ∈ q.queue cv :=
  (h.sublist cv).subset hw

theorem Woke.refl (q : Queues) : Woke q q :=
  ⟨fun _ => .refl _, fun _ h => .inl h, fun _ => le_rfl⟩

theorem Woke.trans {q'' : Queues} (h : Woke q q') (h' : Woke q' q'') : Woke q q'' := by
  refine ⟨fun cv => (h'.sublist cv).trans (h.sublist cv), ?_, fun n =>
    (h.units n).trans (h'.units n)⟩
  intro x hx
  rcases h'.woken x hx with hx | hx
  · exact h.woken x hx
  · exact .inr (h.queue _ _ hx)

theorem sublist_update {l : List Sleeper} (hl : l.Sublist (q.queue cv)) (cv' : Cv) :
    (update q.queue cv l cv').Sublist (q.queue cv') := by
  by_cases hcv : cv' = cv
  · subst hcv
    rw [update_self]
    exact hl
  · simp only [update_of_ne hcv, List.Sublist.refl]

theorem woke_wake (pick : Pick) (q : Queues) (x : Wake) : Woke q (q.wake pick x) := by
  cases x with
  | signal cv =>
    rcases wake_signal pick q cv with ⟨-, h⟩ | ⟨i, w, hi, h⟩
    · rw [h]
      exact .refl q
    · rw [h]
      refine ⟨sublist_update (List.eraseIdx_sublist _ _), ?_, ?_⟩
      · intro x hx
        rcases List.mem_cons.1 hx with rfl | hx
        · exact .inr (List.mem_of_getElem? hi)
        · exact .inl hx
      · intro n
        simp only [Queues.units, List.countP_cons]
        omega
  | broadcast cv =>
    refine ⟨sublist_update (List.nil_sublist _), ?_, ?_⟩
    · intro x hx
      rcases List.mem_append.1 hx with hx | hx
      · obtain ⟨w, hw, rfl⟩ := List.mem_map.1 hx
        exact .inr hw
      · exact .inl hx
    · intro n
      simp only [Queues.units, Queues.wake, List.countP_append]
      omega

theorem wakeAll_append (pick : Pick) (q : Queues) (xs ys : List Wake) :
    q.wakeAll pick (xs ++ ys) = (q.wakeAll pick xs).wakeAll pick ys :=
  List.foldl_append

theorem woke_wakeAll (pick : Pick) (q : Queues) (xs : List Wake) : Woke q (q.wakeAll pick xs) := by
  induction xs generalizing q with
  | nil => exact .refl q
  | cons x xs ih => exact (woke_wake pick q x).trans (ih _)

theorem wakeAll_broadcast {x : Cv} {wakes : List Wake} (h : .broadcast x ∈ wakes) (pick : Pick)
    (q : Queues) : (q.wakeAll pick wakes).queue x = [] := by
  induction wakes generalizing q with
  | nil => cases h
  | cons y wakes ih =>
    rcases List.mem_cons.1 h with hy | hmem
    · apply List.eq_nil_iff_forall_not_mem.2
      intro w hw
      have := (woke_wakeAll pick (q.wake pick y) wakes).queue x w hw
      rw [← hy] at this
      simp [Queues.wake] at this
    · exact ih hmem _

/-- Sleepers keep their reason while values do not grow, for those who wait for a unit not beyond
the processes that will take one, and do not become zero. -/
theorem Waiting.weaken (h : Waiting nsems val q)
    (hqueue : ∀ cv, ∀ w ∈ q'.queue cv, w ∈ q.queue cv)
    (hle : ∀ n, q'.queue ⟨n, .ncnt⟩ ≠ [] → val' n ≤ val n)
    (hunits : nsems = 1 → ∀ n, q'.queue ⟨n, .ncnt⟩ ≠ [] → val n ≤ q.units n → val' n ≤ q'.units n)
    (hne : ∀ n, q'.queue ⟨n, .zcnt⟩ ≠ [] → val n ≠ 0 → val' n ≠ 0) : Waiting nsems val' q' := by
  constructor
  · intro n w hw
    have hnil := List.ne_nil_of_mem hw
    have hval := hle n hnil
    rcases h.larger n w (hqueue _ w hw) with
      ⟨pre, op, post, hops, hnum, hneg, hlt⟩ | ⟨hone, hunit, hle⟩
    · exact .inl ⟨pre, op, post, hops, hnum, hneg, by omega⟩
    · exact .inr ⟨hone, hunit, hunits hone n hnil hle⟩
  · intro n w hw
    have hold := h.zero n w (hqueue _ w hw)
    exact ⟨hne n (List.ne_nil_of_mem hw) hold.1, hold.2⟩

theorem Waiting.mono (h : Waiting nsems val q) (hwoke : Woke q q')
    (hle : ∀ n, q'.queue ⟨n, .ncnt⟩ ≠ [] → val' n ≤ val n)
    (hne : ∀ n, q'.queue ⟨n, .zcnt⟩ ≠ [] → val n ≠ 0 → val' n ≠ 0) : Waiting nsems val' q' := by
  refine h.weaken hwoke.queue hle ?_ hne
  intro _ n hnil hunits
  have := hle n hnil
  have := hwoke.units n
  omega

/-- Nobody can be stranded who has a reason to sleep. -/
theorem performs_append {pre post : List Sembuf} (val : ℕ → ℤ)
    (h : performs info (pre ++ post) val = true) :
    performs info post (fun n => val n + total n pre) = true := by
  induction pre generalizing val with
  | nil => simpa [total] using h
  | cons op pre ih =>
    simp only [List.cons_append, performs, Bool.and_eq_true] at h
    have hrest := ih _ h.2
    have heq : (fun n => update val op.num (val op.num + op.op) n + total n pre) =
        fun n => val n + total n (op :: pre) := by
      funext n
      by_cases hn : n = op.num
      · subst hn
        simp only [update_self, total, if_true]
        omega
      · simp only [update_of_ne hn, total, if_neg (Ne.symm hn)]
        omega
    rw [heq] at hrest
    exact hrest

theorem Short.not_performs {n : ℕ} (h : Short n (val n) ops) : performs info ops val = false := by
  obtain ⟨pre, op, post, rfl, rfl, hneg, hlt⟩ := h
  by_contra hp
  have := performs_append val (Bool.eq_true_of_not_eq_false hp)
  simp only [performs, if_neg (show ¬ 0 < op.op by omega), if_pos hneg, Bool.and_eq_true,
    decide_eq_true_eq] at this
  omega

theorem WaitsZero.not_performs {n : ℕ} (h : WaitsZero n ops) (hval : val n ≠ 0) :
    performs info ops val = false := by
  obtain ⟨pre, op, post, rfl, rfl, hzero, htotal⟩ := h
  by_contra hp
  have := performs_append val (Bool.eq_true_of_not_eq_false hp)
  simp only [performs, hzero, lt_irrefl, if_false, Bool.and_eq_true, decide_eq_true_eq] at this
  omega

theorem unit_iff {n : ℕ} : w.unit n = true ↔ ∃ op, w.ops = [op] ∧ op.num = n ∧ op.op = -1 := by
  unfold Sleeper.unit
  split
  · rename_i op hops
    simp [hops]
  · rename_i hops
    simp only [Bool.false_eq_true, false_iff]
    rintro ⟨op, hop, -⟩
    exact hops op hop

/-- Who waits for one unit waits for a positive value. -/
theorem short_unit {n : ℕ} (h : w.unit n = true) : Short n (val n) w.ops ↔ val n ≤ 0 := by
  obtain ⟨op, hops, hnum, hop⟩ := unit_iff.1 h
  constructor
  · rintro ⟨pre, op', post, heq, -, -, hlt⟩
    rw [hops] at heq
    obtain ⟨rfl, rfl, rfl⟩ : pre = [] ∧ op = op' ∧ post = [] := by
      cases pre <;> simp_all
    simp only [total] at hlt
    omega
  · intro hle
    exact ⟨[], op, [], hops, hnum, by omega, by simp only [total]; omega⟩

/-- When all woken processes have run, nobody sleeps who could go on. -/
theorem Waiting.not_performs (h : Waiting nsems val q) (hwoken : q.woken = [])
    (hw : w ∈ q.queue cv) : performs info w.ops val = false := by
  obtain ⟨n, kind⟩ := cv
  cases kind with
  | ncnt =>
    rcases h.larger n w hw with hshort | ⟨-, hunit, hle⟩
    · exact hshort.not_performs
    · have h0 : q.units n = 0 := by simp [Queues.units, hwoken]
      exact ((short_unit hunit).2 (by omega)).not_performs
  | zcnt => exact (h.zero n w hw).2.not_performs (h.zero n w hw).1

/-! ### Counts and reasons over a wake-up -/

theorem Counted.congr (h : Counted sem bt q)
    (hcount : ∀ n k, (sem' n).count k = (sem n).count k) : Counted sem' bt q := by
  have hn : ∀ n, (sem' n).semncnt = (sem n).semncnt := fun n => hcount n .ncnt
  have hz : ∀ n, (sem' n).semzcnt = (sem n).semzcnt := fun n => hcount n .zcnt
  exact ⟨fun n h0 => h.ncnt n (by rw [← hn, h0]), fun n h0 => h.zcnt n (by rw [← hz, h0]),
    fun hbt n => by rw [hn]; exact h.all hbt n, h.unit, h.woken⟩

theorem Counted.not_binary (h : Counted sem bt q) : Counted sem false q :=
  ⟨h.ncnt, h.zcnt, by simp, by simp, by simp⟩

theorem count_setCount (semp : Sema) (x : ℕ) (k k' : Kind) :
    (semp.setCount x k).count k' = if k' = k then x else semp.count k' := by
  cases k <;> cases k' <;> rfl

theorem count_update (sem : ℕ → Sema) (n : ℕ) (x : ℕ) (k : Kind) (m : ℕ) (k' : Kind) :
    (update sem n ((sem n).setCount x k) m).count k' =
      if m = n ∧ k' = k then x else (sem m).count k' := by
  by_cases hm : m = n
  · subst hm
    rw [update_self, count_setCount]
    simp only [true_and]
  · rw [update_of_ne hm, if_neg (fun h => hm h.1)]

/-- Both kinds of counts at once. -/
theorem Counted.nil (h : Counted sem bt q) (h0 : (sem cv.num).count cv.kind = 0) :
    q.queue cv = [] := by
  obtain ⟨n, kind⟩ := cv
  cases kind with
  | ncnt => exact h.ncnt n h0
  | zcnt => exact h.zcnt n h0

theorem Counted.intro (hnil : ∀ cv : Cv, (sem cv.num).count cv.kind = 0 → q.queue cv = [])
    (hall : bt = true → ∀ n, (q.queue ⟨n, .ncnt⟩).length ≤ (sem n).semncnt)
    (hunit : bt = true → ∀ n, ∀ w ∈ q.queue ⟨n, .ncnt⟩, w.unit n = true)
    (hwoken : bt = true → ∀ n w, (⟨n, .ncnt⟩, w) ∈ q.woken → w.unit n = true) :
    Counted sem bt q :=
  ⟨fun n => hnil ⟨n, .ncnt⟩, fun n => hnil ⟨n, .zcnt⟩, hall, hunit, hwoken⟩

/-- Wake-ups keep the counts if those change only where nobody sleeps any more. -/
theorem Counted.woke (h : Counted sem bt q) (hwoke : Woke q q')
    (hcount : ∀ cv : Cv, q'.queue cv ≠ [] →
      (sem' cv.num).count cv.kind = (sem cv.num).count cv.kind) : Counted sem' bt q' := by
  refine .intro ?_ ?_ ?_ ?_
  · intro cv h0
    by_contra hnil
    rw [hcount cv hnil] at h0
    have hsub := hwoke.sublist cv
    rw [h.nil h0] at hsub
    exact hnil (List.sublist_nil.1 hsub)
  · intro hbt n
    by_cases hnil : q'.queue ⟨n, .ncnt⟩ = []
    · rw [hnil]
      exact Nat.zero_le _
    · have hle := (hwoke.sublist ⟨n, .ncnt⟩).length_le
      have hn := hcount ⟨n, .ncnt⟩ hnil
      exact hle.trans ((h.all hbt n).trans hn.ge)
  · intro hbt n w hw
    exact h.unit hbt n w (hwoke.queue _ w hw)
  · intro hbt n w hw
    rcases hwoke.woken _ hw with hw | hw
    · exact h.woken hbt n w hw
    · exact h.unit hbt n w hw

theorem Counted.broadcast (h : Counted sem bt q) (pick : Pick) (cv : Cv) :
    Counted (update sem cv.num ((sem cv.num).setCount 0 cv.kind)) bt
      (q.wake pick (.broadcast cv)) := by
  refine h.woke (woke_wake pick q _) ?_
  intro cv' hnil
  rw [count_update, if_neg]
  intro heq
  apply hnil
  rw [show cv' = cv by cases cv'; cases cv; simp_all]
  exact update_self _ _ _

theorem Counted.signal (h : Counted sem true q) (pick : Pick) (n : ℕ) :
    Counted (update sem n ((sem n).setCount ((sem n).semncnt - 1) .ncnt)) true
      (q.wake pick (.signal ⟨n, .ncnt⟩)) := by
  have hwoke := h.woke (woke_wake pick q (.signal ⟨n, .ncnt⟩)) fun _ _ => rfl
  have hcount := count_update sem n ((sem n).semncnt - 1) .ncnt
  -- with the count of the semaphore the length of its queue goes down
  have hlen : ((q.wake pick (.signal ⟨n, .ncnt⟩)).queue ⟨n, .ncnt⟩).length ≤
      (sem n).semncnt - 1 := by
    have hall := h.all rfl n
    rcases wake_signal pick q ⟨n, .ncnt⟩ with ⟨hnil, heq⟩ | ⟨i, w, hi, heq⟩
    · rw [heq, hnil]
      exact Nat.zero_le _
    · obtain ⟨hlt, -⟩ := List.getElem?_eq_some_iff.1 hi
      simp only [heq, update_self, List.length_eraseIdx_of_lt hlt]
      omega
  refine .intro ?_ ?_ hwoke.unit hwoke.woken
  · intro cv h0
    by_cases hcv : cv = ⟨n, .ncnt⟩
    · subst hcv
      rw [hcount, if_pos ⟨rfl, rfl⟩] at h0
      exact List.length_eq_zero_iff.1 (by omega)
    · rw [hcount, if_neg (fun heq => hcv (by cases cv; simp_all))] at h0
      exact hwoke.nil h0
  · intro _ m
    have hm := hcount m .ncnt
    by_cases hmn : m = n
    · subst hmn
      rw [if_pos ⟨rfl, rfl⟩] at hm
      exact hlen.trans hm.ge
    · rw [if_neg (fun heq => hmn heq.1)] at hm
      exact (hwoke.all rfl m).trans hm.ge

/-- A broadcast leaves nobody on its condition variable. -/
theorem Waiting.broadcast (h : Waiting nsems val q) (pick : Pick) (cv : Cv)
    (hle : ∀ n, cv ≠ ⟨n, .ncnt⟩ → val' n ≤ val n)
    (hne : ∀ n, cv ≠ ⟨n, .zcnt⟩ → val n ≠ 0 → val' n ≠ 0) :
    Waiting nsems val' (q.wake pick (.broadcast cv)) := by
  have hself : (q.wake pick (.broadcast cv)).queue cv = [] := update_self _ _ _
  refine h.mono (woke_wake pick q _) ?_ ?_
  · intro n hnil
    exact hle n fun heq => hnil (by rw [← heq]; exact hself)
  · intro n hnil
    exact hne n fun heq => hnil (by rw [← heq]; exact hself)

/-- A signal for one unit. -/
theorem Waiting.signal {n : ℕ} (h : Waiting nsems val q) (hc : Counted sem true q)
    (hone : nsems = 1) (pick : Pick) (hval : 0 ≤ val n) :
    Waiting nsems (update val n (val n + 1)) (q.wake pick (.signal ⟨n, .ncnt⟩)) := by
  have hwoke := woke_wake pick q (.signal ⟨n, .ncnt⟩)
  constructor
  · intro m w hw
    by_cases hm : m = n
    · subst hm
      have hmem := hwoke.queue _ w hw
      have hunit := hc.unit rfl m w hmem
      refine .inr ⟨hone, hunit, ?_⟩
      have hold : val m ≤ q.units m := by
        rcases h.larger m w hmem with hshort | hle
        · have := (short_unit hunit).1 hshort
          omega
        · exact hle.2.2
      rcases wake_signal pick q ⟨m, .ncnt⟩ with ⟨hnil, -⟩ | ⟨i, w', hi, heq⟩
      · simp [hnil] at hmem
      · have hunit' := hc.unit rfl m w' (List.mem_of_getElem? hi)
        rw [heq, update_self]
        simp only [Queues.units, List.countP_cons, hunit', if_true] at hold ⊢
        push_cast
        omega
    · rw [update_of_ne hm]
      rcases h.larger m w (hwoke.queue _ w hw) with hshort | ⟨-, hunit, hle⟩
      · exact .inl hshort
      · have := hwoke.units m
        exact .inr ⟨hone, hunit, by omega⟩
  · intro m w hw
    have hold := h.zero m w (hwoke.queue _ w hw)
    refine ⟨?_, hold.2⟩
    by_cases hm : m = n
    · subst hm
      rw [update_self]
      omega
    · rw [update_of_ne hm]
      exact hold.1

end Sol26.Sem
