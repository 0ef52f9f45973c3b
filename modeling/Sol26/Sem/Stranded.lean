import Sol26.Sem.Attempts

/-!
# No waiter is stranded

Every event keeps the counts and the reasons of the sleepers, if no wait for zero follows
operations of its own call that change the value, and if on a set of one semaphore every process
that was woken for one unit takes it or finds none.
-/
namespace Sol26.Sem

open Function (update update_of_ne update_self)

variable {info : Seminfo} {id : ℤ} {nsems : ℕ} {free bt : Bool} {pick : Pick}
  {q q' : Queues} {w : Sleeper} {cv : Cv} {op : Sembuf} {s t : System}

def System.vals (s : System) (n : ℕ) : ℤ := (s.sem n).semval

structure System.Inv (info : Seminfo) (nsems : ℕ) (s : System) : Prop where
  val : ∀ n, 0 ≤ s.vals n ∧ s.vals n ≤ info.semvmx
  undo : ∀ p, Entries info ((s.undo p).getD [])
  counted : Counted s.sem (s.binary && nsems = 1) s.queues
  waiting : Waiting nsems s.vals s.queues

theorem System.Initial.inv (h : s.Initial info) : s.Inv info nsems := by
  refine ⟨h.val, h.undo, ⟨fun n _ => h.queue _, fun n _ => h.queue _, ?_, ?_, ?_⟩, ⟨?_, ?_⟩⟩
  all_goals simp [h.queue, h.woken]

/-- What the vectors of a safe run are like. -/
structure Tame (nsems : ℕ) (s : System) (ops : List Sembuf) : Prop where
  zeroFirst : ZeroFirst ops
  alone : s.binary = true → nsems = 1 → TakesAlone ops

/-- The values and entries after an attempt. -/
theorem System.Inv.bounds {r : Outcome × State} {ops : List Sembuf} {p : ℕ}
    (h : s.Inv info nsems) (hr : AllOrNothing info id ops (s.state p) r) :
    (∀ n, 0 ≤ r.2.vals n ∧ r.2.vals n ≤ info.semvmx) ∧
      ∀ p', Entries info ((update s.undo p r.2.undo p').getD []) := by
  constructor
  · intro n
    by_cases hdone : r.1 = .done
    · have hbounds := hr.bounds hdone n ops.length
      rw [List.take_length, ← hr.values hdone] at hbounds
      exact hbounds
    · rw [State.vals, (hr.nothing hdone).1 n]
      exact h.val n
  · intro p'
    by_cases hp : p' = p
    · rw [hp, update_self]
      exact hr.wellFormed
    · rw [update_of_ne hp]
      exact h.undo p'

theorem System.Inv.attempt (hfit : info.Fits) (h : s.Inv info nsems) (htame : Tame nsems s w.ops)
    (free : Bool) (id : ℤ) (pick : Pick) :
    (s.settle pick w (attempt info free id nsems w.ops (s.state w.proc))).Inv info nsems := by
  have hall := attempt_allOrNothing hfit (s := s.state w.proc) h.val (h.undo w.proc) free id nsems
    w.ops
  obtain ⟨hval, hundo⟩ := h.bounds hall
  have hgood : ((s.state w.proc).view free).Good info :=
    ⟨h.val, by rw [getD_view]; exact h.undo w.proc⟩
  have halone : (s.binary && nsems = 1) = true → TakesAlone w.ops := by
    rw [Bool.and_eq_true, decide_eq_true_eq]
    exact fun hb => htame.alone hb.1 hb.2
  have hsound : Sound nsems (Sem.attempt info free id nsems w.ops (s.state w.proc)).2
      (s.queues.settle pick w (Sem.attempt info free id nsems w.ops (s.state w.proc))) :=
    semopLoop_sound hfit hgood h.waiting htame.zeroFirst halone w.ops rfl rfl Trail.nil
      ⟨h.counted, h.waiting⟩
  exact ⟨hval, hundo, hsound.counted, hsound.waiting⟩

theorem System.Inv.call (hfit : info.Fits) (h : s.Inv info nsems) (htame : Tame nsems s w.ops)
    (free : Bool) (id : ℤ) (pick : Pick) (access : Bool → Option Errno) :
    (s.settle pick w (semop info free id nsems access w.ops (s.state w.proc))).Inv info nsems := by
  have hsame : ∀ o : Outcome, (∀ cv, o ≠ .sleep cv) →
      s.settle pick w (o, s.state w.proc) = s := by
    intro o ho
    cases o with
    | sleep cv => exact absurd rfl (ho cv)
    | done | fail e => simp [System.settle, System.state, Queues.settle, Queues.wakeAll]
  rw [semop]
  split_ifs
  · rw [hsame _ (by simp)]
    exact h
  · rw [hsame _ (by simp)]
    exact h
  · cases w.ops.findSome? fun op =>
        (access (op.op ≠ 0)).or (if nsems ≤ op.num then some .efbig else none) with
    | some e =>
      rw [hsame _ (by simp)]
      exact h
    | none => exact h.attempt hfit htame free id pick

/-! ### A woken process -/

/-- The set without one of the processes that were woken. -/
def System.forget (s : System) (i : ℕ) : System :=
  { s with queues := { s.queues with woken := s.queues.woken.eraseIdx i } }

theorem countP_eraseIdx {α : Type*} {p : α → Bool} {l : List α} {i : ℕ} {x : α}
    (h : l[i]? = some x) : l.countP p = (l.eraseIdx i).countP p + if p x then 1 else 0 := by
  induction l generalizing i with
  | nil => cases h
  | cons y l ih =>
    cases i with
    | zero =>
      obtain rfl : y = x := by simpa using h
      rw [List.eraseIdx_cons_zero, List.countP_cons]
    | succ i =>
      rw [List.eraseIdx_cons_succ, List.countP_cons, List.countP_cons, ih (by simpa using h)]
      omega

theorem units_forget {i : ℕ} (hi : s.queues.woken[i]? = some (cv, w)) (n : ℕ) :
    s.queues.units n = (s.forget i).queues.units n + if w.unit n then 1 else 0 :=
  countP_eraseIdx hi

theorem Counted.forget (h : Counted s.sem bt s.queues) (i : ℕ) :
    Counted (s.forget i).sem bt (s.forget i).queues :=
  ⟨h.ncnt, h.zcnt, h.all, h.unit, fun hbt n w hw =>
    h.woken hbt n w (List.mem_of_mem_eraseIdx hw)⟩

/-- Nobody is missed who will not take a unit, or who will not find one. -/
theorem System.Inv.forget {i : ℕ} (h : s.Inv info nsems) (hi : s.queues.woken[i]? = some (cv, w))
    (hunit : nsems = 1 → ∀ n, w.unit n = true → s.vals n ≤ 0) :
    (s.forget i).Inv info nsems := by
  refine ⟨h.val, h.undo, h.counted.forget i, ?_⟩
  refine h.waiting.weaken (fun _ _ hw => hw) (fun _ _ => le_rfl) ?_ fun _ _ hn => hn
  intro hone n _ hle
  have hunits := units_forget hi n
  have hsame : (s.forget i).vals n = s.vals n := rfl
  split_ifs at hunits with hu
  · have := hunit hone n hu
    omega
  · omega

/-- An attempt at one unit that is there. -/
theorem attempt_take {st : State} (nsems : ℕ) (hop : op.op = -1) (hval : 1 ≤ (st.sem op.num).semval)
    (hadj : (st.adjust info free id op op.op).2 = none) :
    ∃ t : State, t.sem = st.sem ∧ t.binary = st.binary ∧ t.wakes = [] ∧
      Sem.attempt info free id nsems [op] st =
        (.done, (t.addVal op.num op.op).wakeZcnt op.num false) := by
  have hadj' : (State.adjust info free id op op.op { st with wakes := [] }).2 = none := by
    rw [State.adjust] at hadj ⊢
    split_ifs at hadj ⊢
    · exact hadj
    · rfl
  have hle : -op.op ≤ (st.sem op.num).semval := by omega
  rcases view_adjust info free id op op.op { st with wakes := [] } with
    ⟨u, hu, -⟩ | ⟨u, e, hu, -⟩
  · refine ⟨{ st with undo := u, wakes := [] }, rfl, rfl, rfl, ?_⟩
    rw [Sem.attempt, semopLoop, if_neg (by omega), if_pos (by omega), if_pos hle, hu]
    rfl
  · simp [hu] at hadj'

/-- A process that was woken for one unit takes it. -/
theorem System.Inv.take {i : ℕ} (hfit : info.Fits) (h : s.Inv info nsems)
    (hi : s.queues.woken[i]? = some (cv, w)) (hops : w.ops = [op]) (hop : op.op = -1)
    (hval : 1 ≤ s.vals op.num) (hadj : ((s.state w.proc).adjust info free id op op.op).2 = none) :
    ((s.forget i).settle pick w
      (Sem.attempt info free id nsems w.ops ((s.forget i).state w.proc))).Inv info nsems := by
  have hall := attempt_allOrNothing hfit (s := (s.forget i).state w.proc) h.val (h.undo w.proc)
    free id nsems w.ops
  obtain ⟨hvals, hundo⟩ := System.Inv.bounds (s := s) h hall
  have hmax := hfit.semvmx
  have hbound := h.val op.num
  rw [hops] at hvals hundo ⊢
  obtain ⟨t, hsem, hbinary, hwakes, hresult⟩ := attempt_take nsems hop hval hadj
  rw [show (s.forget i).state w.proc = s.state w.proc from rfl, hresult] at hvals hundo ⊢
  have hnow : t.vals = s.vals := by
    funext n
    rw [State.vals, hsem]
    rfl
  have hstart : Counted t.sem (s.binary && nsems = 1)
      ((s.forget i).queues.wakeAll pick t.wakes) := by
    rw [hsem, hwakes]
    exact h.counted.forget i
  obtain ⟨hcount, hwoke, hnew, hzero⟩ := down_counted hstart (show op.op < 0 by omega)
    (by rw [hnow]; omega) (by rw [hnow]; omega)
  have hbin : ((t.addVal op.num op.op).wakeZcnt op.num false).binary = s.binary :=
    (binary_wakeZcnt _ _ _).trans hbinary
  rw [hnow] at hnew hzero
  rw [hwakes] at hwoke
  change Woke (s.forget i).queues _ at hwoke
  have hother : ∀ n ≠ op.num, ((t.addVal op.num op.op).wakeZcnt op.num false).vals n = s.vals n :=
    fun n hn => by rw [hnew, update_of_ne hn]
  have hself : ((t.addVal op.num op.op).wakeZcnt op.num false).vals op.num = s.vals op.num - 1 := by
    rw [hnew, update_self, hop]
    rfl
  refine ⟨hvals, hundo, ?_, h.waiting.weaken hwoke.queue ?_ ?_ hzero⟩
  · rw [← hbin] at hcount
    exact hcount
  · intro n _
    by_cases hn : n = op.num
    · subst hn
      exact hself.le.trans (by omega)
    · exact (hother n hn).le
  · intro _ n _ hle
    have hunits := units_forget hi n
    have hgrow := hwoke.units n
    by_cases hn : n = op.num
    · subst hn
      rw [if_pos (unit_iff.2 ⟨op, hops, rfl, hop⟩)] at hunits
      exact hself.le.trans (le_trans (by omega) (Nat.cast_le.2 hgrow))
    · rw [if_neg] at hunits
      · exact (hother n hn).le.trans (hle.trans (by exact_mod_cast hunits.le.trans hgrow))
      · intro hunit
        obtain ⟨op', hops', hnum, -⟩ := unit_iff.1 hunit
        rw [hops] at hops'
        cases hops'
        exact hn hnum.symm

theorem System.Inv.resume {i : ℕ} (hfit : info.Fits) (h : s.Inv info nsems)
    (hi : s.queues.woken[i]? = some (cv, w)) (htame : Tame nsems s w.ops)
    (hadj : nsems = 1 → ∀ op, w.ops = [op] → op.op = -1 → 1 ≤ s.vals op.num →
      ((s.state w.proc).adjust info free id op op.op).2 = none) :
    ((s.forget i).settle pick w
      (Sem.attempt info free id nsems w.ops ((s.forget i).state w.proc))).Inv info nsems := by
  by_cases htake : nsems = 1 ∧ ∃ op, w.ops = [op] ∧ op.op = -1 ∧ 1 ≤ s.vals op.num
  · obtain ⟨hone, op, hops, hop, hval⟩ := htake
    exact h.take hfit hi hops hop hval (hadj hone op hops hop hval)
  · have hforget : (s.forget i).Inv info nsems := by
      apply h.forget hi
      intro hone n hunit
      obtain ⟨op, hops, rfl, hop⟩ := unit_iff.1 hunit
      by_contra hval
      exact htake ⟨hone, op, hops, hop, by omega⟩
    exact hforget.attempt hfit ⟨htame.zeroFirst, htame.alone⟩ free id pick

/-! ### Interrupts -/

/-- One sleeper or one woken process less, and the counts as `semop` leaves them. -/
theorem System.Inv.eintr (h : s.Inv info nsems)
    (hlen : (s.binary && nsems = 1) = true → ∀ n, cv = ⟨n, .ncnt⟩ →
      (s.queues.queue cv).length ≤ (s.sem n).semncnt - 1) :
    (s.eintr pick cv).Inv info nsems := by
  have hval : ∀ x n, (update s.sem cv.num ((s.sem cv.num).setCount x cv.kind) n).semval =
      s.vals n := by
    intro x n
    by_cases hn : n = cv.num
    · subst hn
      rw [update_self]
      cases cv.kind <;> rfl
    · rw [update_of_ne hn]
      rfl
  rw [System.eintr]
  split_ifs with hcount
  · refine ⟨fun n => ?_, h.undo, h.counted.broadcast pick cv, ?_⟩
    · rw [System.vals, hval]
      exact h.val n
    · exact h.waiting.broadcast pick cv (fun n _ => (hval 0 n).le) fun n _ hn => by
        rw [System.vals, hval]
        exact hn
  · have hnum := count_update s.sem cv.num ((s.sem cv.num).count cv.kind - 1) cv.kind
    refine ⟨fun n => ?_, h.undo, .intro ?_ ?_ h.counted.unit h.counted.woken, ?_⟩
    · rw [System.vals, hval]
      exact h.val n
    · intro cv' h0
      rw [hnum] at h0
      split_ifs at h0 with heq
      · omega
      · exact h.counted.nil h0
    · intro hbt n
      have hn := hnum n .ncnt
      by_cases heq : n = cv.num ∧ Kind.ncnt = cv.kind
      · rw [if_pos heq] at hn
        obtain ⟨m, k⟩ := cv
        obtain ⟨rfl, rfl⟩ := heq
        exact (hlen hbt n rfl).trans hn.ge
      · rw [if_neg heq] at hn
        exact (h.counted.all hbt n).trans hn.ge
    · exact h.waiting.mono (.refl _) (fun n _ => (hval _ n).le) fun n _ hn => by
        rw [System.vals, hval]
        exact hn

theorem System.Inv.interrupt {i : ℕ} (h : s.Inv info nsems)
    (hi : (s.queues.queue cv)[i]? = some w) :
    (System.eintr pick cv { s with queues := { s.queues with
      queue := update s.queues.queue cv ((s.queues.queue cv).eraseIdx i) } }).Inv info nsems := by
  obtain ⟨hlt, -⟩ := List.getElem?_eq_some_iff.1 hi
  have hwoke : Woke s.queues { s.queues with
      queue := update s.queues.queue cv ((s.queues.queue cv).eraseIdx i) } :=
    ⟨sublist_update (List.eraseIdx_sublist _ _), fun _ h => .inl h, fun _ => le_rfl⟩
  apply System.Inv.eintr
  · exact ⟨h.val, h.undo, h.counted.woke hwoke fun _ _ => rfl,
      h.waiting.mono hwoke (fun _ _ => le_rfl) fun _ _ hn => hn⟩
  · rintro hbt n rfl
    have hall := h.counted.all hbt n
    simp only [update_self, List.length_eraseIdx_of_lt hlt]
    omega

theorem System.Inv.interruptWoken {i : ℕ} (h : s.Inv info nsems)
    (hi : s.queues.woken[i]? = some (cv, w)) (hunit : nsems = 1 → ∀ n, w.unit n = false) :
    ((s.forget i).eintr pick cv).Inv info nsems := by
  apply System.Inv.eintr
  · apply h.forget hi
    intro hone n hn
    simp [hunit hone n] at hn
  · rintro hbt n rfl
    have htrue := h.counted.woken hbt n w (List.mem_of_getElem? hi)
    rw [Bool.and_eq_true, decide_eq_true_eq] at hbt
    simp [hunit hbt.2 n] at htrue

/-! ### Exits -/

theorem System.Inv.exitTo (h : s.Inv info nsems) (e : UndoEnt) {x : ℤ}
    (hx : x = s.vals e.num + e.aoe) (h0 : 0 ≤ x) (hmax : x ≤ info.semvmx) :
    (s.exitTo pick e x).Inv info nsems := by
  have hwoke : Woke s.queues (s.exitTo pick e x).queues := woke_wakeAll pick s.queues _
  have hvals : (s.exitTo pick e x).vals = update s.vals e.num x := by
    funext n
    by_cases hn : n = e.num
    · subst hn
      simp [System.vals, System.exitTo]
    · simp [System.vals, System.exitTo, hn]
  -- where somebody still sleeps there was no broadcast, so the count is as it was
  have hzcnt : (s.exitTo pick e x).queues.queue ⟨e.num, .zcnt⟩ ≠ [] →
      ¬ (x = 0 ∧ (s.sem e.num).semzcnt ≠ 0) := by
    intro hnil hzero
    apply hnil
    apply wakeAll_broadcast
    simp [hzero]
  have hncnt : (s.exitTo pick e x).queues.queue ⟨e.num, .ncnt⟩ ≠ [] →
      ¬ (0 < e.aoe ∧ (s.sem e.num).semncnt ≠ 0) := by
    intro hnil hlarger
    apply hnil
    apply wakeAll_broadcast
    simp [hlarger]
  have hcounted : Counted (s.exitTo pick e x).sem (s.binary && nsems = 1)
      (s.exitTo pick e x).queues := by
    refine h.counted.woke hwoke ?_
    rintro ⟨n, kind⟩ hnil
    by_cases hn : n = e.num
    · subst hn
      cases kind with
      | ncnt => simp [System.exitTo, Sema.count, if_neg (hncnt hnil)]
      | zcnt => simp [System.exitTo, Sema.count, if_neg (hzcnt hnil)]
    · simp [System.exitTo, hn]
  refine ⟨?_, h.undo, hcounted, h.waiting.mono hwoke ?_ ?_⟩
  · intro n
    rw [hvals]
    by_cases hn : n = e.num
    · rw [hn, update_self]
      exact ⟨h0, hmax⟩
    · rw [update_of_ne hn]
      exact h.val n
  · intro n hnil
    rw [hvals]
    by_cases hn : n = e.num
    · subst hn
      rw [update_self]
      by_contra hlt
      refine hncnt hnil ⟨by omega, fun hz => ?_⟩
      have hsub := hwoke.sublist ⟨e.num, .ncnt⟩
      rw [h.counted.ncnt _ hz] at hsub
      exact hnil (List.sublist_nil.1 hsub)
    · rw [update_of_ne hn]
  · intro n hnil hne
    rw [hvals]
    by_cases hn : n = e.num
    · subst hn
      rw [update_self]
      intro hzero
      refine hzcnt hnil ⟨hzero, fun hz => ?_⟩
      have hsub := hwoke.sublist ⟨e.num, .zcnt⟩
      rw [h.counted.zcnt _ hz] at hsub
      exact hnil (List.sublist_nil.1 hsub)
    · rw [update_of_ne hn]
      exact hne

/-! ### Runs -/

/-- No wait for zero follows operations of its own call that change the value. On a set of one
semaphore, a call that takes something does nothing else while the set is binary, and a process
that was woken for one unit is not interrupted before it runs and does not fail for want of an
undo entry. -/
def Event.safe (info : Seminfo) (id : ℤ) (nsems : ℕ) (s : System) (free : Bool) : Event → Prop
  | .call w _ => Tame nsems s w.ops
  | .resume i => ∀ x, s.queues.woken[i]? = some x → Tame nsems s x.2.ops ∧
      (nsems = 1 → ∀ op, x.2.ops = [op] → op.op = -1 → 1 ≤ s.vals op.num →
        ((s.state x.2.proc).adjust info free id op op.op).2 = none)
  | .interruptWoken i => ∀ x, s.queues.woken[i]? = some x → nsems = 1 → ∀ n, x.2.unit n = false
  | _ => True

theorem Entries.dropLast {l : List UndoEnt} (h : Entries info l) : Entries info l.dropLast :=
  have hsub : l.dropLast.Sublist l := List.dropLast_sublist l
  ⟨h.sorted.sublist hsub, fun e he => h.nonzero e (hsub.subset he),
    fun e he => h.range e (hsub.subset he), hsub.length_le.trans h.room⟩

theorem System.Inv.setUndo (h : s.Inv info nsems) (p : ℕ) {u : Option (List UndoEnt)}
    (hu : Entries info (u.getD [])) :
    System.Inv info nsems { s with undo := update s.undo p u } := by
  refine ⟨h.val, ?_, h.counted, h.waiting⟩
  intro p'
  by_cases hp : p' = p
  · rw [hp]
    simpa using hu
  · simpa [hp] using h.undo p'

theorem System.Inv.exitEntry (h : s.Inv info nsems) (id : ℤ) (pick : Pick) (e : UndoEnt) :
    (s.exitEntry info id pick e).Inv info nsems ∧ (s.exitEntry info id pick e).undo = s.undo := by
  rw [System.exitEntry]
  split_ifs with hskip
  · exact ⟨h, rfl⟩
  · simp only [not_or, not_lt] at hskip
    exact ⟨h.exitTo e rfl hskip.2.1 hskip.2.2, rfl⟩

theorem System.Inv.exec {e : Event} (hfit : info.Fits) (h : s.Inv info nsems)
    (hsafe : e.safe info id nsems s free)
    (hexec : s.exec info id nsems free pick e = some t) : t.Inv info nsems := by
  cases e with
  | call w access =>
    cases hexec
    exact h.call hfit hsafe free id pick access
  | resume i =>
    obtain ⟨⟨cv, w⟩, hi, hexec⟩ := Option.bind_eq_some_iff.1 hexec
    cases hexec
    obtain ⟨htame, hadj⟩ := hsafe _ hi
    exact h.resume hfit hi htame hadj
  | interrupt cv i =>
    obtain ⟨w, hi, hexec⟩ := Option.bind_eq_some_iff.1 hexec
    cases hexec
    exact h.interrupt hi
  | interruptWoken i =>
    obtain ⟨⟨cv, w⟩, hi, hexec⟩ := Option.bind_eq_some_iff.1 hexec
    cases hexec
    exact h.interruptWoken hi (hsafe _ hi)
  | exitEntry p =>
    obtain ⟨ents, hents, hexec⟩ := Option.bind_eq_some_iff.1 hexec
    obtain ⟨e, he, hexec⟩ := Option.bind_eq_some_iff.1 hexec
    cases hexec
    obtain ⟨hinv, hundo⟩ := h.exitEntry id pick e
    have hold := h.undo p
    rw [hents] at hold
    rw [← hundo]
    exact hinv.setUndo p hold.dropLast
  | exitDone p =>
    cases hexec
    exact h.setUndo p ⟨List.Pairwise.nil, by simp, by simp, Nat.zero_le _⟩

theorem Reachable.inv (hfit : info.Fits)
    (h : Reachable info id nsems (fun s free e => e.safe info id nsems s free) s) :
    s.Inv info nsems := by
  induction h with
  | init h => exact h.inv
  | step free pick e _ hsafe hexec ih => exact ih.exec hfit hsafe hexec

/-- In a run of safe events, when no woken process has still to run, nobody sleeps who could
go on. -/
theorem safe_run_not_stranded (hfit : info.Fits)
    (h : Reachable info id nsems (fun s free e => e.safe info id nsems s free) s)
    (hwoken : s.queues.woken = []) : ¬ s.Stranded info := by
  rintro ⟨cv, w, hw, hperforms⟩
  have hnot : performs info w.ops s.vals = false :=
    (h.inv hfit).waiting.not_performs hwoken hw
  exact Bool.false_ne_true (hnot.symm.trans hperforms)

/-- A set of one semaphore. -/
def fresh (x : ℤ) : System :=
  ⟨fun n => ⟨if n = 0 then x else 0, 0, 0⟩, true, fun _ => none, ⟨fun _ => [], []⟩⟩

theorem fresh_initial {x : ℤ} (h : 0 ≤ x) (h' : x ≤ 32767) : (fresh x).Initial seminfo := by
  refine ⟨?_, fun _ => ⟨rfl, rfl⟩, rfl, ?_, fun _ => rfl, rfl⟩
  · intro n
    simp only [fresh, seminfo]
    split_ifs <;> omega
  · intro p
    exact ⟨List.Pairwise.nil, by simp [fresh], by simp [fresh], Nat.zero_le _⟩

/-- A call of process `p` with these operations on the only semaphore. -/
def semopOf (p : ℕ) (ops : List ℤ) : Event :=
  .call ⟨p, ops.map fun x => ⟨0, x, false, false⟩⟩ fun _ => none

theorem tame_one (s : System) (x : ℤ) : Tame 1 s [⟨0, x, false, false⟩] := by
  refine ⟨?_, fun _ _ => .inl rfl⟩
  rintro pre op post hops -
  cases pre with
  | nil => rfl
  | cons op' pre => simp at hops

/-- Of two processes that wait, one is woken and takes the unit that a third one gives; the other
waits on. -/
theorem safe_run_not_stranded_woken :
    ∃ s, Reachable seminfo 7 1 (fun s free e => e.safe seminfo 7 1 s free) s ∧
      s.queues.queue ⟨0, .ncnt⟩ ≠ [] ∧ ¬ s.Stranded seminfo := by
  have h₀ : Reachable seminfo 7 1 (fun s free e => e.safe seminfo 7 1 s free) (fresh 0) :=
    .init (fresh_initial le_rfl (by decide))
  have h1 := h₀.step true (fun _ _ => 0) (semopOf 1 [-1]) (tame_one _ _) rfl
  have h2 := h1.step true (fun _ _ => 0) (semopOf 2 [-1]) (tame_one _ _) rfl
  have h3 := h2.step true (fun _ _ => 0) (semopOf 3 [1]) (tame_one _ _) rfl
  have h4 := h3.step true (fun _ _ => 0) (.resume 0) ?_ rfl
  · exact ⟨_, h4, by decide, safe_run_not_stranded seminfo_fits h4 (by decide)⟩
  · rintro x ⟨⟩
    refine ⟨tame_one _ _, ?_⟩
    rintro - op ⟨⟩ - -
    rfl

/-! ### Runs that strand a waiter -/

/-- A run in which every signal wakes the first sleeper; every event comes with the answer whether
there is a free undo structure. -/
def System.run (s : System) (events : List (Bool × Event)) : Option System :=
  events.foldlM (fun s e => s.exec seminfo 7 1 e.1 (fun _ _ => 0) e.2) s

theorem run_reachable {events : List (Bool × Event)}
    (h : Reachable seminfo 7 1 (fun _ _ _ => True) s) (hrun : s.run events = some t) :
    Reachable seminfo 7 1 (fun _ _ _ => True) t := by
  induction events generalizing s with
  | nil =>
    cases hrun
    exact h
  | cons e events ih =>
    simp only [System.run, List.foldlM_cons] at hrun
    obtain ⟨u, hu, hrest⟩ := Option.bind_eq_some_iff.1 hrun
    exact ih (h.step e.1 _ e.2 trivial hu) hrest

/-- All woken processes have run, and the first sleeper on a condition variable could go on. -/
def System.strands (s : System) (kind : Kind) : Bool :=
  s.queues.woken.isEmpty && match (s.queues.queue ⟨0, kind⟩).head? with
    | some w => performs seminfo w.ops fun n => (s.sem n).semval
    | none => false

theorem stranded_of_run {x : ℤ} (h : 0 ≤ x) (h' : x ≤ 32767) {events : List (Bool × Event)}
    (kind : Kind) (hrun : ((fresh x).run events).any (System.strands · kind) = true) :
    ∃ s, Reachable seminfo 7 1 (fun _ _ _ => True) s ∧ s.queues.woken = [] ∧
      s.Stranded seminfo := by
  obtain ⟨s, hs, hstrands⟩ := (Option.any_eq_true _ _).1 hrun
  simp only [System.strands, Bool.and_eq_true, List.isEmpty_iff] at hstrands
  refine ⟨s, run_reachable (.init (fresh_initial h h')) hs, hstrands.1, ?_⟩
  cases hhead : (s.queues.queue ⟨0, kind⟩).head? with
  | none =>
    rw [hhead] at hstrands
    cases hstrands.2
  | some w =>
    rw [hhead] at hstrands
    exact ⟨_, w, List.mem_of_head? hhead, hstrands.2⟩

/-- A process that waits for two units in two operations is woken for the one there is, and goes
back to sleep; the next sleeper would take one. -/
def twoOperations : List (Bool × Event) :=
  [(true, semopOf 1 [-1, -1]), (true, semopOf 2 [-1]), (true, semopOf 3 [1]), (true, .resume 0)]

/-- Two units are left when a process takes one and waits for zero; when somebody else has taken
the other one, it would find zero after its own operation. -/
def zeroAfterTaking : List (Bool × Event) := [(true, semopOf 1 [-1, 0]), (true, semopOf 2 [-1])]

/-- The process that was woken gets a signal before it runs. -/
def interruptedTaker : List (Bool × Event) :=
  [(true, semopOf 1 [-1]), (true, semopOf 2 [-1]), (true, semopOf 3 [-1]), (true, semopOf 4 [1]),
    (true, .interruptWoken 0)]

/-- There is no undo structure for the process that was woken. -/
def failedTaker : List (Bool × Event) :=
  [(false, .call ⟨1, [⟨0, -1, true, false⟩]⟩ fun _ => none), (false, semopOf 2 [-1]),
    (false, semopOf 3 [1]), (false, .resume 0)]

theorem waiters_stranded :
    (∃ s, Reachable seminfo 7 1 (fun _ _ _ => True) s ∧ s.queues.woken = [] ∧
      s.Stranded seminfo) ∧
    ((fresh 0).run twoOperations).any (System.strands · .ncnt) = true ∧
    ((fresh 2).run zeroAfterTaking).any (System.strands · .zcnt) = true ∧
    ((fresh 0).run interruptedTaker).any (System.strands · .ncnt) = true ∧
    ((fresh 0).run failedTaker).any (System.strands · .ncnt) = true := by
  have hrun : ((fresh 0).run twoOperations).any (System.strands · .ncnt) = true := by
    decide +kernel
  exact ⟨stranded_of_run le_rfl (by decide) .ncnt hrun, hrun, by decide +kernel,
    by decide +kernel, by decide +kernel⟩

end Sol26.Sem
