import Sol26.Fd.Alloc

/-!
# References and wakeups under `dupdest`

Two things can go wrong when threads share descriptors. A `dupdest` onto a descriptor that
another thread has reserved is overwritten by the `setf` of that thread, and the file in the
slot is never closed. And the last `releasef` wakes one thread of all that wait on `p_flock`,
which may be closing another descriptor.
-/
namespace Sol26.Fd

open Option (bind_eq_bind bind_eq_some_iff)

/-- In every run in which no `dupdest` is for a reserved descriptor, the count of a file is the
number of slots and threads that hold it, so that it is 0 when all descriptors are closed. -/
theorem unreserved_run_fcount {s : State} (h : Reachable (fun s e => e.unreserved s) s) :
    (∀ fp, s.fcount fp = holders s.flist fp + s.refs.count fp + inHand s.sleepers fp) ∧
    ((∀ e ∈ s.flist, e.ofile = none) → s.refs = 0 → s.sleepers = 0 → ∀ fp, s.fcount fp = 0) := by
  have hinv : Inv False s := h.inv fun _ _ hok => ⟨hok, False.elim⟩
  refine ⟨hinv.fcount, fun hnone hrefs hsl fp => ?_⟩
  have hzero : holders s.flist fp = 0 := by
    refine List.countP_eq_zero.mpr fun e he => ?_
    simp [hnone e he]
  rw [hinv.fcount, hzero, hrefs, hsl]
  rfl

/-- File 7 is open at descriptor 0 and is duped to descriptor 1 before it is closed there. -/
def duped : State where
  flist := [{ ofile := some 7 }, { ofile := some 7 }]
  limit := 4
  fcount := Function.update (fun fp => if fp = 7 then 1 else 0) 7 2

theorem duped_reachable : Reachable (fun s e => e.unreserved s ∧ e.counted s) duped := by
  refine .step (.step (.init heldBy_initial) (.hold 7) trivial ?_ rfl) (.dupdest 1 7)
    ⟨by decide, by decide, by simp [heldBy]⟩ ?_ rfl
  all_goals simp [Event.unreserved, Event.counted, heldBy]

theorem unreserved_run_fcount_duped : duped.fcount 7 = 2 ∧ holders duped.flist 7 = 2 := by
  have := (unreserved_run_fcount (duped_reachable.mono fun _ _ => And.left)).1 7
  exact ⟨by decide, by simpa [duped, inHand] using this.symm⟩

/-- In these runs, with no more calls of `getf` for a descriptor at a time than a `short` can count,
`uf_refcnt` is the number of those that have not been released, one thread at most reserves or
closes the descriptor, and `ufalloc` takes it for free exactly if it is not open and no thread has
to do with it. -/
theorem unreserved_run_slots {s : State}
    (h : Reachable (fun s e => e.unreserved s ∧ e.counted s) s) (fd : ℕ) :
    (s.slot fd).refcnt.toInt = s.gots.count fd ∧
    s.reservations.count fd + closers s.sleepers fd ≤ 1 ∧ dupping s.sleepers ≤ 1 ∧
    ((s.slot fd).free ↔ (s.slot fd).ofile = none ∧ fd ∉ s.gots ∧ fd ∉ s.reservations ∧
      closers s.sleepers fd = 0 ∧ dupers s.sleepers fd = 0) := by
  have hinv : Inv True s := h.inv fun _ _ hok => ⟨hok.1, fun _ => hok.2⟩
  have hint := (hinv.slot fd).refcnt_toInt trivial
  obtain ⟨-, hres, hclose, hdup, -, hbusy, -⟩ := hinv.slot fd
  have hone := Bool.toNat_le (s.slot fd).reserved
  refine ⟨hint, by omega, hinv.dup, ?_⟩
  rw [Entry.free, ← Multiset.count_eq_zero, ← Multiset.count_eq_zero]
  constructor
  · rintro ⟨hnone, hr, hr2⟩
    rw [hr, Bool.toNat_false] at hres
    rw [hr2, Bool.toNat_false] at hdup
    have hnot : ¬ 0 < s.gots.count fd := by
      intro hpos
      have hc := (hbusy trivial hpos).resolve_left fun hne => hne hnone
      rw [hc, Bool.toNat_true] at hclose
      omega
    exact ⟨hnone, by omega, by omega, by omega, hdup⟩
  · rintro ⟨hnone, _, hr, hc, hd⟩
    exact ⟨hnone, Bool.toNat_eq_zero.mp (by omega), Bool.toNat_eq_zero.mp (by omega)⟩

theorem unreserved_run_slots_duped : ¬ (duped.slot 1).free ∧ (duped.slot 2).free := by
  have hfree := fun fd => (unreserved_run_slots duped_reachable fd).2.2.2
  exact ⟨by rw [hfree]; decide, (hfree 2).mpr (by decide)⟩

/-- One thread reserves descriptor 1 for file 8, another one dups file 7 onto it, and the first
one sets it: nothing holds the second reference to file 7. -/
def overwritten : State where
  flist := [{ ofile := some 7 }, { ofile := some 8 }]
  limit := 4
  fcount := Function.update (Function.update (fun fp => if fp = 7 then 1 else 0) 7 2) 8 1

theorem reserved_dupdest_loses_file :
    Reachable (fun _ _ => True) overwritten ∧ overwritten.fcount 7 ≠
      holders overwritten.flist 7 + overwritten.refs.count 7 + inHand overwritten.sleepers 7 := by
  refine ⟨?_, by decide⟩
  exact .step (.step (.step (.step (.step (.init heldBy_initial) (.ufalloc 0) trivial trivial rfl)
    (.hold 7) trivial trivial rfl) (.dupdest 1 7)
    ⟨by decide, by decide, by simp [State.update, heldBy]⟩ trivial rfl)
    (.hold 8) trivial trivial rfl) (.setf 1 (some 8)) ⟨by decide, by simp⟩ trivial rfl

/-! ### Wakeups -/

/-- The operations on open descriptors. -/
def Event.shared : Event → Prop
  | .ufalloc _ => False
  | .setf _ _ => False
  | _ => True

/-- The thread that the last `releasef` wakes is the one that closes this descriptor. -/
def Event.wakesCloser (s : State) : Event → Prop
  | .releasef fd (some t) => (s.slot fd).closing = true → (s.slot fd).refcnt = 1 →
    t.wait.closes = some fd
  | _ => True

/-- A thread that sleeps on `p_flock` waits for a descriptor that is in use. -/
def Awaited (s : State) : Prop :=
  ∀ t ∈ s.sleepers, t.asleepOn .flock → ∀ fd, t.wait.closes = some fd → (s.slot fd).refcnt ≠ 0

/-- A step that changes no reference count and no reservation, and after which no thread sleeps
that has nothing to wait for. -/
structure Quiet (s s' : State) : Prop where
  reservations : s'.reservations = s.reservations
  refcnt : ∀ j, (s'.slot j).refcnt = (s.slot j).refcnt
  asleep : ∀ t ∈ s'.sleepers, t.woken = false → t ∈ s.sleepers ∨
    ∀ fd, t.wait.closes = some fd → (s.slot fd).refcnt ≠ 0

section Quiet

variable {s s' s'' : State} {fd fp : ℕ} {e : Entry} {f : Entry → Entry} {who : Option Sleeper}

theorem Quiet.awaited (h : Quiet s s') (ha : Awaited s) : Awaited s' := by
  intro t ht hon fd hc
  rw [h.refcnt]
  rcases h.asleep t ht hon.2 with hold | hnew
  · exact ha t hold hon fd hc
  · exact hnew fd hc

theorem Quiet.trans (h : Quiet s s') (h' : Quiet s' s'') : Quiet s s'' := by
  refine ⟨h'.reservations.trans h.reservations, fun j => (h'.refcnt j).trans (h.refcnt j),
    fun t ht hw => ?_⟩
  rcases h'.asleep t ht hw with ht | hnew
  · exact h.asleep t ht hw
  · refine .inr fun fd hc => ?_
    rw [← h.refcnt]
    exact hnew fd hc

/-- An edit of one entry that keeps its reference count. -/
theorem Quiet.of_update (hfd : s.flist[fd]? = some e) (hf : (f e).refcnt = e.refcnt)
    {sleepers : Multiset Sleeper} {gots refs : Multiset ℕ}
    (hsl : ∀ t ∈ sleepers, t.woken = false → t ∈ s.sleepers ∨
      ∀ fd, t.wait.closes = some fd → (s.slot fd).refcnt ≠ 0) :
    Quiet s ⟨(s.update fd f).flist, s.limit, s.fcount, sleepers, gots, s.reservations, refs⟩ := by
  refine ⟨rfl, fun j => ?_, hsl⟩
  have hslot := slot_update hfd j (f := f)
  change (State.slot (State.update s fd f) j).refcnt = _
  rw [hslot]
  split_ifs with hj
  · rw [hj, slot_eq hfd, hf]
  · rfl

theorem asleep_wake {sleepers : Multiset Sleeper} {t : Sleeper} (ht : t ∈ wake sleepers who)
    (hw : t.woken = false) : t ∈ sleepers := by
  rcases mem_wake ht with ht | ⟨u, -, rfl⟩
  · exact ht
  · cases hw

theorem closeLoop_quiet (hs : s.closeLoop fd fp who = some s') : Quiet s s' := by
  unfold State.closeLoop at hs
  simp only [bind_eq_bind, bind_eq_some_iff] at hs
  obtain ⟨e, hfd, hs⟩ := hs
  by_cases hbusy : e.inUse = true
  · rw [if_pos hbusy] at hs
    cases hs
    refine Quiet.of_update hfd rfl fun t ht _ => ?_
    rcases Multiset.mem_cons.mp ht with rfl | ht
    · right
      intro fd' hc
      obtain rfl : fd = fd' := by simpa [Wait.closes] using hc
      rw [slot_eq hfd]
      exact e.refcnt_ne_zero hbusy
    · exact .inl ht
  · rw [if_neg hbusy] at hs
    cases hs
    refine Quiet.of_update hfd rfl fun t ht hw => .inl ?_
    split_ifs at ht
    · exact asleep_wake ht hw
    · exact ht

theorem install_quiet (hs : s.install fd fp = some s') : Quiet s s' := by
  unfold State.install at hs
  simp only [bind_eq_bind, bind_eq_some_iff, Option.some.injEq] at hs
  obtain ⟨e, hfd, rfl⟩ := hs
  exact Quiet.of_update hfd rfl fun t ht _ => .inl ht

theorem dupLoop_quiet {fp2 : ℕ} (hs : s.dupLoop fd fp fp2 = some s') : Quiet s s' := by
  unfold State.dupLoop at hs
  simp only [bind_eq_bind, bind_eq_some_iff] at hs
  obtain ⟨e, hfd, hs⟩ := hs
  split_ifs at hs with hbusy
  · cases hs
    refine ⟨rfl, fun j => rfl, fun t ht _ => ?_⟩
    rcases Multiset.mem_cons.mp ht with rfl | ht
    · right
      intro fd' hc
      obtain rfl : fd = fd' := by simpa [Wait.closes] using hc
      rw [slot_eq hfd]
      exact e.refcnt_ne_zero hbusy
    · exact .inl ht
  · simp only [bind_eq_some_iff, Option.some.injEq] at hs
    obtain ⟨s1, hinst, rfl⟩ := hs
    obtain ⟨h1, h2, h3⟩ := install_quiet hinst
    exact ⟨h1, h2, h3⟩

theorem dupdest_quiet (hs : s.dupdest fd fp = some s') : Quiet s s' := by
  unfold State.dupdest at hs
  dsimp only at hs
  split at hs
  · simp only [bind_eq_bind, bind_eq_some_iff] at hs
    obtain ⟨s1, hgrow, hs⟩ := hs
    obtain ⟨n, rfl⟩ := flistRealloc_spec hgrow
    refine Quiet.trans ?_ (install_quiet hs)
    refine ⟨rfl, fun j => ?_, fun t ht _ => .inl ht⟩
    exact congrArg Entry.refcnt (slot_grow n j)
  · rename_i ufp hfd
    split at hs
    · exact Quiet.trans (Quiet.of_update hfd rfl fun t ht _ => .inl ht) (dupLoop_quiet hs)
    · split_ifs at hs
      · cases hs
        refine Quiet.of_update hfd rfl fun t ht _ => ?_
        rcases Multiset.mem_cons.mp ht with rfl | ht
        · exact .inr fun fd' hc => by simp [Wait.closes] at hc
        · exact .inl ht
      · exact Quiet.trans (Quiet.of_update hfd rfl fun t ht _ => .inl ht) (install_quiet hs)

theorem getandset_quiet (hs : s.getandset fd who = some s') : Quiet s s' := by
  have hself : Quiet s s := ⟨rfl, fun j => rfl, fun t ht _ => .inl ht⟩
  unfold State.getandset at hs
  split at hs
  · exact Option.some.inj hs ▸ hself
  · rename_i pufe hfd
    split at hs
    · exact Option.some.inj hs ▸ hself
    · exact Quiet.trans (Quiet.of_update hfd rfl fun t ht _ => .inl ht) (closeLoop_quiet hs)

theorem run_quiet {t : Sleeper} (hs : s.run t who = some s') : Quiet s s' := by
  have herase : Quiet s { s with sleepers := s.sleepers.erase t } :=
    ⟨rfl, fun j => rfl, fun u hu _ => .inl (Multiset.mem_of_mem_erase hu)⟩
  unfold State.run at hs
  dsimp only at hs
  split at hs
  · exact herase.trans (closeLoop_quiet hs)
  · exact herase.trans (dupLoop_quiet hs)
  · exact herase.trans (install_quiet hs)

/-- One descriptor has one thread that closes it. -/
theorem Inv.closer_unique {few : Prop} (h : Inv few s) {t u : Sleeper} (hu : u ∈ s.sleepers)
    (ht : t ∈ s.sleepers.erase u) (hcu : u.wait.closes = some fd) :
    t.wait.closes ≠ some fd := by
  intro hct
  obtain ⟨rest, hrest⟩ := Multiset.exists_cons_of_mem hu
  have hok := (h.slot fd).closing
  have := Bool.toNat_le (s.slot fd).closing
  rw [hrest, Multiset.erase_cons_head] at ht
  have hpos := closers_pos ht hct
  rw [hrest, closers_cons, if_pos hcu] at hok
  omega

/-- A descriptor that is being closed has no file, so that it is not got again. -/
theorem Awaited.getf {few : Prop} (h : Awaited s) (hinv : Inv few s) (fd : ℕ) :
    Awaited (s.getf fd) := by
  unfold State.getf
  split
  · exact h
  rename_i pufe hfd
  split_ifs with hnone
  · exact h
  intro t ht hon fd' hc
  change (State.slot (State.update s fd _) fd').refcnt ≠ 0
  rw [slot_update hfd]
  split_ifs with hj
  · subst hj
    have hres := (hinv.slotOk hfd).reserved
    rw [((hinv.slotOk hfd).opened hnone).1, Bool.toNat_false] at hres
    have : 0 < closers s.sleepers fd' := closers_pos ht hc
    omega
  · exact h t ht hon fd' hc

theorem Awaited.releasef {few : Prop} (h : Awaited s) (hinv : Inv few s)
    (hw : Signals s.sleepers .flock who) (hok : (Event.releasef fd who).wakesCloser s)
    (hs : s.releasef fd who = some s') : Awaited s' := by
  unfold State.releasef at hs
  simp only [bind_eq_bind, bind_eq_some_iff, Option.some.injEq] at hs
  obtain ⟨pufe, hfd, rfl⟩ := hs
  intro t ht hon fd' hc
  have hin : t ∈ s.sleepers := by
    dsimp only at ht
    split_ifs at ht
    · exact asleep_wake ht hon.2
    · exact ht
  have hpos := h t hin hon fd' hc
  change (State.slot (State.update s fd _) fd').refcnt ≠ 0
  rw [slot_update hfd]
  split_ifs with hj
  · subst hj
    rw [slot_eq hfd] at hpos
    -- the closer of this descriptor is asleep, so it has the flag and this was not the last use
    intro hlast
    dsimp only at hlast
    have hclosing : pufe.closing = true := by
      have hflag := (hinv.slotOk hfd).closing
      have := closers_pos hin hc
      have := Bool.toNat_le pufe.closing
      exact Bool.toNat_eq_one.mp (by omega)
    have hone : pufe.refcnt = 1 := by bv_omega
    dsimp only at ht
    rw [if_pos ⟨hclosing, hlast⟩] at ht
    cases who with
    | none => exact hw t hin hon
    | some u =>
      have hcu : u.wait.closes = some fd' := by
        apply hok
        · rw [slot_eq hfd, hclosing]
        · rw [slot_eq hfd, hone]
      simp only [wake, Multiset.mem_cons] at ht
      rcases ht with rfl | ht
      · cases hon.2
      · exact hinv.closer_unique hw.1 ht hcu hc
  · exact hpos

theorem Awaited.exec {few : Prop} (h : Awaited s) (hinv : Inv few s) {e : Event} (ha : e.Allowed s)
    (hsh : e.shared) (hok : e.wakesCloser s) (he : s.exec e = some s') : Awaited s' := by
  cases e with
  | ufalloc start | setf fd fp => exact absurd hsh id
  | getf fd => exact Option.some.inj he ▸ h.getf hinv fd
  | releasef fd who => exact h.releasef hinv ha.2 hok he
  | getandset fd who => exact (getandset_quiet he).awaited h
  | hold fp | closef fp => exact Option.some.inj he ▸ h
  | dupdest dest fp => exact (dupdest_quiet he).awaited h
  | run t who => exact (run_quiet he).awaited h

/-- Nobody reserves descriptors in these runs. -/
theorem shared_reservations {e : Event} (hsh : e.shared) (he : s.exec e = some s') :
    s'.reservations = s.reservations := by
  cases e with
  | ufalloc start | setf fd fp => exact absurd hsh id
  | getf fd =>
    cases he
    unfold State.getf
    split
    · rfl
    · split_ifs <;> rfl
  | releasef fd who =>
    simp only [State.exec, State.releasef, bind_eq_bind, bind_eq_some_iff, Option.some.injEq] at he
    obtain ⟨pufe, -, rfl⟩ := he
    rfl
  | getandset fd who => exact (getandset_quiet he).reservations
  | hold fp | closef fp => exact Option.some.inj he ▸ rfl
  | dupdest dest fp => exact (dupdest_quiet he).reservations
  | run t who => exact (run_quiet he).reservations

theorem Reachable.awaited (h : Reachable (fun s e => e.shared ∧ e.wakesCloser s) s) :
    s.reservations = 0 ∧ Inv False s ∧ Awaited s := by
  induction h with
  | init h => exact ⟨h.reservations, h.inv, by simp [Awaited, h.sleepers]⟩
  | step _ e ha hok he ih =>
    obtain ⟨h0, hinv, haw⟩ := ih
    refine ⟨(shared_reservations hok.1 he).trans h0, hinv.exec ha ?_ False.elim he,
      haw.exec hinv ha hok.1 hok.2 he⟩
    simp [Event.unreserved, h0]

end Quiet

/-- In every run in which the last `releasef` of a descriptor that is being closed wakes the
thread that closes it, no thread sleeps on `p_flock` for a descriptor that is not in use, and
none on `p_flock2` for a close that is done. -/
theorem wakesCloser_run_not_stranded {s : State}
    (h : Reachable (fun s e => e.shared ∧ e.wakesCloser s) s) :
    (∀ t ∈ s.sleepers, t.asleepOn .flock → ∀ fd, t.wait.closes = some fd →
      (s.slot fd).refcnt ≠ 0) ∧
    ∀ t ∈ s.sleepers, t.asleepOn .flock2 → ∀ dest, t.wait.dups = some dest →
      (s.slot dest).closing = true := by
  obtain ⟨-, hinv, haw⟩ := h.awaited
  refine ⟨haw, fun t ht hon dest hd => ?_⟩
  obtain ⟨wait, w⟩ := t
  obtain ⟨hcv, rfl⟩ : wait.on = .flock2 ∧ w = false := hon
  cases wait with
  | close | dupOpen => simp [Wait.on] at hcv
  | dupClosing dest' fp =>
    obtain rfl : dest' = dest := by simpa [Wait.dups] using hd
    exact (hinv.wait dest' fp false ht).1

/-- Two open descriptors, both got by some thread, that two threads are closing. -/
def twoClosing : State where
  flist := [{ refcnt := 1, reserved := true, closing := true },
    { refcnt := 1, reserved := true, closing := true }]
  limit := 4
  fcount := fun fp => if fp = 7 ∨ fp = 8 then 1 else 0
  sleepers := ([⟨.close 1 8, false⟩, ⟨.close 0 7, false⟩] : List Sleeper)
  gots := ([1, 0] : List ℕ)

theorem twoClosing_reachable (ok : State → Event → Prop)
    (hok : ∀ s fd who, ok s (.getf fd) ∧ ok s (.getandset fd who)) : Reachable ok twoClosing := by
  have hinit : Initial ⟨[{ ofile := some 7 }, { ofile := some 8 }], 4,
      fun fp => if fp = 7 ∨ fp = 8 then 1 else 0, 0, 0, 0, 0⟩ := by
    refine ⟨by decide, fun fp => ?_, rfl, rfl, rfl, rfl⟩
    by_cases h7 : fp = 7
    · simp [h7]
    · by_cases h8 : fp = 8
      · simp [h8]
      · simp [h7, h8, Ne.symm h7, Ne.symm h8]
  refine .step (.step (.step (.step (.init hinit) (.getf 0) trivial (hok _ 0 none).1 rfl) (.getf 1)
    trivial (hok _ 1 none).1 rfl) (.getandset 0 none) ?_ (hok _ 0 none).2 rfl)
    (.getandset 1 none) ?_ (hok _ 1 none).2 rfl
  · exact fun t ht => absurd ht (Multiset.notMem_zero t)
  · intro t ht hon
    obtain rfl := Multiset.mem_singleton.mp ht
    exact absurd hon.1 (by decide)

theorem wakesCloser_run_not_stranded_twoClosing :
    (twoClosing.slot 0).refcnt ≠ 0 ∧ (twoClosing.slot 1).refcnt ≠ 0 := by
  have hr := twoClosing_reachable (fun s e => e.shared ∧ e.wakesCloser s)
    fun _ _ _ => ⟨⟨trivial, trivial⟩, trivial, trivial⟩
  obtain ⟨h, -⟩ := wakesCloser_run_not_stranded hr
  exact ⟨h ⟨.close 0 7, false⟩ (by decide) ⟨rfl, rfl⟩ 0 rfl,
    h ⟨.close 1 8, false⟩ (by decide) ⟨rfl, rfl⟩ 1 rfl⟩

/-- Descriptor 0 is released for the last time, the thread that closes descriptor 1 is woken and
goes back to sleep: the thread that closes descriptor 0 sleeps for ever. -/
def stranded : State where
  flist := [{ refcnt := 0, reserved := true, closing := true },
    { refcnt := 1, reserved := true, closing := true }]
  limit := 4
  fcount := fun fp => if fp = 7 ∨ fp = 8 then 1 else 0
  sleepers := ([⟨.close 1 8, false⟩, ⟨.close 0 7, false⟩] : List Sleeper)
  gots := ([1] : List ℕ)

theorem shared_run_stranded :
    Reachable (fun _ e => e.shared) stranded ∧ (∀ t ∈ stranded.sleepers, t.woken = false) ∧
      ∃ t ∈ stranded.sleepers, t.asleepOn .flock ∧ t.wait.closes = some 0 ∧
        (stranded.slot 0).refcnt = 0 := by
  refine ⟨?_, by decide, ⟨.close 0 7, false⟩, by decide, ⟨rfl, rfl⟩, rfl, rfl⟩
  have hr := twoClosing_reachable (fun _ e => e.shared) fun _ _ _ => ⟨trivial, trivial⟩
  refine .step (.step hr (.releasef 0 (some ⟨.close 1 8, false⟩)) ?_ trivial rfl)
    (.run ⟨.close 1 8, true⟩ none) ?_ trivial rfl
  · exact ⟨by decide, by decide, rfl, rfl⟩
  · refine ⟨by decide, rfl, ?_⟩
    intro t ht hon
    have hcases : t = ⟨.close 1 8, true⟩ ∨ t = ⟨.close 0 7, false⟩ := by
      simpa [wake, twoClosing, State.update] using ht
    rcases hcases with rfl | rfl
    · cases hon.1
    · cases hon.1

end Sol26.Fd
