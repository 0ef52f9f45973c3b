import Sol26.Inherit.Queues

/-!
# The records of inherited priorities

The ring of a thread has the records of which it is the beneficiary, all above its assigned
priority, and its effective priority is at least as high as all of them. What adding a record and
taking one away do to the rings and to the priorities.
-/
namespace Sol26.Inherit

open Rings Function

variable {T O : Type} {s s' : System T O} {rings : T → List O} {t b : T} {x y : O}

/-- The rings of the threads are `rings`. -/
structure Records (s : System T O) (rings : T → List O) : Prop where
  ring : ∀ t, Ring s.forw s.back (rings t)
  nodup : ∀ t, (rings t).Nodup
  head : ∀ t, (s.threads t).prioinv = (rings t).head?
  mem : ∀ t x, x ∈ rings t ↔ (s.sobjs x).benef = some t
  low : ∀ t x, (s.sobjs x).benef = some t → (s.threads t).pri < (s.sobjs x).epriHi
  high : ∀ t x, (s.sobjs x).benef = some t → (s.sobjs x).epriHi ≤ (s.threads t).epri
  unset : ∀ t, rings t = [] → (s.threads t).epri = 0

/-- Only what the thread `b` inherits changes, with queues and records. -/
structure Touched (s s' : System T O) (b : T) : Prop where
  thread : ∀ t, t ≠ b → s'.threads t = s.threads t
  self : ∃ epri prioinv, s'.threads b = { s.threads b with epri, prioinv }
  sobj : ∀ x, ∃ sleepq benef epriHi, s'.sobjs x = { s.sobjs x with sleepq, benef, epriHi }

/-- The records of the other objects are the same. -/
def SameRecords (s s' : System T O) (x : O) : Prop :=
  ∀ y, y ≠ x → (s'.sobjs y).benef = (s.sobjs y).benef ∧ (s'.sobjs y).epriHi = (s.sobjs y).epriHi

theorem Touched.wchan (h : Touched s s' b) (t : T) : (s'.threads t).wchan = (s.threads t).wchan := by
  by_cases ht : t = b
  · obtain ⟨e, r, he⟩ := h.self
    rw [ht, he]
  · rw [h.thread t ht]

theorem Touched.pri (h : Touched s s' b) (t : T) : (s'.threads t).pri = (s.threads t).pri := by
  by_cases ht : t = b
  · obtain ⟨e, r, he⟩ := h.self
    rw [ht, he]
  · rw [h.thread t ht]

theorem Touched.owner (h : Touched s s' b) (x : O) : (s'.sobjs x).owner = (s.sobjs x).owner := by
  obtain ⟨_, _, _, he⟩ := h.sobj x
  rw [he]

theorem Touched.prio (h : Touched s s' b) (ht : t ≠ b) : s'.prio t = s.prio t := by
  unfold System.prio
  rw [h.thread t ht]

theorem Touched.waits (h : Touched s s' b) : s'.Waits = s.Waits := by
  ext w o
  unfold System.Waits
  simp only [h.wchan, h.owner]

theorem Records.congr (h : Records s rings)
    (hthreads : ∀ t, ∃ wchan, s'.threads t = { s.threads t with wchan })
    (hsobjs : ∀ x, ∃ owner sleepq, s'.sobjs x = { s.sobjs x with owner, sleepq })
    (hforw : s'.forw = s.forw) (hback : s'.back = s.back) : Records s' rings := by
  have hb : ∀ x, (s'.sobjs x).benef = (s.sobjs x).benef ∧
      (s'.sobjs x).epriHi = (s.sobjs x).epriHi := by
    intro x
    obtain ⟨o, sq, he⟩ := hsobjs x
    rw [he]
    exact ⟨rfl, rfl⟩
  have ht : ∀ t, (s'.threads t).pri = (s.threads t).pri ∧ (s'.threads t).epri = (s.threads t).epri ∧
      (s'.threads t).prioinv = (s.threads t).prioinv := by
    intro t
    obtain ⟨w, he⟩ := hthreads t
    rw [he]
    exact ⟨rfl, rfl, rfl⟩
  refine ⟨fun t => ?_, h.nodup, fun t => ?_, fun t x => ?_, fun t x hx => ?_, fun t x hx => ?_,
    fun t hr => ?_⟩
  · rw [hforw, hback]
    exact h.ring t
  · rw [(ht t).2.2]
    exact h.head t
  · rw [(hb x).1]
    exact h.mem t x
  · rw [(hb x).1] at hx
    rw [(ht t).1, (hb x).2]
    exact h.low t x hx
  · rw [(hb x).1] at hx
    rw [(ht t).2.1, (hb x).2]
    exact h.high t x hx
  · rw [(ht t).2.1]
    exact h.unset t hr

theorem Touched.trans {s'' : System T O} (h : Touched s s' b) (h' : Touched s' s'' b) :
    Touched s s'' b where
  thread t ht := (h'.thread t ht).trans (h.thread t ht)
  self := by
    obtain ⟨e, r, he⟩ := h.self
    obtain ⟨e', r', he'⟩ := h'.self
    exact ⟨e', r', by rw [he', he]⟩
  sobj x := by
    obtain ⟨sq, bf, hi, he⟩ := h.sobj x
    obtain ⟨sq', bf', hi', he'⟩ := h'.sobj x
    exact ⟨sq', bf', hi', by rw [he', he]⟩

theorem touched_refl (s : System T O) (b : T) : Touched s s b :=
  ⟨fun _ _ => rfl, ⟨_, _, rfl⟩, fun _ => ⟨_, _, _, rfl⟩⟩

/-- The effective priority counts when there is a record. -/
theorem Records.prio_eq (h : Records s rings) (hx : (s.sobjs x).benef = some t) :
    s.prio t = (s.threads t).epri := by
  have hlow := h.low t x hx
  have hhigh := h.high t x hx
  unfold System.prio Kthread.dispPrio
  rw [if_pos (by omega)]

/-- No record is on two rings. -/
theorem Records.disjoint (h : Records s rings) {a : T} (hx : x ∈ rings t) (ha : a ≠ t) :
    x ∉ rings a := by
  intro hx'
  have h1 := (h.mem t x).mp hx
  rw [(h.mem a x).mp hx'] at h1
  exact ha (Option.some.inj h1)

/-- The links of the cell that is taken out lead to cells of its ring. -/
theorem Records.links_mem (h : Records s rings) (hx : x ∈ rings b) :
    s.forw x ∈ rings b ∧ s.back x ∈ rings b := by
  refine ⟨(h.ring b).next_mem hx, ?_⟩
  obtain ⟨l1, l2, hl⟩ := List.append_of_mem hx
  have hring : Ring s.forw s.back (x :: (l2 ++ l1)) := by
    have hr := h.ring b
    rw [hl] at hr
    exact hr.rotate
  obtain ⟨l0, y, hy⟩ : ∃ l0 y, x :: (l2 ++ l1) = l0 ++ [y] := by
    have := List.eq_nil_or_concat (x :: (l2 ++ l1))
    simpa [List.concat_eq_append] using this
  have hring' : Ring s.forw s.back (l0 ++ [y]) := hy ▸ hring
  rw [(hring'.last hy.symm).2]
  have hmem : y ∈ x :: (l2 ++ l1) := by simp [hy]
  rw [hl]
  simp only [List.mem_cons, List.mem_append] at hmem ⊢
  tauto

theorem Records.pri_le (h : Records s rings) (t : T) : (s.threads t).pri ≤ s.prio t := by
  cases hr : rings t with
  | nil =>
    unfold System.prio Kthread.dispPrio
    rw [h.unset t hr]
    simp
  | cons x l =>
    have hx := (h.mem t x).mp (by rw [hr]; exact List.mem_cons_self)
    rw [h.prio_eq hx]
    exact (h.low t x hx).le.trans (h.high t x hx)

theorem touched_setSobj [DecidableEq O] (s : System T O) (b : T) (x : O) (benef : Option T)
    (epriHi : ℕ) :
    Touched s (s.setSobj x { s.sobjs x with benef, epriHi }) b where
  thread _ _ := rfl
  self := ⟨_, _, rfl⟩
  sobj y := by
    by_cases hy : y = x
    · subst hy
      exact ⟨_, _, _, setSobj_self ..⟩
    · exact ⟨_, _, _, setSobj_of_ne _ _ hy⟩

theorem setSobj_sleepq [DecidableEq O] {o : Sobj T} (h : o.sleepq = (s.sobjs x).sleepq) (y : O) :
    ((s.setSobj x o).sobjs y).sleepq = (s.sobjs y).sleepq := by
  by_cases hy : y = x
  · rw [hy, setSobj_self, h]
  · rw [setSobj_of_ne _ _ hy]

/-- The loop goes around the ring and takes the highest record. -/
theorem calcpriLoop_spec [DecidableEq O] {l : List O} (p : O) {n dpri : ℕ}
    (hchain : List.IsChain (fun a b => s.forw a = b ∧ s.back b = a) (p :: (l ++ [x])))
    (hx : x ∉ l) (hn : l.length < n) :
    ∃ e, s.calcpriLoop x n p dpri = some e ∧ dpri ≤ e ∧ ∀ y ∈ p :: l, (s.sobjs y).epriHi ≤ e := by
  induction l generalizing p n dpri with
  | nil =>
    obtain ⟨n, rfl⟩ := Nat.exists_eq_add_one_of_ne_zero (by omega : n ≠ 0)
    have hfx := (List.isChain_cons_cons.mp hchain).1.1
    refine ⟨max dpri (s.sobjs p).epriHi, ?_, le_max_left _ _, ?_⟩
    · rw [System.calcpriLoop]
      exact if_pos hfx
    · simp
  | cons y l ih =>
    obtain ⟨n, rfl⟩ := Nat.exists_eq_add_one_of_ne_zero (by omega : n ≠ 0)
    rw [List.cons_append, List.isChain_cons_cons] at hchain
    have hyx : y ≠ x := fun he => hx (he ▸ List.mem_cons_self)
    obtain ⟨e, he, hle, hall⟩ := @ih y n (max dpri (s.sobjs p).epriHi) hchain.2
      (fun hin => hx (List.mem_cons_of_mem _ hin)) (by simpa using hn)
    refine ⟨e, ?_, (le_max_left _ _).trans hle, fun z hz => ?_⟩
    · rw [System.calcpriLoop, hchain.1.1, if_neg hyx]
      exact he
    · rcases List.mem_cons.mp hz with rfl | hz
      · exact (le_max_right _ _).trans hle
      · exact hall z hz

/-- The ring of the beneficiary without the record. -/
theorem Records.ring_erase [DecidableEq O] (h : Records s rings) (hx : x ∈ rings b) :
    (s.forw x = x ↔ rings b = [x]) ∧
      (s.forw x ≠ x → Ring (removeNext s.forw s.back x) (removePrev s.forw s.back x)
        ((rings b).erase x) ∧
        ((rings b).erase x).head? =
          if (s.threads b).prioinv = some x then some (s.forw x) else (s.threads b).prioinv) := by
  obtain ⟨l1, l2, hl⟩ := List.append_of_mem hx
  have hnd : (l1 ++ x :: l2).Nodup := hl ▸ h.nodup b
  have hring : Ring s.forw s.back (x :: (l2 ++ l1)) := by
    have hr := h.ring b
    rw [hl] at hr
    exact hr.rotate
  have hperm : (x :: l2 ++ l1).Perm (l1 ++ x :: l2) := List.perm_append_comm
  have hnd' : (x :: (l2 ++ l1)).Nodup := hperm.nodup_iff.mpr hnd
  have hx1 : x ∉ l1 := fun hin => List.disjoint_of_nodup_append hnd hin List.mem_cons_self
  have herase : (rings b).erase x = l1 ++ l2 := by
    rw [hl, List.erase_append_right _ hx1, List.erase_cons_head]
  cases hrest : l2 ++ l1 with
  | nil =>
    obtain ⟨rfl, rfl⟩ := List.append_eq_nil_iff.mp hrest
    rw [hrest, ring_singleton] at hring
    exact ⟨⟨fun _ => hl, fun _ => hring.1⟩, fun hne => absurd hring.1 hne⟩
  | cons y l =>
    rw [hrest] at hring hnd'
    have hs : Ring s.forw s.back ([] ++ x :: y :: l) := hring
    have hforw : s.forw x = y := hs.step.1
    have hyx : y ≠ x := fun he => (List.nodup_cons.mp hnd').1 (he ▸ List.mem_cons_self)
    refine ⟨⟨fun he => absurd (hforw.symm.trans he) hyx, fun he => ?_⟩, fun _ => ⟨?_, ?_⟩⟩
    · have hlen := congrArg List.length hrest
      rw [hl] at he
      have hlen' := congrArg List.length he
      simp only [List.length_append, List.length_cons, List.length_nil] at hlen hlen'
      omega
    · have hremove := hring.remove hnd'
      rw [← hrest] at hremove
      rw [herase]
      exact hremove.rotate
    · rw [herase, h.head, hl, hforw]
      cases l1 with
      | nil =>
        rw [List.append_nil] at hrest
        simp [hrest]
      | cons z l1 =>
        have hzx : z ≠ x := fun he => hx1 (he ▸ List.mem_cons_self)
        simp [hzx]

theorem calcpri_spec [DecidableEq O] [Fintype O] {l : List O} (hring : Ring s.forw s.back l)
    (hnd : l.Nodup) (dpri : ℕ) :
    ∃ e, s.calcpri l.head? dpri = some e ∧ dpri ≤ e ∧ ∀ y ∈ l, (s.sobjs y).epriHi ≤ e := by
  cases l with
  | nil => exact ⟨dpri, rfl, le_rfl, by simp⟩
  | cons x l =>
    have hcard : l.length < Fintype.card O := by
      have := hnd.length_le_card
      rw [List.length_cons] at this
      omega
    exact calcpriLoop_spec x (ring_cons.mp hring) (List.nodup_cons.mp hnd).1 hcard

variable [DecidableEq T] [DecidableEq O]

/-- The ring of one thread changes, with the record of one object. -/
theorem Records.replace (h : Records s rings) {l : List O}
    (hring : Ring s'.forw s'.back l)
    (hrings : ∀ a, a ≠ t → Ring s'.forw s'.back (rings a)) (hnd : l.Nodup)
    (htouch : Touched s s' t) (hhead : (s'.threads t).prioinv = l.head?)
    (hmem : ∀ y, y ∈ l ↔ (s'.sobjs y).benef = some t)
    (hx : ∀ a, a ≠ t → (s'.sobjs x).benef ≠ some a ∧ (s.sobjs x).benef ≠ some a)
    (hy : SameRecords s s' x)
    (hlow : x ∈ l → (s.threads t).pri < (s'.sobjs x).epriHi)
    (hhigh : ∀ y ∈ l, (s'.sobjs y).epriHi ≤ (s'.threads t).epri)
    (hnone : l = [] → (s'.threads t).epri = 0) : Records s' (update rings t l) := by
  have hself : update rings t l t = l := update_self ..
  have hne : ∀ a, a ≠ t → update rings t l a = rings a := fun a ha => update_of_ne ha ..
  have hother : ∀ y a, a ≠ t → ((s'.sobjs y).benef = some a ↔ (s.sobjs y).benef = some a) := by
    intro y a ha
    by_cases hyx : y = x
    · rw [hyx]
      exact iff_of_false (hx a ha).1 (hx a ha).2
    · rw [(hy y hyx).1]
  have hhi : ∀ y a, a ≠ t → (s.sobjs y).benef = some a →
      (s'.sobjs y).epriHi = (s.sobjs y).epriHi := by
    intro y a ha hb
    have hyx : y ≠ x := fun he => (hx a ha).2 (he ▸ hb)
    exact (hy y hyx).2
  refine ⟨fun a => ?_, fun a => ?_, fun a => ?_, fun a y => ?_, fun a y hb => ?_, fun a y hb => ?_,
    fun a hr => ?_⟩
  all_goals by_cases ha : a = t
  · rw [ha, hself]
    exact hring
  · rw [hne a ha]
    exact hrings a ha
  · rw [ha, hself]
    exact hnd
  · rw [hne a ha]
    exact h.nodup a
  · rw [ha, hself]
    exact hhead
  · rw [hne a ha, htouch.thread a ha]
    exact h.head a
  · rw [ha, hself]
    exact hmem y
  · rw [hne a ha, hother y a ha]
    exact h.mem a y
  · subst ha
    rw [htouch.pri]
    by_cases hyx : y = x
    · rw [hyx] at hb ⊢
      exact hlow ((hmem x).mpr hb)
    · rw [(hy y hyx).1] at hb
      rw [(hy y hyx).2]
      exact h.low a y hb
  · have hb' := (hother y a ha).mp hb
    rw [htouch.thread a ha, hhi y a ha hb']
    exact h.low a y hb'
  · subst ha
    exact hhigh y ((hmem y).mpr hb)
  · have hb' := (hother y a ha).mp hb
    rw [htouch.thread a ha, hhi y a ha hb']
    exact h.high a y hb'
  · subst ha
    rw [hself] at hr
    exact hnone hr
  · rw [hne a ha] at hr
    rw [htouch.thread a ha]
    exact h.unset a hr

theorem touched_changepri (s : System T O) (t : T) (epri : ℕ) : Touched s (s.changepri t epri) t where
  thread a ha := by rw [changepri_threads, update_of_ne ha]
  self := ⟨epri, (s.threads t).prioinv, by rw [changepri_threads, update_self]⟩
  sobj x := by
    obtain ⟨sq, he⟩ := changepri_sobjs s t epri x
    exact ⟨sq, (s.sobjs x).benef, (s.sobjs x).epriHi, he⟩

/-- The effective priority becomes `p` under a condition. -/
theorem changepri_if (s : System T O) (t : T) (p : ℕ) (c : Prop) [Decidable c] :
    ∃ s', (if c then s.changepri t p else s) = s' ∧ Touched s s' t ∧ s'.forw = s.forw ∧
      s'.back = s.back ∧
      s'.threads t = { s.threads t with epri := if c then p else (s.threads t).epri } ∧
      ∀ y, ∃ sleepq, s'.sobjs y = { s.sobjs y with sleepq } := by
  refine ⟨_, rfl, ?_⟩
  split_ifs
  · refine ⟨touched_changepri s t p, (changepri_forw s t p).1, (changepri_forw s t p).2, ?_,
      changepri_sobjs s t p⟩
    rw [changepri_threads, update_self]
  · exact ⟨touched_refl s t, rfl, rfl, rfl, fun y => ⟨_, rfl⟩⟩

/-- The effective priority after it was raised. -/
theorem raise_spec (s : System T O) (t : T) (p : ℕ) (hp : (s.threads t).pri < p) :
    Touched s (s.raise t p) t ∧ (s.raise t p).forw = s.forw ∧ (s.raise t p).back = s.back ∧
      p ≤ ((s.raise t p).threads t).epri ∧
      (s.threads t).epri ≤ ((s.raise t p).threads t).epri ∧
      ((s.raise t p).threads t).prioinv = (s.threads t).prioinv ∧
      ∀ y, ∃ sleepq, (s.raise t p).sobjs y = { s.sobjs y with sleepq } := by
  obtain ⟨s', hs', htouch, hforw, hback, hself, hsobjs⟩ := changepri_if s t p (s.prio t < p)
  unfold System.raise
  rw [hs', hself]
  unfold System.prio Kthread.dispPrio
  refine ⟨htouch, hforw, hback, ?_, ?_, rfl, hsobjs⟩
  all_goals
    dsimp only
    split_ifs <;> omega

/-- What `addPirec` changes. -/
theorem Records.addPirec_spec (h : Records s rings) (hx : (s.sobjs x).benef = none) (t : T) (p : ℕ) :
    Touched s (s.addPirec x t p) t ∧
      Ring (s.addPirec x t p).forw (s.addPirec x t p).back (rings t ++ [x]) ∧
      (∀ a, a ≠ t → Ring (s.addPirec x t p).forw (s.addPirec x t p).back (rings a)) ∧
      (s.addPirec x t p).sobjs = update s.sobjs x { s.sobjs x with epriHi := p, benef := some t } ∧
      (s.addPirec x t p).threads t = { s.threads t with prioinv := (rings t ++ [x]).head? } := by
  have hfree : ∀ {a y}, y ∈ rings a → y ≠ x := by
    rintro a y hy rfl
    simp [h.mem, hx] at hy
  have hthreads : ((s.setSobj x { s.sobjs x with epriHi := p, benef := some t }).threads t).prioinv =
      (rings t).head? := h.head t
  have htouch := touched_setSobj s t x (some t) p
  unfold System.addPirec
  dsimp only
  cases hr : rings t with
  | nil =>
    rw [hr, List.head?_nil] at hthreads
    rw [hthreads]
    refine ⟨htouch.trans ⟨fun a ha => setThread_of_ne _ _ ha, ⟨_, _, setThread_self ..⟩,
      fun y => ⟨_, _, _, rfl⟩⟩, ?_, fun a ha => ?_, rfl, ?_⟩
    · rw [List.nil_append, ring_singleton]
      exact ⟨update_self .., update_self ..⟩
    · exact (h.ring a).congr (fun y hy => update_of_ne (hfree hy) ..)
        fun y hy => update_of_ne (hfree hy) ..
    · exact setThread_self ..
  | cons q l =>
    rw [hr, List.head?_cons] at hthreads
    rw [hthreads]
    have hring := h.ring t
    have hnd := h.nodup t
    have hxt : x ∉ rings t := fun hmem => hfree hmem rfl
    rw [hr] at hring hnd hxt
    have hq : q ∈ rings t := by
      rw [hr]
      exact List.mem_cons_self
    -- the links change at `x`, at the first record and at the last one
    have hlast : s.back q ∈ rings t := by
      obtain ⟨l0, b, hl⟩ : ∃ l0 b, q :: l = l0 ++ [b] := by
        have := List.eq_nil_or_concat (q :: l)
        simpa [List.concat_eq_append] using this
      have hring' : Ring s.forw s.back (l0 ++ [b]) := hl ▸ hring
      rw [(hring'.last hl.symm).2, hr, hl]
      simp
    refine ⟨htouch.trans ⟨fun _ _ => rfl, ⟨_, _, rfl⟩, fun y => ⟨_, _, _, rfl⟩⟩,
      hring.insert hnd hxt, fun a ha => ?_, rfl, ?_⟩
    · apply (h.ring a).congr
      · intro y hy
        have h1 : y ≠ s.back q := fun he => h.disjoint hlast ha (he ▸ hy)
        exact (update_of_ne h1 ..).trans (update_of_ne (hfree hy) ..)
      · intro y hy
        have h1 : y ≠ q := fun he => h.disjoint hq ha (he ▸ hy)
        exact (update_of_ne h1 ..).trans (update_of_ne (hfree hy) ..)
    · have hhead : (s.threads t).prioinv = some q := by
        rw [h.head, hr]
        rfl
      have hthread : s.threads t = { s.threads t with prioinv := some q } := by rw [← hhead]
      exact hthread

theorem Queues.addPirec (h : Queues s) (x : O) (t : T) (p : ℕ) : Queues (s.addPirec x t p) := by
  unfold System.addPirec
  dsimp only
  split
  · apply h.congr
    · intro a
      by_cases ha : a = t
      · rw [ha]
        exact ⟨_, setThread_self ..⟩
      · exact ⟨_, setThread_of_ne _ _ ha⟩
    · exact setSobj_sleepq rfl
  · exact h.congr (fun a => ⟨_, rfl⟩) (setSobj_sleepq rfl)

/-- The ring of `t` becomes `l`, on which only the record of `x` is new or changed, and `t` is raised
to the priority of that record. -/
theorem Records.raises {s1 : System T O} {l : List O} {p : ℕ} (h : Records s rings)
    (htouch : Touched s s1 t) (hring : Ring s1.forw s1.back l)
    (hrings : ∀ a, a ≠ t → Ring s1.forw s1.back (rings a)) (hnd : l.Nodup)
    (hhead : (s1.threads t).prioinv = l.head?) (hepri : (s1.threads t).epri = (s.threads t).epri)
    (hl : ∀ y, y ∈ l ↔ y ∈ rings t ∨ y = x) (hx : ∀ a, a ≠ t → (s.sobjs x).benef ≠ some a)
    (hxb : (s1.sobjs x).benef = some t) (hy : SameRecords s s1 x) (hp : (s.threads t).pri < p)
    (hlow : (s.threads t).pri < (s1.sobjs x).epriHi)
    (hhigh : (s1.sobjs x).epriHi ≤ max (s.threads t).epri p) :
    Records (s1.raise t p) (update rings t l) ∧ Touched s (s1.raise t p) t ∧
      ((s1.raise t p).sobjs x).benef = some t ∧
      ((s1.raise t p).sobjs x).epriHi = (s1.sobjs x).epriHi ∧ SameRecords s (s1.raise t p) x := by
  obtain ⟨htouch', hforw, hback, hpe, hee, hinv, hsq⟩ := raise_spec s1 t p (by rwa [htouch.pri])
  generalize s1.raise t p = s' at *
  have hsame : ∀ y, (s'.sobjs y).benef = (s1.sobjs y).benef ∧
      (s'.sobjs y).epriHi = (s1.sobjs y).epriHi := by
    intro y
    obtain ⟨sq, he⟩ := hsq y
    rw [he]
    exact ⟨rfl, rfl⟩
  have hy' : SameRecords s s' x := fun y hne =>
    ⟨(hsame y).1.trans (hy y hne).1, (hsame y).2.trans (hy y hne).2⟩
  rw [hepri] at hee
  rw [(hsame x).1, (hsame x).2]
  refine ⟨?_, htouch.trans htouch', hxb, rfl, hy'⟩
  rw [← hforw, ← hback] at hring hrings
  apply h.replace hring hrings hnd (htouch.trans htouch') (hinv.trans hhead)
  · intro y
    rw [hl]
    by_cases hne : y = x
    · simp [hne, (hsame x).1, hxb]
    · rw [(hy' y hne).1, h.mem]
      simp [hne]
  · intro a ha
    rw [(hsame x).1, hxb]
    exact ⟨fun he => ha (Option.some.inj he).symm, hx a ha⟩
  · exact hy'
  · intro _
    rwa [(hsame x).2]
  · intro y hyl
    by_cases hne : y = x
    · rw [hne, (hsame x).2]
      exact hhigh.trans (max_le hee hpe)
    · rw [(hy' y hne).2]
      exact (h.high t y ((h.mem t y).mp (((hl y).mp hyl).resolve_right hne))).trans hee
  · rintro rfl
    exact absurd ((hl x).mpr (.inr rfl)) List.not_mem_nil

/-- The owner of an object with no record inherits a priority. -/
theorem Records.added (h : Records s rings) (hx : (s.sobjs x).benef = none) {p : ℕ}
    (hp : (s.threads t).pri < p) :
    let s' := (s.addPirec x t p).raise t p
    Records s' (update rings t (rings t ++ [x])) ∧ Touched s s' t ∧ (s'.sobjs x).benef = some t ∧
      p ≤ (s'.sobjs x).epriHi ∧ SameRecords s s' x := by
  obtain ⟨htouch, hring, hrings, hsobjs, hself⟩ := h.addPirec_spec hx t p
  have hxs : (s.addPirec x t p).sobjs x = { s.sobjs x with epriHi := p, benef := some t } := by
    rw [hsobjs, update_self]
  have hnd : (rings t ++ [x]).Nodup := by
    rw [List.nodup_append_comm, List.singleton_append, List.nodup_cons, h.mem, hx]
    exact ⟨nofun, h.nodup t⟩
  obtain ⟨hrec, htouch', hb, he, hy⟩ := h.raises (x := x) htouch hring hrings hnd (by rw [hself])
    (by rw [hself]) (by simp) (by simp [hx]) (by rw [hxs])
    (fun y hy => by rw [hsobjs, update_of_ne hy]; exact ⟨rfl, rfl⟩) hp (by rwa [hxs])
    (by rw [hxs]; exact le_max_right _ _)
  rw [hxs] at he
  exact ⟨hrec, htouch', hb, he.ge, hy⟩

/-- The record of an object is raised. -/
theorem Records.raised (h : Records s rings) (hx : (s.sobjs x).benef = some t) {p : ℕ}
    (hp : (s.threads t).pri < p) :
    let s' := System.raise (if (s.sobjs x).epriHi < p
      then s.setSobj x { s.sobjs x with epriHi := p } else s) t p
    Records s' (update rings t (rings t)) ∧ Touched s s' t ∧ (s'.sobjs x).benef = some t ∧
      (s'.sobjs x).epriHi = max (s.sobjs x).epriHi p ∧ SameRecords s s' x := by
  set s1 := if (s.sobjs x).epriHi < p then s.setSobj x { s.sobjs x with epriHi := p } else s with hs1
  have htouch : Touched s s1 t := by
    rw [hs1]
    split_ifs
    · exact touched_setSobj s t x _ _
    · exact touched_refl s t
  obtain ⟨hforw, hback, hthreads⟩ : s1.forw = s.forw ∧ s1.back = s.back ∧ s1.threads = s.threads := by
    rw [hs1]
    split_ifs <;> exact ⟨rfl, rfl, rfl⟩
  have hx1 : (s1.sobjs x).benef = some t ∧ (s1.sobjs x).epriHi = max (s.sobjs x).epriHi p := by
    rw [hs1]
    split_ifs with hlt
    · rw [setSobj_self]
      exact ⟨hx, (max_eq_right hlt.le).symm⟩
    · exact ⟨hx, (max_eq_left (not_lt.mp hlt)).symm⟩
  have hy1 : SameRecords s s1 x := by
    intro y hy
    rw [hs1]
    split_ifs
    · rw [setSobj_of_ne _ _ hy]
      exact ⟨rfl, rfl⟩
    · exact ⟨rfl, rfl⟩
  have hrings : ∀ a, Ring s1.forw s1.back (rings a) := by
    rw [hforw, hback]
    exact h.ring
  have hmem := (h.mem t x).mpr hx
  rw [← hx1.2]
  apply h.raises htouch (hrings t) (fun a _ => hrings a) (h.nodup t)
  · rw [hthreads]
    exact h.head t
  · rw [hthreads]
  · exact fun y => (or_iff_left_of_imp fun he => he ▸ hmem).symm
  · rw [hx]
    exact fun a ha he => ha (Option.some.inj he).symm
  · exact hx1.1
  · exact hy1
  · exact hp
  · rw [hx1.2]
    exact (h.low t x hx).trans_le (le_max_left _ _)
  · rw [hx1.2]
    exact max_le_max_right _ (h.high t x hx)

/-- The owner of an object inherits a priority above its own. -/
theorem Records.inherit (h : Records s rings) (hbenef : ∀ b, (s.sobjs x).benef = some b → b = t)
    {p : ℕ} (hp : (s.threads t).pri < p) :
    ∃ rings', Records (s.inherit x t p) rings' ∧ Touched s (s.inherit x t p) t ∧
      ((s.inherit x t p).sobjs x).benef = some t ∧ p ≤ ((s.inherit x t p).sobjs x).epriHi ∧
      ((s.sobjs x).benef = some t → (s.sobjs x).epriHi ≤ ((s.inherit x t p).sobjs x).epriHi) ∧
      SameRecords s (s.inherit x t p) x := by
  unfold System.inherit
  dsimp only
  by_cases hx : (s.sobjs x).benef = none
  · rw [if_neg (not_not.mpr hx)]
    obtain ⟨hrec, htouch, hxb, hxp, hy⟩ := h.added hx hp
    refine ⟨_, hrec, htouch, hxb, hxp, fun hb => ?_, hy⟩
    simp [hx] at hb
  · rw [if_pos hx]
    obtain ⟨b, hb⟩ := Option.ne_none_iff_exists'.mp hx
    obtain rfl := hbenef b hb
    obtain ⟨hrec, htouch, hxb, hxp, hy⟩ := h.raised hb hp
    refine ⟨_, hrec, htouch, hxb, ?_, fun _ => ?_, hy⟩
    · rw [hxp]
      exact le_max_right _ _
    · rw [hxp]
      exact le_max_left _ _

theorem Queues.inherit (h : Queues s) (x : O) (t : T) (p : ℕ) : Queues (s.inherit x t p) := by
  unfold System.inherit
  dsimp only
  apply Queues.raise
  split_ifs
  · apply h.congr
    · exact fun a => ⟨_, rfl⟩
    · exact setSobj_sleepq rfl
  · exact h
  · exact h.addPirec x t p

/-- The record of an object is off the ring of `b`, which is now `l`. -/
structure Unlinked (s s1 : System T O) (rings : T → List O) (b : T) (l : List O) : Prop where
  queues : Queues s1
  touched : Touched s s1 b
  sobj : ∀ y, ∃ sleepq, s1.sobjs y = { s.sobjs y with sleepq }
  ring : Ring s1.forw s1.back l
  rings : ∀ a, a ≠ b → Ring s1.forw s1.back (rings a)
  head : (s1.threads b).prioinv = l.head?
  high : ∀ y ∈ l, (s.sobjs y).epriHi ≤ (s1.threads b).epri
  unset : l = [] → (s1.threads b).epri = 0

/-- The last record of its beneficiary is taken away. -/
theorem Records.cancel_last [Fintype O] (h : Records s rings) (hq : Queues s)
    (hx : x ∈ rings b) (hlast : s.forw x = x) :
    ∃ s1, s.cancel x b = some (s1.setSobj x { s1.sobjs x with benef := none, epriHi := 0 }) ∧
      Unlinked s s1 rings b ((rings b).erase x) := by
  unfold System.cancel
  dsimp only
  rw [if_pos hlast, Option.map_some]
  have hnil : (rings b).erase x = [] := by
    rw [(h.ring_erase hx).1.mp hlast]
    simp
  have hself : (s.changepri b 0).threads b = { s.threads b with epri := 0 } := by
    rw [changepri_threads, update_self]
  refine ⟨_, rfl, ?_, (touched_changepri s b 0).trans ⟨fun a ha => setThread_of_ne _ _ ha,
    ⟨_, _, setThread_self ..⟩, fun y => ⟨_, _, _, rfl⟩⟩, changepri_sobjs s b 0, ?_,
    fun a ha => ?_, ?_, ?_, fun _ => ?_⟩
  · apply (hq.changepri b 0).congr
    · intro a
      by_cases ha : a = b
      · rw [ha]
        exact ⟨_, setThread_self ..⟩
      · exact ⟨_, setThread_of_ne _ _ ha⟩
    · exact fun _ => rfl
  · rw [hnil]
    exact Cycle.Chain.nil _
  · change Ring (s.changepri b 0).forw (s.changepri b 0).back (rings a)
    rw [(changepri_forw s b 0).1, (changepri_forw s b 0).2]
    exact h.ring a
  · rw [setThread_self, hnil]
    rfl
  · rw [hnil]
    exact fun y hy => absurd hy List.not_mem_nil
  · rw [setThread_self, hself]

/-- The list of `b` starts behind the object if it started there. -/
theorem setThread_head (s : System T O) (b : T) (x : O) :
    (if (s.threads b).prioinv = some x
      then s.setThread b { s.threads b with prioinv := some (s.forw x) } else s) =
    s.setThread b { s.threads b with
      prioinv := if (s.threads b).prioinv = some x then some (s.forw x)
        else (s.threads b).prioinv } := by
  split_ifs
  · rfl
  · unfold System.setThread
    rw [update_eq_self]

/-- A record is taken away from among others. -/
theorem Records.cancel_middle [Fintype O] (h : Records s rings) (hq : Queues s)
    (hx : (s.sobjs x).benef = some b) (hlast : s.forw x ≠ x) :
    ∃ s1, s.cancel x b = some (s1.setSobj x { s1.sobjs x with benef := none, epriHi := 0 }) ∧
      Unlinked s s1 rings b ((rings b).erase x) := by
  have hmem : x ∈ rings b := (h.mem b x).mpr hx
  obtain ⟨hone, herase⟩ := h.ring_erase hmem
  obtain ⟨hring, hhead⟩ := herase hlast
  obtain ⟨hfmem, hbmem⟩ := h.links_mem hmem
  unfold System.cancel
  dsimp only
  rw [if_neg hlast, setThread_head, ← hhead]
  dsimp only
  set s2 := s.setThread b { s.threads b with prioinv := ((rings b).erase x).head? }
  set s3 : System T O := { s2 with
    forw := removeNext s2.forw s2.back x, back := removePrev s2.forw s2.back x }
  have hself3 : s3.threads b = { s.threads b with prioinv := ((rings b).erase x).head? } :=
    setThread_self ..
  have hother3 : ∀ a, a ≠ b → s3.threads a = s.threads a := fun a ha => setThread_of_ne _ _ ha
  have hrings3 : ∀ a, a ≠ b → Ring s3.forw s3.back (rings a) := by
    intro a ha
    apply (h.ring a).congr
    · intro y hy
      have hne : y ≠ s.back x := fun he => h.disjoint hbmem ha (he ▸ hy)
      exact update_of_ne hne ..
    · intro y hy
      have hne : y ≠ s.forw x := fun he => h.disjoint hfmem ha (he ▸ hy)
      exact update_of_ne hne ..
  have htouch3 : Touched s s3 b := ⟨hother3, ⟨_, _, hself3⟩, fun y => ⟨_, _, _, rfl⟩⟩
  have hq3 : Queues s3 := by
    apply hq.congr
    · intro a
      by_cases ha : a = b
      · rw [ha]
        exact ⟨_, hself3⟩
      · exact ⟨_, hother3 a ha⟩
    · exact fun _ => rfl
  obtain ⟨e, hcalc, hpri, hall⟩ :=
    calcpri_spec (s := s3) hring ((h.nodup b).erase x) (s3.threads b).pri
  rw [show ((rings b).erase x).head? = (s3.threads b).prioinv by rw [hself3]] at hcalc
  rw [hcalc, Option.map_some, Option.map_some]
  have hne : (rings b).erase x ≠ [] := by
    rw [Ne, List.erase_eq_nil_iff]
    rintro (hnil | hnil)
    · simp [hnil] at hmem
    · exact hlast (hone.mpr hnil)
  have hprio : s3.prio b = (s3.threads b).epri := by
    have h0 := h.prio_eq hx
    unfold System.prio Kthread.dispPrio at h0 ⊢
    rw [hself3]
    exact h0
  have hq4 : Queues (if e ≠ s3.prio b then s3.changepri b e else s3) := by
    split_ifs
    · exact hq3.changepri b e
    · exact hq3
  obtain ⟨s4, hs4, htouch4, hforw4, hback4, hself4, hsobjs4⟩ :=
    changepri_if s3 b e (e ≠ s3.prio b)
  rw [hs4] at hq4 ⊢
  refine ⟨s4, rfl, hq4, htouch3.trans htouch4, hsobjs4, ?_, fun a ha => ?_, ?_, fun y hy => ?_,
    fun hnil => absurd hnil hne⟩
  · rw [hforw4, hback4]
    exact hring
  · rw [hforw4, hback4]
    exact hrings3 a ha
  · rw [hself4, hself3]
  · have hepri : (s4.threads b).epri = e := by
      rw [hself4, ← hprio]
      dsimp only
      split_ifs with hpe
      · rfl
      · exact (not_not.mp hpe).symm
    rw [hepri]
    exact hall y hy

/-- What is left when the record of an object is taken away. -/
theorem Records.cancel [Fintype O] (h : Records s rings) (hq : Queues s)
    (hx : (s.sobjs x).benef = some b) :
    ∃ s', s.cancel x b = some s' ∧ Records s' (update rings b ((rings b).erase x)) ∧ Queues s' ∧
      Touched s s' b ∧ (s'.sobjs x).benef = none ∧ SameRecords s s' x := by
  obtain ⟨s1, hs1, hun⟩ : ∃ s1,
      s.cancel x b = some (s1.setSobj x { s1.sobjs x with benef := none, epriHi := 0 }) ∧
      Unlinked s s1 rings b ((rings b).erase x) := by
    by_cases hlast : s.forw x = x
    · exact h.cancel_last hq ((h.mem b x).mpr hx) hlast
    · exact h.cancel_middle hq hx hlast
  obtain ⟨hq1, htouch1, hsobj1, hring1, hrings1, hhead1, hhigh1, hnone1⟩ := hun
  set s' := s1.setSobj x { s1.sobjs x with benef := none, epriHi := 0 } with hs'
  have hx' : (s'.sobjs x).benef = none := by rw [hs', setSobj_self]
  have hy' : SameRecords s s' x := by
    intro y hy
    obtain ⟨sq, he⟩ := hsobj1 y
    rw [hs', setSobj_of_ne _ _ hy, he]
    exact ⟨rfl, rfl⟩
  have htouch : Touched s s' b := htouch1.trans (touched_setSobj s1 b x none 0)
  have hring' : Ring s'.forw s'.back ((rings b).erase x) := hring1
  have hin : ∀ y, y ∈ (rings b).erase x ↔ y ≠ x ∧ (s.sobjs y).benef = some b := by
    intro y
    rw [(h.nodup b).mem_erase_iff, h.mem]
  refine ⟨_, hs1, ?_, ?_, htouch, hx', hy'⟩
  · apply h.replace hring' hrings1 ((h.nodup b).erase x) htouch hhead1
    · intro y
      rw [hin]
      by_cases hy : y = x
      · subst hy
        rw [hx']
        simp
      · rw [(hy' y hy).1]
        simp [hy]
    · intro a ha
      rw [hx', hx]
      exact ⟨nofun, fun he => ha (Option.some.inj he).symm⟩
    · exact hy'
    · exact fun hxe => absurd rfl ((hin x).mp hxe).1
    · intro y hy
      rw [(hy' y ((hin y).mp hy).1).2]
      exact hhigh1 y hy
    · exact hnone1
  · apply hq1.congr
    · exact fun a => ⟨_, rfl⟩
    · exact setSobj_sleepq rfl

end Sol26.Inherit
