import Sol26.Inherit.Prioinherit

/-!
# The queues of the turnstiles

A blocked thread is on the queue of its object, and the queues are in the order of the dispatch
priorities, so that the first threads have the highest ones.
-/
namespace Sol26.Inherit

open Rings Function

variable {T O : Type} {s : System T O} {t : T} {x : O} {q : Bool} {l : List T}

section Lists

variable {prio prio' : T → ℕ} {c : T}

theorem sleepqInsert_perm (prio : T → ℕ) (c : T) (l : List T) :
    (sleepqInsert prio c l).Perm (c :: l) := by
  induction l with
  | nil => exact .refl _
  | cons tp l ih =>
    unfold sleepqInsert
    split_ifs
    · exact .refl _
    · exact (ih.cons tp).trans (.swap c tp l)

theorem sleepqInsert_sorted (h : l.Pairwise fun a b => prio b ≤ prio a) :
    (sleepqInsert prio c l).Pairwise fun a b => prio b ≤ prio a := by
  induction l with
  | nil => exact List.pairwise_singleton _ c
  | cons tp l ih =>
    obtain ⟨htp, hl⟩ := List.pairwise_cons.mp h
    unfold sleepqInsert
    split_ifs with hlt
    · refine List.pairwise_cons.mpr ⟨fun a ha => ?_, h⟩
      rcases List.mem_cons.mp ha with rfl | ha
      · exact hlt.le
      · exact (htp a ha).trans hlt.le
    · refine List.pairwise_cons.mpr ⟨fun a ha => ?_, ih hl⟩
      rcases List.mem_cons.mp ((sleepqInsert_perm prio c l).mem_iff.mp ha) with rfl | ha
      · exact not_lt.mp hlt
      · exact htp a ha

end Lists

/-- Each blocked thread is on the queue of its object, once, and the queues are in order. -/
structure Queues (s : System T O) : Prop where
  mem : ∀ t x q, t ∈ (s.sobjs x).sleepq q ↔ (s.threads t).wchan = some (x, q)
  nodup : ∀ x q, ((s.sobjs x).sleepq q).Nodup
  sorted : ∀ x q, ((s.sobjs x).sleepq q).Pairwise fun a b => s.prio b ≤ s.prio a

@[simp] theorem setThread_self [DecidableEq T] (s : System T O) (t : T) (k : Kthread O) :
    (s.setThread t k).threads t = k := update_self ..

theorem setThread_of_ne [DecidableEq T] (s : System T O) {t t' : T} (k : Kthread O) (h : t' ≠ t) :
    (s.setThread t k).threads t' = s.threads t' := update_of_ne h ..

@[simp] theorem setSobj_self [DecidableEq O] (s : System T O) (x : O) (o : Sobj T) :
    (s.setSobj x o).sobjs x = o := update_self ..

theorem setSobj_of_ne [DecidableEq O] (s : System T O) {x y : O} (o : Sobj T) (h : y ≠ x) :
    (s.setSobj x o).sobjs y = s.sobjs y := update_of_ne h ..

/-- Nothing that the queues depend on changes. -/
theorem Queues.congr (h : Queues s) {s' : System T O}
    (hthreads : ∀ t, ∃ prioinv, s'.threads t = { s.threads t with prioinv })
    (hsobjs : ∀ x, (s'.sobjs x).sleepq = (s.sobjs x).sleepq) : Queues s' := by
  have hprio : ∀ t, s'.prio t = s.prio t := by
    intro t
    obtain ⟨r, he⟩ := hthreads t
    unfold System.prio
    rw [he]
    rfl
  refine ⟨fun t x q => ?_, fun x q => ?_, fun x q => ?_⟩
  · obtain ⟨r, he⟩ := hthreads t
    rw [hsobjs, he]
    exact h.mem t x q
  · rw [hsobjs]
    exact h.nodup x q
  · rw [hsobjs]
    simp only [hprio]
    exact h.sorted x q

/-- The first threads of the queues have the highest priorities. -/
theorem Queues.le_tstileMaxpri (h : Queues s) (ht : (s.threads t).wchan = some (x, q)) :
    s.prio t ≤ s.tstileMaxpri x := by
  have hhead : ∀ q, ∀ a ∈ (s.sobjs x).sleepq q, ∃ b, ((s.sobjs x).sleepq q).head? = some b ∧
      s.prio a ≤ s.prio b := by
    intro q a ha
    have hsorted := h.sorted x q
    cases hl : (s.sobjs x).sleepq q with
    | nil =>
      rw [hl] at ha
      exact absurd ha List.not_mem_nil
    | cons b l =>
      rw [hl] at ha hsorted
      refine ⟨b, rfl, ?_⟩
      rcases List.mem_cons.mp ha with rfl | ha
      · exact le_rfl
      · exact (List.pairwise_cons.mp hsorted).1 a ha
  obtain ⟨b, hb, hle⟩ := hhead q t ((h.mem t x q).mpr ht)
  unfold System.tstileMaxpri
  cases q with
  | false =>
    rw [hb]
    cases ((s.sobjs x).sleepq true).head? with
    | none => exact hle
    | some b' =>
      dsimp only
      split_ifs <;> omega
  | true =>
    rw [hb]
    cases ((s.sobjs x).sleepq false).head? with
    | none => exact hle
    | some b' =>
      dsimp only
      split_ifs <;> omega

theorem setSleepq_sleepq [DecidableEq O] (s : System T O) (x : O) (q : Bool) (l : List T)
    (x' : O) (q' : Bool) :
    ((s.setSleepq x q l).sobjs x').sleepq q' =
      if x' = x ∧ q' = q then l else (s.sobjs x').sleepq q' := by
  unfold System.setSleepq
  by_cases hx : x' = x
  · subst hx
    rw [setSobj_self]
    by_cases hq : q' = q
    · simp [hq]
    · simp [hq]
  · rw [setSobj_of_ne _ _ hx]
    simp [hx]

/-- The queue without the thread, in order also when the priority of the thread changes. -/
theorem Queues.erase_sorted [DecidableEq T] (h : Queues s) (k : Kthread O) :
    (((s.sobjs x).sleepq q).erase t).Pairwise
      fun a b => (s.setThread t k).prio b ≤ (s.setThread t k).prio a := by
  apply ((h.sorted x q).sublist List.erase_sublist).imp_of_mem
  intro a b ha hb hab
  have hne : ∀ a ∈ ((s.sobjs x).sleepq q).erase t, a ≠ t :=
    fun a ha => ((h.nodup x q).mem_erase_iff.mp ha).1
  unfold System.prio
  rw [setThread_of_ne _ _ (hne a ha), setThread_of_ne _ _ (hne b hb)]
  exact hab

theorem setSleepq_sobjs [DecidableEq O] (s : System T O) (x : O) (q : Bool) (l : List T) (y : O) :
    ∃ sleepq, (s.setSleepq x q l).sobjs y = { s.sobjs y with sleepq } := by
  unfold System.setSleepq
  by_cases hy : y = x
  · subst hy
    exact ⟨_, setSobj_self ..⟩
  · exact ⟨_, setSobj_of_ne _ _ hy⟩

variable [DecidableEq T] [DecidableEq O]

/-- One thread changes, and the queue where it is or was. -/
theorem Queues.set (h : Queues s) {k : Kthread O}
    (hold : ∀ y, (s.threads t).wchan = some y → y = (x, q))
    (hnew : ∀ y, k.wchan = some y → y = (x, q)) (hself : t ∈ l ↔ k.wchan = some (x, q))
    (hother : ∀ a, a ≠ t → (a ∈ l ↔ a ∈ (s.sobjs x).sleepq q)) (hnd : l.Nodup)
    (hsorted : l.Pairwise fun a b => (s.setThread t k).prio b ≤ (s.setThread t k).prio a) :
    Queues ((s.setThread t k).setSleepq x q l) := by
  have hprio : ∀ a, a ≠ t → (s.setThread t k).prio a = s.prio a := by
    intro a ha
    unfold System.prio
    rw [setThread_of_ne _ _ ha]
  refine ⟨fun a x' q' => ?_, fun x' q' => ?_, fun x' q' => ?_⟩
  · rw [setSleepq_sleepq]
    by_cases ha : a = t
    · subst ha
      change _ ↔ ((s.setThread a k).threads a).wchan = _
      rw [setThread_self]
      by_cases hxq : x' = x ∧ q' = q
      · rw [if_pos hxq, hxq.1, hxq.2]
        exact hself
      · rw [if_neg hxq]
        change a ∈ (s.sobjs x').sleepq q' ↔ _
        rw [h.mem]
        constructor
        · intro hw
          exact absurd (Prod.mk.inj (hold _ hw)) hxq
        · intro hw
          exact absurd (Prod.mk.inj (hnew _ hw)) hxq
    · change _ ↔ ((s.setThread t k).threads a).wchan = _
      rw [setThread_of_ne _ _ ha, ← h.mem]
      by_cases hxq : x' = x ∧ q' = q
      · rw [if_pos hxq, hxq.1, hxq.2]
        exact hother a ha
      · rw [if_neg hxq]
        rfl
  · rw [setSleepq_sleepq]
    split_ifs
    · exact hnd
    · exact h.nodup x' q'
  · rw [setSleepq_sleepq]
    split_ifs with hxq
    · exact hsorted
    · apply (h.sorted x' q').imp_of_mem
      intro a b ha hb hab
      have hne : ∀ a ∈ (s.sobjs x').sleepq q', a ≠ t := by
        rintro a ha rfl
        exact hxq (Prod.mk.inj (hold _ ((h.mem a x' q').mp ha)))
      change (s.setThread t k).prio b ≤ (s.setThread t k).prio a
      rw [hprio a (hne a ha), hprio b (hne b hb)]
      exact hab

theorem changepri_threads (s : System T O) (t : T) (epri : ℕ) :
    (s.changepri t epri).threads = update s.threads t { s.threads t with epri } := by
  unfold System.changepri
  dsimp only
  split <;> rfl

theorem changepri_forw (s : System T O) (t : T) (epri : ℕ) :
    (s.changepri t epri).forw = s.forw ∧ (s.changepri t epri).back = s.back := by
  unfold System.changepri
  dsimp only
  split <;> exact ⟨rfl, rfl⟩

theorem changepri_sobjs (s : System T O) (t : T) (epri : ℕ) (y : O) :
    ∃ sleepq, (s.changepri t epri).sobjs y = { s.sobjs y with sleepq } := by
  unfold System.changepri
  dsimp only
  split
  · exact ⟨_, rfl⟩
  · exact setSleepq_sobjs _ _ _ _ y

theorem Queues.changepri (h : Queues s) (t : T) (epri : ℕ) : Queues (s.changepri t epri) := by
  unfold System.changepri
  dsimp only
  cases hw : (s.threads t).wchan with
  | none =>
    have hnot : ∀ x q, t ∉ (s.sobjs x).sleepq q := by
      intro x q hmem
      simp [h.mem, hw] at hmem
    refine ⟨fun a x q => ?_, h.nodup, fun x q => ?_⟩
    · dsimp only
      change a ∈ (s.sobjs x).sleepq q ↔ _
      rw [h.mem]
      by_cases ha : a = t
      · subst ha
        rw [setThread_self, hw]
      · rw [setThread_of_ne _ _ ha]
    · apply (h.sorted x q).imp_of_mem
      intro a b ha hb hab
      have hne : ∀ a ∈ (s.sobjs x).sleepq q, a ≠ t := by
        rintro a ha rfl
        exact hnot x q ha
      unfold System.prio
      rw [setThread_of_ne _ _ (hne a ha), setThread_of_ne _ _ (hne b hb)]
      exact hab
  | some y =>
    obtain ⟨x, q⟩ := y
    dsimp only
    have hperm := fun prio => sleepqInsert_perm prio t (((s.sobjs x).sleepq q).erase t)
    have hnd := h.nodup x q
    apply h.set
    · intro y hy
      rw [hw] at hy
      exact (Option.some.inj hy).symm
    · intro y hy
      exact (Option.some.inj hy).symm
    · rw [(hperm _).mem_iff]
      exact ⟨fun _ => rfl, fun _ => List.mem_cons_self⟩
    · intro a ha
      rw [(hperm _).mem_iff, List.mem_cons, hnd.mem_erase_iff]
      simp [ha]
    · rw [(hperm _).nodup_iff, List.nodup_cons]
      exact ⟨hnd.not_mem_erase, hnd.erase t⟩
    · exact sleepqInsert_sorted (h.erase_sorted _)

theorem Queues.raise (h : Queues s) (t : T) (dispPri : ℕ) : Queues (s.raise t dispPri) := by
  unfold System.raise
  split_ifs
  · exact h.changepri t dispPri
  · exact h

/-- A thread blocks. -/
theorem Queues.block (h : Queues s) (ht : (s.threads t).wchan = none) (x : O) (q : Bool) :
    Queues ((s.setThread t { s.threads t with wchan := some (x, q) }).setSleepq x q
      (sleepqInsert (s.setThread t { s.threads t with wchan := some (x, q) }).prio t
        ((s.sobjs x).sleepq q))) := by
  have hnot : t ∉ (s.sobjs x).sleepq q := by
    rw [h.mem, ht]
    exact nofun
  have hperm := sleepqInsert_perm (s.setThread t { s.threads t with wchan := some (x, q) }).prio t
    ((s.sobjs x).sleepq q)
  apply h.set
  · intro y hy
    simp [ht] at hy
  · intro y hy
    exact (Option.some.inj hy).symm
  · rw [hperm.mem_iff]
    exact ⟨fun _ => rfl, fun _ => List.mem_cons_self⟩
  · intro a ha
    rw [hperm.mem_iff, List.mem_cons]
    simp [ha]
  · rw [hperm.nodup_iff]
    exact List.nodup_cons.mpr ⟨hnot, h.nodup x q⟩
  · apply sleepqInsert_sorted
    have hsorted := h.erase_sorted (t := t) (x := x) (q := q) { s.threads t with wchan := some (x, q) }
    rwa [List.erase_of_not_mem hnot] at hsorted

/-- A blocked thread leaves its queue. -/
theorem Queues.leave (h : Queues s) (ht : (s.threads t).wchan = some (x, q)) :
    Queues ((s.setSleepq x q (((s.sobjs x).sleepq q).erase t)).clean t) := by
  have hnd := h.nodup x q
  have hset : Queues ((s.setThread t { s.threads t with wchan := none }).setSleepq x q
      (((s.sobjs x).sleepq q).erase t)) := by
    apply h.set
    · intro y hy
      rw [ht] at hy
      exact (Option.some.inj hy).symm
    · exact nofun
    · constructor
      · intro hmem
        exact absurd hmem hnd.not_mem_erase
      · exact nofun
    · intro a ha
      rw [hnd.mem_erase_iff]
      simp [ha]
    · exact hnd.erase t
    · exact h.erase_sorted _
  exact hset

end Sol26.Inherit
