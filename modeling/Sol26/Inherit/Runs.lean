import Sol26.Inherit.Records

/-!
# No inversion along the chain

In every state between operations, a thread that is blocked on an owned object has no higher
dispatch priority than the owner. The loop of `pi_willto` goes along the chain of owners; behind it
all threads are covered, at the place where it is one thread may not be.
-/
namespace Sol26.Inherit

open Rings Function Relation
open TransGen (head' head'_iff mono single)

variable {T O : Type} {s s' : System T O} {rings : T → List O} {t w o : T} {x : O} {q : Bool}

/-- The priority of a blocked thread is not above the assigned priority of the owner, or it is in
the record of the object. -/
def Covered (s : System T O) (w : T) : Prop :=
  ∀ x q o, (s.threads w).wchan = some (x, q) → (s.sobjs x).owner = some o →
    s.prio w ≤ (s.threads o).pri ∨ (s.sobjs x).benef = some o ∧ s.prio w ≤ (s.sobjs x).epriHi

def Owned (s : System T O) : Prop :=
  ∀ t x, (s.sobjs x).benef = some t → (s.sobjs x).owner = some t

def Acyclic (s : System T O) : Prop := ∀ t, ¬ TransGen s.Waits t t

structure Inv (s : System T O) : Prop where
  queues : Queues s
  records : ∃ rings, Records s rings
  owned : Owned s
  covered : ∀ w, Covered s w
  acyclic : Acyclic s

/-- A covered thread has no higher priority than the owner of its object. -/
theorem Covered.prio_le (h : Covered s w) (hrec : Records s rings)
    (hw : (s.threads w).wchan = some (x, q)) (ho : (s.sobjs x).owner = some o) :
    s.prio w ≤ s.prio o := by
  rcases h x q o hw ho with hle | ⟨hb, hle⟩
  · exact hle.trans (hrec.pri_le o)
  · rw [hrec.prio_eq hb]
    exact hle.trans (hrec.high o x hb)

theorem covered_of_not_blocked (h : (s.threads w).wchan = none) : Covered s w := by
  intro x q o hw
  simp [h] at hw

theorem Owned.benef_eq (h : Owned s) (ho : (s.sobjs x).owner = some o) {b : T}
    (hb : (s.sobjs x).benef = some b) : b = o :=
  Option.some.inj ((h b x hb).symm.trans ho)

/-- The last thread to be covered is one that the owner of its object is not below. -/
theorem covered_all (hcov : ∀ a, a ≠ w → Covered s a) (hw : (s.threads w).wchan = some (x, q))
    (h : ∀ o, (s.sobjs x).owner = some o → s.prio w ≤ (s.threads o).pri) (a : T) : Covered s a := by
  by_cases ha : a = w
  · subst ha
    intro y q' o hay hoy
    cases hay.symm.trans hw
    exact .inl (h o hoy)
  · exact hcov a ha

/-- The threads to which the chain of owners leads from `o`. -/
def System.chain (s : System T O) (o : T) : Set T := {t | ReflTransGen s.Waits o t}

theorem chain_lt [Finite T] (hac : Acyclic s) {o' : T} (h : s.Waits o o') :
    (s.chain o').ncard < (s.chain o).ncard := by
  apply Set.ncard_lt_ncard _ (Set.toFinite _)
  refine ⟨fun t ht => ReflTransGen.head h ht, fun hsub => ?_⟩
  have ho : ReflTransGen s.Waits o' o := hsub ReflTransGen.refl
  exact hac o (head' h ho)

theorem chain_pos [Finite T] (s : System T O) (o : T) : 0 < (s.chain o).ncard :=
  (Set.ncard_pos (Set.toFinite _)).mpr ⟨o, ReflTransGen.refl⟩

/-- A thread may block on an object whose owner is not blocked. -/
theorem mayBlock_awake (ht : (s.threads t).wchan = none) (ho : (s.sobjs x).owner = some o)
    (hne : o ≠ t) (hw : (s.threads o).wchan = none) : s.MayBlock t x := by
  refine ⟨ht, fun o' ho' hreach => ?_⟩
  cases ho.symm.trans ho'
  rcases hreach.cases_head with he | ⟨c, ⟨x, q, hx, -⟩, -⟩
  · exact hne he
  · simp [hw] at hx

/-- A thread that may block closes no cycle. -/
theorem block_acyclic (hac : Acyclic s) (hblock : s.MayBlock t x)
    (hwaits : ∀ a b, s'.Waits a b → s.Waits a b ∨ a = t ∧ (s.sobjs x).owner = some b) :
    Acyclic s' := by
  have hpath : ∀ a b, TransGen s'.Waits a b → TransGen s.Waits a b ∨
      ReflTransGen s.Waits a t ∧ ∃ o, (s.sobjs x).owner = some o ∧ ReflTransGen s.Waits o b := by
    intro a b h
    induction h with
    | single h =>
      rcases hwaits _ _ h with h | ⟨rfl, ho⟩
      · exact .inl (single h)
      · exact .inr ⟨ReflTransGen.refl, _, ho, ReflTransGen.refl⟩
    | tail _ h ih =>
      rcases hwaits _ _ h with h | ⟨rfl, ho⟩
      · rcases ih with ih | ⟨hat, o, ho, hob⟩
        · exact .inl (ih.tail h)
        · exact .inr ⟨hat, o, ho, hob.tail h⟩
      · rcases ih with ih | ⟨hat, -⟩
        · exact .inr ⟨ih.to_reflTransGen, _, ho, ReflTransGen.refl⟩
        · exact .inr ⟨hat, _, ho, ReflTransGen.refl⟩
  intro a hcyc
  rcases hpath a a hcyc with h | ⟨hat, o, ho, hoa⟩
  · exact hac a h
  · exact hblock.2 o ho (hoa.trans hat)

/-- A thread that is not blocked is at the end of every chain. -/
theorem acquire_acyclic (hac : Acyclic s) (ht : ∀ b, ¬ s'.Waits t b)
    (hwaits : ∀ a b, s'.Waits a b → s.Waits a b ∨ b = t) : Acyclic s' := by
  have hpath : ∀ a b, TransGen s'.Waits a b → TransGen s.Waits a b ∨ b = t := by
    intro a b h
    induction h with
    | single h =>
      rcases hwaits _ _ h with h | h
      · exact .inl (single h)
      · exact .inr h
    | tail _ h ih =>
      rcases ih with ih | rfl
      · rcases hwaits _ _ h with h | h
        · exact .inl (ih.tail h)
        · exact .inr h
      · exact absurd h (ht _)
  intro a hcyc
  rcases hpath a a hcyc with h | rfl
  · exact hac a h
  · obtain ⟨b, hb, -⟩ := head'_iff.mp hcyc
    exact ht b hb

theorem clean_self [DecidableEq T] (s : System T O) (t : T) :
    (s.clean t).threads t = { s.threads t with wchan := none } := setThread_self ..

theorem clean_of_ne [DecidableEq T] (s : System T O) (h : w ≠ t) :
    (s.clean t).threads w = s.threads w :=
  setThread_of_ne _ _ h

theorem setOwner_queues [DecidableEq O] (h : Queues s) (owner : Option T) :
    Queues (s.setSobj x { s.sobjs x with owner }) := by
  apply h.congr
  · exact fun a => ⟨_, rfl⟩
  · intro y
    by_cases hy : y = x
    · rw [hy, setSobj_self]
    · rw [setSobj_of_ne _ _ hy]

theorem setOwner_records [DecidableEq O] (h : Records s rings) (owner : Option T) :
    Records (s.setSobj x { s.sobjs x with owner }) rings := by
  apply h.congr
  · exact fun a => ⟨_, rfl⟩
  · intro y
    by_cases hy : y = x
    · rw [hy, setSobj_self]
      exact ⟨_, _, rfl⟩
    · rw [setSobj_of_ne _ _ hy]
      exact ⟨_, _, rfl⟩
  · rfl
  · rfl

/-- No thread is blocked, and no priority is inherited. -/
structure System.Initial (s : System T O) : Prop where
  wchan : ∀ t, (s.threads t).wchan = none
  epri : ∀ t, (s.threads t).epri = 0
  prioinv : ∀ t, (s.threads t).prioinv = none
  sleepq : ∀ x q, (s.sobjs x).sleepq q = []
  benef : ∀ x, (s.sobjs x).benef = none

theorem System.Initial.inv (h : s.Initial) : Inv s := by
  refine ⟨⟨fun t x q => ?_, fun x q => ?_, fun x q => ?_⟩, ⟨fun _ => [], ?_⟩, fun t x hb => ?_,
    fun w => covered_of_not_blocked (h.wchan w), fun t hcyc => ?_⟩
  · rw [h.sleepq, h.wchan]
    simp
  · rw [h.sleepq]
    exact List.nodup_nil
  · rw [h.sleepq]
    exact List.Pairwise.nil
  · refine ⟨fun t => Cycle.Chain.nil _, fun t => List.nodup_nil, h.prioinv, fun t x => ?_,
      fun t x hb => ?_, fun t x hb => ?_, fun t _ => h.epri t⟩
    · rw [h.benef]
      simp
    · simp [h.benef] at hb
    · simp [h.benef] at hb
  · simp [h.benef] at hb
  · obtain ⟨b, ⟨x, q, hw, -⟩, -⟩ := head'_iff.mp hcyc
    simp [h.wchan] at hw

variable [DecidableEq T] [DecidableEq O]

section Leaving

/-- Where a blocked thread leaves its queue, the records stay. -/
theorem Records.leave (h : Records s rings) (l : List T) :
    Records ((s.setSleepq x q l).clean t) rings := by
  apply h.congr
  · intro a
    by_cases ha : a = t
    · rw [ha]
      exact ⟨_, setThread_self ..⟩
    · exact ⟨_, setThread_of_ne _ _ ha⟩
  · intro y
    obtain ⟨sq, he⟩ := setSleepq_sobjs s x q l y
    exact ⟨_, sq, he⟩
  · rfl
  · rfl

theorem leave_sobj (l : List T) (y : O) :
    (((s.setSleepq x q l).clean t).sobjs y).benef = (s.sobjs y).benef ∧
    (((s.setSleepq x q l).clean t).sobjs y).epriHi = (s.sobjs y).epriHi ∧
    (((s.setSleepq x q l).clean t).sobjs y).owner = (s.sobjs y).owner := by
  obtain ⟨sq, he⟩ := setSleepq_sobjs s x q l y
  change ((s.setSleepq x q l).sobjs y).benef = _ ∧ ((s.setSleepq x q l).sobjs y).epriHi = _ ∧
    ((s.setSleepq x q l).sobjs y).owner = _
  rw [he]
  exact ⟨rfl, rfl, rfl⟩

/-- A blocked thread leaves its queue; it need not have been covered. -/
theorem leave_inv (hq : Queues s) (hrec : Records s rings) (howned : Owned s)
    (hcov : ∀ w, w ≠ t → Covered s w) (hac : Acyclic s) (ht : (s.threads t).wchan = some (x, q)) :
    Inv ((s.setSleepq x q (((s.sobjs x).sleepq q).erase t)).clean t) := by
  set l := ((s.sobjs x).sleepq q).erase t
  have hsobj := leave_sobj (s := s) (t := t) (x := x) (q := q) l
  have hpri : ∀ a, (((s.setSleepq x q l).clean t).threads a).pri = (s.threads a).pri := by
    intro a
    by_cases ha : a = t
    · rw [ha, clean_self]
      rfl
    · rw [clean_of_ne _ ha]
      rfl
  refine ⟨hq.leave ht, ⟨rings, hrec.leave l⟩, fun a y hb => ?_, fun w => ?_, fun a hcyc => ?_⟩
  · rw [(hsobj y).1] at hb
    rw [(hsobj y).2.2]
    exact howned a y hb
  · by_cases hw : w = t
    · apply covered_of_not_blocked
      rw [hw, clean_self]
    · intro y q' o hwy ho
      have hthread : ((s.setSleepq x q l).clean t).threads w = s.threads w := clean_of_ne _ hw
      have hprio : ((s.setSleepq x q l).clean t).prio w = s.prio w := by
        unfold System.prio
        rw [hthread]
      rw [hthread] at hwy
      rw [(hsobj y).2.2] at ho
      rw [(hsobj y).1, (hsobj y).2.1, hprio, hpri]
      exact hcov w hw y q' o hwy ho
  · apply hac a
    refine mono ?_ a a hcyc
    rintro w o ⟨y, q', hwy, ho⟩
    rw [(hsobj y).2.2] at ho
    by_cases hw : w = t
    · simp [hw, clean_self] at hwy
    · rw [clean_of_ne _ hw] at hwy
      exact ⟨y, q', hwy, ho⟩

theorem waive_of_none [Fintype O] (h : (s.sobjs x).benef = none) : s.waive x = some s := by
  unfold System.waive
  rw [h]

theorem tstileFree_of_none [Fintype O] (h : (s.sobjs x).benef = none) :
    s.tstileFree x = some s := by
  unfold System.tstileFree
  rw [waive_of_none h, ite_self]

/-- A thread that waits for an object without an owner is woken. -/
theorem unsleep_inv [Fintype O] (hq : Queues s) (hrec : Records s rings) (howned : Owned s)
    (hcov : ∀ w, w ≠ t → Covered s w) (hac : Acyclic s) (ht : (s.threads t).wchan = some (x, q))
    (ho : (s.sobjs x).owner = none) : ∃ s', s.unsleep t = some s' ∧ Inv s' := by
  have hinv := leave_inv hq hrec howned hcov hac ht
  have hbenef : (s.sobjs x).benef = none := by
    by_contra hne
    obtain ⟨b, hb⟩ := Option.ne_none_iff_exists'.mp hne
    simp [howned b x hb] at ho
  refine ⟨_, ?_, hinv⟩
  unfold System.unsleep
  rw [ht]
  apply tstileFree_of_none
  rw [(leave_sobj _ x).1]
  exact hbenef

theorem Inv.wakeone (h : Inv s) (x : O) (q : Bool) :
    Inv (s.wakeone x q) ∧ ∀ y, ((s.wakeone x q).sobjs y).benef = (s.sobjs y).benef := by
  unfold System.wakeone
  cases hl : (s.sobjs x).sleepq q with
  | nil => exact ⟨h, fun _ => rfl⟩
  | cons t l =>
    obtain ⟨rings, hrec⟩ := h.records
    have hmem : t ∈ (s.sobjs x).sleepq q := by
      rw [hl]
      exact List.mem_cons_self
    have hinv := leave_inv h.queues hrec h.owned (fun w _ => h.covered w) h.acyclic
      ((h.queues.mem t x q).mp hmem)
    rw [hl, List.erase_cons_head] at hinv
    exact ⟨hinv, fun y => (leave_sobj l y).1⟩

theorem Inv.wakeall (h : Inv s) (x : O) (q : Bool) :
    Inv (s.wakeall x q) ∧ ∀ y, ((s.wakeall x q).sobjs y).benef = (s.sobjs y).benef := by
  unfold System.wakeall
  generalize ((s.sobjs x).sleepq q).length = n
  induction n with
  | zero => exact ⟨h, fun _ => rfl⟩
  | succ n ih =>
    rw [iterate_succ_apply']
    obtain ⟨hinv, hb⟩ := ih
    obtain ⟨hinv', hb'⟩ := hinv.wakeone x q
    exact ⟨hinv', fun y => (hb' y).trans (hb y)⟩

end Leaving

section Willing

/-- Where the priority of the waiter was inherited, all but the owner are covered. -/
theorem covered_inherit (hrec : Records s rings) (howned : Owned s) {p : ℕ}
    (ho : (s.sobjs x).owner = some o) (hp : (s.threads o).pri < p)
    (hw : (s.threads w).wchan = some (x, q)) (hwo : w ≠ o) (hwp : s.prio w ≤ p)
    (hcov : ∀ a, a ≠ w → Covered s a) (a : T) (ha : a ≠ o) : Covered (s.inherit x o p) a := by
  have hbenef : ∀ b, (s.sobjs x).benef = some b → b = o := fun b => howned.benef_eq ho
  obtain ⟨rings', -, htouch, hxb, hxp, hxh, hy⟩ := hrec.inherit hbenef hp
  intro y q' o' hay hoy
  rw [htouch.wchan] at hay
  rw [htouch.owner] at hoy
  rw [htouch.prio ha, htouch.pri]
  by_cases haw : a = w
  · subst haw
    cases hay.symm.trans hw
    cases hoy.symm.trans ho
    exact .inr ⟨hxb, hwp.trans hxp⟩
  · rcases hcov a haw y q' o' hay hoy with hle | ⟨hb, hle⟩
    · exact .inl hle
    · by_cases hyx : y = x
      · subst hyx
        obtain rfl := hbenef o' hb
        exact .inr ⟨hxb, hle.trans (hxh hb)⟩
      · rw [(hy y hyx).1, (hy y hyx).2]
        exact .inr ⟨hb, hle⟩

theorem owned_inherit (hrec : Records s rings) (howned : Owned s) {p : ℕ}
    (ho : (s.sobjs x).owner = some o) (hp : (s.threads o).pri < p) : Owned (s.inherit x o p) := by
  have hbenef : ∀ b, (s.sobjs x).benef = some b → b = o := fun b => howned.benef_eq ho
  obtain ⟨rings', -, htouch, hxb, -, -, hy⟩ := hrec.inherit hbenef hp
  intro a y hb
  rw [htouch.owner]
  by_cases hyx : y = x
  · subst hyx
    rw [hxb] at hb
    rw [ho]
    exact hb
  · rw [(hy y hyx).1] at hb
    exact howned a y hb

/-- The loop of `pi_willto` ends, and then all threads are covered. -/
theorem willtoLoop_spec [Finite T] [Fintype O] {willing : T} {n : ℕ} (hq : Queues s)
    (hrec : Records s rings) (howned : Owned s) (hcov : ∀ a, a ≠ w → Covered s a)
    (hac : Acyclic s) (hw : (s.threads w).wchan = some (x, q)) (ho : (s.sobjs x).owner = some o)
    (hwilling : ¬ ReflTransGen s.Waits o willing) (hn : (s.chain o).ncard ≤ n) :
    ∃ s', System.willtoLoop willing n s w x o = some s' ∧ Inv s' := by
  induction n generalizing s rings w x q o with
  | zero => exact absurd (chain_pos s o) (by omega)
  | succ n ih =>
    unfold System.willtoLoop
    have hne : willing ≠ o := by
      rintro rfl
      exact hwilling ReflTransGen.refl
    rw [if_neg hne]
    by_cases hle : s.prio w ≤ (s.threads o).pri
    · rw [if_pos hle]
      refine ⟨s, rfl, hq, ⟨rings, hrec⟩, howned, covered_all hcov hw fun o' ho' => ?_, hac⟩
      rwa [← Option.some.inj (ho.symm.trans ho')]
    · rw [if_neg hle]
      have hp : (s.threads o).pri < s.prio w := not_le.mp hle
      have hwo : w ≠ o := by
        rintro rfl
        exact hac w (single ⟨x, q, hw, ho⟩)
      have hcov1 := covered_inherit hrec howned ho hp hw hwo le_rfl hcov
      have howned1 := owned_inherit hrec howned ho hp
      have hq1 := hq.inherit x o (s.prio w)
      obtain ⟨rings1, hrec1, htouch, -⟩ := hrec.inherit (fun b => howned.benef_eq ho) hp
      have hac1 : Acyclic (s.inherit x o (s.prio w)) := by
        unfold Acyclic
        rw [htouch.waits]
        exact hac
      have hchain : ∀ a, (s.inherit x o (s.prio w)).chain a = s.chain a := by
        intro a
        unfold System.chain
        rw [htouch.waits]
      have hwaits := htouch.waits
      dsimp only
      generalize s.inherit x o (s.prio w) = s1 at *
      cases hb : (s1.threads o).wchan with
      | none =>
        refine ⟨s1, rfl, hq1, ⟨rings1, hrec1⟩, howned1, fun a => ?_, hac1⟩
        by_cases ha : a = o
        · rw [ha]
          exact covered_of_not_blocked hb
        · exact hcov1 a ha
      | some y =>
        obtain ⟨x', q'⟩ := y
        dsimp only
        cases ho' : (s1.sobjs x').owner with
        | some o' =>
          have hwait : s1.Waits o o' := ⟨x', q', hb, ho'⟩
          have hlt := chain_lt hac1 hwait
          rw [hchain, hchain] at hlt
          apply ih hq1 hrec1 howned1 hcov1 hac1 hb ho'
          · intro hreach
            apply hwilling
            rw [← hwaits]
            exact ReflTransGen.head hwait hreach
          · rw [hchain]
            omega
        | none =>
          dsimp only
          split_ifs
          · exact unsleep_inv hq1 hrec1 howned1 hcov1 hac1 hb ho'
          · exact ⟨s1, rfl, hq1, ⟨rings1, hrec1⟩, howned1, covered_all hcov1 hb (by simp [ho']), hac1⟩

end Willing

section Operations

/-- A thread blocks and wills its priority along the chain. -/
theorem Inv.block [Fintype T] [Fintype O] (h : Inv s) (hblock : s.MayBlock t x) (q : Bool) :
    ∃ s', s.block t x q = some s' ∧ Inv s' := by
  obtain ⟨rings, hrec⟩ := h.records
  have hq1 := h.queues.block hblock.1 x q
  unfold System.block
  dsimp only
  have hsame : ((s.setThread t { s.threads t with wchan := some (x, q) }).sobjs x).sleepq q =
      (s.sobjs x).sleepq q := rfl
  rw [hsame]
  set s1 := (s.setThread t { s.threads t with wchan := some (x, q) }).setSleepq x q
    (sleepqInsert (s.setThread t { s.threads t with wchan := some (x, q) }).prio t
      ((s.sobjs x).sleepq q)) with hs1
  have hself : s1.threads t = { s.threads t with wchan := some (x, q) } := setThread_self ..
  have hne : ∀ a, a ≠ t → s1.threads a = s.threads a := fun a ha => setThread_of_ne _ _ ha
  have hsobj : ∀ y, ∃ sleepq, s1.sobjs y = { s.sobjs y with sleepq } :=
    fun y => setSleepq_sobjs (s.setThread t _) x q _ y
  have hfields : ∀ y, (s1.sobjs y).owner = (s.sobjs y).owner ∧
      (s1.sobjs y).benef = (s.sobjs y).benef ∧ (s1.sobjs y).epriHi = (s.sobjs y).epriHi := by
    intro y
    obtain ⟨sq, he⟩ := hsobj y
    rw [he]
    exact ⟨rfl, rfl, rfl⟩
  have hpri : ∀ a, (s1.threads a).pri = (s.threads a).pri := by
    intro a
    by_cases ha : a = t
    · rw [ha, hself]
    · rw [hne a ha]
  have hrec1 : Records s1 rings := by
    apply hrec.congr
    · intro a
      by_cases ha : a = t
      · rw [ha]
        exact ⟨_, hself⟩
      · exact ⟨_, hne a ha⟩
    · intro y
      obtain ⟨sq, he⟩ := hsobj y
      exact ⟨_, sq, he⟩
    · rfl
    · rfl
  have howned1 : Owned s1 := by
    intro a y hb
    rw [(hfields y).2.1] at hb
    rw [(hfields y).1]
    exact h.owned a y hb
  have hcov1 : ∀ a, a ≠ t → Covered s1 a := by
    intro a ha y q' o hay ho
    rw [hne a ha] at hay
    rw [(hfields y).1] at ho
    unfold System.prio
    rw [hne a ha, hpri, (hfields y).2.1, (hfields y).2.2]
    exact h.covered a y q' o hay ho
  have hac1 : Acyclic s1 := by
    apply block_acyclic h.acyclic hblock
    rintro a b ⟨y, q', hay, hoy⟩
    rw [(hfields y).1] at hoy
    by_cases ha : a = t
    · subst ha
      rw [hself] at hay
      cases hay
      exact .inr ⟨rfl, hoy⟩
    · rw [hne a ha] at hay
      exact .inl ⟨y, q', hay, hoy⟩
  have hwchan : (s1.threads t).wchan = some (x, q) := by rw [hself]
  unfold System.willto
  rw [hwchan]
  dsimp only
  cases ho : (s1.sobjs x).owner with
  | none =>
    exact ⟨s1, rfl, hq1, ⟨rings, hrec1⟩, howned1, covered_all hcov1 hwchan (by simp [ho]), hac1⟩
  | some o =>
    apply willtoLoop_spec hq1 hrec1 howned1 hcov1 hac1 hwchan ho
    · intro hreach
      exact hac1 t (head' ⟨x, q, hwchan, ho⟩ hreach)
    · rw [← Nat.card_eq_fintype_card, ← Set.ncard_univ]
      exact Set.ncard_le_ncard (Set.subset_univ _) (Set.toFinite _)

/-- `pi_waive` when the owner has given up the object. -/
theorem Inv.waive [Fintype O] (h : Inv s) (ht : (s.threads t).wchan = none)
    (ho : (s.sobjs x).owner = some t) :
    ∃ s', (s.setSobj x { s.sobjs x with owner := none }).waive x = some s' ∧ Inv s' ∧
      (s'.sobjs x).benef = none := by
  obtain ⟨rings, hrec⟩ := h.records
  set s1 := s.setSobj x { s.sobjs x with owner := none } with hs1
  have hq1 : Queues s1 := setOwner_queues h.queues none
  have hrec1 : Records s1 rings := setOwner_records hrec none
  have hx1 : s1.sobjs x = { s.sobjs x with owner := none } := setSobj_self ..
  have hy1 : ∀ y, y ≠ x → s1.sobjs y = s.sobjs y := fun y hy => setSobj_of_ne _ _ hy
  -- what is left to show is the same with a record and without one
  have hfinish : ∀ s' rings', Records s' rings' → Queues s' → Touched s1 s' t →
      (s'.sobjs x).benef = none → SameRecords s1 s' x → Inv s' := by
    intro s' rings' hrec' hq' htouch hxb hyb
    have hox : ∀ y o, (s'.sobjs y).owner = some o → y ≠ x := by
      rintro y o hoy rfl
      simp [htouch.owner, hx1] at hoy
    refine ⟨hq', ⟨rings', hrec'⟩, fun a y hb => ?_, fun w => ?_, fun a hcyc => ?_⟩
    · have hyx : y ≠ x := by
        rintro rfl
        simp [hxb] at hb
      rw [(hyb y hyx).1, hy1 y hyx] at hb
      rw [htouch.owner, hy1 y hyx]
      exact h.owned a y hb
    · by_cases hw : w = t
      · apply covered_of_not_blocked
        rw [htouch.wchan, hw]
        exact ht
      · intro y q o hwy hoy
        have hyx := hox y o hoy
        rw [htouch.wchan] at hwy
        rw [htouch.owner, hy1 y hyx] at hoy
        rw [htouch.prio hw, htouch.pri, (hyb y hyx).1, (hyb y hyx).2, hy1 y hyx]
        exact h.covered w y q o hwy hoy
    · apply h.acyclic a
      refine mono ?_ a a hcyc
      rintro w o ⟨y, q, hwy, hoy⟩
      have hyx := hox y o hoy
      rw [htouch.wchan] at hwy
      rw [htouch.owner, hy1 y hyx] at hoy
      exact ⟨y, q, hwy, hoy⟩
  unfold System.waive
  cases hb : (s1.sobjs x).benef with
  | none =>
    exact ⟨s1, rfl, hfinish s1 rings hrec1 hq1 (touched_refl s1 t) hb fun _ _ => ⟨rfl, rfl⟩, hb⟩
  | some b =>
    obtain rfl : b = t := h.owned.benef_eq ho (by rwa [hx1] at hb)
    obtain ⟨s', hs', hrec', hq', htouch, hxb, hyb⟩ := hrec1.cancel hq1 hb
    exact ⟨s', hs', hfinish s' _ hrec' hq' htouch hxb hyb, hxb⟩

theorem Inv.release [Fintype O] (h : Inv s) (ht : (s.threads t).wchan = none)
    (ho : (s.sobjs x).owner = some t) (all q : Bool) :
    ∃ s', s.release x all q = some s' ∧ Inv s' := by
  obtain ⟨s1, hs1, hinv, hxb⟩ := h.waive ht ho
  unfold System.release
  rw [hs1, Option.bind_some]
  have hwake : Inv (if all then s1.wakeall x q else s1.wakeone x q) ∧
      ((if all then s1.wakeall x q else s1.wakeone x q).sobjs x).benef = none := by
    split_ifs
    · obtain ⟨hinv', hb⟩ := hinv.wakeall x q
      exact ⟨hinv', (hb x).trans hxb⟩
    · obtain ⟨hinv', hb⟩ := hinv.wakeone x q
      exact ⟨hinv', (hb x).trans hxb⟩
  exact ⟨_, tstileFree_of_none hwake.2, hwake.1⟩

theorem Inv.acquire [Fintype O] (h : Inv s) (ht : (s.threads t).wchan = none)
    (ho : (s.sobjs x).owner = none) : ∃ s', s.acquire t x = some s' ∧ Inv s' := by
  obtain ⟨rings, hrec⟩ := h.records
  have hbenef : (s.sobjs x).benef = none := by
    by_contra hne
    obtain ⟨b, hb⟩ := Option.ne_none_iff_exists'.mp hne
    simp [h.owned b x hb] at ho
  unfold System.acquire
  dsimp only
  set s1 := s.setSobj x { s.sobjs x with owner := some t } with hs1
  have hq1 : Queues s1 := setOwner_queues h.queues (some t)
  have hrec1 : Records s1 rings := setOwner_records hrec (some t)
  have hx1 : s1.sobjs x = { s.sobjs x with owner := some t } := setSobj_self ..
  have hy1 : ∀ y, y ≠ x → s1.sobjs y = s.sobjs y := fun y hy => setSobj_of_ne _ _ hy
  have hb1 : (s1.sobjs x).benef = none := by
    rw [hx1]
    exact hbenef
  have howned1 : Owned s1 := by
    intro a y hb
    have hyx : y ≠ x := by
      rintro rfl
      simp [hb1] at hb
    rw [hy1 y hyx] at hb ⊢
    exact h.owned a y hb
  have hac1 : Acyclic s1 := by
    apply acquire_acyclic (t := t) h.acyclic
    · rintro b ⟨y, q, hty, -⟩
      have hty' : (s.threads t).wchan = some (y, q) := hty
      simp [ht] at hty'
    · rintro a b ⟨y, q, hay, hoy⟩
      by_cases hyx : y = x
      · subst hyx
        rw [hx1] at hoy
        exact .inr (Option.some.inj hoy).symm
      · rw [hy1 y hyx] at hoy
        exact .inl ⟨y, q, hay, hoy⟩
  have hcov1 : ∀ w y q o, y ≠ x → (s1.threads w).wchan = some (y, q) →
      (s1.sobjs y).owner = some o → s1.prio w ≤ (s1.threads o).pri ∨
        (s1.sobjs y).benef = some o ∧ s1.prio w ≤ (s1.sobjs y).epriHi := by
    intro w y q o hyx hwy hoy
    rw [hy1 y hyx] at hoy ⊢
    exact h.covered w y q o hwy hoy
  split_ifs with hempty
  · refine ⟨s1, rfl, hq1, ⟨rings, hrec1⟩, howned1, fun w y q o hwy => hcov1 w y q o ?_ hwy, hac1⟩
    rintro rfl
    have hmem := (hq1.mem w y q).mpr hwy
    cases q <;> simp [hempty.1, hempty.2] at hmem
  · unfold System.amend
    rw [hb1, if_neg (by simp), waive_of_none hb1, Option.map_some]
    refine ⟨_, rfl, ?_⟩
    unfold System.inheritfrom
    dsimp only
    split_ifs with hlt
    · obtain ⟨hrec2, htouch, hxb, hxp, hyb⟩ := hrec1.added hb1 hlt
      refine ⟨(hq1.addPirec x t _).raise t _, ⟨_, hrec2⟩, fun a y hb => ?_, fun w => ?_, ?_⟩
      · rw [htouch.owner]
        by_cases hyx : y = x
        · subst hyx
          rw [hxb] at hb
          rw [hx1]
          exact hb
        · rw [(hyb y hyx).1] at hb
          exact howned1 a y hb
      · by_cases hwt : w = t
        · apply covered_of_not_blocked
          rw [htouch.wchan, hwt]
          exact ht
        · intro y q o hwy hoy
          rw [htouch.wchan] at hwy
          rw [htouch.owner] at hoy
          rw [htouch.prio hwt, htouch.pri]
          by_cases hyx : y = x
          · subst hyx
            rw [hx1] at hoy
            cases hoy
            exact .inr ⟨hxb, (hq1.le_tstileMaxpri hwy).trans hxp⟩
          · rw [(hyb y hyx).1, (hyb y hyx).2]
            exact hcov1 w y q o hyx hwy hoy
      · unfold Acyclic
        rw [htouch.waits]
        exact hac1
    · refine ⟨hq1, ⟨rings, hrec1⟩, howned1, fun w y q o hwy hoy => ?_, hac1⟩
      by_cases hyx : y = x
      · subst hyx
        rw [hx1] at hoy
        cases hoy
        exact .inl ((hq1.le_tstileMaxpri hwy).trans (not_lt.mp hlt))
      · exact hcov1 w y q o hyx hwy hoy

end Operations

theorem Inv.step [Fintype T] [Fintype O] (h : Inv s) (hstep : Step s s') : Inv s' := by
  cases hstep with
  | block t x q hblock hs =>
    obtain ⟨s'', he, hinv⟩ := h.block hblock q
    cases he.symm.trans hs
    exact hinv
  | release t x all q ht ho hs =>
    obtain ⟨s'', he, hinv⟩ := h.release ht ho all q
    cases he.symm.trans hs
    exact hinv
  | acquire t x ht ho hs =>
    obtain ⟨s'', he, hinv⟩ := h.acquire ht ho
    cases he.symm.trans hs
    exact hinv

theorem Inv.run [Fintype T] [Fintype O] {s0 : System T O} (h0 : s0.Initial)
    (h : ReflTransGen Step s0 s) : Inv s := by
  induction h with
  | refl => exact h0.inv
  | tail _ hstep ih => exact ih.step hstep

/-- In every state of every run: no blocked thread has a higher dispatch priority than the owner of
its object; the ring of each thread has the records of which it is the beneficiary; its effective
priority is 0 when the ring is empty and else at least as high as all of them; and every operation
ends. -/
theorem no_priority_inversion [Fintype T] [Fintype O] {s0 : System T O} (h0 : s0.Initial)
    (h : ReflTransGen Step s0 s) :
    (∀ w x q o, (s.threads w).wchan = some (x, q) → (s.sobjs x).owner = some o →
      s.prio w ≤ s.prio o) ∧
    (∀ t, ∃ l, Ring s.forw s.back l ∧ l.Nodup ∧ (s.threads t).prioinv = l.head? ∧
      (∀ x, x ∈ l ↔ (s.sobjs x).benef = some t) ∧ (l = [] → (s.threads t).epri = 0) ∧
      ∀ x ∈ l, (s.sobjs x).epriHi ≤ (s.threads t).epri) ∧
    (∀ t x q, s.MayBlock t x → (s.block t x q).isSome) ∧
    (∀ t x, (s.threads t).wchan = none → (s.sobjs x).owner = some t →
      ∀ all q, (s.release x all q).isSome) ∧
    ∀ t x, (s.threads t).wchan = none → (s.sobjs x).owner = none → (s.acquire t x).isSome := by
  have hinv := Inv.run h0 h
  obtain ⟨rings, hrec⟩ := hinv.records
  refine ⟨fun w x q o hw ho => (hinv.covered w).prio_le hrec hw ho, fun t => ?_,
    fun t x q hblock => ?_, fun t x ht ho all q => ?_, fun t x ht ho => ?_⟩
  · exact ⟨rings t, hrec.ring t, hrec.nodup t, hrec.head t, hrec.mem t, hrec.unset t,
      fun x hx => hrec.high t x ((hrec.mem t x).mp hx)⟩
  · obtain ⟨s', he, -⟩ := hinv.block hblock q
    rw [he]
    rfl
  · obtain ⟨s', he, -⟩ := hinv.release ht ho all q
    rw [he]
    rfl
  · obtain ⟨s', he, -⟩ := hinv.acquire ht ho
    rw [he]
    rfl

/-- The owner of the object has the lowest priority. -/
def lowOwner : System (Fin 3) Unit where
  threads t := ⟨![1, 5, 7] t, 0, none, none⟩
  sobjs _ := ⟨some 0, true, fun _ => [], none, 0⟩
  forw x := x
  back x := x

theorem lowOwner_initial : lowOwner.Initial :=
  ⟨fun _ => rfl, fun _ => rfl, fun _ => rfl, fun _ _ => rfl, fun _ => rfl⟩

/-- Two threads of higher priorities block, the lower one first. -/
theorem lowOwner_run : ∃ s, ReflTransGen Step lowOwner s ∧ (s.sobjs ()).sleepq true = [2, 1] ∧
    (s.sobjs ()).owner = some 0 ∧ (s.threads 2).wchan = some ((), true) ∧ s.prio 2 = 7 ∧
    s.prio 0 ≠ (s.threads 0).pri := by
  obtain ⟨s, hs, ho, h0, h2, hrest⟩ : ∃ s, lowOwner.block 1 () true = some s ∧
      (s.sobjs ()).owner = some 0 ∧ (s.threads 0).wchan = none ∧ (s.threads 2).wchan = none ∧
      ∃ s', s.block 2 () true = some s' ∧ (s'.sobjs ()).sleepq true = [2, 1] ∧
        (s'.sobjs ()).owner = some 0 ∧ (s'.threads 2).wchan = some ((), true) ∧
        s'.prio 2 = 7 ∧ s'.prio 0 ≠ (s'.threads 0).pri :=
    ⟨_, rfl, rfl, rfl, rfl, _, rfl, rfl, rfl, rfl, rfl, by decide⟩
  obtain ⟨s', hs', hfacts⟩ := hrest
  exact ⟨s', .tail (.single (.block 1 () true (mayBlock_awake rfl rfl (by decide) rfl) hs))
    (.block 2 () true (mayBlock_awake h2 ho (by decide) h0) hs'), hfacts⟩

/-- In every state of every run the queues hold the blocked threads, each once, in the order of the
priorities that they have by now, and a thread has a priority that is not its own only while it owns
an object with a record of a higher one. -/
theorem run_queues_ordered [Fintype T] [Fintype O] {s0 : System T O} (h0 : s0.Initial)
    (h : ReflTransGen Step s0 s) :
    (∀ t x q, t ∈ (s.sobjs x).sleepq q ↔ (s.threads t).wchan = some (x, q)) ∧
    (∀ x q, ((s.sobjs x).sleepq q).Nodup ∧
      ((s.sobjs x).sleepq q).Pairwise fun a b => s.prio b ≤ s.prio a) ∧
    ∀ t, s.prio t ≠ (s.threads t).pri →
      ∃ x, (s.sobjs x).owner = some t ∧ (s.threads t).pri < (s.sobjs x).epriHi := by
  have hinv := Inv.run h0 h
  obtain ⟨rings, hrec⟩ := hinv.records
  refine ⟨hinv.queues.mem, fun x q => ⟨hinv.queues.nodup x q, hinv.queues.sorted x q⟩,
    fun t ht => ?_⟩
  cases hring : rings t with
  | nil =>
    rw [System.prio, Kthread.dispPrio, hrec.unset t hring] at ht
    exact absurd rfl ht
  | cons x l =>
    have hb := (hrec.mem t x).mp (hring ▸ List.mem_cons_self)
    exact ⟨x, hinv.owned t x hb, hrec.low t x hb⟩

/-- The two threads stand in the order of their priorities, and the owner runs with the higher
one. -/
theorem run_queues_ordered_two : ∃ s, ReflTransGen Step lowOwner s ∧
    (s.sobjs ()).sleepq true = [2, 1] ∧
    ((s.sobjs ()).sleepq true).Pairwise (fun a b => s.prio b ≤ s.prio a) ∧
    ∃ x, (s.sobjs x).owner = some 0 ∧ (s.threads 0).pri < (s.sobjs x).epriHi := by
  obtain ⟨s, hrun, hq, -, -, -, hne⟩ := lowOwner_run
  obtain ⟨-, hsorted, hraised⟩ := run_queues_ordered lowOwner_initial hrun
  exact ⟨s, hrun, hq, (hsorted () true).2, hraised 0 hne⟩

theorem no_priority_inversion_two : ∃ s, ReflTransGen Step lowOwner s ∧ s.prio 2 = 7 ∧
    s.prio 2 ≤ s.prio 0 := by
  obtain ⟨s, hrun, -, ho, hw, hp, -⟩ := lowOwner_run
  exact ⟨s, hrun, hp, (no_priority_inversion lowOwner_initial hrun).1 2 () true 0 hw ho⟩

end Sol26.Inherit
