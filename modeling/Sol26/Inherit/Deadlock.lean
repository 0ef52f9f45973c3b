import Sol26.Inherit.Runs

/-!
# When a cycle of blocked threads is noticed

The walk of `pi_willto` panics when it comes back to the thread that blocked. It stops before that
at a thread that is not priority inverted, so that a cycle is noticed only if every thread of it is
inverted when the walk gets there.
-/
namespace Sol26.Inherit

open Rings Function Relation

variable {T O : Type} {s s' : System T O} {t w o : T} {x : O} {q : Bool}

/-- How a call of `pi_willto` ends, or that it still goes on. -/
inductive Verdict
  | panics | returns | walks
deriving DecidableEq

/-- All threads of the cycle that `t` closes are priority inverted with respect to the higher one of
`t` and the thread that waits for them. -/
def System.Inverted (s : System T O) (t o : T) : Prop :=
  ∀ w o', w = t ∧ o' = o ∨ ReflTransGen s.Waits o w ∧ s.Waits w o' → o' ≠ t →
    (s.threads o').pri < max (s.prio t) (s.prio w)

/-- A thread waits for one thread at most. -/
theorem Waits_unique {a b c : T} (hb : s.Waits a b) (hc : s.Waits a c) : b = c := by
  obtain ⟨x, q, hx, hox⟩ := hb
  obtain ⟨y, r, hy, hoy⟩ := hc
  cases hx.symm.trans hy
  exact Option.some.inj (hox.symm.trans hoy)

/-- Along the chain the priorities do not fall. -/
theorem prio_le_of_chain (hmono : ∀ a b, s.Waits a b → s.prio a ≤ s.prio b) {a b : T}
    (h : ReflTransGen s.Waits a b) : s.prio a ≤ s.prio b := by
  induction h with
  | refl => exact le_refl _
  | tail _ hbc ih => exact ih.trans (hmono _ _ hbc)

/-- The threads from `o` on are inverted with respect to a walk that comes with the priority `p`. -/
def Ahead (s : System T O) (t : T) (p : ℕ) (o : T) : Prop :=
  (o ≠ t → (s.threads o).pri < p) ∧
    ∀ w o', ReflTransGen s.Waits o w → s.Waits w o' → o' ≠ t →
      (s.threads o').pri < max p (s.prio w)

/-- The walk goes one thread on. -/
theorem ahead_step {p : ℕ} {o' : T} (hmono : ∀ a b, s.Waits a b → s.prio a ≤ s.prio b)
    (hwait : s.Waits o o') (hp : (s.threads o).pri < p) :
    Ahead s t p o ↔ Ahead s t (max (s.prio o) p) o' := by
  have hmax : ∀ w, ReflTransGen s.Waits o' w →
      max p (s.prio w) = max (max (s.prio o) p) (s.prio w) := by
    intro w hw
    have hle := prio_le_of_chain hmono (ReflTransGen.head hwait hw)
    omega
  constructor
  · intro h
    refine ⟨fun hne => ?_, fun w b hw hb hne => ?_⟩
    · rw [max_comm]
      exact h.2 o o' .refl hwait hne
    · rw [← hmax w hw]
      exact h.2 w b (.head hwait hw) hb hne
  · intro h
    refine ⟨fun _ => hp, fun w b hw hb hne => ?_⟩
    rcases hw.cases_head with rfl | ⟨c, hc, hw⟩
    · obtain rfl := Waits_unique hwait hb
      rw [max_comm]
      exact h.1 hne
    · obtain rfl := Waits_unique hwait hc
      rw [hmax w hw]
      exact h.2 w b hw hb hne

theorem ahead_iff_inverted : Ahead s t (s.prio t) o ↔ s.Inverted t o := by
  constructor
  · rintro h w o' (⟨rfl, rfl⟩ | ⟨hw, hwait⟩) hne
    · rw [max_self]
      exact h.1 hne
    · exact h.2 w o' hw hwait hne
  · intro h
    refine ⟨fun hne => ?_, fun w o' hw hwait hne => h w o' (.inr ⟨hw, hwait⟩) hne⟩
    have hlt := h t o (.inl ⟨rfl, rfl⟩) hne
    rwa [max_self] at hlt

variable [DecidableEq T] [DecidableEq O]

namespace System

/-- The ways of the loop of `pi_willto`: `deadlock_panic`, and a return. -/
def willtoVerdict (willing : T) : ℕ → System T O → T → O → T → Verdict
  | 0, _, _, _, _ => .walks
  | n + 1, s, waiter, x, owner =>
    if willing = owner then .panics
    else if s.prio waiter ≤ (s.threads owner).pri then .returns
    else
      let s := s.inherit x owner (s.prio waiter)
      match (s.threads owner).wchan with
      | none => .returns
      | some (x', _) =>
        match (s.sobjs x').owner with
        | some owner' => willtoVerdict willing n s owner x' owner'
        | none => .returns

/-- A thread is put to sleep on an object, as in `t_block`. -/
def sleep (s : System T O) (t : T) (x : O) (q : Bool) : System T O :=
  let s := s.setThread t { s.threads t with wchan := some (x, q) }
  s.setSleepq x q (sleepqInsert s.prio t ((s.sobjs x).sleepq q))

/-- How `pi_willto` ends for a thread that blocks. -/
def blockVerdict [Fintype T] (s : System T O) (t : T) (x : O) (q : Bool) : Verdict :=
  match (s.sobjs x).owner with
  | none => .returns
  | some owner => willtoVerdict t (Fintype.card T) (s.sleep t x q) t x owner

end System

/-! ### Inheriting -/

theorem touched_addPirec (s : System T O) (x : O) (t : T) (p : ℕ) : Touched s (s.addPirec x t p) t := by
  have hset := touched_setSobj s t x (some t) p
  apply hset.trans
  unfold System.addPirec
  dsimp only
  cases (((s.setSobj x { s.sobjs x with epriHi := p, benef := some t }).threads t).prioinv) with
  | none =>
    exact ⟨fun a ha => setThread_of_ne _ _ ha, ⟨_, some x, setThread_self ..⟩,
      fun y => ⟨_, _, _, rfl⟩⟩
  | some r => exact ⟨fun _ _ => rfl, ⟨_, _, rfl⟩, fun _ => ⟨_, _, _, rfl⟩⟩

theorem addPirec_prio (s : System T O) (x : O) (t : T) (p : ℕ) :
    (s.addPirec x t p).prio t = s.prio t := by
  unfold System.addPirec
  dsimp only
  cases hr : ((s.setSobj x { s.sobjs x with epriHi := p, benef := some t }).threads t).prioinv with
  | none =>
    unfold System.prio
    rw [show System.threads
      { (s.setSobj x { s.sobjs x with epriHi := p, benef := some t }).setThread t
          { (s.setSobj x { s.sobjs x with epriHi := p, benef := some t }).threads t with
            prioinv := some x } with
        forw := update s.forw x x, back := update s.back x x } t =
      { s.threads t with prioinv := some x } from setThread_self ..]
    rfl
  | some r => rfl

/-- The priority of a thread after it was raised. -/
theorem raise_prio (s : System T O) (t : T) {p : ℕ} (hp : 0 < p) :
    (s.raise t p).prio t = max (s.prio t) p := by
  unfold System.raise
  by_cases hlt : s.prio t < p
  · rw [if_pos hlt, max_eq_right hlt.le]
    unfold System.prio
    rw [changepri_threads, update_self, Kthread.dispPrio]
    exact if_pos hp.ne'
  · rw [if_neg hlt, max_eq_left (not_lt.mp hlt)]

/-- The record before the priority is raised. -/
theorem inherit_record (s : System T O) (x : O) (t : T) (p : ℕ) :
    ∃ s', s.inherit x t p = s'.raise t p ∧ Touched s s' t ∧ s'.prio t = s.prio t := by
  unfold System.inherit
  dsimp only
  by_cases hx : (s.sobjs x).benef ≠ none
  · rw [if_pos hx]
    by_cases hlow : (s.sobjs x).epriHi < p
    · rw [if_pos hlow]
      exact ⟨_, rfl, touched_setSobj s t x (s.sobjs x).benef p, rfl⟩
    · rw [if_neg hlow]
      exact ⟨s, rfl, touched_refl s t, rfl⟩
  · rw [if_neg hx]
    exact ⟨_, rfl, touched_addPirec s x t p, addPirec_prio s x t p⟩

theorem touched_inherit (s : System T O) (x : O) {p : ℕ} (hp : (s.threads t).pri < p) :
    Touched s (s.inherit x t p) t ∧ (s.inherit x t p).prio t = max (s.prio t) p := by
  obtain ⟨s', heq, htouch, hprio⟩ := inherit_record s x t p
  have hp' : (s'.threads t).pri < p := by
    rw [htouch.pri]
    exact hp
  rw [heq, ← hprio]
  exact ⟨htouch.trans (raise_spec s' t p hp').1, raise_prio s' t (by omega)⟩

/-! ### The walk around a cycle -/

/-- The loop of `pi_willto` along a chain that leads to the thread that blocked: it panics if all
threads on its way are inverted, and returns at the first one that is not. -/
theorem willtoVerdict_closing [Finite T] {s0 : System T O} {n : ℕ} (hac : Acyclic s0)
    (hmono : ∀ a b, s0.Waits a b → s0.prio a ≤ s0.prio b) (ht : (s0.threads t).wchan = none)
    (hwchan : ∀ a, a ≠ t → (s.threads a).wchan = (s0.threads a).wchan)
    (hpri : ∀ a, (s.threads a).pri = (s0.threads a).pri)
    (howner : ∀ y, (s.sobjs y).owner = (s0.sobjs y).owner)
    (hprio : ∀ a, ReflTransGen s0.Waits o a → s.prio a = s0.prio a)
    (hpath : ReflTransGen s0.Waits o t) (hn : (s0.chain o).ncard ≤ n) :
    (System.willtoVerdict t n s w x o = .panics ↔ Ahead s0 t (s.prio w) o) ∧
      (¬ Ahead s0 t (s.prio w) o → System.willtoVerdict t n s w x o = .returns) := by
  induction n generalizing s w x o with
  | zero => exact absurd (chain_pos s0 o) (by omega)
  | succ n ih =>
    unfold System.willtoVerdict
    by_cases hto : t = o
    · subst hto
      rw [if_pos rfl]
      have hahead : Ahead s0 t (s.prio w) t := by
        refine ⟨fun hne => absurd rfl hne, fun a b ha hb _ => ?_⟩
        -- the thread does not wait for any other
        rcases ha.cases_head with rfl | ⟨c, ⟨y, r, hy, -⟩, -⟩
        · obtain ⟨y, r, hy, -⟩ := hb
          simp [ht] at hy
        · simp [ht] at hy
      exact ⟨iff_of_true rfl hahead, fun hnot => absurd hahead hnot⟩
    · rw [if_neg hto]
      by_cases hle : s.prio w ≤ (s.threads o).pri
      · rw [if_pos hle]
        have hnot : ¬ Ahead s0 t (s.prio w) o := by
          intro h
          have hlt := h.1 (Ne.symm hto)
          rw [← hpri] at hlt
          omega
        exact ⟨iff_of_false (by decide) hnot, fun _ => rfl⟩
      · rw [if_neg hle]
        have hp : (s.threads o).pri < s.prio w := not_le.mp hle
        obtain ⟨htouch, hnew⟩ := touched_inherit s x hp
        obtain ⟨o', hwait, hrest⟩ := hpath.cases_head.resolve_left (Ne.symm hto)
        obtain ⟨x', q', hx', ho'⟩ := hwait
        have hwait : s0.Waits o o' := ⟨x', q', hx', ho'⟩
        have hb : ((s.inherit x o (s.prio w)).threads o).wchan = some (x', q') := by
          rw [htouch.wchan, hwchan o (Ne.symm hto), hx']
        have hob : ((s.inherit x o (s.prio w)).sobjs x').owner = some o' := by
          rw [htouch.owner, howner, ho']
        dsimp only
        rw [hb]
        dsimp only
        rw [hob]
        dsimp only
        have hstep := @ahead_step T O s0 t o (s.prio w) o' hmono hwait (by rw [← hpri]; exact hp)
        rw [hstep, ← hprio o .refl, ← hnew]
        apply ih
        · intro a ha
          rw [htouch.wchan, hwchan a ha]
        · intro a
          rw [htouch.pri, hpri]
        · intro y
          rw [htouch.owner, howner]
        · intro a ha
          have hne : a ≠ o := by
            rintro rfl
            exact hac a (TransGen.head' hwait ha)
          rw [htouch.prio hne, hprio a (.head hwait ha)]
        · exact hrest
        · have hlt := chain_lt hac hwait
          omega

/-- A loop that ends in a state is one that returns. -/
theorem willtoVerdict_returns [Fintype O] {willing : T} {n : ℕ}
    (h : System.willtoLoop willing n s w x o = some s') :
    System.willtoVerdict willing n s w x o = .returns := by
  induction n generalizing s w x o with
  | zero => exact absurd h (by simp [System.willtoLoop])
  | succ n ih =>
    unfold System.willtoLoop at h
    unfold System.willtoVerdict
    by_cases hwo : willing = o
    · simp [if_pos hwo] at h
    · rw [if_neg hwo] at h ⊢
      by_cases hle : s.prio w ≤ (s.threads o).pri
      · rw [if_pos hle]
      · rw [if_neg hle] at h ⊢
        dsimp only at h ⊢
        cases hb : ((s.inherit x o (s.prio w)).threads o).wchan with
        | none => rfl
        | some y =>
          rw [hb] at h
          dsimp only at h ⊢
          cases ho : ((s.inherit x o (s.prio w)).sobjs y.1).owner with
          | none => rfl
          | some o' =>
            rw [ho] at h
            exact ih h

/-! ### Blocking -/

theorem sleep_wchan {a : T} (ha : a ≠ t) :
    ((s.sleep t x q).threads a).wchan = (s.threads a).wchan := by
  rw [show (s.sleep t x q).threads a = s.threads a from setThread_of_ne _ _ ha]

theorem sleep_self : (s.sleep t x q).threads t = { s.threads t with wchan := some (x, q) } :=
  setThread_self ..

theorem sleep_pri (a : T) : ((s.sleep t x q).threads a).pri = (s.threads a).pri := by
  by_cases ha : a = t
  · rw [ha, sleep_self]
  · rw [show (s.sleep t x q).threads a = s.threads a from setThread_of_ne _ _ ha]

theorem sleep_prio (a : T) : (s.sleep t x q).prio a = s.prio a := by
  unfold System.prio
  by_cases ha : a = t
  · rw [ha, sleep_self]
    rfl
  · rw [show (s.sleep t x q).threads a = s.threads a from setThread_of_ne _ _ ha]

theorem sleep_owner (y : O) : ((s.sleep t x q).sobjs y).owner = (s.sobjs y).owner := by
  unfold System.sleep
  dsimp only
  obtain ⟨sq, he⟩ := setSleepq_sobjs (s.setThread t { s.threads t with wchan := some (x, q) }) x q
    (sleepqInsert (s.setThread t { s.threads t with wchan := some (x, q) }).prio t
      (((s.setThread t { s.threads t with wchan := some (x, q) }).sobjs x).sleepq q)) y
  rw [he]
  rfl

/-- A block that ends in a state is one that returns. -/
theorem blockVerdict_returns [Fintype T] [Fintype O] (h : s.block t x q = some s') :
    s.blockVerdict t x q = .returns := by
  have hwillto : (s.sleep t x q).willto t = some s' := h
  unfold System.willto at hwillto
  rw [sleep_self] at hwillto
  dsimp only at hwillto
  rw [sleep_owner] at hwillto
  unfold System.blockVerdict
  cases ho : (s.sobjs x).owner with
  | none => rfl
  | some o =>
    rw [ho] at hwillto
    exact willtoVerdict_returns hwillto

/-- As long as no cycle has been closed, a call of `pi_willto` that closes none returns. The call
for the operation that closes one panics if all threads of the cycle are priority inverted, and else
it returns. -/
theorem first_cycle_verdict [Fintype T] [Fintype O] {s0 : System T O} (h0 : s0.Initial)
    (h : ReflTransGen Step s0 s) (t : T) (x : O) (q : Bool) :
    (s.MayBlock t x → s.blockVerdict t x q = .returns) ∧
    ∀ o, (s.threads t).wchan = none → (s.sobjs x).owner = some o → ReflTransGen s.Waits o t →
      (s.blockVerdict t x q = .panics ↔ s.Inverted t o) ∧
      (¬ s.Inverted t o → s.blockVerdict t x q = .returns) := by
  have hinv := Inv.run h0 h
  obtain ⟨rings, hrec⟩ := hinv.records
  constructor
  · intro hblock
    obtain ⟨s', hs', -⟩ := hinv.block hblock q
    exact blockVerdict_returns hs'
  · intro o ht ho hpath
    have hmono : ∀ a b, s.Waits a b → s.prio a ≤ s.prio b := by
      rintro a b ⟨y, r, hy, hb⟩
      exact (hinv.covered a).prio_le hrec hy hb
    have hcard : (s.chain o).ncard ≤ Fintype.card T := by
      rw [← Nat.card_eq_fintype_card, ← Set.ncard_univ]
      exact Set.ncard_le_ncard (Set.subset_univ _) (Set.toFinite _)
    have hwalk := willtoVerdict_closing (s := s.sleep t x q) (w := t) (x := x) hinv.acyclic hmono ht
      (fun a ha => sleep_wchan ha) sleep_pri sleep_owner (fun a _ => sleep_prio a) hpath hcard
    rw [sleep_prio, ahead_iff_inverted] at hwalk
    unfold System.blockVerdict
    rw [ho]
    exact hwalk

/-- The first two of three threads own an object each. -/
def twoOwners (p : ℕ) : System (Fin 3) Bool where
  threads t := ⟨![p, 2, 3] t, 0, none, none⟩
  sobjs x := ⟨some (finTwoEquiv.symm x).castSucc, true, fun _ => [], none, 0⟩
  forw x := x
  back x := x

theorem twoOwners_initial (p : ℕ) : (twoOwners p).Initial :=
  ⟨fun _ => rfl, fun _ => rfl, fun _ => rfl, fun _ _ => rfl, fun _ => rfl⟩

theorem twoOwners_mayBlock (p : ℕ) : (twoOwners p).MayBlock 1 false :=
  mayBlock_awake rfl rfl (by decide) rfl

/-- The thread 1 waits for the thread 0, which then waits for it and has the higher priority: the
walk comes back and panics. -/
theorem first_cycle_verdict_higher :
    ∃ s, ReflTransGen Step (twoOwners 3) s ∧ ReflTransGen s.Waits 1 0 ∧
      s.blockVerdict 0 true true = .panics := by
  obtain ⟨s, hs, hw, ho, ht, ho', hp, hp'⟩ : ∃ s, (twoOwners 3).block 1 false true = some s ∧
      (s.threads 1).wchan = some (false, true) ∧ (s.sobjs false).owner = some 0 ∧
      (s.threads 0).wchan = none ∧ (s.sobjs true).owner = some 1 ∧ s.prio 0 = 3 ∧
      (s.threads 1).pri = 2 := ⟨_, rfl, rfl, rfl, rfl, rfl, rfl, rfl⟩
  have hwait : s.Waits 1 0 := ⟨false, true, hw, ho⟩
  have hrun : ReflTransGen Step (twoOwners 3) s :=
    .single (.block 1 false true (twoOwners_mayBlock 3) hs)
  refine ⟨s, hrun, .single hwait,
    ((first_cycle_verdict (twoOwners_initial 3) hrun 0 true true).2 1 ht ho' (.single hwait)).1.mpr ?_⟩
  -- the thread 1 is the only other one of the cycle
  have hstop : ∀ b, ¬ s.Waits 0 b := by
    rintro b ⟨x, q, hx, -⟩
    simp [ht] at hx
  rintro w o' (⟨rfl, rfl⟩ | ⟨hpath, hb⟩) hne
  · rw [hp, hp']
    decide
  · rcases hpath.cases_head with rfl | ⟨c, hc, hpath⟩
    · exact absurd (Waits_unique hwait hb).symm hne
    · obtain rfl := Waits_unique hwait hc
      rcases hpath.cases_head with rfl | ⟨c, hc, -⟩
      · exact absurd hb (hstop o')
      · exact absurd hc (hstop c)

/-- A walk that comes with a higher priority to two threads that wait for each other goes around
for ever. -/
theorem willtoVerdict_walks {a b c : T} {y : O} {r : Bool} {p : ℕ} (hca : c ≠ a) (hcb : c ≠ b)
    (ha : (s.threads a).wchan = some (y, q)) (hb : (s.threads b).wchan = some (x, r))
    (hx : (s.sobjs x).owner = some a) (hy : (s.sobjs y).owner = some b)
    (hpa : (s.threads a).pri < p) (hpb : (s.threads b).pri < p) (hw : p ≤ s.prio w) (n : ℕ) :
    System.willtoVerdict c n s w x a = .walks := by
  induction n generalizing s w a b x y q r with
  | zero => rfl
  | succ n ih =>
    obtain ⟨htouch, hnew⟩ := touched_inherit s x (hpa.trans_le hw)
    have ha' : ((s.inherit x a (s.prio w)).threads a).wchan = some (y, q) := by
      rw [htouch.wchan, ha]
    have hy' : ((s.inherit x a (s.prio w)).sobjs y).owner = some b := by rw [htouch.owner, hy]
    have hb' : ((s.inherit x a (s.prio w)).threads b).wchan = some (x, r) := by
      rw [htouch.wchan, hb]
    unfold System.willtoVerdict
    rw [if_neg hca, if_neg (by omega)]
    dsimp only
    rw [ha']
    dsimp only
    rw [hy']
    -- the two threads change places
    apply ih hcb hca hb' ha' hy'
    · rw [htouch.owner, hx]
    · rwa [htouch.pri]
    · rwa [htouch.pri]
    · rw [hnew]
      exact le_max_of_le_right hw

/-- With a lower priority of its own the thread 0 has inherited the one of the thread 1, which is
then not inverted: the cycle is closed and the call returns. When the thread 2 then blocks on an
object of one of them, its call does not end. -/
theorem cycle_not_noticed :
    ∃ s s', ReflTransGen Step (twoOwners 1) s ∧ (s.threads 0).wchan = none ∧
      (s.sobjs true).owner = some 1 ∧ ReflTransGen s.Waits 1 0 ∧
      s.blockVerdict 0 true true = .returns ∧ s.block 0 true true = some s' ∧
      (s'.sobjs false).owner = some 0 ∧
      ∀ n, System.willtoVerdict 2 n (s'.sleep 2 false true) 2 false 0 = .walks := by
  obtain ⟨s, s', hs, hw, ho, ht, ho', hv, hs'⟩ : ∃ s s', (twoOwners 1).block 1 false true = some s ∧
      (s.threads 1).wchan = some (false, true) ∧ (s.sobjs false).owner = some 0 ∧
      (s.threads 0).wchan = none ∧ (s.sobjs true).owner = some 1 ∧
      s.blockVerdict 0 true true = .returns ∧ s.block 0 true true = some s' ∧
      (s'.sobjs false).owner = some 0 ∧
      ∀ n, System.willtoVerdict 2 n (s'.sleep 2 false true) 2 false 0 = .walks := by
    refine ⟨_, _, rfl, rfl, rfl, rfl, rfl, rfl, rfl, rfl, fun n => ?_⟩
    exact willtoVerdict_walks (b := 1) (p := 3) (by decide) (by decide) rfl rfl rfl rfl (by decide)
      (by decide) (by decide) n
  exact ⟨s, s', .single (.block 1 false true (twoOwners_mayBlock 1) hs), ht, ho',
    .single ⟨false, true, hw, ho⟩, hv, hs'⟩

end Sol26.Inherit
