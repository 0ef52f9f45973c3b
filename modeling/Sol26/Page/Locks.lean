import Mathlib.Tactic

/-!
# Page locks

Model of `page_lock` (without `P_RECLAIM`), `page_trylock`, `page_tryupgrade`, `page_downgrade` and
`page_unlock` from `uts/common/vm/page_lock.c`, with the macro `se_trylock`. Each runs under the
mutex of the page from its first access to `p_selock` on, so it is one step; `page_lock` that has to
wait takes another one when it has been woken. The locks that a thread holds are kept beside the
state of the kernel. The counters are integers, so that a release too many shows as a value below
zero.
-/
namespace Sol26.Page

open Function (update update_of_ne update_self)

inductive Se
  | shared
  | excl
deriving DecidableEq

inductive Status (P : Type*)
  | running
  | asleep (pp : P) (se : Se)
  | woken
deriving DecidableEq

structure System (P T : Type*) where
  selock : P → ℤ
  /-- `t_kpri_req` -/
  kpri : T → ℤ
  threads : T → Status P
  /-- The pages that a thread holds exclusively. -/
  excl : T → Finset P
  /-- The threads that hold a page shared. -/
  shared : P → Multiset T

variable {P T : Type*} [DecidableEq P] [DecidableEq T]
variable {s s' : System P T} {t : T} {pp : P} {se : Se}

namespace System

/-- `se_trylock` -/
def seTrylock (s : System P T) (t : T) (pp : P) : Se → Option (System P T)
  | .excl =>
    if s.selock pp = 0 then
      some { s with
        kpri := update s.kpri t (s.kpri t + 1)
        selock := update s.selock pp (-1)
        excl := update s.excl t (insert pp (s.excl t)) }
    else none
  | .shared =>
    if 0 ≤ s.selock pp then
      some { s with
        selock := update s.selock pp (s.selock pp + 1)
        shared := update s.shared pp (t ::ₘ s.shared pp) }
    else none

/-- `cv_broadcast` on `p_cv` -/
def cvBroadcast (s : System P T) (pp : P) : System P T :=
  { s with
    threads := fun t =>
      match s.threads t with
      | .asleep q se => if q = pp then .woken else .asleep q se
      | status => status }

def pageLock (s : System P T) (t : T) (pp : P) (se : Se) : System P T :=
  match s.seTrylock t pp se with
  | none => { s with threads := update s.threads t (.asleep pp se) }
  | some s => s

def pageTrylock (s : System P T) (t : T) (pp : P) (se : Se) : System P T :=
  (s.seTrylock t pp se).getD s

/-- `page_unlock`; `none` is the panic. -/
def pageUnlock (s : System P T) (t : T) (pp : P) : Option (System P T) :=
  let se := s.selock pp
  if se = 0 then none
  else if se < 0 then
    some <| cvBroadcast { s with
      kpri := update s.kpri t (s.kpri t - 1)
      selock := update s.selock pp 0
      excl := update s.excl t ((s.excl t).erase pp) } pp
  else
    let s := { s with
      selock := update s.selock pp (se - 1)
      shared := update s.shared pp ((s.shared pp).erase t) }
    some (if se - 1 = 0 then s.cvBroadcast pp else s)

def pageTryupgrade (s : System P T) (t : T) (pp : P) : System P T :=
  if s.selock pp = 1 then
    { s with
      selock := update s.selock pp (-1)
      shared := update s.shared pp ((s.shared pp).erase t)
      excl := update s.excl t (insert pp (s.excl t)) }
  else s

def pageDowngrade (s : System P T) (t : T) (pp : P) : System P T :=
  cvBroadcast { s with
    selock := update s.selock pp 1
    excl := update s.excl t ((s.excl t).erase pp)
    shared := update s.shared pp (t ::ₘ s.shared pp) } pp

end System

/-- The calls, and the return from `page_lock` after the sleep. -/
inductive Call (P : Type*)
  | lock (pp : P) (se : Se)
  | trylock (pp : P) (se : Se)
  | tryupgrade (pp : P)
  | downgrade (pp : P)
  | unlock (pp : P)
  | resume

namespace System

/-- The thread is not in a call, and holds the lock that it changes or releases. -/
def Calls (s : System P T) (t : T) : Call P → Prop
  | .lock _ _ => s.threads t = .running
  | .trylock _ _ => s.threads t = .running
  | .tryupgrade pp => s.threads t = .running ∧ t ∈ s.shared pp
  | .downgrade pp => s.threads t = .running ∧ pp ∈ s.excl t
  | .unlock pp => s.threads t = .running ∧ (pp ∈ s.excl t ∨ t ∈ s.shared pp)
  | .resume => s.threads t = .woken

def exec (s : System P T) (t : T) : Call P → Option (System P T)
  | .lock pp se => some (s.pageLock t pp se)
  | .trylock pp se => some (s.pageTrylock t pp se)
  | .tryupgrade pp => some (s.pageTryupgrade t pp)
  | .downgrade pp => some (s.pageDowngrade t pp)
  | .unlock pp => s.pageUnlock t pp
  | .resume => some { s with threads := update s.threads t .running }

def initial : System P T where
  selock _ := 0
  kpri _ := 0
  threads _ := .running
  excl _ := ∅
  shared _ := 0

end System

/-- The states that are reached by steps that are allowed. -/
inductive Reaches (allowed : System P T → Call P → Prop) : System P T → Prop
  | initial : Reaches allowed .initial
  | exec {s s' : System P T} {t : T} {c : Call P} : Reaches allowed s → s.Calls t c →
      allowed s c → s.exec t c = some s' → Reaches allowed s'

/-! ### The lock words and the sleepers -/

namespace System

/-- The lock word is -1 if one thread holds the page exclusively, and otherwise the number of those
that hold it shared. -/
def Counts (s : System P T) (pp : P) : Prop :=
  (∃ t, pp ∈ s.excl t ∧ (∀ t', pp ∈ s.excl t' → t' = t) ∧ s.shared pp = 0 ∧ s.selock pp = -1) ∨
    (∀ t, pp ∉ s.excl t) ∧ s.selock pp = (s.shared pp).card

/-- The lock cannot be granted now. -/
def Refuses (s : System P T) (pp : P) : Se → Prop
  | .excl => s.selock pp ≠ 0
  | .shared => s.selock pp < 0

/-- What holds of the lock words and the sleepers in every run. -/
structure Locked (s : System P T) : Prop where
  counts : ∀ pp, s.Counts pp
  sleepers : ∀ t pp se, s.threads t = .asleep pp se → s.Refuses pp se

omit [DecidableEq T] in
/-- A step that touches one page only. -/
theorem Locked.of_page (h : s.Locked) (hselock : ∀ q, q ≠ pp → s'.selock q = s.selock q)
    (hshared : ∀ q, q ≠ pp → s'.shared q = s.shared q)
    (hexcl : ∀ q, q ≠ pp → ∀ t, q ∈ s'.excl t ↔ q ∈ s.excl t) (hpage : s'.Counts pp)
    (hother : ∀ t q se, q ≠ pp → s'.threads t = .asleep q se → s.threads t = .asleep q se)
    (hthis : ∀ t se, s'.threads t = .asleep pp se → s'.Refuses pp se) : s'.Locked := by
  constructor
  · intro q
    by_cases hq : q = pp
    · rw [hq]
      exact hpage
    · have hcounts := h.counts q
      unfold Counts at hcounts ⊢
      simp only [hselock q hq, hshared q hq, hexcl q hq]
      exact hcounts
  · intro t q se ht
    by_cases hq : q = pp
    · rw [hq] at ht ⊢
      exact hthis t se ht
    · have hrefuses := h.sleepers t q se (hother t q se hq ht)
      cases se with
      | excl | shared =>
        unfold Refuses at hrefuses ⊢
        rwa [hselock q hq]

theorem mem_insert_of_ne {q : P} (hq : q ≠ pp) (t t' : T) :
    q ∈ update s.excl t (insert pp (s.excl t)) t' ↔ q ∈ s.excl t' := by
  by_cases ht : t' = t
  · rw [ht, update_self, Finset.mem_insert]
    exact or_iff_right hq
  · rw [update_of_ne ht]

theorem mem_erase_of_ne {q : P} (hq : q ≠ pp) (t t' : T) :
    q ∈ update s.excl t ((s.excl t).erase pp) t' ↔ q ∈ s.excl t' := by
  by_cases ht : t' = t
  · rw [ht, update_self, Finset.mem_erase]
    exact and_iff_right hq
  · rw [update_of_ne ht]

omit [DecidableEq T] in
theorem asleep_of_cvBroadcast {q : P} (h : (s.cvBroadcast pp).threads t = .asleep q se) :
    q ≠ pp ∧ s.threads t = .asleep q se := by
  unfold cvBroadcast at h
  dsimp only at h
  split at h
  · rename_i q' se' hs
    split_ifs at h with hq
    cases h
    exact ⟨hq, hs⟩
  · rename_i hs
    exact absurd h (hs q se)

omit [DecidableEq P] [DecidableEq T] in
/-- A page that is not locked exclusively has no owner. -/
theorem Counts.unowned (h : s.Counts pp) (hlock : 0 ≤ s.selock pp) :
    (∀ t, pp ∉ s.excl t) ∧ s.selock pp = (s.shared pp).card := by
  rcases h with ⟨_, _, _, _, hs⟩ | h
  · omega
  · exact h

omit [DecidableEq P] [DecidableEq T] in
/-- The owner of a page that is locked exclusively. -/
theorem Counts.owned (h : s.Counts pp) (hlock : s.selock pp < 0)
    (ht : pp ∈ s.excl t ∨ t ∈ s.shared pp) :
    pp ∈ s.excl t ∧ (∀ t', pp ∈ s.excl t' → t' = t) ∧ s.shared pp = 0 := by
  rcases h with ⟨t', hmem, hone, hshared, _⟩ | ⟨_, hs⟩
  · have hmem' : pp ∈ s.excl t := by
      rcases ht with ht | ht
      · exact ht
      · rw [hshared] at ht
        exact absurd ht (Multiset.notMem_zero t)
    obtain rfl := hone t hmem'
    exact ⟨hmem', hone, hshared⟩
  · omega

theorem Counts.erased (hone : ∀ t', pp ∈ s.excl t' → t' = t) (t' : T) :
    pp ∉ update s.excl t ((s.excl t).erase pp) t' := by
  intro hmem
  by_cases ht : t' = t
  · rw [ht, update_self] at hmem
    exact Finset.notMem_erase pp _ hmem
  · rw [update_of_ne ht] at hmem
    exact ht (hone t' hmem)

theorem Counts.inserted (hnone : ∀ t, pp ∉ s.excl t) (t : T) :
    pp ∈ update s.excl t (insert pp (s.excl t)) t ∧
      ∀ t', pp ∈ update s.excl t (insert pp (s.excl t)) t' → t' = t := by
  refine ⟨by simp, ?_⟩
  intro t' hmem
  by_contra ht
  rw [update_of_ne ht] at hmem
  exact hnone t' hmem

theorem Locked.seTrylock (h : s.Locked) (hs : s.seTrylock t pp se = some s') : s'.Locked := by
  cases se with
  | excl =>
    simp only [System.seTrylock, Option.ite_none_right_eq_some, Option.some.injEq] at hs
    obtain ⟨hzero, rfl⟩ := hs
    have hfree := (h.counts pp).unowned hzero.ge
    have hshared : s.shared pp = 0 := by
      rw [← Multiset.card_eq_zero]
      omega
    have hown := Counts.inserted hfree.1 t
    refine h.of_page (fun q hq => update_of_ne hq ..) (fun _ _ => rfl)
      (fun q hq => mem_insert_of_ne hq t) (.inl ⟨t, hown.1, hown.2, hshared, ?_⟩)
      (fun _ _ _ _ ht => ht) ?_
    · exact update_self ..
    · intro t' se _
      cases se <;> simp [Refuses]
  | shared =>
    simp only [System.seTrylock, Option.ite_none_right_eq_some, Option.some.injEq] at hs
    obtain ⟨hlock, rfl⟩ := hs
    have hfree := (h.counts pp).unowned hlock
    refine h.of_page (fun q hq => update_of_ne hq ..)
      (fun q hq => update_of_ne hq ..) (fun _ _ _ => Iff.rfl) (.inr ⟨hfree.1, ?_⟩)
      (fun _ _ _ _ ht => ht) ?_
    · simp [hfree.2]
    · intro t' se ht
      have hrefuses := h.sleepers t' pp se ht
      cases se with
      | excl =>
        simp only [Refuses, update_self]
        omega
      | shared => exact absurd hlock (not_le.2 hrefuses)

theorem refuses_of_seTrylock (hs : s.seTrylock t pp se = none) : s.Refuses pp se := by
  cases se with
  | excl =>
    simp only [System.seTrylock, ite_eq_right_iff, reduceCtorEq, imp_false] at hs
    exact hs
  | shared =>
    simp only [System.seTrylock, ite_eq_right_iff, reduceCtorEq, imp_false, not_le] at hs
    exact hs

theorem Locked.pageLock (h : s.Locked) : (s.pageLock t pp se).Locked := by
  unfold System.pageLock
  split
  · rename_i hnone
    refine ⟨h.counts, ?_⟩
    intro t' q se' ht
    by_cases htt : t' = t
    · rw [htt] at ht
      simp only [update_self, Status.asleep.injEq] at ht
      obtain ⟨rfl, rfl⟩ := ht
      have hrefuses := refuses_of_seTrylock hnone
      cases se <;> exact hrefuses
    · simp only [update_of_ne htt] at ht
      exact h.sleepers t' q se' ht
  · rename_i s' hs
    exact h.seTrylock hs

theorem Locked.pageTrylock (h : s.Locked) : (s.pageTrylock t pp se).Locked := by
  unfold System.pageTrylock
  cases hs : s.seTrylock t pp se with
  | none => exact h
  | some s' => exact h.seTrylock hs

theorem Locked.pageTryupgrade (h : s.Locked) (ht : t ∈ s.shared pp) :
    (s.pageTryupgrade t pp).Locked := by
  unfold System.pageTryupgrade
  split_ifs with hlock
  · have hfree := (h.counts pp).unowned (by omega)
    have hown := Counts.inserted hfree.1 t
    have hlast : (s.shared pp).erase t = 0 := by
      have hcard := Multiset.card_erase_add_one ht
      rw [← Multiset.card_eq_zero]
      omega
    refine h.of_page (fun q hq => update_of_ne hq ..)
      (fun q hq => update_of_ne hq ..) (fun q hq => mem_insert_of_ne hq t)
      (.inl ⟨t, hown.1, hown.2, ?_, update_self ..⟩) (fun _ _ _ _ ht => ht) ?_
    · rw [← hlast]
      exact update_self ..
    · intro t' se _
      cases se <;> simp [Refuses]
  · exact h

theorem Locked.pageDowngrade (h : s.Locked) (ht : pp ∈ s.excl t) :
    (s.pageDowngrade t pp).Locked := by
  have hlock : s.selock pp < 0 := by
    by_contra hpos
    exact ((h.counts pp).unowned (not_lt.1 hpos)).1 t ht
  obtain ⟨-, hone, hshared⟩ := (h.counts pp).owned hlock (.inl ht)
  unfold System.pageDowngrade
  refine h.of_page (fun q hq => update_of_ne hq ..)
    (fun q hq => update_of_ne hq ..) (fun q hq => mem_erase_of_ne hq t)
    (.inr ⟨Counts.erased hone, ?_⟩) (fun _ _ _ _ hs => (asleep_of_cvBroadcast hs).2) ?_
  · simp [cvBroadcast, hshared]
  · intro t' se hs
    exact absurd rfl (asleep_of_cvBroadcast hs).1

theorem Locked.pageUnlock (h : s.Locked) (ht : pp ∈ s.excl t ∨ t ∈ s.shared pp) :
    ∃ s', s.pageUnlock t pp = some s' ∧ s'.Locked := by
  unfold System.pageUnlock
  dsimp only
  have hzero : s.selock pp ≠ 0 := by
    intro hzero
    obtain ⟨hnone, hcard⟩ := (h.counts pp).unowned hzero.ge
    have hpos := Multiset.card_pos_iff_exists_mem.2 ⟨t, ht.resolve_left (hnone t)⟩
    omega
  rw [if_neg hzero]
  by_cases hneg : s.selock pp < 0
  · obtain ⟨-, hone, hshared⟩ := (h.counts pp).owned hneg ht
    rw [if_pos hneg]
    refine ⟨_, rfl, h.of_page (fun q hq => update_of_ne hq ..) (fun _ _ => rfl)
      (fun q hq => mem_erase_of_ne hq t) (.inr ⟨Counts.erased hone, ?_⟩)
      (fun _ _ _ _ hs => (asleep_of_cvBroadcast hs).2) ?_⟩
    · simp [cvBroadcast, hshared]
    · intro t' se hs
      exact absurd rfl (asleep_of_cvBroadcast hs).1
  · rw [if_neg hneg]
    have hfree := (h.counts pp).unowned (not_lt.1 hneg)
    have hcard := Multiset.card_erase_add_one (ht.resolve_left (hfree.1 t))
    split_ifs with hlast
    · refine ⟨_, rfl, h.of_page (fun q hq => update_of_ne hq ..)
        (fun q hq => update_of_ne hq ..) (fun _ _ _ => Iff.rfl) (.inr ⟨hfree.1, ?_⟩)
        (fun _ _ _ _ hs => (asleep_of_cvBroadcast hs).2) ?_⟩
      · simp only [cvBroadcast, update_self]
        omega
      · intro t' se hs
        exact absurd rfl (asleep_of_cvBroadcast hs).1
    · refine ⟨_, rfl, h.of_page (fun q hq => update_of_ne hq ..)
        (fun q hq => update_of_ne hq ..) (fun _ _ _ => Iff.rfl) (.inr ⟨hfree.1, ?_⟩)
        (fun _ _ _ _ hs => hs) ?_⟩
      · simp only [update_self]
        omega
      · intro t' se hs
        have hrefuses := h.sleepers t' pp se hs
        cases se with
        | excl => simpa [Refuses] using hlast
        | shared => exact absurd hrefuses hneg

/-- No call panics, and each keeps the lock words right and the sleepers behind locks that cannot be
granted. -/
theorem Locked.exec (h : s.Locked) {call : Call P} (hcall : s.Calls t call) :
    ∃ s', s.exec t call = some s' ∧ s'.Locked := by
  cases call with
  | lock pp se => exact ⟨_, rfl, h.pageLock⟩
  | trylock pp se => exact ⟨_, rfl, h.pageTrylock⟩
  | tryupgrade pp => exact ⟨_, rfl, h.pageTryupgrade hcall.2⟩
  | downgrade pp => exact ⟨_, rfl, h.pageDowngrade hcall.2⟩
  | unlock pp => exact h.pageUnlock hcall.2
  | resume =>
    refine ⟨_, rfl, h.counts, ?_⟩
    intro t' q se ht
    by_cases htt : t' = t
    · rw [htt] at ht
      simp at ht
    · simp only [update_of_ne htt] at ht
      exact h.sleepers t' q se ht

end System

theorem Reaches.locked {allowed : System P T → Call P → Prop} (h : Reaches allowed s) :
    s.Locked := by
  induction h with
  | initial =>
    refine ⟨fun pp => .inr ⟨fun t => Finset.notMem_empty pp, rfl⟩, ?_⟩
    intro t pp se ht
    cases ht
  | exec _ hcall _ hexec ih =>
    obtain ⟨s', hs', hlocked⟩ := ih.exec hcall
    rw [hexec] at hs'
    cases hs'
    exact hlocked

/-- In every run, with changes of mode too, the lock words count the holders and leave a page to one
thread that holds it exclusively, a sleeper waits for a lock that cannot be granted, and no call
panics. -/
theorem every_run_locked (h : Reaches (fun _ _ => True) s) :
    s.Locked ∧ ∀ t call, s.Calls t call → (s.exec t call).isSome := by
  refine ⟨h.locked, fun t call hcall => ?_⟩
  obtain ⟨s', hs', -⟩ := h.locked.exec hcall
  rw [hs']
  rfl

/-- A thread that has downgraded its lock can release it. -/
theorem every_run_locked_downgrade : ((System.pageDowngrade
    (System.initial.pageLock () () .excl) () ()).exec () (.unlock ())).isSome :=
  (every_run_locked ((Reaches.initial.exec (t := ()) (c := .lock () .excl) rfl trivial rfl).exec
    (t := ()) (c := .downgrade ()) ⟨rfl, by decide⟩ trivial rfl)).2 () (.unlock ())
    ⟨rfl, .inr (by decide)⟩

/-! ### Requests for kernel priority -/

namespace System

/-- Each thread has one request for each page that it holds exclusively. -/
def Balanced (s : System P T) : Prop := ∀ t, s.kpri t = (s.excl t).card

/-- What the lock words, the sleepers and the requests are to satisfy. -/
structure Kept (s : System P T) : Prop extends s.Locked where
  balanced : s.Balanced

/-- The step does not change the mode of a lock. -/
def Permits (s : System P T) : Call P → Prop
  | .tryupgrade pp => s.selock pp ≠ 1
  | .downgrade _ => False
  | _ => True

theorem balanced_take (h : s.Balanced) (hpp : pp ∉ s.excl t) (t' : T) :
    update s.kpri t (s.kpri t + 1) t' = (update s.excl t (insert pp (s.excl t)) t').card := by
  by_cases ht : t' = t
  · rw [ht, update_self, update_self, Finset.card_insert_of_notMem hpp, h t]
    rfl
  · rw [update_of_ne ht, update_of_ne ht, h t']

theorem balanced_release (h : s.Balanced) (hpp : pp ∈ s.excl t) (t' : T) :
    update s.kpri t (s.kpri t - 1) t' = (update s.excl t ((s.excl t).erase pp) t').card := by
  by_cases ht : t' = t
  · have hcard := Finset.card_erase_add_one hpp
    rw [ht, update_self, update_self, h t]
    omega
  · rw [update_of_ne ht, update_of_ne ht, h t']

theorem Kept.seTrylock_balanced (h : s.Kept) (hs : s.seTrylock t pp se = some s') :
    s'.Balanced := by
  cases se with
  | excl =>
    simp only [System.seTrylock, Option.ite_none_right_eq_some, Option.some.injEq] at hs
    obtain ⟨hzero, rfl⟩ := hs
    exact balanced_take h.balanced (((h.counts pp).unowned hzero.ge).1 t)
  | shared =>
    simp only [System.seTrylock, Option.ite_none_right_eq_some, Option.some.injEq] at hs
    obtain ⟨-, rfl⟩ := hs
    exact h.balanced

theorem Kept.pageUnlock_balanced (h : s.Kept) (ht : pp ∈ s.excl t ∨ t ∈ s.shared pp)
    (hs : s.pageUnlock t pp = some s') : s'.Balanced := by
  unfold System.pageUnlock at hs
  dsimp only at hs
  split_ifs at hs with hzero hneg hlast
  · cases hs
    exact balanced_release h.balanced ((h.counts pp).owned hneg ht).1
  · cases hs
    exact h.balanced
  · cases hs
    exact h.balanced

/-- An upgrade makes a page one that is held exclusively, and requests nothing. -/
theorem Kept.pageTryupgrade_balanced (h : s.Kept) :
    (s.pageTryupgrade t pp).Balanced ↔ s.selock pp ≠ 1 := by
  unfold System.pageTryupgrade
  split_ifs with hlock
  · refine iff_of_false ?_ (not_not.2 hlock)
    intro hbal
    have hpp := ((h.counts pp).unowned (by omega)).1 t
    have ht := hbal t
    simp only [update_self, Finset.card_insert_of_notMem hpp, h.balanced t] at ht
    omega
  · exact iff_of_true h.balanced hlock

/-- A downgrade gives up a page that was held exclusively, and releases nothing. -/
theorem Kept.pageDowngrade_unbalanced (h : s.Kept) (ht : pp ∈ s.excl t) :
    ¬ (s.pageDowngrade t pp).Balanced := by
  intro hbal
  have hcard := Finset.card_erase_add_one ht
  have heq := hbal t
  simp only [System.pageDowngrade, cvBroadcast, update_self, h.balanced t] at heq
  omega

/-- A call keeps the balance unless it changes the mode of a lock. -/
theorem Kept.exec_balanced (h : s.Kept) {call : Call P} (hcall : s.Calls t call)
    (hs : s.exec t call = some s') : s'.Balanced ↔ s.Permits call := by
  cases call with
  | lock pp se =>
    cases hs
    refine iff_of_true ?_ trivial
    unfold System.pageLock
    split
    · exact h.balanced
    · rename_i hs
      exact h.seTrylock_balanced hs
  | trylock pp se =>
    cases hs
    refine iff_of_true ?_ trivial
    unfold System.pageTrylock
    cases hs : s.seTrylock t pp se with
    | none => exact h.balanced
    | some s' => exact h.seTrylock_balanced hs
  | tryupgrade pp =>
    cases hs
    exact h.pageTryupgrade_balanced
  | downgrade pp =>
    cases hs
    exact iff_of_false (h.pageDowngrade_unbalanced hcall.2) id
  | unlock pp => exact iff_of_true (h.pageUnlock_balanced hcall.2 hs) trivial
  | resume =>
    cases hs
    exact iff_of_true h.balanced trivial

end System

theorem Reaches.kept (h : Reaches (fun s call => s.Permits call) s) : s.Kept := by
  refine ⟨h.locked, ?_⟩
  induction h with
  | initial => exact fun t => rfl
  | exec hr hcall hpermits hexec ih =>
    exact (System.Kept.exec_balanced ⟨hr.locked, ih⟩ hcall hexec).2 hpermits

/-- Along a run in which no call changes the mode of a lock, the lock words count the holders, a
thread that sleeps waits for a lock that cannot be granted, and the requests are balanced. The next
call does not panic, and keeps all that just if it does not change the mode of a lock. -/
theorem permitted_run_kept (h : Reaches (fun s call => s.Permits call) s) :
    s.Kept ∧ ∀ t call, s.Calls t call →
      ∃ s', s.exec t call = some s' ∧ (s'.Kept ↔ s.Permits call) := by
  refine ⟨h.kept, ?_⟩
  intro t call hcall
  obtain ⟨s', hexec, hlocked⟩ := h.locked.exec hcall
  have hbal := h.kept.exec_balanced hcall hexec
  exact ⟨s', hexec, fun hkept => hbal.1 hkept.balanced, fun hpermits => ⟨hlocked, hbal.2 hpermits⟩⟩

/-- A thread releases a page while another one sleeps for it. -/
theorem permitted_run_kept_wakes :
    ∃ s s' : System Unit Bool, Reaches (fun s call => s.Permits call) s ∧
      s.threads true = .asleep () .shared ∧ s.exec false (.unlock ()) = some s' ∧
      s'.threads true = .woken ∧ s'.Kept := by
  have h1 : Reaches (fun s call => s.Permits call) (System.initial.pageLock false () .excl) :=
    Reaches.initial.exec (t := false) (c := .lock () .excl) rfl trivial rfl
  have h2 := h1.exec (t := true) (c := .lock () .shared) rfl trivial rfl
  obtain ⟨s', hexec, hkept⟩ := (permitted_run_kept h2).2 false (.unlock ())
    ⟨rfl, .inl (by decide)⟩
  refine ⟨_, s', h2, rfl, hexec, ?_, hkept.2 trivial⟩
  cases hexec
  rfl

/-- A thread that upgrades its lock releases a request that it has not made, and one that downgrades
its lock keeps its request. -/
theorem changed_mode_unbalances :
    (∃ s : System Unit Unit, Reaches (fun _ _ => True) s ∧ s.selock () = 0 ∧ s.kpri () = -1) ∧
      ∃ s : System Unit Unit, Reaches (fun _ _ => True) s ∧ s.selock () = 0 ∧ s.kpri () = 1 := by
  constructor
  · refine ⟨_, ((Reaches.initial.exec (t := ()) (c := .lock () .shared) rfl trivial rfl).exec
      (t := ()) (c := .tryupgrade ()) ⟨rfl, ?_⟩ trivial rfl).exec (t := ()) (c := .unlock ())
      ⟨rfl, .inl ?_⟩ trivial rfl, rfl, rfl⟩
    · decide
    · decide
  · refine ⟨_, ((Reaches.initial.exec (t := ()) (c := .lock () .excl) rfl trivial rfl).exec
      (t := ()) (c := .downgrade ()) ⟨rfl, ?_⟩ trivial rfl).exec (t := ()) (c := .unlock ())
      ⟨rfl, .inr ?_⟩ trivial rfl, rfl, rfl⟩
    · decide
    · decide

end Sol26.Page
