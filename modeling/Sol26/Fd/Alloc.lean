import Sol26.Fd.Invariant

/-!
# Descriptors are handed out one by one

`ufalloc` returns the lowest descriptor that nobody has to do with, and a descriptor that it has
returned is not returned again before it has been set and closed.
-/
namespace Sol26.Fd

open Entry (ofile reserve)
open Option (bind_eq_bind bind_eq_some_iff)
open Sleeper (wait)
open Wait (closes dups)

/-- The test of `ufalloc`. -/
def Entry.free (e : Entry) : Prop := e.ofile = none ∧ e.reserved = false ∧ e.reserved2 = false

section Search

variable {s s' : State} {start fd i limit : ℕ} {l : List Entry}

/-- Where the loop of `ufalloc` stops, counted from its first entry. -/
theorem search_spec (limit i : ℕ) (l : List Entry) :
    ∃ k, (∀ j, j < k → j < l.length ∧ ¬ (l.getD j {}).free) ∧
      ((search limit i l = .overlimit ∧ limit ≤ i + k) ∨
      (search limit i l = .slot (i + k) ∧ i + k < limit ∧ k < l.length ∧ (l.getD k {}).free) ∨
      (search limit i l = .tableEnd (i + k) ∧ k = l.length)) := by
  induction l generalizing i with
  | nil => exact ⟨0, by simp, by simp [search]⟩
  | cons ufp rest ih =>
    by_cases hover : i ≥ limit
    · exact ⟨0, by simp, .inl (by simp [search, hover])⟩
    by_cases hfree : ufp.free
    · refine ⟨0, by simp, .inr (.inl ⟨?_, by omega, by simp, hfree⟩)⟩
      unfold Entry.free at hfree
      simp [search, hover, hfree]
    · obtain ⟨k, hskip, hstop⟩ := ih (i + 1)
      have hstep : search limit i (ufp :: rest) = search limit (i + 1) rest := by
        unfold Entry.free at hfree
        simp [search, hover, hfree]
      refine ⟨k + 1, fun j hj => ?_, ?_⟩
      · cases j with
        | zero => exact ⟨by simp, by simpa using hfree⟩
        | succ j => simpa using hskip j (by omega)
      · rw [hstep, show i + (k + 1) = i + 1 + k by omega]
        simpa using hstop

/-- The array has room for a descriptor below the limit after it has grown for it. -/
theorem flistRealloc_of_lt (hge : s.flist.length ≤ fd) (hlt : fd < s.limit) :
    ∃ s', s.flistRealloc fd = some s' ∧ fd < s'.flist.length := by
  unfold State.flistRealloc
  dsimp only
  rw [if_neg]
  · refine ⟨_, rfl, ?_⟩
    simp only [List.length_append, List.length_replicate]
    split_ifs <;> omega
  · split_ifs <;> omega

theorem not_mem_table (hge : s.flist.length ≤ fd) : s.slot fd = {} := by
  simp [State.slot, hge]

/-- `ufalloc` fails if nothing below the limit is free, and else takes the first free descriptor,
of a table that has grown if need be. -/
theorem ufalloc_spec (s : State) (start : ℕ) :
    (s.ufalloc start = some (s, none) ∧
      ∀ fd, start ≤ fd → fd < s.limit → ¬ (s.slot fd).free) ∨
    ∃ fd n e, start ≤ fd ∧ fd < s.limit ∧ (s.slot fd).free ∧
      (∀ j, start ≤ j → j < fd → ¬ (s.slot j).free) ∧
      (s.flist ++ List.replicate n ({} : Entry))[fd]? = some e ∧
      s.ufalloc start = some (({ s with flist := s.flist ++ List.replicate n {} } : State).update fd
        reserve, some fd) := by
  -- the search ends at `start + k`, with nothing free before
  obtain ⟨k, hskip, hstop⟩ : ∃ k, (∀ j, start ≤ j → j < start + k → ¬ (s.slot j).free) ∧
      ((s.ufalloc start = some (s, none) ∧ s.limit ≤ start + k) ∨
      (s.ufalloc start = some (s.update (start + k) reserve, some (start + k)) ∧
        start + k < s.limit ∧ start + k < s.flist.length ∧ (s.slot (start + k)).free) ∨
      (s.flist.length ≤ start + k ∧ s.ufalloc start =
        if start + k ≥ s.limit then some (s, none)
        else do
          let s' ← s.flistRealloc (start + k)
          let _ ← s'.flist[start + k]?
          some (s'.update (start + k) reserve, some (start + k)))) := by
    unfold State.ufalloc
    by_cases hlt : start < s.flist.length
    · obtain ⟨k, hskip, hstop⟩ := search_spec s.limit start (s.flist.drop start)
      have hdrop : ∀ j, (s.flist.drop start).getD j {} = s.slot (start + j) := by
        intro j
        simp [State.slot]
      simp only [hdrop, List.length_drop] at hskip hstop
      refine ⟨k, fun j h1 h2 => ?_, ?_⟩
      · have := (hskip (j - start) (by omega)).2
        rwa [Nat.add_sub_cancel' h1] at this
      · rw [if_pos hlt]
        rcases hstop with ⟨hs, hk⟩ | ⟨hs, hk, hlen, hfree⟩ | ⟨hs, hk⟩
        · exact .inl ⟨by rw [hs], hk⟩
        · exact .inr (.inl ⟨by rw [hs], hk, by omega, hfree⟩)
        · exact .inr (.inr ⟨by omega, by rw [hs]⟩)
    · refine ⟨0, by omega, .inr (.inr ⟨by omega, ?_⟩)⟩
      rw [if_neg hlt]
      simp
  rcases hstop with ⟨hs, hk⟩ | ⟨hs, hk, hlen, hfree⟩ | ⟨hlen, hs⟩
  · exact .inl ⟨hs, fun fd h1 h2 => hskip fd h1 (by omega)⟩
  · right
    refine ⟨start + k, 0, s.flist[start + k], by omega, hk, hfree, hskip, ?_, ?_⟩
    · simp
    · simpa using hs
  · by_cases hover : start + k ≥ s.limit
    · rw [if_pos hover] at hs
      exact .inl ⟨hs, fun fd h1 h2 => hskip fd h1 (by omega)⟩
    · rw [if_neg hover] at hs
      obtain ⟨s', hgrow, hin⟩ := flistRealloc_of_lt hlen (by omega : start + k < s.limit)
      obtain ⟨n, rfl⟩ := flistRealloc_spec hgrow
      right
      refine ⟨start + k, n, _, by omega, by omega, ?_, hskip, List.getElem?_eq_getElem hin, ?_⟩
      · rw [not_mem_table hlen]
        exact ⟨rfl, rfl, rfl⟩
      · rw [hs, hgrow]
        simp [List.getElem?_eq_getElem hin]

end Search

section Exec

variable {few : Prop} {s s' : State} {fd : ℕ}

theorem exec_ufalloc {start : ℕ} (hs : s.exec (.ufalloc start) = some s') :
    s' = s ∨ ∃ fd n e, (s.flist ++ List.replicate n ({} : Entry))[fd]? = some e ∧ e.free ∧
      s' = { ({ s with flist := s.flist ++ List.replicate n {} } : State).update fd reserve with
        reservations := fd ::ₘ s.reservations } := by
  simp only [State.exec, bind_eq_bind, bind_eq_some_iff, Prod.exists] at hs
  obtain ⟨s1, r, hr, hs⟩ := hs
  rcases ufalloc_spec s start with ⟨hnone, -⟩ | ⟨fd, n, e, -, -, hfree, -, hfd, hsome⟩
  · cases hnone.symm.trans hr
    exact .inl (Option.some.inj hs).symm
  · cases hsome.symm.trans hr
    refine .inr ⟨fd, n, e, hfd, ?_, (Option.some.inj hs).symm⟩
    have := slot_grow (s := s) n fd
    rw [slot_eq hfd] at this
    rwa [this]

theorem Inv.ufalloc (h : Inv few s) {start : ℕ} (hs : s.exec (.ufalloc start) = some s') :
    Inv few s' := by
  obtain rfl | ⟨fd, n, e, hfd, ⟨hnone, hres, hres2⟩, rfl⟩ := exec_ufalloc hs
  · exact h
  have hg := h.grow n
  obtain ⟨h1, h2, h3, h4, -, h6, h7⟩ := hg.slotOk hfd
  rw [hres, Bool.toNat_false] at h2
  rw [hres2, Bool.toNat_false] at h4
  dsimp only at h1 h2 h3 h4 h6 h7
  have hc0 : closers s.sleepers fd = 0 := by omega
  have hr0 : s.reservations.count fd = 0 := by omega
  have hclose : e.closing = false := Bool.toNat_eq_zero.mp (by omega)
  apply hg.edit hfd
  · intro j hj
    simp [Multiset.count_cons_of_ne hj]
  · refine ⟨h1, by simp [reserve, hc0, hr0], by simp [reserve, hc0],
      by simp [reserve, h4], by simp [reserve, hnone], fun hf hpos => ?_, h7⟩
    simpa [hnone, hclose] using h6 hf hpos
  · exact h.dup
  · intro dest x w hm
    refine ⟨?_, fun _ => hm⟩
    rintro rfl
    have : 0 < dupers s.sleepers dest := dupers_pos hm
    omega
  · intro x
    rfl

/-- A `dupdest` is not for a descriptor that another thread has reserved. -/
def Event.unreserved (s : State) (e : Event) : Prop :=
  ∀ dest fp, e = .dupdest dest fp → dest ∉ s.reservations

/-- A `getf` is for a descriptor of which `uf_refcnt` can count one reference more. -/
def Event.counted (s : State) (e : Event) : Prop :=
  ∀ fd, e = .getf fd → s.gots.count fd < 32767

/-- Every step keeps the invariant, as long as `dupdest` is not called for a descriptor that is
reserved. -/
theorem Inv.exec (h : Inv few s) {e : Event} (ha : e.Allowed s) (hd : e.unreserved s)
    (hg : few → e.counted s) (he : s.exec e = some s') : Inv few s' := by
  cases e with
  | ufalloc start => exact h.ufalloc he
  | setf fd fp => exact h.setf ha.1 ha.2 he
  | getf fd => exact Option.some.inj he ▸ h.getf fd fun hf => Nat.succ_lt_succ (hg hf fd rfl)
  | releasef fd who => exact h.releasef ha.1 ha.2 he
  | getandset fd who => exact h.getandset ha he
  | hold fp => exact Option.some.inj he ▸ h.hold fp
  | closef fp => exact Option.some.inj he ▸ h.closef ha
  | dupdest dest fp => exact h.dupdest ha.1 ha.2.2 (hd dest fp rfl) he
  | run t who => exact h.run ha.1 ha.2.1 ha.2.2 he

theorem Reachable.inv {ok : State → Event → Prop} (h : Reachable ok s)
    (hok : ∀ s e, ok s e → e.unreserved s ∧ (few → e.counted s)) : Inv few s := by
  induction h with
  | init h => exact h.inv
  | step _ e ha hoke he ih => exact ih.exec ha (hok _ e hoke).1 (hok _ e hoke).2 he

end Exec

/-! ### Runs without `dupdest` -/

/-- Any event but `dupdest`. -/
def Event.plain (_ : State) (e : Event) : Prop := ∀ dest fp, e ≠ .dupdest dest fp

/-- The descriptor is neither open nor reserved nor being closed. -/
def State.Free (s : State) (fd : ℕ) : Prop :=
  (s.slot fd).ofile = none ∧ fd ∉ s.reservations ∧ ∀ t ∈ s.sleepers, t.wait.closes ≠ some fd

/-- The event is a `getandset` of the descriptor or goes on with one. -/
def Event.closes (fd : ℕ) : Event → Prop
  | .getandset fd' _ => fd' = fd
  | .run t _ => t.wait.closes = some fd
  | _ => False

/-- What an event other than `dupdest` does: reservations end with `setf`, and threads leave a
close and descriptors their file by closes alone. -/
structure Effect (e : Event) (s s' : State) : Prop where
  dups : (∀ t ∈ s.sleepers, t.wait.dups = none) → ∀ t ∈ s'.sleepers, t.wait.dups = none
  reserved : ∀ fd ∈ s.reservations,
    fd ∈ s'.reservations ∨ ∃ fp, e = .setf fd fp ∧ (s'.slot fd).ofile = fp
  closers : ∀ fd, ¬ e.closes fd → closers s'.sleepers fd = closers s.sleepers fd
  file : ∀ fd, ¬ e.closes fd → (s'.slot fd).ofile = none → (s.slot fd).ofile = none

section Plain

variable {few : Prop} {s s' s1 : State} {fd fp : ℕ} {e : Event} {who : Option Sleeper}

theorem free_iff_closers :
    s.Free fd ↔ (s.slot fd).ofile = none ∧ fd ∉ s.reservations ∧ closers s.sleepers fd = 0 := by
  unfold State.Free closers
  rw [Multiset.countP_eq_zero]

theorem Inv.free_iff (h : Inv few s) (hdup : ∀ t ∈ s.sleepers, t.wait.dups = none) :
    s.Free fd ↔ (s.slot fd).free := by
  obtain ⟨-, h2, -, h4, -⟩ := h.slot fd
  have hd0 : dupers s.sleepers fd = 0 := by
    refine Multiset.countP_eq_zero.mpr fun t ht => ?_
    simp [hdup t ht]
  have hr2 : (s.slot fd).reserved2 = false := Bool.toNat_eq_zero.mp (by omega)
  rw [free_iff_closers, Entry.free, hr2, ← Multiset.count_eq_zero, ← Bool.toNat_eq_zero]
  simp only [and_true]
  constructor
  · intro ⟨h1, h3, h5⟩
    exact ⟨h1, by omega⟩
  · intro ⟨h1, h3⟩
    exact ⟨h1, by omega, by omega⟩

/-- What `getandset` and its continuation do to the sleepers and to other descriptors. -/
theorem closeLoop_cases (hs : s.closeLoop fd fp who = some s') :
    ∃ e, s.flist[fd]? = some e ∧ (∀ j, j ≠ fd → s'.slot j = s.slot j) ∧
      s'.reservations = s.reservations ∧
      ((e.inUse = true ∧ s'.refs = s.refs ∧
        s'.sleepers = ⟨.close fd fp, false⟩ ::ₘ s.sleepers) ∨
      (e.inUse = false ∧ (s'.sleepers = s.sleepers ∨ s'.sleepers = wake s.sleepers who))) := by
  unfold State.closeLoop at hs
  simp only [bind_eq_bind, bind_eq_some_iff] at hs
  obtain ⟨e, hfd, hs⟩ := hs
  by_cases hbusy : e.inUse = true
  · rw [if_pos hbusy] at hs
    cases hs
    refine ⟨e, hfd, fun j hj => ?_, rfl, .inl ⟨hbusy, rfl, rfl⟩⟩
    exact (slot_update hfd j).trans (if_neg hj)
  · rw [if_neg hbusy] at hs
    cases hs
    refine ⟨e, hfd, fun j hj => ?_, rfl, .inr ⟨by simpa using hbusy, ?_⟩⟩
    · exact (slot_update hfd j).trans (if_neg hj)
    · dsimp only
      split_ifs
      · exact .inr rfl
      · exact .inl rfl

/-- A step that changes neither what threads wait for nor takes a file or a reservation away. -/
theorem Effect.of_waits (hm : s'.sleepers.map wait = s.sleepers.map wait)
    (hr : ∀ fd ∈ s.reservations, fd ∈ s'.reservations)
    (hf : ∀ fd, (s'.slot fd).ofile = none → (s.slot fd).ofile = none) : Effect e s s' := by
  refine ⟨fun hdup t ht => ?_, fun fd h => .inl (hr fd h), fun fd _ => ?_, fun fd _ => hf fd⟩
  · have hmem := Multiset.mem_map_of_mem wait ht
    rw [hm] at hmem
    obtain ⟨u, hu, hw⟩ := Multiset.mem_map.mp hmem
    rw [← hw, hdup u hu]
  · rw [(counts_congr hm).1]

/-- An edit that keeps the file of the entry. -/
theorem ofile_update {en : Entry} {f : Entry → Entry} (hfd : s.flist[fd]? = some en)
    (hf : (f en).ofile = en.ofile) (j : ℕ) : ((s.update fd f).slot j).ofile = (s.slot j).ofile := by
  rw [slot_update hfd]
  split_ifs with hj
  · rw [hj, slot_eq hfd, hf]
  · rfl

theorem Effect.trans (h : Effect e s s1) (h' : Effect e s1 s')
    (hr : s'.reservations = s1.reservations) (hs : ∀ fd fp, e ≠ .setf fd fp) : Effect e s s' := by
  refine ⟨fun hdup => h'.dups (h.dups hdup), fun fd hm => ?_, fun fd hc => ?_,
    fun fd hc hn => h.file fd hc (h'.file fd hc hn)⟩
  · rw [hr]
    exact (h.reserved fd hm).imp_right fun ⟨fp, he, _⟩ => absurd he (hs fd fp)
  · rw [h'.closers fd hc, h.closers fd hc]

theorem closeLoop_effect (hc : e.closes fd) (hw : Signals s.sleepers .flock2 who)
    (hs : s.closeLoop fd fp who = some s') : Effect e s s' := by
  obtain ⟨en, -, hslot, hres, hcases⟩ := closeLoop_cases hs
  have hfile : ∀ j, ¬ e.closes j → (s'.slot j).ofile = none → (s.slot j).ofile = none := by
    intro j hj hn
    rwa [← hslot j fun h => hj (h ▸ hc)]
  rcases hcases with ⟨-, -, hsl⟩ | ⟨-, hsl⟩
  · refine ⟨fun hdup t ht => ?_, fun j hj => .inl (hres ▸ hj), fun j hj => ?_, hfile⟩
    · rw [hsl] at ht
      rcases Multiset.mem_cons.mp ht with rfl | ht
      · rfl
      · exact hdup t ht
    · have hne : fd ≠ j := fun h => hj (h ▸ hc)
      simp [hsl, closes, hne]
  · have hm : s'.sleepers.map wait = s.sleepers.map wait := by
      rcases hsl with hsl | hsl
      · rw [hsl]
      · rw [hsl, wake_map hw]
    have h : Effect e s { s with sleepers := s'.sleepers } :=
      .of_waits hm (fun _ => id) fun _ => id
    exact ⟨h.dups, fun j hj => .inl (hres ▸ hj), h.closers, hfile⟩

/-- A thread that has been woken is not the one that a signal wakes. -/
theorem Signals.erase {sleepers : Multiset Sleeper} {cv : Cv} {t : Sleeper}
    (hw : Signals sleepers cv who) (ht : t.woken = true) : Signals (sleepers.erase t) cv who := by
  cases who with
  | none => exact fun u hu => hw u (Multiset.mem_of_mem_erase hu)
  | some u =>
    refine ⟨(Multiset.mem_erase_of_ne ?_).mpr hw.1, hw.2⟩
    rintro rfl
    have := hw.2.2
    simp [ht] at this

theorem getandset_effect (hw : Signals s.sleepers .flock2 who)
    (hs : s.getandset fd who = some s') : Effect (.getandset fd who) s s' := by
  unfold State.getandset at hs
  split at hs
  · cases hs
    exact .of_waits rfl (fun _ => id) fun _ => id
  rename_i pufe hfd
  split at hs
  · cases hs
    exact .of_waits rfl (fun _ => id) fun _ => id
  have hupd : Effect (.getandset fd who) s
      (s.update fd fun pufe => { pufe with ofile := none, reserved := true }) := by
    refine ⟨id, fun j hj => .inl hj, fun j _ => rfl, fun j hj hn => ?_⟩
    rwa [slot_update hfd, if_neg fun h => hj h.symm] at hn
  have hloop := closeLoop_effect (e := .getandset fd who) rfl
    (show Signals (s.update fd _).sleepers .flock2 who from hw) hs
  obtain ⟨-, -, -, hres, -⟩ := closeLoop_cases hs
  exact hupd.trans hloop hres (by simp)

theorem run_effect {t : Sleeper} (ht : t ∈ s.sleepers) (hwoken : t.woken = true)
    (hdup : t.wait.dups = none) (hw : Signals s.sleepers .flock2 who)
    (hs : s.run t who = some s') : Effect (.run t who) s s' := by
  obtain ⟨wait, w⟩ := t
  cases wait with
  | close fd fp =>
    have herase : Effect (.run ⟨.close fd fp, w⟩ who) s
        { s with sleepers := s.sleepers.erase ⟨.close fd fp, w⟩ } := by
      refine ⟨fun h u hu => h u (Multiset.mem_of_mem_erase hu), fun j hj => .inl hj,
        fun j hj => ?_, fun j _ => id⟩
      obtain ⟨rest, hrest⟩ := Multiset.exists_cons_of_mem ht
      have hne : closes (.close fd fp) ≠ some j := hj
      simp [hrest, hne]
    simp only [State.run] at hs
    have hloop := closeLoop_effect (e := .run ⟨.close fd fp, w⟩ who) rfl (hw.erase hwoken) hs
    obtain ⟨-, -, -, hres, -⟩ := closeLoop_cases hs
    exact herase.trans hloop hres (by simp)
  | dupOpen | dupClosing => simp [dups] at hdup

theorem Inv.reserved_ofile (h : Inv few s) (hr : fd ∈ s.reservations) :
    (s.slot fd).ofile = none := by
  have hok := h.slot fd
  have hpos := Multiset.count_pos.mpr hr
  by_contra hne
  have h2 := hok.reserved
  rw [(hok.opened hne).1, Bool.toNat_false] at h2
  omega

theorem Inv.exec_effect (h : Inv few s) (hdup : ∀ t ∈ s.sleepers, t.wait.dups = none)
    (ha : e.Allowed s) (hp : e.plain s) (he : s.exec e = some s') : Effect e s s' := by
  cases e with
  | ufalloc start =>
    obtain rfl | ⟨fd, n, en, hfd, -, rfl⟩ := exec_ufalloc he
    · exact .of_waits rfl (fun _ => id) fun _ => id
    · refine .of_waits rfl (fun j hj => Multiset.mem_cons_of_mem hj) fun j hj => ?_
      rw [← slot_grow n]
      rwa [← ofile_update (f := reserve) hfd rfl]
  | setf fd fp =>
    simp only [State.exec, State.setf, bind_eq_bind, bind_eq_some_iff,
      Option.some.injEq] at he
    obtain ⟨en, hfd, rfl⟩ := he
    have hslot := slot_update hfd (f := fun ufp => { ufp with ofile := fp, reserved := false })
    refine ⟨id, fun j hj => ?_, fun j _ => rfl, fun j _ hn => ?_⟩
    · by_cases hjf : j = fd
      · subst hjf
        exact .inr ⟨fp, rfl, congrArg ofile ((hslot j).trans (if_pos rfl))⟩
      · exact .inl ((Multiset.mem_erase_of_ne hjf).mpr hj)
    · by_cases hjf : j = fd
      · exact hjf ▸ h.reserved_ofile ha.1
      · exact (congrArg ofile ((hslot j).trans (if_neg hjf))).symm.trans hn
  | getf fd =>
    cases he
    unfold State.getf
    split
    · exact .of_waits rfl (fun _ => id) fun _ => id
    rename_i pufe hfd
    split_ifs
    · exact .of_waits rfl (fun _ => id) fun _ => id
    · exact .of_waits rfl (fun _ => id) fun j hj => (ofile_update hfd rfl j).symm.trans hj
  | releasef fd who =>
    simp only [State.exec, State.releasef, bind_eq_bind, bind_eq_some_iff,
      Option.some.injEq] at he
    obtain ⟨en, hfd, rfl⟩ := he
    refine .of_waits ?_ (fun _ => id) fun j hj => (ofile_update hfd rfl j).symm.trans hj
    dsimp only
    split_ifs
    · exact wake_map ha.2
    · rfl
  | getandset fd who => exact getandset_effect ha he
  | hold fp | closef fp =>
    cases he
    exact .of_waits rfl (fun _ => id) fun _ => id
  | dupdest dest fp => exact absurd rfl (hp dest fp)
  | run t who => exact run_effect ha.1 ha.2.1 (hdup t ha.1) ha.2.2 he

theorem Reachable.plain_inv (h : Reachable (fun s e => e.plain s ∧ e.counted s) s) :
    Inv True s ∧ ∀ t ∈ s.sleepers, t.wait.dups = none := by
  induction h with
  | init h => exact ⟨h.inv, by simp [h.sleepers]⟩
  | step _ e ha hp he ih =>
    refine ⟨ih.1.exec ha (fun dest fp heq => absurd heq (hp.1 dest fp)) (fun _ => hp.2) he, ?_⟩
    exact (ih.1.exec_effect ih.2 ha hp.1 he).dups ih.2

theorem Inv.mem_table (h : Inv True s)
    (hu : fd ∈ s.gots ∨ fd ∈ s.reservations ∨ 0 < closers s.sleepers fd) :
    ∃ e, s.flist[fd]? = some e := by
  by_contra hnone
  push Not at hnone
  have hslot : s.slot fd = {} := by
    simp [State.slot, Option.eq_none_iff_forall_ne_some.mpr hnone]
  have hok := h.slot fd
  rw [hslot] at hok
  have hr := hok.reserved
  have hc := hok.closing
  simp only [Bool.toNat_false] at hr hc
  rcases hu with hg | hres | hclose
  · simpa using hok.busy trivial (Multiset.count_pos.mpr hg)
  · have := Multiset.count_pos.mpr hres
    omega
  · omega

theorem closeLoop_total (hfd : ∃ e, s.flist[fd]? = some e) :
    ∃ s', s.closeLoop fd fp who = some s' := by
  obtain ⟨e, hfd⟩ := hfd
  unfold State.closeLoop
  simp only [hfd, bind_eq_bind, Option.bind_some]
  split_ifs <;> exact ⟨_, rfl⟩

/-- No allowed step accesses an entry outside the table. -/
theorem Inv.exec_total (h : Inv True s) (hdup : ∀ t ∈ s.sleepers, t.wait.dups = none)
    (ha : e.Allowed s) (hp : e.plain s) : ∃ s', s.exec e = some s' := by
  cases e with
  | ufalloc start =>
    rcases ufalloc_spec s start with ⟨hnone, -⟩ | ⟨fd, n, e, -, -, -, -, -, hsome⟩
    · simp [State.exec, hnone]
    · simp [State.exec, hsome]
  | setf fd fp =>
    obtain ⟨e, hfd⟩ := h.mem_table (.inr (.inl ha.1))
    simp [State.exec, State.setf, hfd]
  | getf fd => exact ⟨_, rfl⟩
  | releasef fd who =>
    obtain ⟨e, hfd⟩ := h.mem_table (.inl ha.1)
    simp [State.exec, State.releasef, hfd]
  | getandset fd who =>
    simp only [State.exec, State.getandset]
    split
    · exact ⟨s, rfl⟩
    · rename_i pufe hfd
      split
      · exact ⟨s, rfl⟩
      · exact closeLoop_total ⟨_, getElem?_update hfd⟩
  | hold fp | closef fp => exact ⟨_, rfl⟩
  | dupdest dest fp => exact absurd rfl (hp dest fp)
  | run t who =>
    have ht := hdup t ha.1
    simp only [State.exec, State.run]
    cases hwait : t.wait with
    | close fd fp =>
      refine closeLoop_total (h.mem_table (.inr (.inr ?_)))
      exact closers_pos ha.1 (by simp [hwait, closes])
    | dupOpen | dupClosing => simp [hwait, dups] at ht

/-- A descriptor becomes free only at the end of a close, or when its reservation is given up. -/
theorem Effect.free (h : Effect e s s') (hc : ¬ e.closes fd) (hf : s'.Free fd) :
    s.Free fd ∨ e = .setf fd none := by
  rw [free_iff_closers] at hf ⊢
  obtain ⟨h1, h2, h3⟩ := hf
  by_cases hr : fd ∈ s.reservations
  · obtain hr | ⟨fp, rfl, hfp⟩ := h.reserved fd hr
    · exact absurd hr h2
    · exact .inr (by rw [← hfp, h1])
  · exact .inl ⟨h.file fd hc h1, hr, (h.closers fd hc).symm.trans h3⟩

/-- `getandset` returns the file when nobody uses the descriptor any more. -/
theorem closeLoop_inUse {pufe : Entry} (hfd : s.flist[fd]? = some pufe)
    (hs : s.closeLoop fd fp who = some s') :
    (s'.refs = s.refs ∧ 0 < closers s'.sleepers fd) ∨ pufe.inUse = false := by
  obtain ⟨e, he, -, -, ⟨-, hrefs, hsl⟩ | ⟨hidle, -⟩⟩ := closeLoop_cases hs
  all_goals cases hfd.symm.trans he
  · exact .inl ⟨hrefs, by simp [hsl, closes]⟩
  · exact .inr hidle

theorem getandset_inUse (hs : s.getandset fd who = some s') :
    s' = s ∨ (s'.refs = s.refs ∧ 0 < closers s'.sleepers fd) ∨ (s.slot fd).inUse = false := by
  unfold State.getandset at hs
  split at hs
  · exact .inl (Option.some.inj hs).symm
  · rename_i pufe hfd
    split at hs
    · exact .inl (Option.some.inj hs).symm
    · right
      rw [slot_eq hfd]
      have hloop := closeLoop_inUse (getElem?_update hfd) hs
      exact hloop

theorem Inv.run_inUse (h : Inv True s) {fp : ℕ} (ht : ⟨.close fd fp, true⟩ ∈ s.sleepers)
    (hs : s.run ⟨.close fd fp, true⟩ who = some s') :
    (s'.refs = s.refs ∧ 0 < closers s'.sleepers fd) ∨ (s.slot fd).inUse = false := by
  obtain ⟨pufe, hfd⟩ := h.mem_table (.inr (.inr (closers_pos ht rfl)))
  rw [slot_eq hfd]
  have hfd' : ({ s with sleepers := s.sleepers.erase ⟨.close fd fp, true⟩ } : State).flist[fd]? =
    some pufe := hfd
  have hloop := closeLoop_inUse hfd' hs
  exact hloop

/-- A descriptor becomes free by a close that finds nobody using it. -/
theorem Inv.free_of_closes (h : Inv True s) (hdup : ∀ t ∈ s.sleepers, t.wait.dups = none)
    (ha : e.Allowed s) (he : s.exec e = some s') (hc : e.closes fd) (hbusy : ¬ s.Free fd)
    (hf : s'.Free fd) : (s.slot fd).inUse = false := by
  have h0 := (free_iff_closers.mp hf).2.2
  cases e with
  | getandset fd' who =>
    obtain rfl : fd' = fd := hc
    rcases getandset_inUse he with rfl | ⟨-, hpos⟩ | hidle
    · exact absurd hf hbusy
    · omega
    · exact hidle
  | run t who =>
    have ht := hdup t ha.1
    obtain ⟨wait, w⟩ := t
    obtain rfl : w = true := ha.2.1
    cases wait with
    | close fd' fp =>
      obtain rfl : fd' = fd := by simpa [Event.closes, closes] using hc
      rcases h.run_inUse ha.1 he with ⟨-, hpos⟩ | hidle
      · omega
      · exact hidle
    | dupOpen | dupClosing => simp [dups] at ht
  | _ => exact absurd hc id

/-- The signed test of the loops sees every reference. -/
theorem Inv.refcnt_eq_zero (h : Inv True s) (hu : (s.slot fd).inUse = false) :
    (s.slot fd).refcnt = 0 := by
  have hzero : s.gots.count fd = 0 := by simpa [hu] using (h.slot fd).inUse_iff trivial
  rw [(h.slot fd).refcnt, hzero]
  rfl

theorem Inv.reservations_nodup (h : Inv few s) : s.reservations.Nodup := by
  rw [Multiset.nodup_iff_count_le_one]
  intro fd
  have := (h.slot fd).reserved
  have := Bool.toNat_le (s.slot fd).reserved
  omega

theorem Inv.free_refcnt (h : Inv True s) (hf : s.Free fd) : (s.slot fd).refcnt = 0 := by
  obtain ⟨h1, -, h3⟩ := free_iff_closers.mp hf
  have hok := h.slot fd
  have hclose : (s.slot fd).closing = false := by
    rw [← Bool.toNat_eq_zero, ← hok.closing, h3]
  refine h.refcnt_eq_zero (Bool.eq_false_iff.mpr fun hu => ?_)
  simpa [h1, hclose] using hok.busy trivial ((hok.inUse_iff trivial).mp hu)

end Plain

/-- In every state that the threads of a process reach with `ufalloc`, `setf`, `getf`,
`releasef` and `getandset`, with no more calls of `getf` for a descriptor at a time than a `short`
can count: `ufalloc` finds the lowest descriptor that is neither open nor reserved nor being
closed, and fails if there is none below the limit. Each descriptor is reserved by one thread at
most, stays so until it is set, and becomes free again only when a close finds that nobody uses
it, or when `setf` gives the reservation up. Nothing accesses an entry outside the table, and
growth keeps the entries. -/
theorem plain_run_allocation {s : State}
    (h : Reachable (fun s e => e.plain s ∧ e.counted s) s) :
    (∀ start, ∃ s' r, s.ufalloc start = some (s', r) ∧
      (r = none ↔ ∀ fd, start ≤ fd → fd < s.limit → ¬ s.Free fd) ∧
      ∀ fd, r = some fd → start ≤ fd ∧ fd < s.limit ∧ s.Free fd ∧
        ∀ j, start ≤ j → j < fd → ¬ s.Free j) ∧
    s.reservations.Nodup ∧ (∀ fd ∈ s.reservations, (s.slot fd).ofile = none) ∧
    (∀ fd, (s.slot fd).refcnt ≠ 0 → ¬ s.Free fd) ∧
    (∀ e : Event, e.Allowed s → e.plain s → ∃ s', s.exec e = some s' ∧
      (∀ fd, ¬ s.Free fd → s'.Free fd →
        (e.closes fd ∧ (s.slot fd).refcnt = 0) ∨ e = .setf fd none) ∧
      ∀ fd ∈ s.reservations, fd ∈ s'.reservations ∨ ∃ fp, e = .setf fd fp) ∧
    (∀ fd who s', s.getandset fd who = some s' → s'.refs ≠ s.refs → (s.slot fd).refcnt = 0) ∧
    (∀ fd fp who s', ⟨.close fd fp, true⟩ ∈ s.sleepers →
      s.run ⟨.close fd fp, true⟩ who = some s' → s'.refs ≠ s.refs → (s.slot fd).refcnt = 0) ∧
    ∀ nfd s', s.flistRealloc nfd = some s' →
      ∀ fd, fd < s.flist.length → s'.flist[fd]? = s.flist[fd]? := by
  obtain ⟨hinv, hdup⟩ := h.plain_inv
  refine ⟨fun start => ?_, hinv.reservations_nodup, fun fd => hinv.reserved_ofile,
    fun fd hpos hf => hpos (hinv.free_refcnt hf), fun e ha hp => ?_, fun fd who s' hs hne => ?_,
    fun fd fp who s' ht hs hne => ?_, fun nfd s' hs fd hlt => ?_⟩
  · rcases ufalloc_spec s start with ⟨hnone, hall⟩ | ⟨fd, n, e, hle, hlt, hfree, hlow, -, hsome⟩
    · refine ⟨s, none, hnone, ?_, by simp⟩
      simpa [hinv.free_iff hdup] using hall
    · refine ⟨_, some fd, hsome, ?_, ?_⟩
      · simp only [reduceCtorEq, false_iff]
        exact fun hall => hall fd hle hlt ((hinv.free_iff hdup).mpr hfree)
      · intro fd' hfd'
        cases hfd'
        refine ⟨hle, hlt, (hinv.free_iff hdup).mpr hfree, fun j h1 h2 => ?_⟩
        rw [hinv.free_iff hdup]
        exact hlow j h1 h2
  · obtain ⟨s', hs⟩ := hinv.exec_total hdup ha hp
    have heff := hinv.exec_effect hdup ha hp hs
    refine ⟨s', hs, fun fd hbusy hf => ?_,
      fun fd hr => (heff.reserved fd hr).imp_right fun ⟨fp, he, _⟩ => ⟨fp, he⟩⟩
    by_cases hc : e.closes fd
    · exact .inl ⟨hc, hinv.refcnt_eq_zero (hinv.free_of_closes hdup ha hs hc hbusy hf)⟩
    · exact .inr ((heff.free hc hf).resolve_left hbusy)
  · rcases getandset_inUse hs with rfl | ⟨hrefs, -⟩ | hidle
    · exact absurd rfl hne
    · exact absurd hrefs hne
    · exact hinv.refcnt_eq_zero hidle
  · rcases hinv.run_inUse ht hs with ⟨hrefs, -⟩ | hidle
    · exact absurd hrefs hne
    · exact hinv.refcnt_eq_zero hidle
  · obtain ⟨n, rfl⟩ := flistRealloc_spec hs
    exact List.getElem?_append_left hlt

/-- File 7 is open at descriptor 0, which has been got `n` times. -/
def heldBy (n : ℕ) : State where
  flist := [{ ofile := some 7, refcnt := BitVec.ofNat 16 n }, {}]
  limit := 4
  fcount := fun fp => if fp = 7 then 1 else 0
  gots := Multiset.replicate n 0

theorem heldBy_initial : Initial (heldBy 0) := by
  refine ⟨by decide, fun fp => ?_, rfl, rfl, rfl, rfl⟩
  by_cases hfp : fp = 7 <;> simp [heldBy, hfp, eq_comm]

/-- One open descriptor that another thread has got, and one reservation, after another one has
been given up. -/
def oneOpen : State where
  flist := [{ ofile := some 7, refcnt := 1 }, { reserved := true }]
  limit := 4
  fcount := fun fp => if fp = 7 then 1 else 0
  gots := { 0 }
  reservations := { 1 }

theorem oneOpen_reachable : Reachable (fun s e => e.plain s ∧ e.counted s) oneOpen := by
  refine .step (.step (.step (.step (.init heldBy_initial) (.ufalloc 0) trivial ?_ rfl)
    (.setf 1 none) ⟨by decide, by simp⟩ ?_ rfl) (.getf 0) trivial ?_ rfl)
    (.ufalloc 0) trivial ?_ rfl
  all_goals simp [Event.plain, Event.counted, heldBy]

theorem plain_run_allocation_oneOpen :
    (∃ s', oneOpen.ufalloc 0 = some (s', some 2)) ∧ ¬ oneOpen.Free 0 := by
  obtain ⟨-, -, -, hbusy, -⟩ := plain_run_allocation oneOpen_reachable
  exact ⟨⟨_, rfl⟩, hbusy 0 (by decide)⟩

theorem heldBy_reachable (n : ℕ) : Reachable (fun s e => e.plain s) (heldBy n) := by
  induction n with
  | zero => exact .init heldBy_initial
  | succ n ih =>
    refine .step ih (.getf 0) trivial (by simp [Event.plain]) ?_
    simp [State.exec, State.getf, heldBy, State.update, BitVec.ofNat_add, Multiset.replicate_succ]

/-- The 32768th `getf` makes the count negative: the loop of `getandset` takes the descriptor for
unused, the file is returned to be closed, and `ufalloc` gives the descriptor to the next call. -/
theorem negative_count_closed :
    Reachable (fun s e => e.plain s) (heldBy 32768) ∧ ((heldBy 32768).slot 0).refcnt ≠ 0 ∧
      ∃ s', (heldBy 32768).getandset 0 none = some s' ∧ s'.refs = { 7 } ∧ (s'.slot 0).refcnt ≠ 0 ∧
        ∃ s'', s'.ufalloc 0 = some (s'', some 0) :=
  ⟨heldBy_reachable 32768, by decide, _, rfl, rfl, by decide, _, rfl⟩

end Sol26.Fd
