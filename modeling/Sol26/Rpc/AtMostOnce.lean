import Sol26.Rpc.Tables

/-!
# At most once

What is known of a request is recorded beside the cache, from what the calls return. As long as
an entry is for a request that is executed or done, it stays on its hash chain.
-/
namespace Sol26.Rpc

open Linked Function

/-- What came of a request. -/
inductive Outcome
  | executing
  | done (res : List UInt8)
  | dropped

/-- The request that an entry is for, and what came of it. -/
structure Record where
  req : Req
  outcome : Outcome

/-- The records after a step. An entry that is taken for another request loses its record. -/
def track (ρ : Ptr → Option Record) : Label → Ptr → Option Record
  | .returned req .new dr _ => update ρ dr (some ⟨req, .executing⟩)
  | .returned req .drop dr _ => update ρ dr (some ⟨req, .executing⟩)
  | .returned _ .error dr _ => update ρ dr none
  | .finished dr (some res) => update ρ dr ((ρ dr).map fun r => { r with outcome := .done res })
  | .finished dr none => update ρ dr ((ρ dr).map fun r => { r with outcome := .dropped })
  | _ => ρ

/-- What the entry shows of the outcome. A lookup that comes between the stores of
`svc_clts_kdupdone` may leave `DUP_INPROGRESS` in the entry of a request that is done or
dropped. -/
def Shows (n : ℕ) (d : Dupreq) : Outcome → Prop
  | .executing => d.status = .inprogress
  | .done res => d.status ≠ .drop ∧ d.resp.take n = res
  | .dropped => d.status ≠ .done

/-- What holds where the thread with the lock is. -/
def LockInv (c : Cache) (chains : ℕ → List Ptr) : Lock → Prop
  | .idle => True
  | .matched req dr status => (∃ b, dr ∈ chains b) ∧ (c.mem dr).Matches req ∧
      (status ≠ .inprogress → (c.mem dr).status = status)
  | .recycling req _ dr => dr ∈ c.used ∧ ∀ b, ∀ p ∈ chains b, ¬ (c.mem p).Matches req

structure Inv (size : Req → ℕ) (ρ : Ptr → Option Record) (chains : ℕ → List Ptr) (s : System) :
    Prop where
  tables : Tables size s.cache chains
  ring : ∀ m ∈ s.cache.drmru, Ring s.cache m
  empty : s.cache.drmru = none → s.cache.used = ∅
  live : ∀ p ∈ s.cache.used, (s.cache.mem p).status ≠ .drop → ∃ b, p ∈ chains b
  record : ∀ p r, ρ p = some r → (∃ b, p ∈ chains b) ∧ (s.cache.mem p).Matches r.req ∧
    Shows (size r.req) (s.cache.mem p) r.outcome
  recorded : ∀ b, ∀ p ∈ chains b, ∃ r, ρ p = some r
  nodup : (s.jobs.map Job.dr).Nodup
  job : ∀ j ∈ s.jobs, ρ j.dr = some ⟨j.req, .executing⟩ ∧
    ∀ res ∈ j.stored, (s.cache.mem j.dr).resp.take (size j.req) = res
  lock : LockInv s.cache chains s.lock

/-- What a step may show: a request for which there is a record is not new, a response is the one
that was stored, and an entry in progress is not recycled. -/
def Proper (ρ : Ptr → Option Record) (s : System) : Label → Prop
  | .returned req answer dr recycled =>
    (answer = .new → ∀ p r, ρ p = some r → r.req ≠ req) ∧
    (∀ res, answer = .done res → ρ dr = some ⟨req, .done res⟩) ∧
    (recycled = true → (s.cache.mem dr).status ≠ .inprogress ∧
      ∀ r, ρ dr = some r → r.outcome ≠ .executing)
  | _ => True

section Steps

variable {size : Req → ℕ} {ρ : Ptr → Option Record} {chains : ℕ → List Ptr} {s s' : System}
  {l : Label} {req : Req} {env : Env} {dr : Ptr} {maxdupreqs : ℕ}

theorem Inv.drmru_mem (h : Inv size ρ chains s) (m : Ptr) (hm : m ∈ s.cache.drmru) :
    m ∈ s.cache.used := by
  obtain ⟨l, -, -, hmem⟩ := h.ring m hm
  exact (hmem m).mp List.mem_cons_self

/-- The entry `dr`, which is on no chain of `c`, is taken for the request. -/
theorem Inv.take (h : Inv size ρ chains s) {c : Cache} {chains1 : ℕ → List Ptr}
    (htab : Tables size c chains1) (hring : Ring c dr) (hdr : dr ∈ c.used)
    (hused : ∀ p ∈ c.used, p ≠ dr → p ∈ s.cache.used)
    (hchains : ∀ b p, p ∈ chains1 b ↔ p ∈ chains b ∧ p ≠ dr)
    (hmem : ∀ p, p ≠ dr → ∃ next chain, c.mem p = { s.cache.mem p with next, chain })
    (hno : ∀ b, ∀ p ∈ chains b, ¬ (s.cache.mem p).Matches req)
    (hjob : ∀ r, ρ dr = some r → r.outcome ≠ .executing) (env : Env) (recycled : Bool) :
    ∃ chains', Inv size (track ρ (.returned req (c.take env req (size req) dr).2 dr recycled)) chains'
      { cache := (c.take env req (size req) dr).1, lock := .idle,
        jobs := (c.take env req (size req) dr).2.start s.jobs dr req } := by
  have hno1 : ∀ b, ∀ p ∈ chains1 b, ¬ (c.mem p).Matches req := by
    intro b p hp hm
    obtain ⟨hp, hne⟩ := (hchains b p).mp hp
    obtain ⟨next, chain, he⟩ := hmem p hne
    rw [he] at hm
    exact hno b p hp hm
  obtain ⟨chains', c', answer, ht, htab', hused', hdrmru, hnext, hkeep, hcase⟩ :=
    htab.take_spec env req hdr (fun b hb => ((hchains b dr).mp hb).2 rfl) hno1
  rw [ht]
  have hmem' : ∀ p, p ≠ dr → ∃ next chain, c'.mem p = { s.cache.mem p with next, chain } := by
    intro p hp
    rw [hkeep p hp]
    exact hmem p hp
  have hring' : ∀ m ∈ c'.drmru, Ring c' m := by
    intro m hm
    cases hdrmru.symm.trans hm
    apply hring.congr hused'
    intro p _
    by_cases hp : p = dr
    · rw [hp, hnext]
    · rw [hkeep p hp]
  have hempty : c'.drmru = none → c'.used = ∅ := by
    intro hn
    simp [hdrmru] at hn
  have hold : ∀ b, ∀ p ∈ chains b, p ≠ dr → p ∈ chains' b := by
    intro b p hp hne
    rcases hcase with ⟨-, -, -, hin⟩ | ⟨-, -, rfl⟩
    · exact (hin b p).mpr (.inl ((hchains b p).mpr ⟨hp, hne⟩))
    · exact (hchains b p).mpr ⟨hp, hne⟩
  have hlive : ∀ p ∈ c'.used, p ≠ dr → (c'.mem p).status ≠ .drop → ∃ b, p ∈ chains' b := by
    intro p hp hne hst
    obtain ⟨next, chain, he⟩ := hmem' p hne
    rw [he] at hst
    rw [hused'] at hp
    obtain ⟨b, hb⟩ := h.live p (hused p hp hne) hst
    exact ⟨b, hold b p hb hne⟩
  have hrecord : ∀ p r, p ≠ dr → ρ p = some r → (∃ b, p ∈ chains' b) ∧ (c'.mem p).Matches r.req ∧
      Shows (size r.req) (c'.mem p) r.outcome := by
    intro p r hne hr
    obtain ⟨⟨b, hb⟩, hmatch, hshows⟩ := h.record p r hr
    obtain ⟨next, chain, he⟩ := hmem' p hne
    refine ⟨⟨b, hold b p hb hne⟩, ?_, ?_⟩
    · rw [he]
      exact hmatch
    · rw [he]
      cases hout : r.outcome <;> rw [hout] at hshows <;> exact hshows
  have hjne : ∀ j ∈ s.jobs, j.dr ≠ dr := fun j hj he => hjob _ (he ▸ (h.job j hj).1) rfl
  have hjobs : ∀ j ∈ s.jobs, ∀ res ∈ j.stored, (c'.mem j.dr).resp.take (size j.req) = res := by
    intro j hj res hres
    obtain ⟨next, chain, he⟩ := hmem' j.dr (hjne j hj)
    rw [he]
    exact (h.job j hj).2 res hres
  refine ⟨chains', ?_⟩
  rcases hcase with ⟨rfl, hmatch, hstatus, hin⟩ | ⟨rfl, hstatus, rfl⟩
  · -- the request is executed
    have hdr' : dr ∈ chains' (xidhash req.xid) := (hin _ dr).mpr (.inr ⟨rfl, rfl⟩)
    refine ⟨htab', hring', hempty, fun p hp hst => ?_, fun p r hr => ?_, fun b p hp => ?_, ?_,
      fun j hj => ?_, trivial⟩
    · by_cases hne : p = dr
      · exact ⟨_, hne ▸ hdr'⟩
      · exact hlive p hp hne hst
    · by_cases hne : p = dr
      · subst hne
        rw [track, update_self] at hr
        cases hr
        exact ⟨⟨_, hdr'⟩, hmatch, hstatus⟩
      · rw [track, update_of_ne hne] at hr
        exact hrecord p r hne hr
    · by_cases hne : p = dr
      · exact ⟨_, by rw [hne, track, update_self]⟩
      · rw [track, update_of_ne hne]
        rcases (hin b p).mp hp with hp | ⟨he, -⟩
        · exact h.recorded b p ((hchains b p).mp hp).1
        · exact absurd he hne
    · refine List.nodup_cons.mpr ⟨fun hc => ?_, h.nodup⟩
      obtain ⟨j, hj, he⟩ := List.mem_map.mp hc
      exact hjne j hj he
    · rcases List.mem_cons.mp hj with rfl | hj
      · exact ⟨by rw [track, update_self], nofun⟩
      · refine ⟨?_, hjobs j hj⟩
        rw [track, update_of_ne (hjne j hj)]
        exact (h.job j hj).1
  · -- there was no memory; the entry is on no chain
    refine ⟨htab', hring', hempty, fun p hp hst => ?_, fun p r hr => ?_, fun b p hp => ?_, h.nodup,
      fun j hj => ⟨?_, hjobs j hj⟩, trivial⟩
    · by_cases hne : p = dr
      · exact absurd hstatus (hne ▸ hst)
      · exact hlive p hp hne hst
    · by_cases hne : p = dr
      · simp [track, hne, update_self] at hr
      · rw [track, update_of_ne hne] at hr
        exact hrecord p r hne hr
    · obtain ⟨hp, hne⟩ := (hchains b p).mp hp
      rw [track, update_of_ne hne]
      exact h.recorded b p hp
    · rw [track, update_of_ne (hjne j hj)]
      exact (h.job j hj).1

/-- An entry on a chain gets another status or response: what is left to show is about the
records, the jobs and the lock. -/
theorem Inv.set (h : Inv size ρ chains s) {b : ℕ} (hb : dr ∈ chains b) (status : Status)
    {resp : List UInt8} (hresp : resp.length = (s.cache.mem dr).resp.length)
    {ρ' : Ptr → Option Record} {jobs : List Job} {lock : Lock}
    (hρ : ∀ p, p ≠ dr → ρ' p = ρ p)
    (hrec : ∃ r, ρ' dr = some r ∧ (s.cache.mem dr).Matches r.req ∧
      Shows (size r.req) { s.cache.mem dr with status, resp } r.outcome)
    (hnodup : (jobs.map Job.dr).Nodup)
    (hother : ∀ j ∈ jobs, j.dr ≠ dr → j ∈ s.jobs)
    (hself : ∀ j ∈ jobs, j.dr = dr → ρ' dr = some ⟨j.req, .executing⟩ ∧
      ∀ res ∈ j.stored, resp.take (size j.req) = res)
    (hlock : LockInv (s.cache.set dr { s.cache.mem dr with status, resp }) chains lock) :
    Inv size ρ' chains
      { cache := s.cache.set dr { s.cache.mem dr with status, resp }, lock, jobs } := by
  have hmem : ∀ p, p ≠ dr →
      (s.cache.set dr { s.cache.mem dr with status, resp }).mem p = s.cache.mem p :=
    fun p hp => Cache.set_of_ne _ _ hp
  have hmemdr : (s.cache.set dr { s.cache.mem dr with status, resp }).mem dr =
      { s.cache.mem dr with status, resp } := Cache.set_self ..
  refine ⟨?_, fun m hm => ?_, h.empty, fun p hp hst => ?_, fun p r hr => ?_, fun b p hp => ?_,
    hnodup, fun j hj => ?_, hlock⟩
  · apply h.tables.congr
    · rfl
    · exact subset_rfl
    · exact h.tables.count
    · intro b p _
      by_cases hp : p = dr
      · rw [hp]
        exact ⟨status, resp, (s.cache.mem dr).next, hmemdr, hresp⟩
      · exact ⟨(s.cache.mem p).status, (s.cache.mem p).resp, (s.cache.mem p).next, hmem p hp, rfl⟩
  · apply (h.ring m hm).congr
    · rfl
    · intro p _
      by_cases hp : p = dr
      · rw [hp, hmemdr]
      · rw [hmem p hp]
  · by_cases hne : p = dr
    · exact ⟨b, hne ▸ hb⟩
    · rw [hmem p hne] at hst
      exact h.live p hp hst
  · by_cases hne : p = dr
    · subst hne
      obtain ⟨r', hr', hmatch, hshows⟩ := hrec
      cases hr'.symm.trans hr
      dsimp only
      rw [hmemdr]
      exact ⟨⟨b, hb⟩, hmatch, hshows⟩
    · rw [hρ p hne] at hr
      dsimp only
      rw [hmem p hne]
      exact h.record p r hr
  · by_cases hne : p = dr
    · obtain ⟨r, hr, -⟩ := hrec
      exact ⟨r, hne ▸ hr⟩
    · rw [hρ p hne]
      exact h.recorded b p hp
  · by_cases hne : j.dr = dr
    · dsimp only
      rw [hne, hmemdr]
      exact hself j hj hne
    · dsimp only
      rw [hρ _ hne, hmem _ hne]
      exact h.job j (hother j hj hne)

/-- Only the lock changes. -/
theorem Inv.relock (h : Inv size ρ chains s) {lock : Lock} (hlock : LockInv s.cache chains lock) :
    Inv size ρ chains { s with lock } :=
  ⟨h.tables, h.ring, h.empty, h.live, h.record, h.recorded, h.nodup, h.job, hlock⟩

theorem Inv.no_match (h : Inv size ρ chains s)
    (hno : ∀ p ∈ chains (xidhash req.xid), ¬ (s.cache.mem p).Matches req) :
    ∀ b, ∀ p ∈ chains b, ¬ (s.cache.mem p).Matches req := by
  intro b p hp hm
  have hb : xidhash (s.cache.mem p).xid = b := (h.tables.used b p hp).2
  rw [hm.1] at hb
  exact hno p (hb ▸ hp) hm

/-- What the lookup finds. -/
theorem Inv.lookup (h : Inv size ρ chains s) (req : Req) :
    (∃ p b, p ∈ chains b ∧ (s.cache.mem p).Matches req ∧
      s.cache.lookup req s.cache.ndupreqs (s.cache.drhashtbl (xidhash req.xid)) = some (some p)) ∨
    (∀ b, ∀ p ∈ chains b, ¬ (s.cache.mem p).Matches req) ∧
      s.cache.lookup req s.cache.ndupreqs (s.cache.drhashtbl (xidhash req.xid)) = some none := by
  have hnone : ∀ p ∈ ([] : List Ptr), ¬ (s.cache.mem p).Matches req := by simp
  have hspec := h.tables.lookup_spec (show chains (xidhash req.xid) = [] ++ _ from rfl) hnone
    (h.tables.length_le _)
  rw [← h.tables.table_eq] at hspec
  rcases hspec with ⟨p, hp, hm, he⟩ | ⟨hno, he⟩
  · exact .inl ⟨p, _, hp, hm, he⟩
  · exact .inr ⟨h.no_match hno, he⟩

/-- A request that no entry on a chain is for has no record. -/
theorem Inv.no_record (h : Inv size ρ chains s)
    (hno : ∀ b, ∀ p ∈ chains b, ¬ (s.cache.mem p).Matches req) (p : Ptr) (r : Record)
    (hr : ρ p = some r) : r.req ≠ req := by
  obtain ⟨⟨b, hb⟩, hm, -⟩ := h.record p r hr
  intro he
  exact hno b p hb (he ▸ hm)

theorem Cache.take_answer (c : Cache) (env : Env) (req : Req) (n : ℕ) (dr : Ptr) :
    (c.take env req n dr).2 = .new ∨ (c.take env req n dr).2 = .error := by
  unfold Cache.take
  dsimp only
  split
  · exact .inl rfl
  · exact .inr rfl

theorem Inv.proper_take (h : Inv size ρ chains s)
    (hno : ∀ b, ∀ p ∈ chains b, ¬ (s.cache.mem p).Matches req) (c : Cache) (env : Env) {recycled : Bool}
    (hrec : recycled = true → (s.cache.mem dr).status ≠ .inprogress ∧
      ∀ r, ρ dr = some r → r.outcome ≠ .executing) :
    Proper ρ s (.returned req (c.take env req (size req) dr).2 dr recycled) := by
  refine ⟨fun _ => h.no_record hno, fun res he => ?_, hrec⟩
  rcases c.take_answer env req (size req) dr with hc | hc <;> rw [hc] at he <;> cases he

theorem Inv.kdup (h : Inv size ρ chains s) (hidle : s.lock = .idle)
    (hstep : s.kdup maxdupreqs size env req = some (l, s')) :
    Proper ρ s l ∧ ∃ chains', Inv size (track ρ l) chains' s' := by
  unfold System.kdup at hstep
  rcases h.lookup req with ⟨p, b, hp, hm, he⟩ | ⟨hno, he⟩ <;> rw [he, Option.bind_some] at hstep
  · cases hstep
    exact ⟨trivial, chains, h.relock ⟨⟨b, hp⟩, hm, fun _ => rfl⟩⟩
  · dsimp only at hstep
    by_cases hmax : s.cache.ndupreqs < maxdupreqs
    · rw [if_pos hmax] at hstep
      cases hentry : env.entry s.cache.used with
      | none =>
        rw [hentry] at hstep
        cases hstep
        exact ⟨trivial, chains, h⟩
      | some dr =>
        rw [hentry] at hstep
        cases hstep
        have hdr : dr ∉ s.cache.used := env.entry_notMem _ _ hentry
        have hfree : ∀ b, dr ∉ chains b := fun b hb => hdr (h.tables.used b dr hb).1
        have hring : Ring (s.cache.enter dr) dr := by
          cases hm : s.cache.drmru with
          | none => exact Ring.enter_first hm (h.empty hm)
          | some m => exact (h.ring m hm).enter hm hdr
        have hin : ∀ p, p ∈ (s.cache.enter dr).used ↔ p = dr ∨ p ∈ s.cache.used := by
          intro p
          rw [enter_used, Finset.mem_insert]
        refine ⟨h.proper_take hno _ env nofun, ?_⟩
        rw [hidle]
        apply h.take (h.tables.enter hdr) hring
        · exact (hin dr).mpr (.inl rfl)
        · intro p hp hne
          exact ((hin p).mp hp).resolve_left hne
        · intro b p
          exact ⟨fun hp => ⟨hp, fun he => hfree b (he ▸ hp)⟩, And.left⟩
        · intro p hp
          obtain ⟨next, he⟩ := enter_mem s.cache hp
          exact ⟨next, (s.cache.mem p).chain, he⟩
        · exact hno
        · intro r hr
          obtain ⟨⟨b, hb⟩, -⟩ := h.record dr r hr
          exact absurd hb (hfree b)
    · rw [if_neg hmax] at hstep
      obtain ⟨m, hm, he⟩ := Option.map_eq_some_iff.mp hstep
      cases he
      refine ⟨trivial, chains, h.relock ⟨?_, hno⟩⟩
      exact (h.ring m hm).next_mem (h.drmru_mem m hm)

/-- The record of an entry that matches the request. -/
theorem Inv.record_of_matches (h : Inv size ρ chains s) {b : ℕ} (hb : dr ∈ chains b)
    (hm : (s.cache.mem dr).Matches req) :
    ∃ out, ρ dr = some ⟨req, out⟩ ∧ Shows (size req) (s.cache.mem dr) out := by
  obtain ⟨⟨req', out⟩, hr⟩ := h.recorded b dr hb
  obtain ⟨-, hm', hshows⟩ := h.record dr _ hr
  obtain rfl := hm'.unique hm
  exact ⟨out, hr, hshows⟩

/-- An entry that is executed has the status `DUP_INPROGRESS`. -/
theorem Inv.not_executing (h : Inv size ρ chains s) (hst : (s.cache.mem dr).status ≠ .inprogress)
    (r : Record) (hr : ρ dr = some r) : r.outcome ≠ .executing := by
  intro he
  have hshows := (h.record dr r hr).2.2
  rw [he] at hshows
  exact hst hshows

theorem Inv.answer (h : Inv size ρ chains s) {status : Status}
    (hlock : LockInv s.cache chains (.matched req dr status))
    (hstep : s.answer size req dr status = some (l, s')) :
    Proper ρ s l ∧ ∃ chains', Inv size (track ρ l) chains' s' := by
  obtain ⟨⟨b, hb⟩, hm, hst⟩ := hlock
  obtain ⟨out, hr, hshows⟩ := h.record_of_matches hb hm
  cases status with
  | done =>
    have hdone := hst (by decide)
    unfold System.answer at hstep
    split_ifs at hstep with hsize
    cases hstep
    refine ⟨⟨nofun, fun res he => ?_, nofun⟩, chains, h.relock trivial⟩
    cases he
    cases out with
    | executing => exact absurd (hdone.symm.trans hshows) (by decide)
    | done res => rw [hr, hshows.2]
    | dropped => exact absurd hdone hshows
  | inprogress =>
    cases hstep
    refine ⟨⟨nofun, nofun, nofun⟩, chains, ?_⟩
    apply h.set hb .inprogress rfl
    · exact fun _ _ => rfl
    · refine ⟨_, hr, hm, ?_⟩
      cases out with
      | executing => rfl
      | done res => exact ⟨nofun, hshows.2⟩
      | dropped => exact nofun
    · exact h.nodup
    · exact fun j hj _ => hj
    · intro j hj he
      rw [← he]
      exact h.job j hj
    · exact trivial
  | drop =>
    have hdrop := hst (by decide)
    cases hstep
    refine ⟨⟨nofun, nofun, nofun⟩, chains, ?_⟩
    have hjne : ∀ j ∈ s.jobs, j.dr ≠ dr := by
      intro j hj he
      have hst : (s.cache.mem dr).status ≠ .inprogress := by
        rw [hdrop]
        decide
      exact h.not_executing hst _ (he ▸ (h.job j hj).1) rfl
    apply h.set hb .inprogress rfl
    · exact fun p hp => update_of_ne hp _ _
    · exact ⟨⟨req, .executing⟩, update_self .., hm, rfl⟩
    · refine List.nodup_cons.mpr ⟨fun hc => ?_, h.nodup⟩
      obtain ⟨j, hj, he⟩ := List.mem_map.mp hc
      exact hjne j hj he
    · intro j hj hne
      exact (List.mem_cons.mp hj).resolve_left fun he => hne (congrArg Job.dr he)
    · intro j hj he
      rcases List.mem_cons.mp hj with rfl | hj
      · exact ⟨update_self .., nofun⟩
      · exact absurd he (hjne j hj)
    · exact trivial

theorem Inv.recycle (h : Inv size ρ chains s)
    (hlock : LockInv s.cache chains (.recycling req env dr))
    (hstep : s.recycle size req env dr = some (l, s')) :
    Proper ρ s l ∧ ∃ chains', Inv size (track ρ l) chains' s' := by
  obtain ⟨hdr, hno⟩ := hlock
  have hring : Ring s.cache dr := by
    cases hm : s.cache.drmru with
    | none =>
      rw [h.empty hm] at hdr
      exact absurd hdr (Finset.notMem_empty dr)
    | some m => exact (h.ring m hm).rotate hdr
  unfold System.recycle at hstep
  by_cases hst : (s.cache.mem dr).status = .inprogress
  · rw [if_pos hst] at hstep
    cases hstep
    exact ⟨trivial, chains, h.relock ⟨hring.next_mem hdr, hno⟩⟩
  · rw [if_neg hst] at hstep
    obtain ⟨c, chains1, hc, hun, htab, hin⟩ := h.tables.unhash_spec dr
    rw [hc] at hstep
    cases hstep
    refine ⟨h.proper_take hno c env fun _ => ⟨hst, h.not_executing hst⟩, ?_⟩
    apply h.take htab
    · apply hring.congr hun.used
      intro p _
      obtain ⟨chain, he⟩ := hun.mem p
      rw [he]
    · rw [hun.used]
      exact hdr
    · intro p hp _
      rwa [hun.used] at hp
    · exact hin
    · intro p _
      obtain ⟨chain, he⟩ := hun.mem p
      exact ⟨(s.cache.mem p).next, chain, he⟩
    · exact hno
    · exact h.not_executing hst

/-- A status that was read holds for the lock as long as the entry is not in progress. -/
theorem LockInv.set {c : Cache} {lock : Lock} (h : LockInv c chains lock) {status : Status}
    {resp : List UInt8} (hst : (c.mem dr).status = .inprogress) :
    LockInv (c.set dr { c.mem dr with status, resp }) chains lock := by
  have hkey : ∀ p req, ((c.set dr { c.mem dr with status, resp }).mem p).Matches req ↔
      (c.mem p).Matches req := by
    intro p req
    by_cases hp : p = dr
    · rw [hp, Cache.set_self]
      exact Iff.rfl
    · rw [Cache.set_of_ne _ _ hp]
  cases lock with
  | idle => exact trivial
  | matched req p st =>
    obtain ⟨hb, hm, hold⟩ := h
    refine ⟨hb, (hkey p req).mpr hm, fun hne => ?_⟩
    by_cases hp : p = dr
    · subst hp
      exact absurd ((hold hne).symm.trans hst) hne
    · rw [Cache.set_of_ne _ _ hp]
      exact hold hne
  | recycling req env p => exact ⟨h.1, fun b q hq hm => h.2 b q hq ((hkey q req).mp hm)⟩

/-- What is known of a job. -/
theorem Inv.of_job (h : Inv size ρ chains s) {j : Job} (hj : j ∈ s.jobs) :
    (∃ b, j.dr ∈ chains b) ∧ (s.cache.mem j.dr).Matches j.req ∧
      (s.cache.mem j.dr).status = .inprogress ∧ size j.req ≤ (s.cache.mem j.dr).resp.length := by
  obtain ⟨⟨b, hb⟩, hm, hshows⟩ := h.record _ _ (h.job j hj).1
  obtain ⟨req, hm', hsize⟩ := h.tables.key b _ hb
  obtain rfl := hm'.unique hm
  exact ⟨⟨b, hb⟩, hm, hshows, hsize⟩

theorem Inv.store (h : Inv size ρ chains s) {i : ℕ} {res : List UInt8}
    (hstep : s.store size i res = some (l, s')) :
    Proper ρ s l ∧ ∃ chains', Inv size (track ρ l) chains' s' := by
  obtain ⟨j, hj, hstep⟩ := Option.bind_eq_some_iff.mp hstep
  dsimp only at hstep
  split_ifs at hstep with hcond
  cases hstep
  obtain ⟨-, hsize, hroom⟩ := hcond
  have hmem : j ∈ s.jobs := List.mem_of_getElem? hj
  obtain ⟨⟨b, hb⟩, hm, hst, -⟩ := h.of_job hmem
  have hi : i < s.jobs.length := (List.getElem?_eq_some_iff.mp hj).1
  have hget : s.jobs[i] = j := (List.getElem?_eq_some_iff.mp hj).2
  have hmap : (s.jobs.set i { j with stored := some res }).map Job.dr = s.jobs.map Job.dr := by
    rw [List.map_set]
    apply List.ext_getElem (by simp)
    intro k hk _
    rw [List.getElem_set]
    split_ifs with hik
    · subst hik
      simp [hget]
    · rfl
  refine ⟨trivial, chains, ?_⟩
  apply h.set hb
  · simp only [List.length_append, List.length_drop]
    omega
  · exact fun _ _ => rfl
  · exact ⟨_, (h.job j hmem).1, hm, hst⟩
  · rw [hmap]
    exact h.nodup
  · intro j' hj' hne
    rcases List.mem_or_eq_of_mem_set hj' with hj' | rfl
    · exact hj'
    · exact absurd rfl hne
  · intro j' hj' he
    obtain ⟨k, hk, rfl⟩ := List.getElem_of_mem hj'
    have hki : k = i := by
      rw [List.length_set] at hk
      have hinj := @List.Nodup.getElem_inj_iff _ _ h.nodup k (by simpa using hk) i (by simpa using hi)
      apply hinj.mp
      rw [List.getElem_map, List.getElem_map, hget, ← he, List.getElem_set]
      split_ifs with hik
      · subst hik
        rw [hget]
      · rfl
    subst hki
    rw [List.getElem_set_self]
    refine ⟨(h.job j hmem).1, fun res' he => ?_⟩
    cases he
    rw [← hsize, List.take_left]
  · exact h.lock.set hst

theorem Inv.finish (h : Inv size ρ chains s) {i : ℕ} (hstep : s.finish i = some (l, s')) :
    Proper ρ s l ∧ ∃ chains', Inv size (track ρ l) chains' s' := by
  obtain ⟨j, hj, hstep⟩ := Option.map_eq_some_iff.mp hstep
  cases hstep
  have hmem : j ∈ s.jobs := List.mem_of_getElem? hj
  obtain ⟨⟨b, hb⟩, hm, hst, -⟩ := h.of_job hmem
  obtain ⟨hρ, hstored⟩ := h.job j hmem
  have hgone : ∀ j' ∈ s.jobs.eraseIdx i, j'.dr ≠ j.dr := by
    intro j' hj' he
    obtain ⟨k, hk, hki, rfl⟩ := List.mem_eraseIdx_iff_getElem.mp hj'
    obtain ⟨hi, rfl⟩ := List.getElem?_eq_some_iff.mp hj
    apply hki
    have hinj := @List.Nodup.getElem_inj_iff _ _ h.nodup k (by simpa using hk) i (by simpa using hi)
    apply hinj.mp
    rw [List.getElem_map, List.getElem_map, he]
  refine ⟨trivial, chains, ?_⟩
  have hset : ∀ (status : Status) (out : Outcome), Shows (size j.req)
      { s.cache.mem j.dr with status } out →
      Inv size (update ρ j.dr (some ⟨j.req, out⟩)) chains { s with
        cache := s.cache.set j.dr { s.cache.mem j.dr with status }, jobs := s.jobs.eraseIdx i } := by
    intro status out hshows
    apply h.set hb status rfl
    · exact fun p hp => update_of_ne hp _ _
    · exact ⟨⟨j.req, out⟩, update_self .., hm, hshows⟩
    · exact h.nodup.sublist ((List.eraseIdx_sublist s.jobs i).map Job.dr)
    · exact fun j' hj' _ => List.mem_of_mem_eraseIdx hj'
    · exact fun j' hj' he => absurd he (hgone j' hj')
    · exact h.lock.set hst
  cases hres : j.stored with
  | none =>
    rw [track, hρ]
    exact hset .drop .dropped nofun
  | some res =>
    rw [track, hρ]
    exact hset .done (.done res) ⟨nofun, hstored res hres⟩

theorem Inv.step (h : Inv size ρ chains s) (hstep : Step maxdupreqs size s l s') :
    Proper ρ s l ∧ ∃ chains', Inv size (track ρ l) chains' s' := by
  cases hstep with
  | kdup env req hidle hstep => exact h.kdup hidle hstep
  | proceed hstep =>
    unfold System.proceed at hstep
    cases hlock : s.lock with
    | idle =>
      simp [hlock] at hstep
    | matched req dr status =>
      rw [hlock] at hstep
      exact h.answer (hlock ▸ h.lock) hstep
    | recycling req env dr =>
      rw [hlock] at hstep
      exact h.recycle (hlock ▸ h.lock) hstep
  | store i res hstep => exact h.store hstep
  | finish i hstep => exact h.finish hstep

/-- No access fails: a call is answered, the thread with the lock goes on, and a response of the
size of its request can be stored. -/
theorem Inv.progress (h : Inv size ρ chains s) (hmax : 0 < maxdupreqs) :
    (s.lock = .idle → ∀ env req, (s.kdup maxdupreqs size env req).isSome) ∧
    (s.lock ≠ .idle → (s.proceed size).isSome) ∧
    ∀ i j, s.jobs[i]? = some j → j.stored = none → ∀ res : List UInt8, res.length = size j.req →
      (s.store size i res).isSome := by
  refine ⟨fun _ env req => ?_, fun hlock => ?_, fun i j hj hst res hres => ?_⟩
  · unfold System.kdup
    rcases h.lookup req with ⟨p, b, -, -, he⟩ | ⟨-, he⟩ <;> rw [he, Option.bind_some]
    · rfl
    · dsimp only
      split_ifs with hlt
      · cases env.entry s.cache.used <;> rfl
      · cases hm : s.cache.drmru with
        | some m => rfl
        | none =>
          rw [h.tables.count, h.empty hm, Finset.card_empty] at hlt
          exact absurd hmax hlt
  · unfold System.proceed
    have hinv := h.lock
    cases hl : s.lock with
    | idle => exact absurd hl hlock
    | matched req dr status =>
      rw [hl] at hinv
      obtain ⟨⟨b, hb⟩, hm, -⟩ := hinv
      cases status with
      | done =>
        obtain ⟨req', hm', hsize⟩ := h.tables.key b dr hb
        obtain rfl := hm'.unique hm
        dsimp only
        rw [System.answer, if_pos hsize]
        rfl
      | inprogress => rfl
      | drop => rfl
    | recycling req env dr =>
      dsimp only
      unfold System.recycle
      obtain ⟨c, chains1, hc, -⟩ := h.tables.unhash_spec dr
      rw [hc]
      split_ifs <;> rfl
  · obtain ⟨-, -, -, hsize⟩ := h.of_job (List.mem_of_getElem? hj)
    unfold System.store
    rw [hj, Option.bind_some]
    dsimp only
    rw [if_pos ⟨hst, hres, hres ▸ hsize⟩]
    rfl

end Steps

/-- The cache before its first request. -/
structure System.Initial (s : System) : Prop where
  used : s.cache.used = ∅
  ndupreqs : s.cache.ndupreqs = 0
  drmru : s.cache.drmru = none
  drhashtbl : ∀ b, s.cache.drhashtbl b = none
  lock : s.lock = .idle
  jobs : s.jobs = []

theorem System.Initial.inv {size : Req → ℕ} {s : System} (h : s.Initial) :
    Inv size (fun _ => none) (fun _ => []) s where
  tables := ⟨fun b => h.drhashtbl b, by simp, by simp, by simp, by simp, by simp [h.ndupreqs, h.used]⟩
  ring := by simp [h.drmru]
  empty _ := h.used
  live := by simp [h.used]
  record := nofun
  recorded := by simp
  nodup := by simp [h.jobs]
  job := by simp [h.jobs]
  lock := by
    rw [h.lock]
    exact trivial

/-- Any number of threads use the cache; the history has the labels of the steps, the oldest
first. -/
inductive Run (maxdupreqs : ℕ) (size : Req → ℕ) (s0 : System) : List Label → System → Prop
  | nil : Run maxdupreqs size s0 [] s0
  | snoc {history : List Label} {l : Label} {s s' : System} : Run maxdupreqs size s0 history s →
      Step maxdupreqs size s l s' → Run maxdupreqs size s0 (history ++ [l]) s'

/-- What is known of the requests after a history. -/
def records (history : List Label) : Ptr → Option Record := history.foldl track fun _ => none

theorem Run.inv {maxdupreqs : ℕ} {size : Req → ℕ} {s0 s : System} {history : List Label}
    (h₀ : s0.Initial) (h : Run maxdupreqs size s0 history s) :
    ∃ chains, Inv size (records history) chains s := by
  induction h with
  | nil => exact ⟨_, h₀.inv⟩
  | snoc _ hstep ih =>
    obtain ⟨chains, hinv⟩ := ih
    rw [records, List.foldl_append]
    exact (hinv.step hstep).2

/-- At most once: in every state of every run, the entries are on one ring and the chains hold no
two entries for one request; a request that is executed or done is not new again, a response is the
one that was stored, an entry in progress is not recycled, and no call fails. -/
theorem dupreq_at_most_once {maxdupreqs : ℕ} (hmax : 0 < maxdupreqs) {size : Req → ℕ}
    {s0 s : System} {history : List Label} (h₀ : s0.Initial)
    (h : Run maxdupreqs size s0 history s) :
    (∃ chains, Tables size s.cache chains ∧
      (∀ b b' p, p ∈ chains b → p ∈ chains b' → b = b') ∧
      (∀ b p, p ∈ chains b → ∀ b' q, q ∈ chains b' → ∀ req, (s.cache.mem p).Matches req →
        (s.cache.mem q).Matches req → p = q) ∧
      ∀ p r, records history p = some r → r.outcome ≠ .dropped →
        (∃ b, p ∈ chains b) ∧ (s.cache.mem p).Matches r.req) ∧
    (∀ m ∈ s.cache.drmru, Ring s.cache m) ∧ (s.cache.drmru = none → s.cache.used = ∅) ∧
    (∀ l s', Step maxdupreqs size s l s' → Proper (records history) s l) ∧
    (s.lock = .idle → ∀ env req, (s.kdup maxdupreqs size env req).isSome) ∧
    (s.lock ≠ .idle → (s.proceed size).isSome) ∧
    ∀ i j, s.jobs[i]? = some j → j.stored = none → ∀ res : List UInt8, res.length = size j.req →
      (s.store size i res).isSome := by
  obtain ⟨chains, hinv⟩ := h.inv h₀
  refine ⟨⟨chains, hinv.tables, fun b b' p hp hp' => ?_, fun b p hp b' q hq req hm hm' => ?_,
    fun p r hr _ => ?_⟩, hinv.ring, hinv.empty, fun l s' hstep => (hinv.step hstep).1,
    hinv.progress hmax⟩
  · exact (hinv.tables.used b p hp).2.symm.trans (hinv.tables.used b' p hp').2
  · have hb := (hinv.tables.used b p hp).2
    have hb' := (hinv.tables.used b' q hq).2
    rw [hm.1] at hb
    rw [hm'.1, hb] at hb'
    exact hinv.tables.distinct b p hp q (hb' ▸ hq) req hm hm'
  · obtain ⟨hhashed, hmatch, -⟩ := hinv.record p r hr
    exact ⟨hhashed, hmatch⟩

/-- Memory for one entry. -/
def oneEntry : Env where
  entry used := if 0 ∈ used then none else some 0
  addr n := some (List.replicate n 0)
  resp n := some (List.replicate n 0)
  entry_notMem := by
    intro used dr h
    split_ifs at h with h0
    cases h
    exact h0
  addr_length := by simp
  resp_length := by simp

/-- The cache before its first request. -/
def noEntries : System where
  cache := ⟨fun _ => ⟨0, 0, 0, 0, ⟨0, []⟩, [], .drop, 0, none⟩, ∅, fun _ => none, 0, none⟩
  lock := .idle
  jobs := []

theorem noEntries_initial : noEntries.Initial := ⟨rfl, rfl, rfl, fun _ => rfl, rfl, rfl⟩

def firstReq : Req := ⟨5, 100003, 2, 9, [10, 0, 0, 1]⟩

/-- The labels of a request that is executed and answered. -/
def answered : List Label := [.returned firstReq .new 0 false, .quiet, .finished 0 (some [7])]

theorem answered_run : ∃ s, Run 1 (fun _ => 1) noEntries answered s ∧ s.lock = .idle ∧
    s.cache.ndupreqs = 1 ∧ 0 ∈ s.cache.used ∧ (s.cache.mem 0).status ≠ .inprogress := by
  obtain ⟨s1, s2, s3, h1, h2, h3, hrest⟩ : ∃ s1 s2 s3,
      noEntries.kdup 1 (fun _ => 1) oneEntry firstReq =
        some (.returned firstReq .new 0 false, s1) ∧
      s1.store (fun _ => 1) 0 [7] = some (.quiet, s2) ∧
      s2.finish 0 = some (.finished 0 (some [7]), s3) ∧ s3.lock = .idle ∧
      s3.cache.ndupreqs = 1 ∧ 0 ∈ s3.cache.used ∧ (s3.cache.mem 0).status ≠ .inprogress :=
    ⟨_, _, _, rfl, rfl, rfl, rfl, rfl, by decide, by decide⟩
  exact ⟨s3, ((Run.nil.snoc (.kdup oneEntry firstReq rfl h1)).snoc (.store 0 [7] h2)).snoc
    (.finish 0 h3), hrest⟩

/-- What happens when the request comes again is proper. -/
theorem dupreq_at_most_once_again : ∃ s, Run 1 (fun _ => 1) noEntries answered s ∧
    ∀ l s', Step 1 (fun _ => 1) s l s' → Proper (records answered) s l := by
  obtain ⟨s, hrun, -⟩ := answered_run
  exact ⟨s, hrun, (dupreq_at_most_once (by decide) noEntries_initial hrun).2.2.2.1⟩

end Sol26.Rpc
