import Sol26.Rpc.AtMostOnce

/-!
# Calls that do not return

With the cache full, `svc_clts_kdup` goes round the ring until it meets an entry that is not in
progress. It holds `dupreq_lock`, and nothing bounds the number of requests in progress.
-/
namespace Sol26.Rpc

open Linked

/-- The thread that holds the lock goes on alone, for `n` steps. -/
def System.alone (size : Req → ℕ) : ℕ → System → System
  | 0, s => s
  | n + 1, s =>
    match s.proceed size with
    | none => s
    | some (_, s') => s'.alone size n

/-- The call returns without a step of another thread. -/
def System.Returns (s : System) (maxdupreqs : ℕ) (size : Req → ℕ) (env : Env) (req : Req) : Prop :=
  ∃ l s', s.kdup maxdupreqs size env req = some (l, s') ∧ ∃ n, (s'.alone size n).lock = .idle

section

variable {size : Req → ℕ} {ρ : Ptr → Option Record} {chains : ℕ → List Ptr} {s s' : System}
  {req : Req} {env : Env} {dr m : Ptr} {maxdupreqs : ℕ}

theorem System.alone_succ {l : Label} (h : s.proceed size = some (l, s')) (n : ℕ) :
    s.alone size (n + 1) = s'.alone size n := by
  rw [System.alone, h]

theorem System.proceed_recycling (hlock : s.lock = .recycling req env dr)
    (h : (s.cache.mem dr).status = .inprogress) :
    s.proceed size =
      some (.quiet, { s with lock := .recycling req env (s.cache.mem dr).next }) := by
  unfold System.proceed
  rw [hlock]
  dsimp only
  rw [System.recycle, if_pos h]

/-- Round the ring for ever. -/
theorem Ring.alone (hring : Ring s.cache m) (hall : ∀ p ∈ s.cache.used,
    (s.cache.mem p).status = .inprogress) (n : ℕ) (hdr : dr ∈ s.cache.used)
    (hlock : s.lock = .recycling req env dr) :
    (s.alone size n).lock ≠ .idle := by
  induction n generalizing s dr with
  | zero =>
    rw [System.alone, hlock]
    nofun
  | succ n ih =>
    rw [System.alone_succ (System.proceed_recycling hlock (hall dr hdr))]
    exact @ih { s with lock := .recycling req env (s.cache.mem dr).next } _ hring hall
      (hring.next_mem hdr) rfl

/-- An entry that is not in progress is taken. -/
theorem Tables.alone_recycle (htables : Tables size s.cache chains)
    (hlock : s.lock = .recycling req env dr) (h : (s.cache.mem dr).status ≠ .inprogress) :
    (s.alone size 1).lock = .idle := by
  obtain ⟨c, -, hc, -⟩ := htables.unhash_spec dr
  have hstep : ∃ l s', s.proceed size = some (l, s') ∧ s'.lock = .idle := by
    unfold System.proceed
    rw [hlock]
    dsimp only
    rw [System.recycle, if_neg h, hc]
    exact ⟨_, _, rfl, rfl⟩
  obtain ⟨l, s', hs, hidle⟩ := hstep
  rw [System.alone_succ hs]
  exact hidle

/-- The search ends at the first entry that is not in progress. -/
theorem Tables.alone (htables : Tables size s.cache chains) {l : List Ptr}
    (hl : Links (fun p => p) (fun p => (s.cache.mem p).next) dr l m)
    (hlock : s.lock = .recycling req env dr) (hex : ∃ p ∈ l, (s.cache.mem p).status ≠ .inprogress) :
    ∃ n, (s.alone size n).lock = .idle := by
  induction l generalizing s dr with
  | nil => simp at hex
  | cons p l ih =>
    obtain ⟨rfl, hl⟩ := hl
    by_cases hp : (s.cache.mem dr).status = .inprogress
    · have hrest : ∃ q ∈ l, (s.cache.mem q).status ≠ .inprogress := by
        obtain ⟨q, hq, hne⟩ := hex
        rcases List.mem_cons.1 hq with rfl | hq
        · exact absurd hp hne
        · exact ⟨q, hq, hne⟩
      obtain ⟨n, hn⟩ := @ih { s with lock := .recycling req env (s.cache.mem dr).next } _ htables hl
        rfl hrest
      exact ⟨n + 1, by rwa [System.alone_succ (System.proceed_recycling hlock hp)]⟩
    · exact ⟨1, htables.alone_recycle hlock hp⟩

/-- A request for which there is an entry is answered. -/
theorem Inv.alone_matched (h : Inv size ρ chains s) (hmax : 0 < maxdupreqs) {status : Status}
    (hlock : s.lock = .matched req dr status) : (s.alone size 1).lock = .idle := by
  have hsome := (h.progress hmax).2.1 (by rw [hlock]; nofun)
  obtain ⟨⟨l, s'⟩, hs⟩ := Option.isSome_iff_exists.1 hsome
  rw [System.alone_succ hs]
  unfold System.proceed at hs
  rw [hlock] at hs
  dsimp only at hs
  unfold System.answer at hs
  cases status with
  | inprogress | drop =>
    cases hs
    rfl
  | done =>
    dsimp only at hs
    split_ifs at hs
    cases hs
    rfl

/-- In a reachable state a call returns if there is an entry for its request, if the cache is not
full, or if an entry is not in progress, and only then. -/
theorem Inv.returns_iff (h : Inv size ρ chains s) (hmax : 0 < maxdupreqs) (hidle : s.lock = .idle) :
    s.Returns maxdupreqs size env req ↔ s.cache.ndupreqs < maxdupreqs ∨
      ∃ p ∈ s.cache.used, (s.cache.mem p).Matches req ∨ (s.cache.mem p).status ≠ .inprogress := by
  rcases h.lookup req with ⟨p, b, hp, hm, he⟩ | ⟨hno, he⟩
  · have hk : s.kdup maxdupreqs size env req =
        some (.quiet, { s with lock := .matched req p (s.cache.mem p).status }) := by
      rw [System.kdup, he]
      rfl
    obtain ⟨-, chains', hinv⟩ := h.kdup hidle hk
    exact iff_of_true ⟨_, _, hk, 1, hinv.alone_matched hmax rfl⟩
      (.inr ⟨p, (h.tables.used b p hp).1, .inl hm⟩)
  by_cases hlt : s.cache.ndupreqs < maxdupreqs
  · have hk : ∃ l s', s.kdup maxdupreqs size env req = some (l, s') ∧ s'.lock = .idle := by
      rw [System.kdup, he, Option.bind_some]
      dsimp only
      rw [if_pos hlt]
      cases env.entry s.cache.used with
      | none | some dr => exact ⟨_, _, rfl, hidle⟩
    obtain ⟨l, s', hk, hl⟩ := hk
    exact iff_of_true ⟨l, s', hk, 0, hl⟩ (.inl hlt)
  · obtain ⟨m, hm⟩ : ∃ m, s.cache.drmru = some m := by
      rw [← Option.isSome_iff_exists]
      by_contra hnone
      rw [Option.not_isSome_iff_eq_none] at hnone
      rw [h.tables.count, h.empty hnone, Finset.card_empty] at hlt
      exact hlt hmax
    have hring := h.ring m hm
    have hnext := hring.next_mem (h.drmru_mem m hm)
    have hk : s.kdup maxdupreqs size env req =
        some (.quiet, { s with lock := .recycling req env (s.cache.mem m).next }) := by
      rw [System.kdup, he, Option.bind_some]
      dsimp only
      rw [if_neg hlt, hm]
      rfl
    constructor
    · rintro ⟨l, s', hs, n, hn⟩
      cases hk.symm.trans hs
      by_contra hall
      push Not at hall
      exact Ring.alone (s := { s with lock := .recycling req env (s.cache.mem m).next }) hring
        (fun p hp => (hall.2 p hp).2) n hnext rfl hn
    · intro hex
      obtain ⟨p, hp, hor⟩ := hex.resolve_left hlt
      have hne : (s.cache.mem p).status ≠ .inprogress := by
        rcases hor with hmatch | hne
        · intro hin
          obtain ⟨b, hb⟩ := h.live p hp (by rw [hin]; nofun)
          exact hno b p hb hmatch
        · exact hne
      obtain ⟨l, hl, -, hmem⟩ := hring.rotate hnext
      obtain ⟨n, hn⟩ := Tables.alone
        (s := { s with lock := .recycling req env (s.cache.mem m).next }) h.tables
        (show Links _ _ _ (_ :: l) _ from ⟨rfl, hl⟩) rfl ⟨p, (hmem p).2 hp, hne⟩
      exact ⟨_, _, hk, n, hn⟩

end

/-- In every reachable state, a call of `svc_clts_kdup` returns without waiting for another thread
if and only if there is an entry for its request, the cache is not full, or an entry is not in
progress. -/
theorem kdup_returns_iff {maxdupreqs : ℕ} (hmax : 0 < maxdupreqs) {size : Req → ℕ} {s0 s : System}
    {history : List Label} (h0 : s0.Initial) (h : Run maxdupreqs size s0 history s)
    (hidle : s.lock = .idle) (env : Env) (req : Req) :
    s.Returns maxdupreqs size env req ↔ s.cache.ndupreqs < maxdupreqs ∨
      ∃ p ∈ s.cache.used, (s.cache.mem p).Matches req ∨ (s.cache.mem p).status ≠ .inprogress := by
  obtain ⟨chains, hinv⟩ := h.inv h0
  exact hinv.returns_iff hmax hidle

/-- The cache is full, and a call for another request takes the entry of the one that has been
answered. -/
theorem kdup_returns_iff_answered : ∃ s, Run 1 (fun _ => 1) noEntries answered s ∧
    s.cache.ndupreqs = 1 ∧ s.Returns 1 (fun _ => 1) oneEntry ⟨6, 100003, 2, 9, [10, 0, 0, 1]⟩ := by
  obtain ⟨s, hrun, hidle, hfull, hused, hdone⟩ := answered_run
  exact ⟨s, hrun, hfull, (kdup_returns_iff one_pos noEntries_initial hrun hidle _ _).2
    (.inr ⟨0, hused, .inr hdone⟩)⟩

/-! ### A full cache -/

/-- Memory for any number of entries. -/
def plenty : Env where
  entry used := some (used.sup id + 1)
  addr n := some (List.replicate n 0)
  resp n := some (List.replicate n 0)
  entry_notMem := by
    intro used dr h hdr
    cases h
    have hle : used.sup id + 1 ≤ used.sup id := Finset.le_sup (f := id) hdr
    exact Nat.not_succ_le_self _ hle
  addr_length := oneEntry.addr_length
  resp_length := oneEntry.resp_length

theorem Dupreq.fill_plenty (d : Dupreq) (req : Req) (n : ℕ) : (d.fill plenty req n).2 = true := by
  have haddr : ∀ d : Dupreq, (d.setAddr plenty req).2 = true := by
    intro d
    unfold Dupreq.setAddr plenty
    split_ifs <;> rfl
  have hresp : ∀ d : Dupreq, (d.setResp plenty n).2 = true := by
    intro d
    unfold Dupreq.setResp plenty
    split_ifs <;> rfl
  unfold Dupreq.fill
  dsimp only
  rw [if_pos (haddr _)]
  exact hresp _

theorem Cache.take_plenty (c : Cache) (req : Req) (n : ℕ) (dr : Ptr) :
    (c.take plenty req n dr).2 = .new := by
  unfold Cache.take
  dsimp only
  rw [if_pos (Dupreq.fill_plenty _ _ _)]

/-- As many requests as there is room for may be in progress. -/
theorem exists_full {maxdupreqs n : ℕ} (size : Req → ℕ) (hn : n ≤ maxdupreqs) :
    ∃ history s, Run maxdupreqs size noEntries history s ∧ s.lock = .idle ∧
      s.cache.ndupreqs = n ∧
      ∀ p ∈ s.cache.used, (s.cache.mem p).status = .inprogress ∧ (s.cache.mem p).xid < n := by
  induction n with
  | zero => exact ⟨[], noEntries, .nil, rfl, rfl, by simp [noEntries]⟩
  | succ n ih =>
    obtain ⟨history, s, hrun, hidle, hcount, hall⟩ := ih (by omega)
    obtain ⟨chains, hinv⟩ := hrun.inv noEntries_initial
    let req : Req := ⟨n, 0, 0, 0, []⟩
    let dr := s.cache.used.sup id + 1
    have hdr : dr ∉ s.cache.used := plenty.entry_notMem s.cache.used dr rfl
    have hfree : ∀ b, dr ∉ chains b := fun b hb => hdr (hinv.tables.used b dr hb).1
    have hno : ∀ b, ∀ p ∈ chains b, ¬ (s.cache.mem p).Matches req := by
      intro b p hp hm
      have hlt := (hall p (hinv.tables.used b p hp).1).2
      exact hlt.ne hm.1
    have hlookup := (hinv.lookup req).resolve_left fun ⟨p, b, hp, hm, _⟩ => hno b p hp hm
    have hk : s.kdup maxdupreqs size plenty req =
        some (.returned req ((s.cache.enter dr).take plenty req (size req) dr).2 dr false, { s with
            cache := ((s.cache.enter dr).take plenty req (size req) dr).1
            jobs := ((s.cache.enter dr).take plenty req (size req) dr).2.start s.jobs dr req }) := by
      rw [System.kdup, hlookup.2, Option.bind_some]
      dsimp only
      rw [if_pos (by omega)]
      rfl
    have hrun' := hrun.snoc (.kdup plenty req hidle hk)
    have hmem : ∀ p ∈ s.cache.used, ∃ next, (s.cache.enter dr).mem p = { s.cache.mem p with next } :=
      fun p hp => enter_mem s.cache fun he => hdr (he ▸ hp)
    have hno' : ∀ b, ∀ p ∈ chains b, ¬ ((s.cache.enter dr).mem p).Matches req := by
      intro b p hp
      obtain ⟨next, he⟩ := hmem p (hinv.tables.used b p hp).1
      rw [he]
      exact hno b p hp
    obtain ⟨chains', c', answer, ht, htables, hused, -, -, hother, hnew⟩ :=
      (hinv.tables.enter hdr).take_spec plenty req
        (by rw [enter_used]; exact Finset.mem_insert_self ..) hfree hno'
    have hanswer := Cache.take_plenty (s.cache.enter dr) req (size req) dr
    rw [ht] at hanswer hrun'
    obtain ⟨-, hmatch, hstatus, -⟩ := hnew.resolve_right fun herr =>
      absurd (hanswer.symm.trans herr.1) nofun
    refine ⟨_, _, hrun', hidle, ?_, fun p hp => ?_⟩
    · rw [htables.count, hused, enter_used, Finset.card_insert_of_notMem hdr,
        ← hinv.tables.count, hcount]
    · dsimp only at hp ⊢
      rw [hused, enter_used, Finset.mem_insert] at hp
      by_cases hpd : p = dr
      · subst hpd
        exact ⟨hstatus, by rw [hmatch.1]; exact Nat.lt_succ_self n⟩
      · have hp := hp.resolve_left hpd
        obtain ⟨next, he⟩ := hmem p hp
        rw [hother p hpd, he]
        exact ⟨(hall p hp).1, (hall p hp).2.trans (Nat.lt_succ_self n)⟩

/-- With `MAXDUPREQS` requests in progress, a call for another request goes round the ring for
ever. -/
theorem kdup_never_returns :
    ∃ history s, Run 1024 (fun _ => 1) noEntries history s ∧ s.lock = .idle ∧
      ¬ s.Returns 1024 (fun _ => 1) plenty ⟨1024, 0, 0, 0, []⟩ := by
  obtain ⟨history, s, hrun, hidle, hcount, hall⟩ := exists_full (fun _ => 1) (le_refl 1024)
  obtain ⟨chains, hinv⟩ := hrun.inv noEntries_initial
  refine ⟨history, s, hrun, hidle, fun hret => ?_⟩
  rcases (hinv.returns_iff (by decide) hidle).1 hret with hlt | ⟨p, hp, hm | hne⟩
  · omega
  · exact (hall p hp).2.ne hm.1
  · exact hne (hall p hp).1

end Sol26.Rpc
