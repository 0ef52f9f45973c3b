import Sol26.Dnlc.Cache

/-!
# What a purge writes to `nc_rele`

The table has two places for each entry of the cache, which is enough if no entry is purged twice.
But an entry that is purged from one chain may be entered again on a chain that the purge has not
come to. And the test of `count` in `dnlc_purge_vfsp` only leaves the loop over one chain: the next
chain is searched all the same, and its first entry of the file system is purged before the test.
-/
namespace Sol26.Dnlc

open Function (update update_of_ne update_self)
open Finset (mem_univ sum_le_sum univ)

variable {cfg : Config} {s s' : Cache cfg} {p : Purge cfg}

/-- A sum over the chains when one of them changes. -/
theorem sum_update {ι β : Type*} [Fintype ι] [DecidableEq ι] (g : ι → β → ℕ) (f : ι → β) (i : ι)
    (b : β) : ∑ x, g x (update f i b x) + g i (f i) = ∑ x, g x (f x) + g i b := by
  have hrest : ∑ x ∈ univ.erase i, g x (update f i b x) =
      ∑ x ∈ univ.erase i, g x (f x) := by
    refine Finset.sum_congr rfl fun x hx => ?_
    rw [update_of_ne (Finset.ne_of_mem_erase hx)]
  have hnew := Finset.add_sum_erase univ (fun x => g x (update f i b x)) (mem_univ i)
  have hold := Finset.add_sum_erase univ (fun x => g x (f x)) (mem_univ i)
  simp only [update_self] at hnew
  omega

/-! ### When it goes well -/

/-- The first chain that the loops have not left. -/
def At.next : At cfg → ℕ
  | .before nch => nch
  | .inside nch _ => nch

/-- The number of entries to be purged on the chains from a given one on. -/
def Cache.toPurge (s : Cache cfg) (kind : Kind) (first : ℕ) : ℕ :=
  ∑ h : Fin cfg.hashsz,
    if first ≤ (h : ℕ) then (s.chains h).countP (fun ncp => kind.purges cfg ncp) else 0

/-- The count is positive, and the table has room for so many entries. -/
def Kind.Fits (cfg : Config) : Kind → Prop
  | .purgeVfsp _ count => 0 < count ∧ count ≤ cfg.ncsize
  | _ => False

/-- If a name that is to be purged is entered on a chain that the purge under way has not left, then
the table has room for it and for all such entries. If a chain has an entry to be purged when the
loop comes to it, then the count is not reached. -/
def Cache.Permits (s : Cache cfg) : Event → Prop
  | .enter k _ => ∀ ncp p, s.enters[k]? = some (.got ncp) → s.purge = some p →
      p.pc.next ≤ (cfg.chain ncp.hash : ℕ) → p.kind.purges cfg ncp = true →
      (s.chains (cfg.chain ncp.hash)).any (·.isFor ncp.call ncp.hash) = false →
      p.kind.Fits cfg ∨ p.n + s.toPurge p.kind p.pc.next < cfg.ncsize
  | .scan => ∀ p nch, s.purge = some p → p.pc = .before nch.val → ∀ vfsp count,
      p.kind = .purgeVfsp vfsp count → 0 < count →
      p.n < count ∨ ∀ ncp ∈ s.chains nch, p.kind.purges cfg ncp = false
  | _ => True

/-- What a run leads to if all its events are permitted. -/
inductive Reaches (cfg : Config) : Cache cfg → Prop
  | init : Reaches cfg (.init cfg)
  | exec {s s' : Cache cfg} {event : Event} : Reaches cfg s → s.Permits event →
      s.exec event = some s' → Reaches cfg s'

/-! ### The invariant -/

def Enter.holds : Enter cfg → Bool
  | .got _ | .dblEnter _ => true
  | _ => false

/-- Of the purge under way: there is room for what it finds, and it has not passed the count. -/
structure PurgeInv (s : Cache cfg) (p : Purge cfg) : Prop where
  index : p.index = 2 * p.n
  room : p.kind.Fits cfg ∨ p.n + s.toPurge p.kind p.pc.next ≤ cfg.ncsize
  count : ∀ vfsp count, p.kind = .purgeVfsp vfsp count → 0 < count → p.n ≤ count ∧
    ∀ nch place, p.pc = .inside nch place → p.n < count ∨
      ∀ ncp ∈ (s.chains nch).drop place, p.kind.purges cfg ncp = false

/-- No entry is lost, and the writes are within the table. -/
structure Inv (s : Cache cfg) : Prop where
  total : s.freelist.length + ∑ h, (s.chains h).length + s.enters.countP Enter.holds = cfg.ncsize
  rele : ∀ w ∈ s.rele, w.1 < cfg.rsize
  purge : ∀ p, s.purge = some p → PurgeInv s p

theorem Inv.init (cfg : Config) : Inv (Cache.init cfg) where
  total := by simp [Cache.init]
  rele := by simp [Cache.init]
  purge := by simp [Cache.init]

theorem toPurge_le (s : Cache cfg) (kind : Kind) (k : ℕ) :
    s.toPurge kind k ≤ ∑ h, (s.chains h).length := by
  refine sum_le_sum fun h _ => ?_
  split_ifs
  · exact List.countP_le_length
  · exact Nat.zero_le _

theorem toPurge_succ_le (s : Cache cfg) (kind : Kind) (k : ℕ) :
    s.toPurge kind (k + 1) ≤ s.toPurge kind k := by
  refine sum_le_sum fun h _ => ?_
  split_ifs
  · exact le_rfl
  · omega
  · exact Nat.zero_le _
  · exact le_rfl

/-- The entries to be purged when a chain changes. -/
theorem toPurge_update {h : Fin cfg.hashsz} {l : List Ncache}
    (hs : s'.chains = update s.chains h l) (kind : Kind) (k : ℕ) :
    s'.toPurge kind k + (if k ≤ (h : ℕ) then (s.chains h).countP (kind.purges cfg ·) else 0) =
      s.toPurge kind k + if k ≤ (h : ℕ) then l.countP (kind.purges cfg ·) else 0 := by
  unfold Cache.toPurge
  rw [hs]
  exact sum_update (fun (x : Fin cfg.hashsz) l =>
    if k ≤ (x : ℕ) then l.countP (kind.purges cfg ·) else 0) s.chains h l

theorem length_update {h : Fin cfg.hashsz} {l : List Ncache}
    (hs : s'.chains = update s.chains h l) :
    ∑ x, (s'.chains x).length + (s.chains h).length = ∑ x, (s.chains x).length + l.length := by
  rw [hs]
  exact sum_update (fun _ l => l.length) s.chains h l

/-! ### A step of `dnlc_enter` -/

variable {t : Enter cfg} {left : List (Enter cfg)} {idle : Vnode → Bool}

/-- No chain changes, or an entry is stolen from a chain, or one is put on a chain. -/
theorem enter_cases (h : s.enter idle t = some (s', left)) :
    s'.purge = s.purge ∧ s'.rele = s.rele ∧
      ((s'.chains = s.chains ∧ s'.freelist.length + left.countP Enter.holds =
          s.freelist.length + [t].countP Enter.holds) ∨
        (∃ hp k, t.holds = false ∧ left.countP Enter.holds = 1 ∧ s'.freelist = s.freelist ∧
          s.locked hp = false ∧ k < (s.chains hp).length ∧
          s'.chains = update s.chains hp ((s.chains hp).reverse.eraseIdx k).reverse) ∨
        ∃ ncp, t = .got ncp ∧ left = [] ∧ s'.freelist = s.freelist ∧
          s.locked (cfg.chain ncp.hash) = false ∧
          (s.chains (cfg.chain ncp.hash)).any (·.isFor ncp.call ncp.hash) = false ∧
          s'.chains = update s.chains (cfg.chain ncp.hash)
            (ncp :: s.chains (cfg.chain ncp.hash))) := by
  cases t with
  | get c =>
    simp only [Cache.enter] at h
    split at h
    · rename_i slot rest hfree
      cases h
      exact ⟨rfl, rfl, .inl ⟨rfl, by simp [hfree, Enter.holds]⟩⟩
    · cases h
      exact ⟨rfl, rfl, .inl ⟨rfl, by simp [Enter.holds]⟩⟩
  | steal c hp last =>
    simp only [Cache.enter] at h
    by_cases hlocked : s.chains hp ≠ [] ∧ s.locked hp = true
    · simp [if_pos hlocked] at h
    rw [if_neg hlocked] at h
    split at h
    · rename_i ncp hget
      cases h
      have hlt : victim idle (s.chains hp) < (s.chains hp).length := by
        simpa using (List.getElem?_eq_some_iff.1 hget).1
      have hne : s.chains hp ≠ [] := List.ne_nil_of_length_pos (by omega)
      refine ⟨rfl, rfl, .inr (.inl ⟨hp, _, rfl, by simp [Enter.holds], rfl, ?_, hlt, rfl⟩)⟩
      exact Bool.eq_false_iff.2 fun hl => hlocked ⟨hne, hl⟩
    · split_ifs at h <;> cases h <;> exact ⟨rfl, rfl, .inl ⟨rfl, by simp [Enter.holds]⟩⟩
  | got ncp =>
    simp only [Cache.enter] at h
    split_ifs at h with hlocked hdbl
    · cases h
      exact ⟨rfl, rfl, .inl ⟨rfl, by simp [Enter.holds]⟩⟩
    · cases h
      exact ⟨rfl, rfl, .inr (.inr ⟨ncp, rfl, rfl, rfl, Bool.eq_false_iff.2 hlocked,
        Bool.eq_false_iff.2 hdbl, rfl⟩)⟩
  | dblEnter slot =>
    cases h
    exact ⟨rfl, rfl, .inl ⟨rfl, by simp [Enter.holds]⟩⟩

/-- The entries that the call holds are counted with those on the lists. -/
theorem enter_total (h : s.enter idle t = some (s', left)) :
    s'.freelist.length + ∑ x, (s'.chains x).length + left.countP Enter.holds =
      s.freelist.length + ∑ x, (s.chains x).length + [t].countP Enter.holds := by
  obtain ⟨-, -, ⟨hc, hf⟩ | ⟨hp, k, ht, hl, hf, -, hk, hc⟩ | ⟨ncp, rfl, rfl, hf, -, -, hc⟩⟩ :=
    enter_cases h
  · rw [hc]
    omega
  · have hlen := length_update hc
    rw [List.length_reverse, List.length_eraseIdx_of_lt (by simpa using hk),
      List.length_reverse] at hlen
    have ht' : [t].countP Enter.holds = 0 := by simp [ht]
    rw [hf, hl, ht']
    omega
  · have hlen := length_update hc
    have ht : [(Enter.got ncp : Enter cfg)].countP Enter.holds = 1 := rfl
    rw [List.length_cons] at hlen
    rw [hf, ht, List.countP_nil]
    omega

theorem PurgeInv.enter {k : ℕ}
    (hp : PurgeInv s p) (hpurge : s.purge = some p) (hperm : s.Permits (.enter k idle))
    (ht : s.enters[k]? = some t) (h : s.enter idle t = some (s', left)) : PurgeInv s' p := by
  obtain ⟨-, -, hcases⟩ := enter_cases h
  -- the chain whose lock the purge holds stays as it is
  have hsame : ∀ nch place, p.pc = .inside nch place → s'.chains nch = s.chains nch := by
    intro nch place hpc
    have hlocked : s.locked nch = true := by
      obtain ⟨kind, pc, index, n⟩ := p
      subst hpc
      simp [Cache.locked, hpurge]
    have hne : ∀ hp, s.locked hp = false → nch ≠ hp := by
      rintro hp hl rfl
      simp [hlocked] at hl
    obtain ⟨hc, -⟩ | ⟨hp, k, -, -, -, hl, -, hc⟩ | ⟨ncp, -, -, -, hl, -, hc⟩ := hcases
    · rw [hc]
    · rw [hc, update_of_ne (hne hp hl)]
    · rw [hc, update_of_ne (hne _ hl)]
  refine ⟨hp.index, ?_, fun vfsp count hkind h0 => ?_⟩
  · rcases hp.room with hfits | hroom
    · exact .inl hfits
    · obtain ⟨hc, -⟩ | ⟨hp, j, -, -, -, -, -, hc⟩ | ⟨ncp, rfl, -, -, -, hdbl, hc⟩ := hcases
      · right
        have heq : s'.toPurge p.kind p.pc.next = s.toPurge p.kind p.pc.next := by
          rw [Cache.toPurge, Cache.toPurge, hc]
        omega
      · have hto := toPurge_update hc p.kind p.pc.next
        have hsub : ((s.chains hp).reverse.eraseIdx j).reverse.countP (p.kind.purges cfg ·) ≤
            (s.chains hp).countP (p.kind.purges cfg ·) := by
          rw [List.countP_reverse, ← List.countP_reverse (l := s.chains hp)]
          exact (List.eraseIdx_sublist _ _).countP_le
        right
        split_ifs at hto <;> omega
      · have hto := toPurge_update hc p.kind p.pc.next
        rw [List.countP_cons] at hto
        by_cases hin : p.pc.next ≤ (cfg.chain ncp.hash : ℕ) ∧ p.kind.purges cfg ncp = true
        · rcases hperm ncp p ht hpurge hin.1 hin.2 hdbl with hfits | hlt
          · exact .inl hfits
          · right
            rw [if_pos hin.1, if_pos hin.1, if_pos hin.2] at hto
            omega
        · right
          split_ifs at hto with h1 h2
          · exact absurd ⟨h1, h2⟩ hin
          · omega
          · omega
  · obtain ⟨hle, hin⟩ := hp.count vfsp count hkind h0
    refine ⟨hle, fun nch place hpc => ?_⟩
    rw [hsame nch place hpc]
    exact hin nch place hpc

theorem Inv.enter {k : ℕ} (hi : Inv s) (hperm : s.Permits (.enter k idle))
    (ht : s.enters[k]? = some t) (h : s.enter idle t = some (s', left)) :
    Inv { s' with enters := s.enters.take k ++ left ++ s.enters.drop (k + 1) } := by
  obtain ⟨hpurge, hrele, -⟩ := enter_cases h
  refine ⟨?_, fun w hw => hi.rele w (hrele ▸ hw), fun p hp => ?_⟩
  · have htotal := enter_total h
    have hsplit : s.enters.countP Enter.holds = (s.enters.take k).countP Enter.holds +
        [t].countP Enter.holds + (s.enters.drop (k + 1)).countP Enter.holds := by
      obtain ⟨hk, rfl⟩ := List.getElem?_eq_some_iff.1 ht
      conv_lhs => rw [← List.take_append_drop k s.enters, ← List.cons_getElem_drop_succ (h := hk)]
      rw [List.countP_append, List.countP_cons, List.countP_singleton]
      omega
    have hold := hi.total
    simp only [List.countP_append]
    omega
  · have hp' : s.purge = some p := hpurge ▸ hp
    have hinv := (hi.purge p hp').enter hp' hperm ht h
    exact ⟨hinv.index, hinv.room, hinv.count⟩

/-! ### A step of a purge -/

/-- There is a place in the table for each entry purged. -/
theorem PurgeInv.n_le (hp : PurgeInv s p) : p.n ≤ cfg.ncsize := by
  rcases hp.room with hfits | hroom
  · cases hkind : p.kind with
    | purgeVfsp vfsp count =>
      rw [hkind] at hfits
      have hle := (hp.count vfsp count hkind hfits.1).1
      have := hfits.2
      omega
    | purge | purgeVp vp => simp [hkind, Kind.Fits] at hfits
  · omega

/-- An entry is only purged if there is a place for it, and below the count. -/
theorem PurgeInv.n_lt {nch : Fin cfg.hashsz} {place : ℕ} {ncp : Ncache} (hp : PurgeInv s p)
    (hpc : p.pc = .inside nch place) (hget : (s.chains nch)[place]? = some ncp)
    (hpurges : p.kind.purges cfg ncp = true) :
    p.n < cfg.ncsize ∧ ∀ vfsp count, p.kind = .purgeVfsp vfsp count → 0 < count → p.n < count := by
  have hcount : ∀ vfsp count, p.kind = .purgeVfsp vfsp count → 0 < count → p.n < count := by
    intro vfsp count hkind h0
    rcases (hp.count vfsp count hkind h0).2 nch place hpc with hlt | hno
    · exact hlt
    · have hmem : ncp ∈ (s.chains nch).drop place := by
        refine List.mem_of_getElem? (i := 0) ?_
        rw [List.getElem?_drop, Nat.add_zero, hget]
      simp [hno ncp hmem] at hpurges
  refine ⟨?_, hcount⟩
  rcases hp.room with hfits | hroom
  · cases hkind : p.kind with
    | purgeVfsp vfsp count =>
      rw [hkind] at hfits
      have hlt := hcount vfsp count hkind hfits.1
      have := hfits.2
      omega
    | purge | purgeVp vp => simp [hkind, Kind.Fits] at hfits
  · have hpos : 0 < s.toPurge p.kind p.pc.next := by
      refine Finset.sum_pos' (fun _ _ => Nat.zero_le _) ⟨nch, mem_univ _, ?_⟩
      rw [hpc, At.next, if_pos le_rfl, List.countP_pos_iff]
      exact ⟨ncp, List.mem_of_getElem? hget, hpurges⟩
    omega

theorem PurgeInv.purged {nch : Fin cfg.hashsz} {place : ℕ} {ncp : Ncache} (hp : PurgeInv s p)
    (hpc : p.pc = .inside nch place) (hget : (s.chains nch)[place]? = some ncp)
    (hpurges : p.kind.purges cfg ncp = true)
    (hs : s'.chains = update s.chains nch ((s.chains nch).eraseIdx place)) :
    PurgeInv s' { p with
      pc := if p.kind.breaks (p.n + 1) then .before (nch + 1) else .inside nch place
      index := p.index + 2
      n := p.n + 1 } := by
  have hidx := hp.index
  obtain ⟨hn, hcount⟩ := hp.n_lt hpc hget hpurges
  refine ⟨by dsimp only; omega, ?_, fun vfsp count hkind h0 => ⟨?_, ?_⟩⟩
  · rcases hp.room with hfits | hroom
    · exact .inl hfits
    · right
      have hto := toPurge_update hs p.kind nch
      obtain ⟨hlt, hat⟩ := List.getElem?_eq_some_iff.1 hget
      have herase := (List.getElem_cons_eraseIdx_perm hlt).countP_eq (p.kind.purges cfg ·)
      rw [List.countP_cons, hat, if_pos hpurges] at herase
      rw [if_pos le_rfl, if_pos le_rfl] at hto
      rw [hpc, At.next] at hroom
      have hnext : s'.toPurge p.kind
          (if p.kind.breaks (p.n + 1) then At.before (nch + 1) else .inside nch place).next ≤
          s'.toPurge p.kind nch := by
        split_ifs
        · exact toPurge_succ_le s' p.kind nch
        · exact le_rfl
      dsimp only
      omega
  · have hlt := hcount vfsp count hkind h0
    push_cast
    omega
  · intro nch' place' hpc'
    have hkeeps : p.kind.breaks (p.n + 1) = false := by
      by_contra hb
      simp [if_pos (by simpa using hb)] at hpc'
    dsimp only at hkind
    rw [hkind, Kind.breaks] at hkeeps
    left
    simp only [Bool.and_eq_false_iff, decide_eq_false_iff_not] at hkeeps
    push_cast at hkeeps ⊢
    omega

theorem Inv.scan (hi : Inv s) (hpurge : s.purge = some p) (hperm : s.Permits .scan) :
    Inv (s.scan p) := by
  have hp := hi.purge p hpurge
  unfold Cache.scan
  cases hpc : p.pc with
  | before nch =>
    dsimp only
    split_ifs with hnch
    · refine ⟨hi.total, hi.rele, fun q hq => ?_⟩
      cases hq
      refine ⟨hp.index, ?_, fun vfsp count hkind h0 => ⟨(hp.count vfsp count hkind h0).1, ?_⟩⟩
      · have hroom := hp.room
        rw [hpc] at hroom
        exact hroom
      · rintro nch' place ⟨⟩
        simpa using hperm p ⟨nch, hnch⟩ hpurge hpc vfsp count hkind h0
    · refine ⟨hi.total, fun w hw => ?_, by simp⟩
      rcases List.mem_append.1 hw with hw | hw
      · obtain ⟨i, hmem, rfl⟩ := List.mem_map.1 hw
        have hlt : i < p.index := by simpa using hmem
        have hle := hp.n_le
        rw [hp.index] at hlt
        unfold Config.rsize
        dsimp only
        omega
      · exact hi.rele w hw
  | inside nch place =>
    dsimp only
    cases hget : (s.chains nch)[place]? with
    | none =>
      refine ⟨hi.total, hi.rele, fun q hq => ?_⟩
      cases hq
      refine ⟨hp.index, ?_, fun vfsp count hkind h0 => ⟨(hp.count vfsp count hkind h0).1, ?_⟩⟩
      · rcases hp.room with hfits | hroom
        · exact .inl hfits
        · have hle := toPurge_succ_le s p.kind nch
          rw [hpc] at hroom
          exact .inr ((Nat.add_le_add_left hle _).trans hroom)
      · rintro nch' place' ⟨⟩
    | some ncp =>
      dsimp only
      have hlt : place < (s.chains nch).length := (List.getElem?_eq_some_iff.1 hget).1
      by_cases hpurges : p.kind.purges cfg ncp = true
      · rw [if_pos hpurges]
        have hn := (hp.n_lt hpc hget hpurges).1
        have hidx := hp.index
        refine ⟨?_, fun w hw => ?_, fun q hq => ?_⟩
        · have hlen := sum_update (fun (_ : Fin cfg.hashsz) (l : List Ncache) => l.length) s.chains
            nch ((s.chains nch).eraseIdx place)
          have htotal := hi.total
          rw [List.length_eraseIdx_of_lt hlt] at hlen
          simp only [List.length_cons]
          omega
        · unfold Config.rsize
          simp only [List.mem_cons] at hw
          rcases hw with rfl | rfl | hw
          · dsimp only
            omega
          · dsimp only
            omega
          · exact hi.rele w hw
        · cases hq
          exact hp.purged hpc hget hpurges rfl
      · rw [if_neg hpurges]
        refine ⟨hi.total, hi.rele, fun q hq => ?_⟩
        cases hq
        refine ⟨hp.index, ?_, fun vfsp count hkind h0 => ?_⟩
        · have hroom := hp.room
          rw [hpc] at hroom
          exact hroom
        · obtain ⟨hle, hin⟩ := hp.count vfsp count hkind h0
          refine ⟨hle, ?_⟩
          rintro nch' place' ⟨⟩
          refine (hin nch place hpc).imp_right fun hno ncp' hmem => hno ncp' ?_
          rw [← List.drop_drop] at hmem
          exact List.mem_of_mem_drop hmem

/-! ### Runs -/

theorem Inv.exec {event : Event} (hi : Inv s) (hperm : s.Permits event)
    (h : s.exec event = some s') : Inv s' := by
  cases event with
  | call c =>
    cases h
    refine ⟨?_, hi.rele, fun p hp => ?_⟩
    · dsimp only
      split_ifs
      · simpa [Enter.holds] using hi.total
      · exact hi.total
    · have hinv := hi.purge p hp
      exact ⟨hinv.index, hinv.room, hinv.count⟩
  | enter k idle =>
    cases ht : s.enters[k]? with
    | none => simp [Cache.exec, ht] at h
    | some t =>
      cases hstep : s.enter idle t with
      | none => simp [Cache.exec, ht, hstep] at h
      | some r =>
        obtain rfl : _ = s' := by simpa [Cache.exec, ht, hstep, -List.append_assoc] using h
        exact hi.enter hperm ht hstep
  | purge kind =>
    simp only [Cache.exec] at h
    split_ifs at h with hnone
    cases h
    refine ⟨hi.total, hi.rele, fun p hp => ?_⟩
    cases hp
    refine ⟨rfl, .inr ?_, fun vfsp count _ h0 => ⟨by simpa using h0.le, by rintro _ _ ⟨⟩⟩⟩
    have hle := toPurge_le s kind 0
    have htotal := hi.total
    change 0 + s.toPurge kind 0 ≤ cfg.ncsize
    omega
  | scan =>
    obtain ⟨p, hp, rfl⟩ := Option.map_eq_some_iff.1 h
    exact hi.scan hp hperm

theorem Reaches.inv (h : Reaches cfg s) : Inv s := by
  induction h with
  | init => exact .init cfg
  | exec _ hperm hstep ih => exact ih.exec hperm hstep

/-- If all events are permitted, all writes are within the table, and no purge passes its count. -/
theorem permitted_run_purge (cfg : Config) (s : Cache cfg) (h : Reaches cfg s) :
    (∀ w ∈ s.rele, w.1 < cfg.rsize) ∧
      ∀ p vfsp count, s.purge = some p → p.kind = .purgeVfsp vfsp count → 0 < count →
        p.n ≤ count :=
  ⟨h.inv.rele, fun p vfsp count hp hkind h0 => ((h.inv.purge p hp).count vfsp count hkind h0).1⟩

/-- A cache of two entries, with two chains. -/
def twoEntries : Config := ⟨2, Nat.two_pos, fun _ => 0⟩

def nobody : Vnode → Bool := fun _ => false

/-- The names `a` and `c` are on the second chain, and `b` is on the first. -/
def enterName (c : BitVec 8) : List Event :=
  [.call ⟨0, [c], 0x100, 0⟩, .enter 0 nobody, .enter 0 nobody]

/-- While a purge of at most two entries is under way, a name is entered on a chain that it comes to
later. -/
theorem permitted_run_purge_entered :
    ∃ s p, Reaches twoEntries s ∧ s.purge = some p ∧ p.kind = .purgeVfsp 0 2 ∧
      s.rele.map (·.1) = [3, 2, 1, 0] ∧ (∀ w ∈ s.rele, w.1 < twoEntries.rsize) ∧ (p.n : ℤ) ≤ 2 := by
  have h₁ : Reaches twoEntries _ := Reaches.init.exec (by trivial)
    (rfl : Cache.exec _ (.call ⟨0, [0x62], 0x100, 0⟩) = some _)
  have h₂ := h₁.exec (by rintro _ _ ⟨⟩) (rfl : Cache.exec _ (.enter 0 nobody) = some _)
  have h3 := h₂.exec (by rintro _ _ ⟨⟩ ⟨⟩) (rfl : Cache.exec _ (.enter 0 nobody) = some _)
  have h4 := h3.exec (by trivial) (rfl : Cache.exec _ (.purge (.purgeVfsp 0 2)) = some _)
  have h5 := h4.exec (by rintro _ _ ⟨⟩ _ _ _ ⟨⟩ _; exact .inl (by decide))
    (rfl : Cache.exec _ .scan = some _)
  have h6 := h5.exec (by rintro _ _ ⟨⟩ ⟨⟩) (rfl : Cache.exec _ .scan = some _)
  have h7 := h6.exec (by rintro _ _ ⟨⟩ ⟨⟩) (rfl : Cache.exec _ .scan = some _)
  have h8 := h7.exec (by trivial) (rfl : Cache.exec _ (.call ⟨0, [0x63], 0x100, 0⟩) = some _)
  have h9 := h8.exec (by rintro _ _ ⟨⟩) (rfl : Cache.exec _ (.enter 0 nobody) = some _)
  have h10 := h9.exec (by rintro _ _ ⟨⟩ ⟨⟩ _ _ _; exact .inr (by decide))
    (rfl : Cache.exec _ (.enter 0 nobody) = some _)
  have h11 := h10.exec (by rintro _ _ ⟨⟩ _ _ _ ⟨⟩ _; exact .inl (by decide))
    (rfl : Cache.exec _ .scan = some _)
  have h12 := h11.exec (by rintro _ _ ⟨⟩ ⟨⟩) (rfl : Cache.exec _ .scan = some _)
  obtain ⟨s, p, hr, hp, hkind, hrele⟩ : ∃ s p, Reaches twoEntries s ∧ s.purge = some p ∧
      p.kind = .purgeVfsp 0 2 ∧ s.rele.map (·.1) = [3, 2, 1, 0] :=
    ⟨_, _, h12, rfl, rfl, by decide⟩
  have h := permitted_run_purge twoEntries s hr
  exact ⟨s, p, hr, hp, hkind, hrele, h.1, h.2 p 0 2 hp hkind two_pos⟩

/-- The entry of `b` is purged and taken for `c`, which the purge comes to later; or of the two
entries of a file system one is to be purged. -/
theorem purge_overruns_and_miscounts :
    (∃ s, run twoEntries (enterName 0x61 ++ enterName 0x62 ++ [.purge .purge, .scan, .scan, .scan] ++
        enterName 0x63 ++ [.scan, .scan, .scan]) = some s ∧ ∃ w ∈ s.rele, twoEntries.rsize ≤ w.1) ∧
      ∃ s p, run twoEntries (enterName 0x61 ++ enterName 0x62 ++
          [.purge (.purgeVfsp 0 1), .scan, .scan, .scan, .scan]) = some s ∧ s.purge = some p ∧
        p.kind = .purgeVfsp 0 1 ∧ 1 < p.n := by
  refine ⟨⟨_, rfl, ?_⟩, _, _, rfl, rfl, rfl, ?_⟩
  · decide
  · decide

end Sol26.Dnlc
