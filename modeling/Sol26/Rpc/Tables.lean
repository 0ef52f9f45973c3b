import Sol26.Lib.Linked
import Sol26.Rpc.Dupreq

/-!
# The ring and the hash chains

All entries are on one ring. An entry on a hash chain is there once, on the chain of its
transaction id, and no two of them are for the same request.
-/
namespace Sol26.Rpc

open Linked Function
open List (mem_cons mem_cons_self mem_map nodup_cons)

/-- The cells of a hash chain: that of no entry is in the table. -/
def Cache.cell (c : Cache) (b : ℕ) : Option Ptr → Option Ptr
  | none => c.drhashtbl b
  | some p => (c.mem p).chain

/-- From `m`, the ring goes over all entries and back to `m`. -/
def Ring (c : Cache) (m : Ptr) : Prop :=
  ∃ l, Links (fun p => p) (fun p => (c.mem p).next) (c.mem m).next l m ∧ (m :: l).Nodup ∧
    ∀ p, p ∈ m :: l ↔ p ∈ c.used

/-- The hash chains are `chains`. -/
structure Tables (size : Req → ℕ) (c : Cache) (chains : ℕ → List Ptr) : Prop where
  chain : ∀ b, Chain some some (c.cell b) none (chains b) none
  nodup : ∀ b, (chains b).Nodup
  used : ∀ b, ∀ p ∈ chains b, p ∈ c.used ∧ xidhash (c.mem p).xid = b
  key : ∀ b, ∀ p ∈ chains b, ∃ req, (c.mem p).Matches req ∧ size req ≤ (c.mem p).resp.length
  distinct : ∀ b, ∀ p ∈ chains b, ∀ q ∈ chains b, ∀ req, (c.mem p).Matches req →
    (c.mem q).Matches req → p = q
  count : c.ndupreqs = c.used.card

@[simp] theorem Cache.set_self (c : Cache) (dr : Ptr) (d : Dupreq) : (c.set dr d).mem dr = d :=
  update_self ..

theorem Cache.set_of_ne (c : Cache) {dr p : Ptr} (d : Dupreq) (h : p ≠ dr) :
    (c.set dr d).mem p = c.mem p :=
  update_of_ne h ..

section Rings

variable {c c' : Cache} {m d p : Ptr}

/-- A ring may be entered anywhere. -/
theorem Ring.rotate (h : Ring c m) (hd : d ∈ c.used) : Ring c d := by
  obtain ⟨l, hl, hnd, hmem⟩ := h
  rcases mem_cons.mp ((hmem d).mpr hd) with rfl | hdl
  · exact ⟨l, hl, hnd, hmem⟩
  · obtain ⟨a, b, rfl⟩ := List.append_of_mem hdl
    have hperm : (d :: (b ++ m :: a)).Perm (m :: (a ++ d :: b)) := by
      have h1 : (b ++ m :: a).Perm (m :: (b ++ a)) := List.perm_middle
      have h2 : (a ++ d :: b).Perm (d :: (a ++ b)) := List.perm_middle
      calc (d :: (b ++ m :: a)).Perm (d :: m :: (b ++ a)) := h1.cons d
        _ |>.Perm (m :: d :: (b ++ a)) := .swap m d _
        _ |>.Perm (m :: d :: (a ++ b)) := (List.perm_append_comm.cons d).cons m
        _ |>.Perm (m :: (a ++ d :: b)) := h2.symm.cons m
    have hcut := linked_append.mp hl
    refine ⟨b ++ m :: a, linked_append.mpr ⟨hcut.2.2, rfl, hcut.1⟩, hperm.nodup_iff.mpr hnd,
      fun p => ?_⟩
    rw [hperm.mem_iff]
    exact hmem p

theorem Ring.next_mem (h : Ring c m) (hp : p ∈ c.used) : (c.mem p).next ∈ c.used := by
  obtain ⟨l, hl, -, hmem⟩ := h.rotate hp
  rw [← hmem]
  have hs := hl.start_eq
  rw [hs]
  cases l with
  | nil => exact mem_cons_self
  | cons q l => exact List.mem_cons_of_mem _ mem_cons_self

theorem Ring.congr (h : Ring c m) (hused : c'.used = c.used)
    (hnext : ∀ p ∈ c.used, (c'.mem p).next = (c.mem p).next) : Ring c' m := by
  obtain ⟨l, hl, hnd, hmem⟩ := h
  refine ⟨l, ?_, hnd, by rwa [hused]⟩
  rw [hnext m ((hmem m).mp mem_cons_self)]
  apply hl.congr
  intro p hp
  exact hnext p ((hmem p).mp (List.mem_cons_of_mem _ hp))

/-- A new entry goes onto the ring after the most recent one. -/
theorem Ring.enter (h : Ring c m) (hm : c.drmru = some m) (hd : d ∉ c.used) :
    Ring (c.enter d) d := by
  obtain ⟨l, hl, hnd, hmem⟩ := h
  have hdl : d ∉ m :: l := fun hc => hd ((hmem d).mp hc)
  have hdm : d ≠ m := fun he => hdl (he ▸ mem_cons_self)
  have hne : ∀ p ∈ l, p ≠ d ∧ p ≠ m := fun p hp =>
    ⟨fun he => hdl (he ▸ List.mem_cons_of_mem _ hp), fun he => (nodup_cons.mp hnd).1 (he ▸ hp)⟩
  have hnext : ∀ p, ((c.enter d).mem p).next = if p = m then d else if p = d then (c.mem m).next
      else (c.mem p).next := by
    intro p
    unfold Cache.enter
    rw [hm]
    by_cases hpm : p = m
    · simp [Cache.set, hpm]
    · by_cases hpd : p = d
      · simp [Cache.set, hpd, hdm]
      · simp [Cache.set, hpm, hpd]
  have hused : (c.enter d).used = insert d c.used := by
    unfold Cache.enter
    rw [hm]
  refine ⟨l ++ [m], ?_, ?_, fun p => ?_⟩
  · apply linked_append.mpr
    simp only [hnext, if_neg hdm, if_true]
    refine ⟨hl.congr fun p hp => ?_, rfl, by simp [Links]⟩
    rw [if_neg (hne p hp).2, if_neg (hne p hp).1]
  · have hp : (l ++ [m]).Perm (m :: l) := List.perm_append_comm
    exact nodup_cons.mpr ⟨fun hc => hdl (hp.mem_iff.mp hc), hp.nodup_iff.mpr hnd⟩
  · rw [hused, Finset.mem_insert, ← hmem p]
    simp
    tauto

end Rings

section Keys

variable {d : Dupreq} {req req' : Req}

theorem Dupreq.Matches.addr_eq (h : d.Matches req) : d.addr.buf.take d.addr.len = req.addr := by
  obtain ⟨-, -, -, -, hlen, hbuf⟩ := h
  rw [hbuf, hlen, List.take_length]

theorem Dupreq.Matches.unique (h : d.Matches req) (h' : d.Matches req') : req = req' := by
  have ha := h.addr_eq.symm.trans h'.addr_eq
  obtain ⟨h1, h2, h3, h4, -, -⟩ := h
  obtain ⟨h1', h2', h3', h4', -, -⟩ := h'
  cases req
  cases req'
  simp_all

end Keys

section Lookups

variable {size : Req → ℕ} {c c' : Cache} {chains : ℕ → List Ptr} {req : Req} {b n : ℕ}
  {p dr : Ptr} {l1 l2 : List Ptr}

theorem start_some (l : List Ptr) : start some l none = l.head? := by
  cases l <;> rfl

theorem Tables.length_le (h : Tables size c chains) (b : ℕ) : (chains b).length ≤ c.ndupreqs := by
  rw [h.count, ← List.toFinset_card_of_nodup (h.nodup b)]
  apply Finset.card_le_card
  intro p hp
  exact (h.used b p (List.mem_toFinset.mp hp)).1

/-- The link out of a part of a chain. -/
theorem Tables.chain_eq (h : Tables size c chains) (hb : chains b = l1 ++ p :: l2) :
    (c.mem p).chain = l2.head? := by
  have hc := h.chain b
  rw [hb] at hc
  have := Links.start_eq (chain_append.mp hc).2.2
  rw [start_some] at this
  exact this

theorem Tables.table_eq (h : Tables size c chains) (b : ℕ) : c.drhashtbl b = (chains b).head? := by
  have := Links.start_eq (h.chain b)
  rw [start_some] at this
  exact this

theorem Tables.lookup_spec (h : Tables size c chains) (hb : chains b = l1 ++ l2)
    (hl1 : ∀ p ∈ l1, ¬ (c.mem p).Matches req) (hn : l2.length ≤ n) :
    (∃ p ∈ chains b, (c.mem p).Matches req ∧ c.lookup req n l2.head? = some (some p)) ∨
    (∀ p ∈ chains b, ¬ (c.mem p).Matches req) ∧ c.lookup req n l2.head? = some none := by
  induction n generalizing l1 l2 with
  | zero =>
    obtain rfl := List.length_eq_zero_iff.mp (Nat.le_zero.mp hn)
    exact .inr ⟨by simpa [hb] using hl1, rfl⟩
  | succ n ih =>
    cases l2 with
    | nil => exact .inr ⟨by simpa [hb] using hl1, rfl⟩
    | cons p l2 =>
      unfold Cache.lookup
      simp only [List.head?_cons]
      by_cases hp : (c.mem p).Matches req
      · exact .inl ⟨p, by simp [hb], hp, if_pos hp⟩
      · rw [if_neg hp, h.chain_eq hb]
        have hgo := @ih (l1 ++ [p]) l2
        apply hgo
        · simp [hb]
        · intro q hq
          rcases List.mem_append.mp hq with hq | hq
          · exact hl1 q hq
          · rw [List.mem_singleton.mp hq]
            exact hp
        · simpa using hn

/-- The status, the response and the place on the ring of an entry are not part of the tables. -/
theorem Tables.congr (h : Tables size c chains) (htbl : c'.drhashtbl = c.drhashtbl)
    (hused : c.used ⊆ c'.used) (hcount : c'.ndupreqs = c'.used.card)
    (hmem : ∀ b, ∀ p ∈ chains b, ∃ status resp next,
      c'.mem p = { c.mem p with status, resp, next } ∧ resp.length = (c.mem p).resp.length) :
    Tables size c' chains := by
  have hkey : ∀ {b p}, p ∈ chains b → (c'.mem p).chain = (c.mem p).chain ∧
      (c'.mem p).xid = (c.mem p).xid ∧ (c'.mem p).resp.length = (c.mem p).resp.length ∧
      ∀ req, (c'.mem p).Matches req ↔ (c.mem p).Matches req := by
    intro b p hp
    obtain ⟨status, resp, next, he, hlen⟩ := hmem b p hp
    rw [he]
    exact ⟨rfl, rfl, hlen, fun req => Iff.rfl⟩
  refine ⟨fun b => ?_, h.nodup, fun b p hp => ?_, fun b p hp => ?_, fun b p hp q hq req hpr hqr => ?_,
    hcount⟩
  · apply (h.chain b).congr
    intro r hr
    rcases mem_cons.mp hr with rfl | hr
    · exact congrFun htbl b
    · obtain ⟨p, hp, rfl⟩ := mem_map.mp hr
      exact (hkey hp).1
  · rw [(hkey hp).2.1]
    exact ⟨hused (h.used b p hp).1, (h.used b p hp).2⟩
  · obtain ⟨req, hreq, hsize⟩ := h.key b p hp
    exact ⟨req, ((hkey hp).2.2.2 req).mpr hreq, by rwa [(hkey hp).2.2.1]⟩
  · exact h.distinct b p hp q hq req (((hkey hp).2.2.2 req).mp hpr) (((hkey hq).2.2.2 req).mp hqr)

/-- The links of a chain belong to one chain only. -/
theorem Tables.cells_nodup (h : Tables size c chains) (b : ℕ) :
    ((none : Option Ptr) :: (chains b).map some).Nodup :=
  nodup_cons.mpr ⟨by simp, (h.nodup b).map (Option.some_injective _)⟩

/-- What `unhash` leaves: only the links of the chains may change. -/
structure Unhashed (c c' : Cache) : Prop where
  mem : ∀ p, ∃ chain, c'.mem p = { c.mem p with chain }
  used : c'.used = c.used
  ndupreqs : c'.ndupreqs = c.ndupreqs
  drmru : c'.drmru = c.drmru

theorem Tables.erase (h : Tables size c chains) (hu : Unhashed c c')
    (hb : chains b = l1 ++ dr :: l2)
    (hcell : ∀ b' r, c'.cell b' r = if b' = b ∧ r = none ∧ l1 = [] ∨ r ≠ none ∧ r = l1.getLast? then
      l2.head? else c.cell b' r) :
    Tables size c' (update chains b (l1 ++ l2)) := by
  have hmem : ∀ p, (c'.mem p).xid = (c.mem p).xid ∧ (c'.mem p).resp = (c.mem p).resp ∧
      ∀ req, (c'.mem p).Matches req ↔ (c.mem p).Matches req := by
    intro p
    obtain ⟨chain, he⟩ := hu.mem p
    rw [he]
    exact ⟨rfl, rfl, fun req => Iff.rfl⟩
  have hsub : ∀ b', ((update chains b (l1 ++ l2)) b').Sublist (chains b') := by
    intro b'
    by_cases he : b' = b
    · subst he
      rw [update_self, hb]
      simp
    · rw [update_of_ne he]
  refine ⟨fun b' => ?_, fun b' => (h.nodup b').sublist (hsub b'), fun b' p hp => ?_, fun b' p hp => ?_,
    fun b' p hp q hq req hpr hqr => ?_, by rw [hu.ndupreqs, hu.used, h.count]⟩
  · by_cases he : b' = b
    · subst he
      rw [update_self]
      have hc := h.chain b'
      have hnd := h.cells_nodup b'
      have hdr : dr ∉ l1 ++ l2 := by
        have := h.nodup b'
        rw [hb, List.nodup_middle] at this
        exact (nodup_cons.mp this).1
      have hbefore : before some none l1 = l1.getLast? := by
        unfold before
        cases l1.getLast? <;> rfl
      rw [hb] at hc hnd
      apply hc.erase hnd
      · rw [hbefore, hcell]
        have hnext := Links.start_eq (chain_append.mp hc).2.2
        rw [start_some] at hnext
        dsimp only at hnext
        rw [hnext]
        cases l1 using List.reverseRecOn with
        | nil => simp
        | append_singleton l1 q => simp
      · intro r _ hne
        rw [hbefore] at hne
        rw [hcell, if_neg]
        rintro (⟨-, rfl, rfl⟩ | ⟨-, hr⟩)
        · exact hne rfl
        · exact hne hr
    · rw [update_of_ne he]
      apply (h.chain b').congr
      intro r hr
      rw [hcell, if_neg]
      rintro (⟨hb', -⟩ | ⟨hr', hlast⟩)
      · exact he hb'
      · -- an entry of another chain is not on this one
        rcases mem_cons.mp hr with rfl | hr
        · exact hr' rfl
        · obtain ⟨q, hq, rfl⟩ := mem_map.mp hr
          have hq' : q ∈ chains b := by
            rw [hb]
            exact List.mem_append_left _ (List.mem_of_getLast? hlast.symm)
          exact he ((h.used b' q hq).2.symm.trans (h.used b q hq').2)
  · have := h.used b' p ((hsub b').subset hp)
    rw [hu.used, (hmem p).1]
    exact this
  · obtain ⟨req, hreq, hsize⟩ := h.key b' p ((hsub b').subset hp)
    exact ⟨req, ((hmem p).2.2 req).mpr hreq, by rwa [(hmem p).2.1]⟩
  · exact h.distinct b' p ((hsub b').subset hp) q ((hsub b').subset hq) req
      (((hmem p).2.2 req).mp hpr) (((hmem q).2.2 req).mp hqr)

theorem Tables.unhashLoop_spec (h : Tables size c chains)
    (hb : chains (xidhash (c.mem dr).xid) = l1 ++ l2) (hl1 : dr ∉ l1) (hn : l2.length ≤ n) :
    ∃ c' chains', c.unhashLoop dr n l1.getLast? l2.head? = some c' ∧ Unhashed c c' ∧
      Tables size c' chains' ∧ ∀ b p, p ∈ chains' b ↔ p ∈ chains b ∧ p ≠ dr := by
  have hchain : ∀ {b'}, dr ∈ chains b' → b' = xidhash (c.mem dr).xid := fun hm =>
    (h.used _ dr hm).2.symm
  have hrefl : Unhashed c c := ⟨fun p => ⟨(c.mem p).chain, rfl⟩, rfl, rfl, rfl⟩
  have hstay : ∀ {l1}, chains (xidhash (c.mem dr).xid) = l1 ++ [] → dr ∉ l1 →
      ∀ b p, p ∈ chains b ↔ p ∈ chains b ∧ p ≠ dr := by
    refine fun hb hl1 b p => ⟨fun hp => ⟨hp, ?_⟩, And.left⟩
    rintro rfl
    rw [hchain hp, hb, List.append_nil] at hp
    exact hl1 hp
  induction n generalizing l1 l2 with
  | zero =>
    obtain rfl := List.length_eq_zero_iff.mp (Nat.le_zero.mp hn)
    exact ⟨c, chains, rfl, hrefl, h, hstay hb hl1⟩
  | succ n ih =>
    cases l2 with
    | nil => exact ⟨c, chains, rfl, hrefl, h, hstay hb hl1⟩
    | cons q l2 =>
      unfold Cache.unhashLoop
      simp only [List.head?_cons]
      by_cases hq : q = dr
      · subst hq
        rw [if_pos rfl, h.chain_eq hb]
        have hset : ∀ b p, p ∈ update chains (xidhash (c.mem q).xid) (l1 ++ l2) b ↔
            p ∈ chains b ∧ p ≠ q := by
          intro b p
          by_cases he : b = xidhash (c.mem q).xid
          · subst he
            have hnd := h.nodup (xidhash (c.mem q).xid)
            rw [hb, List.nodup_middle, nodup_cons] at hnd
            rw [update_self, hb]
            grind
          · rw [update_of_ne he]
            exact ⟨fun hp => ⟨hp, fun hpq => he (hchain (hpq ▸ hp))⟩, And.left⟩
        cases l1 using List.reverseRecOn with
        | nil =>
          have hu : Unhashed c { c with
              drhashtbl := update c.drhashtbl (xidhash (c.mem q).xid) l2.head? } :=
            ⟨fun p => ⟨(c.mem p).chain, rfl⟩, rfl, rfl, rfl⟩
          refine ⟨_, _, rfl, hu, ?_, hset⟩
          apply h.erase hu hb
          intro b' r
          cases r with
          | none => simp [Cache.cell, update_apply]
          | some r => simp [Cache.cell]
        | append_singleton l1 p =>
          rw [List.getLast?_concat]
          have hmem : ∀ r, ∃ chain, (c.set p { c.mem p with chain := l2.head? }).mem r =
              { c.mem r with chain } := by
            intro r
            by_cases hr : r = p
            · subst hr
              exact ⟨l2.head?, by simp [Cache.set]⟩
            · exact ⟨(c.mem r).chain, by simp [Cache.set, hr]⟩
          refine ⟨_, _, rfl, ⟨hmem, rfl, rfl, rfl⟩, ?_, hset⟩
          apply h.erase ⟨hmem, rfl, rfl, rfl⟩ hb
          intro b' r
          cases r with
          | none => simp [Cache.cell, Cache.set]
          | some r =>
            by_cases hr : r = p
            · subst hr
              simp [Cache.cell, Cache.set]
            · simp [Cache.cell, Cache.set, hr]
      · rw [if_neg hq, h.chain_eq hb]
        have hgo := @ih (l1 ++ [q]) l2
        rw [List.getLast?_concat] at hgo
        apply hgo
        · simp [hb]
        · simp [hl1, Ne.symm hq]
        · simpa using hn

theorem Tables.unhash_spec (h : Tables size c chains) (dr : Ptr) :
    ∃ c' chains', c.unhash dr = some c' ∧ Unhashed c c' ∧ Tables size c' chains' ∧
      ∀ b p, p ∈ chains' b ↔ p ∈ chains b ∧ p ≠ dr := by
  have hspec := h.unhashLoop_spec (show chains (xidhash (c.mem dr).xid) = [] ++ _ from rfl)
    (by simp) (h.length_le _)
  unfold Cache.unhash
  rw [h.table_eq]
  exact hspec

end Lookups

section Enters

variable {size : Req → ℕ} {c : Cache} {chains : ℕ → List Ptr} {d : Ptr}

theorem enter_used (c : Cache) (d : Ptr) : (c.enter d).used = insert d c.used := by
  unfold Cache.enter
  cases c.drmru <;> rfl

/-- A new entry changes the place on the ring of others, and nothing else. -/
theorem enter_mem (c : Cache) {d p : Ptr} (hp : p ≠ d) :
    ∃ next, (c.enter d).mem p = { c.mem p with next } := by
  unfold Cache.enter
  cases c.drmru with
  | none => exact ⟨(c.mem p).next, by simp [Cache.set, hp]⟩
  | some m =>
    by_cases hpm : p = m
    · exact ⟨d, by simp [Cache.set, hpm, hpm ▸ hp]⟩
    · exact ⟨(c.mem p).next, by simp [Cache.set, hp, hpm]⟩

theorem Ring.enter_first (hd : c.drmru = none) (hused : c.used = ∅) : Ring (c.enter d) d := by
  refine ⟨[], ?_, by simp, fun p => ?_⟩
  · unfold Cache.enter
    rw [hd]
    simp [Links, Cache.set]
  · rw [enter_used, hused]
    simp

theorem Tables.enter (h : Tables size c chains) (hd : d ∉ c.used) : Tables size (c.enter d) chains := by
  apply h.congr
  · unfold Cache.enter
    cases c.drmru <;> rfl
  · rw [enter_used]
    exact Finset.subset_insert d c.used
  · rw [enter_used, Finset.card_insert_of_notMem hd, ← h.count]
    unfold Cache.enter
    cases c.drmru <;> rfl
  · intro b p hp
    have hne : p ≠ d := fun he => hd (he ▸ (h.used b p hp).1)
    obtain ⟨next, he⟩ := enter_mem c hne
    exact ⟨(c.mem p).status, (c.mem p).resp, next, he, rfl⟩

end Enters

section Takes

variable {size : Req → ℕ} {c : Cache} {chains : ℕ → List Ptr} {env : Env} {req : Req} {dr : Ptr}

/-- What filling in the address or the room for the response leaves as it was. -/
structure Kept (d d' : Dupreq) : Prop where
  xid : d'.xid = d.xid
  prog : d'.prog = d.prog
  vers : d'.vers = d.vers
  proc : d'.proc = d.proc
  next : d'.next = d.next

theorem Dupreq.setAddr_spec (d : Dupreq) (env : Env) (req : Req) :
    Kept d (d.setAddr env req).1 ∧
    ((d.setAddr env req).2 = true → (d.setAddr env req).1.addr.len = req.addr.length ∧
      (d.setAddr env req).1.addr.buf.take req.addr.length = req.addr) ∧
    ((d.setAddr env req).2 = false → (d.setAddr env req).1.status = .drop) := by
  unfold Dupreq.setAddr
  dsimp only
  split
  · exact ⟨⟨rfl, rfl, rfl, rfl, rfl⟩, nofun, fun _ => rfl⟩
  · exact ⟨⟨rfl, rfl, rfl, rfl, rfl⟩, fun _ => ⟨rfl, by simp⟩, nofun⟩

theorem Dupreq.setResp_spec (d : Dupreq) (env : Env) (n : ℕ) :
    Kept d (d.setResp env n).1 ∧ (d.setResp env n).1.addr = d.addr ∧
    ((d.setResp env n).2 = true → n ≤ (d.setResp env n).1.resp.length) ∧
    ((d.setResp env n).2 = false → (d.setResp env n).1.status = .drop) := by
  unfold Dupreq.setResp
  dsimp only
  split
  · exact ⟨⟨rfl, rfl, rfl, rfl, rfl⟩, rfl, nofun, fun _ => rfl⟩
  · rename_i b hroom
    refine ⟨⟨rfl, rfl, rfl, rfl, rfl⟩, rfl, fun _ => ?_, nofun⟩
    split_ifs at hroom with hlt
    · exact (env.resp_length _ _ hroom).ge
    · cases hroom
      dsimp only
      omega

/-- The entry is for the request, or there was no memory for it. -/
theorem Dupreq.fill_spec (d : Dupreq) (env : Env) (req : Req) (n : ℕ) :
    (d.fill env req n).1.next = d.next ∧ (d.fill env req n).1.xid = req.xid ∧
    ((d.fill env req n).2 = true → (d.fill env req n).1.Matches req ∧
      n ≤ (d.fill env req n).1.resp.length) ∧
    ((d.fill env req n).2 = false → (d.fill env req n).1.status = .drop) := by
  unfold Dupreq.fill
  dsimp only
  obtain ⟨hkept, haddr, hdrop⟩ := Dupreq.setAddr_spec
    { d with xid := req.xid, prog := req.prog, vers := req.vers, proc := req.proc } env req
  generalize Dupreq.setAddr { d with
    xid := req.xid, prog := req.prog, vers := req.vers, proc := req.proc } env req = r
    at hkept haddr hdrop ⊢
  obtain ⟨d1, ok⟩ := r
  cases ok with
  | false =>
    simp only [Bool.false_eq_true, if_false]
    exact ⟨hkept.next, hkept.xid, nofun, fun _ => hdrop rfl⟩
  | true =>
    simp only [if_true]
    obtain ⟨hkept', ha, hresp, hdrop'⟩ := d1.setResp_spec env n
    refine ⟨hkept'.next.trans hkept.next, hkept'.xid.trans hkept.xid, fun h => ⟨?_, hresp h⟩, hdrop'⟩
    obtain ⟨hlen, hbuf⟩ := haddr rfl
    refine ⟨hkept'.xid.trans hkept.xid, hkept'.proc.trans hkept.proc, hkept'.prog.trans hkept.prog,
      hkept'.vers.trans hkept.vers, ?_, ?_⟩
    · rw [ha]
      exact hlen
    · rw [ha]
      dsimp only at hlen hbuf
      rw [hlen, hbuf, List.take_length]

/-- An entry that is on no chain is taken for a request that no entry on a chain is for. -/
theorem Tables.take_spec (h : Tables size c chains) (env : Env) (req : Req) (hdr : dr ∈ c.used)
    (hfree : ∀ b, dr ∉ chains b) (hno : ∀ b, ∀ p ∈ chains b, ¬ (c.mem p).Matches req) :
    ∃ chains' c' answer, c.take env req (size req) dr = (c', answer) ∧ Tables size c' chains' ∧
      c'.used = c.used ∧ c'.drmru = some dr ∧ (c'.mem dr).next = (c.mem dr).next ∧
      (∀ p, p ≠ dr → c'.mem p = c.mem p) ∧
      ((answer = .new ∧ (c'.mem dr).Matches req ∧ (c'.mem dr).status = .inprogress ∧
          ∀ b p, p ∈ chains' b ↔ p ∈ chains b ∨ p = dr ∧ b = xidhash req.xid) ∨
        answer = .error ∧ (c'.mem dr).status = .drop ∧ chains' = chains) := by
  obtain ⟨hnext, hxid, hok, hdrop⟩ := (c.mem dr).fill_spec env req (size req)
  unfold Cache.take
  dsimp only
  generalize (c.mem dr).fill env req (size req) = r at hnext hxid hok hdrop ⊢
  obtain ⟨d, ok⟩ := r
  dsimp only at hnext hxid hok hdrop ⊢
  have hother : ∀ {b p}, p ∈ chains b → p ≠ dr := fun hp he => hfree _ (he ▸ hp)
  cases ok with
  | false =>
    refine ⟨chains, _, _, rfl, ?_, rfl, rfl, ?_, ?_, .inr ⟨rfl, ?_, rfl⟩⟩
    · apply h.congr
      · rfl
      · exact subset_rfl
      · exact h.count
      · intro b p hp
        exact ⟨(c.mem p).status, (c.mem p).resp, (c.mem p).next, by simp [Cache.set, hother hp], rfl⟩
    · simp [Cache.set, hnext]
    · intro p hp
      simp [Cache.set, hp]
    · simp [Cache.set, hdrop rfl]
  | true =>
    obtain ⟨hmatch, hroom⟩ := hok rfl
    set b0 := xidhash d.xid with hb0
    set c' : Cache := { Cache.set { c with drmru := some dr } dr
        { d with status := .inprogress, chain := c.drhashtbl b0 } with
      drhashtbl := update c.drhashtbl b0 (some dr) } with hc'
    have hself : c'.mem dr = { d with status := .inprogress, chain := c.drhashtbl b0 } := by
      simp [hc', Cache.set]
    have hmem : ∀ {b p}, p ∈ chains b → c'.mem p = c.mem p := fun hp => by
      simp [hc', Cache.set, hother hp]
    have hin : ∀ b p, p ∈ update chains b0 (dr :: chains b0) b ↔ p ∈ chains b ∨ p = dr ∧ b = b0 := by
      intro b p
      by_cases hb : b = b0
      · subst hb
        rw [update_self]
        simp [or_comm]
      · rw [update_of_ne hb]
        simp [hb]
    have hmatch' : (c'.mem dr).Matches req := by
      rw [hself]
      exact hmatch
    -- the other cells of the chains keep what is in them
    have hcell : ∀ b, ∀ r ∈ (none : Option Ptr) :: (chains b).map some, (r = none → b ≠ b0) →
        c'.cell b r = c.cell b r := by
      intro b r hr hne
      rcases mem_cons.mp hr with rfl | hr
      · simp [Cache.cell, hc', hne rfl]
      · obtain ⟨p, hp, rfl⟩ := mem_map.mp hr
        exact congrArg Dupreq.chain (hmem hp)
    refine ⟨update chains b0 (dr :: chains b0), c', _, rfl, ⟨fun b => ?_, fun b => ?_,
      fun b p hp => ?_, fun b p hp => ?_, fun b p hp q hq r hpr hqr => ?_, h.count⟩, rfl, rfl, ?_,
      ?_, .inl ⟨rfl, hmatch', ?_, fun b p => hxid ▸ hin b p⟩⟩
    · by_cases hb : b = b0
      · subst hb
        rw [update_self]
        have hold : Chain some some (c.cell b0) none ([] ++ chains b0) none := h.chain b0
        have hfirst : c'.cell b0 (before some none []) = some dr := by simp [Cache.cell, hc']
        have hnew : c'.cell b0 (some dr) = c.cell b0 (before some none []) := by
          change (c'.mem dr).chain = c.drhashtbl b0
          rw [hself]
        exact hold.insert (h.cells_nodup b0) hfirst hnew fun r hr hne =>
          hcell b0 r hr fun he => absurd he hne
      · rw [update_of_ne hb]
        exact (h.chain b).congr fun r hr => hcell b r hr fun _ => hb
    · by_cases hb : b = b0
      · subst hb
        rw [update_self]
        exact nodup_cons.mpr ⟨hfree _, h.nodup _⟩
      · rw [update_of_ne hb]
        exact h.nodup b
    · rcases (hin b p).mp hp with hp | ⟨rfl, rfl⟩
      · rw [hmem hp]
        exact h.used b p hp
      · exact ⟨hdr, by rw [hself]⟩
    · rcases (hin b p).mp hp with hp | ⟨rfl, rfl⟩
      · rw [hmem hp]
        exact h.key b p hp
      · refine ⟨req, hmatch', ?_⟩
        rw [hself]
        exact hroom
    · rcases (hin b p).mp hp with hp' | ⟨rfl, hb⟩ <;>
        rcases (hin b q).mp hq with hq' | ⟨rfl, hb'⟩
      · rw [hmem hp'] at hpr
        rw [hmem hq'] at hqr
        exact h.distinct b p hp' q hq' r hpr hqr
      · obtain rfl := hqr.unique hmatch'
        rw [hmem hp'] at hpr
        exact absurd hpr (hno b p hp')
      · obtain rfl := hpr.unique hmatch'
        rw [hmem hq'] at hqr
        exact absurd hqr (hno _ q hq')
      · rfl
    · rw [hself]
      exact hnext
    · intro p hp
      simp [hc', Cache.set, hp]
    · rw [hself]

end Takes

end Sol26.Rpc
