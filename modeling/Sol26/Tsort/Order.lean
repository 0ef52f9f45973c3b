import Sol26.Tsort.Graph

/-!
# The order in which tsort prints

Whenever no live node is without live predecessors, the search of `findloop` goes from live node to
live predecessor and never comes back with nothing. It ends at a node it has visited, which is on a
cycle of live nodes.
-/
namespace Sol26.Tsort

open Function (update)
open List (length_cons mem_cons mem_filterMap mem_range mem_reverse range)
open Relation (TransGen)

variable {α : Type*} {g : Graph α} {live : ℕ → Live} {P : List ℕ} {i : ℕ}

/-- The predecessor relation between live nodes. -/
def Pred (g : Graph α) (live : ℕ → Live) (i j : ℕ) : Prop :=
  i ∈ g.inedges j ∧ live i = .live ∧ live j = .live

theorem anypred_iff : g.anypred live i = true ↔ ∃ p ∈ g.inedges i, live p = .live := by
  simp [Graph.anypred]

/-! ### The sweep -/

theorem sweep_eq (is : List ℕ) (x : Bool) :
    g.sweep live is x = (x || is.any (live · = .live),
      is.find? fun i => live i = .live && !g.anypred live i) := by
  induction is generalizing x with
  | nil => simp [Graph.sweep]
  | cons i is ih =>
    unfold Graph.sweep
    by_cases hl : live i = .live
    · by_cases hp : g.anypred live i = true
      · simp [hl, hp, ih]
      · simp [hl, hp]
    · simp [hl, ih]

/-! ### The search -/

/-- The nodes of a path are marked. -/
def marked (live : ℕ → Live) (P : List ℕ) (k : ℕ) : Live := if k ∈ P then .visited else live k

theorem update_marked : update (marked live P) i .visited = marked live (i :: P) := by
  ext k
  by_cases hk : k = i
  · simp [hk, marked]
  · simp [hk, marked]

/-- A path of the search, from the node it has come to back to the first one. -/
structure Path (g : Graph α) (live : ℕ → Live) (P : List ℕ) : Prop where
  chain : P.IsChain (Pred g live)
  live : ∀ k ∈ P, live k = .live
  nodup : P.Nodup

variable {printed : List ℕ} {n : ℕ}

theorem Path.length_le (h : Path g live P) (hn : ∀ k, live k = .live → k < n) : P.length ≤ n := by
  have hsub : P ⊆ range n := fun k hk => mem_range.2 (hn k (h.live k hk))
  simpa using (List.subperm_of_subset h.nodup hsub).length_le

theorem cycle_of_mem {Q : List ℕ} (h : (i :: Q).IsChain (Pred g live)) (hi : i ∈ Q) :
    TransGen (Pred g live) i i := by
  have hpair : (i :: Q).Pairwise (TransGen (Pred g live)) :=
    (h.imp fun _ _ => TransGen.single).pairwise
  exact List.rel_of_pairwise_cons hpair hi

/-- The search comes to a node on a cycle. -/
def Finds (g : Graph α) (live : ℕ → Live) (r : Option (Option ℕ × (ℕ → Live))) : Prop :=
  ∃ j Q, r = some (some j, marked live Q) ∧ (∀ k ∈ Q, live k = .live) ∧
    live j = .live ∧ TransGen (Pred g live) j j

theorem markPreds_finds {visit : ℕ → (ℕ → Live) → Option (Option ℕ × (ℕ → Live))}
    (hvisit : ∀ p, live p = .live → p ∈ g.inedges i → Finds g live (visit p (marked live P)))
    (hdead : ∀ p, live p ≠ .live → visit p (marked live P) = some (none, marked live P))
    (ps : List ℕ) (hsub : ps ⊆ g.inedges i) (hex : ∃ p ∈ ps, live p = .live) :
    Finds g live (markPreds visit ps (marked live P)) := by
  induction ps with
  | nil => simp at hex
  | cons p ps ih =>
    unfold markPreds
    by_cases hp : live p = .live
    · obtain ⟨j, Q, hr, hrest⟩ := hvisit p hp (hsub (by simp))
      rw [hr]
      exact ⟨j, Q, rfl, hrest⟩
    · rw [hdead p hp]
      refine ih (fun q hq => hsub (List.mem_cons_of_mem _ hq)) ?_
      obtain ⟨q, hq, hl⟩ := hex
      rcases mem_cons.1 hq with rfl | hq
      · exact absurd hl hp
      · exact ⟨q, hq, hl⟩

-- A path has no node twice, so it is no longer than the list of nodes; the fuel is for the rest.
theorem mark_finds (hn : ∀ k, live k = .live → k < n) (hnv : ∀ k, live k ≠ .visited)
    (hall : ∀ k, live k = .live → g.anypred live k = true) (fuel : ℕ) :
    ∀ (i : ℕ) (P : List ℕ), Path g live P → live i = .live → (i :: P).IsChain (Pred g live) →
      n + 1 ≤ fuel + P.length → Finds g live (g.mark fuel i (marked live P)) := by
  induction fuel with
  | zero =>
    intro i P hP _ _ hfuel
    have hlen := hP.length_le hn
    omega
  | succ fuel ih =>
    intro i P hP hi hchain hfuel
    unfold Graph.mark
    by_cases hmem : i ∈ P
    · simp only [marked, if_pos hmem]
      exact ⟨i, P, rfl, hP.live, hi, cycle_of_mem hchain hmem⟩
    · have hstate : marked live P i = .live := by simp [marked, hmem, hi]
      have hP' : Path g live (i :: P) :=
        ⟨hchain, by simpa [hi] using hP.live, List.nodup_cons.2 ⟨hmem, hP.nodup⟩⟩
      simp only [hstate, update_marked]
      refine markPreds_finds (fun p hp hpi => ?_) (fun p hp => ?_) _ (List.Subset.refl _)
        (anypred_iff.1 (hall i hi))
      · refine ih p (i :: P) hP' hp ?_ (by simp only [length_cons]; omega)
        exact List.isChain_cons_cons.2 ⟨⟨hpi, hp, hi⟩, hchain⟩
      · have hdead : marked live (i :: P) p = .dead := by
          have hout : p ∉ i :: P := fun hin => hp (hP'.live p hin)
          rw [marked, if_neg hout]
          cases h : live p with
          | dead => rfl
          | live => exact absurd h hp
          | visited => exact absurd h (hnv p)
        cases fuel with
        | zero =>
          have hlen := hP'.length_le hn
          simp only [length_cons] at hlen
          omega
        | succ fuel => simp only [Graph.mark, hdead]

/-! ### A printed node -/

/-- All nodes are live but the printed ones. -/
def liveOf (n : ℕ) (printed : List ℕ) (i : ℕ) : Live :=
  if i < n ∧ i ∉ printed then .live else .dead

theorem liveOf_eq_live : liveOf n printed i = .live ↔ i < n ∧ i ∉ printed := by
  simp [liveOf]

theorem liveOf_ne_visited : liveOf n printed i ≠ .visited := by
  unfold liveOf
  split_ifs <;> simp

theorem update_liveOf (n : ℕ) (printed : List ℕ) :
    update (liveOf n printed) i .dead = liveOf n (i :: printed) := by
  ext k
  by_cases hk : k = i
  · simp [hk, liveOf]
  · simp [hk, liveOf]

/-- What may be printed: a live node without live predecessors, or one on a cycle of them. -/
def Next (g : Graph α) (live : ℕ → Live) (i : ℕ) : Prop :=
  live i = .live ∧ (g.anypred live i = false ∨ TransGen (Pred g live) i i)

/-- The nodes printed, the last one first. -/
inductive Printed (g : Graph α) : List ℕ → Prop
  | nil : Printed g []
  | cons {printed : List ℕ} {i : ℕ} :
      Printed g printed → Next g (liveOf g.names.length printed) i → Printed g (i :: printed)

theorem Printed.nodup (h : Printed g printed) : printed.Nodup := by
  induction h with
  | nil => exact List.nodup_nil
  | cons _ hnext ih => exact List.nodup_cons.2 ⟨(liveOf_eq_live.1 hnext.1).2, ih⟩

theorem Printed.lt (h : Printed g printed) : ∀ i ∈ printed, i < g.names.length := by
  induction h with
  | nil => simp
  | cons _ hnext ih => simpa using ⟨(liveOf_eq_live.1 hnext.1).1, ih⟩

theorem Printed.next {later : List ℕ} (h : Printed g (later ++ i :: printed)) :
    Next g (liveOf g.names.length printed) i := by
  induction later with
  | nil =>
    cases h with
    | cons _ hnext => exact hnext
  | cons k later ih =>
    cases h with
    | cons hrest _ => exact ih hrest

theorem findloop_spec (printed : List ℕ) (hlive : ∃ k, liveOf g.names.length printed k = .live)
    (hall : ∀ k, liveOf g.names.length printed k = .live →
      g.anypred (liveOf g.names.length printed) k = true) :
    ∃ j, g.findloop (liveOf g.names.length printed) = some (j, liveOf g.names.length printed) ∧
      Next g (liveOf g.names.length printed) j := by
  set live := liveOf g.names.length printed with hdef
  have hlt : ∀ k, live k = .live → k < g.names.length := fun k hk => (liveOf_eq_live.1 hk).1
  have hnv : ∀ k, live k ≠ .visited := fun k => liveOf_ne_visited
  obtain ⟨k, hk⟩ := hlive
  have hfirst : ((range g.names.length).find? fun i => live i = .live).isSome := by
    rw [List.find?_isSome]
    exact ⟨k, mem_range.2 (hlt k hk), by simpa using hk⟩
  obtain ⟨i, hi⟩ := Option.isSome_iff_exists.1 hfirst
  have hilive : live i = .live := by simpa using List.find?_some hi
  have hpath : Path g live [] := ⟨List.isChain_nil, by simp, List.nodup_nil⟩
  obtain ⟨j, Q, hmark, hQ, hj, hcycle⟩ := mark_finds hlt hnv hall (g.names.length + 1) i [] hpath
    hilive (List.isChain_singleton i) (by simp)
  have hnil : marked live [] = live := by
    ext k
    simp [marked]
  -- the marks are taken back
  have hback : (fun k => if marked live Q k = .visited then .live else marked live Q k) = live := by
    ext k
    by_cases hk : k ∈ Q
    · simp [marked, hk, hQ k hk]
    · simp [marked, hk, hnv k]
  rw [hnil] at hmark
  refine ⟨j, ?_, hj, .inr hcycle⟩
  simp [Graph.findloop, hi, hmark, hback]

theorem printLoop_spec (fuel : ℕ) (printed : List ℕ) (h : Printed g printed)
    (hfuel : g.names.length + 1 ≤ fuel + printed.length) :
    ∃ order, g.printLoop fuel (liveOf g.names.length printed) printed = some order.reverse ∧
      Printed g order ∧ ∀ i < g.names.length, i ∈ order := by
  induction fuel generalizing printed with
  | zero =>
    have hlen : printed.length ≤ g.names.length := by
      simpa using (List.subperm_of_subset h.nodup
        fun k hk => mem_range.2 (h.lt k hk)).length_le
    omega
  | succ fuel ih =>
    have hstep : ∀ i, Next g (liveOf g.names.length printed) i →
        ∃ order, g.printLoop fuel (update (liveOf g.names.length printed) i .dead)
          (i :: printed) = some order.reverse ∧ Printed g order ∧
            ∀ k < g.names.length, k ∈ order := by
      intro i hi
      rw [update_liveOf]
      exact ih (i :: printed) (h.cons hi) (by simp only [length_cons]; omega)
    unfold Graph.printLoop
    rw [sweep_eq, Bool.false_or]
    cases hany : (range g.names.length).any (liveOf g.names.length printed · = .live) with
    | false =>
      refine ⟨printed, rfl, h, fun i hi => ?_⟩
      by_contra hout
      have hno := List.any_eq_false.1 hany i (mem_range.2 hi)
      exact hno (by simpa using liveOf_eq_live.2 ⟨hi, hout⟩)
    | true =>
      obtain ⟨k, hk, hklive⟩ := List.any_eq_true.1 hany
      cases hfind : (range g.names.length).find? fun i =>
          liveOf g.names.length printed i = .live &&
            !g.anypred (liveOf g.names.length printed) i with
      | some i =>
        have hi := List.find?_some hfind
        simp only [Bool.and_eq_true, decide_eq_true_eq, Bool.not_eq_true'] at hi
        exact hstep i ⟨hi.1, .inl hi.2⟩
      | none =>
        obtain ⟨j, hloop, hj⟩ := findloop_spec printed
          ⟨k, by simpa using hklive⟩ (fun m hm => by
            have hno := List.find?_eq_none.1 hfind m (mem_range.2 (liveOf_eq_live.1 hm).1)
            simpa [hm] using hno)
        simp only [hloop]
        exact hstep j hj

/-! ### The tokens -/

variable [DecidableEq α]

/-- The edges between given tokens. -/
def EdgeAmong (pairs : List (α × α)) (l : List α) (a b : α) : Prop :=
  Edge pairs a b ∧ a ∈ l ∧ b ∈ l

omit [DecidableEq α] in
theorem Printed.cycle {pairs : List (α × α)} {order : List ℕ} (hr : Reads g pairs)
    (h : Printed g order) (hall : ∀ i < g.names.length, i ∈ order) {pre post : List α} {a b : α}
    (hout : order.reverse.filterMap (fun i => g.names[i]?) = pre ++ b :: post)
    (he : Edge pairs a b) (ha : a ∉ pre) : TransGen (EdgeAmong pairs (b :: post)) b b := by
  obtain ⟨l1, l2, hl, rfl, htail⟩ := List.filterMap_eq_append_iff.1 hout
  obtain ⟨l3, i, l4, rfl, hnone, hi, rfl⟩ := List.filterMap_eq_cons_iff.1 htail
  have horder : order = l4.reverse ++ i :: (l1 ++ l3).reverse := by
    rw [← List.reverse_inj, hl]
    simp
  rw [horder] at h hall
  -- a live node is printed from here on
  have hrest : ∀ k, liveOf g.names.length (l1 ++ l3).reverse k = .live →
      g.names.getD k b ∈ b :: l4.filterMap fun i => g.names[i]? := by
    intro k hk
    obtain ⟨hlt, hout⟩ := liveOf_eq_live.1 hk
    have hmem := hall k hlt
    rw [List.mem_append, mem_cons, mem_reverse] at hmem
    rcases hmem with hmem | rfl | hmem
    · refine List.mem_cons_of_mem _ (mem_filterMap.2 ⟨k, hmem, ?_⟩)
      rw [List.getD_eq_getElem?_getD, List.getElem?_eq_getElem hlt, Option.getD_some]
    · simp [List.getD_eq_getElem?_getD, hi]
    · exact absurd hmem hout
  have hpred : g.anypred (liveOf g.names.length (l1 ++ l3).reverse) i = true := by
    obtain ⟨k, hk⟩ := List.mem_iff_getElem?.1 ((hr.names a).2 ⟨_, he.1, .inl rfl⟩)
    refine anypred_iff.2 ⟨k, (hr.edges k i).2 ⟨a, b, he, hk, hi⟩, liveOf_eq_live.2 ⟨?_, ?_⟩⟩
    · exact (List.getElem?_eq_some_iff.1 hk).1
    · rw [mem_reverse, List.mem_append]
      rintro (hin | hin)
      · exact ha (mem_filterMap.2 ⟨k, hin, hk⟩)
      · simp [hnone k hin] at hk
  rcases h.next.2 with hno | hcycle
  · rw [hpred] at hno
    cases hno
  · have hlift : TransGen (EdgeAmong pairs (b :: l4.filterMap fun i => g.names[i]?))
        (g.names.getD i b) (g.names.getD i b) := by
      refine hcycle.lift (fun k => g.names.getD k b) fun x y hxy => ?_
      obtain ⟨c, d, hcd, hx, hy⟩ := (hr.edges x y).1 hxy.1
      refine ⟨?_, hrest x hxy.2.1, hrest y hxy.2.2⟩
      simpa [List.getD_eq_getElem?_getD, hx, hy] using hcd
    simpa [List.getD_eq_getElem?_getD, hi] using hlift

/-- Every token is printed once. Without a cycle, the first of two different tokens of a pair is
printed before the second; and a token that is printed before one of its predecessors is on a cycle
of tokens that are not printed yet. -/
theorem tsort_orders (pairs : List (α × α)) :
    ∃ out, tsort pairs = some out ∧ out.Nodup ∧
      (∀ a, a ∈ out ↔ ∃ p ∈ pairs, a = p.1 ∨ a = p.2) ∧
      ((∀ a, ¬ TransGen (Edge pairs) a a) → ∀ a b, Edge pairs a b → [a, b].Sublist out) ∧
      ∀ pre b post a, out = pre ++ b :: post → Edge pairs a b → a ∉ pre →
        TransGen (EdgeAmong pairs (b :: post)) b b := by
  have hr := readPairs_reads pairs
  set g := readPairs pairs with hg
  obtain ⟨order, horder, hprinted, hall⟩ :=
    printLoop_spec (g.names.length + 1) [] (Printed.nil (g := g)) (by simp)
  have hstart : (fun i => if i < g.names.length then Live.live else .dead) =
      liveOf g.names.length [] := by
    ext i
    simp [liveOf]
  have hmem : ∀ a, a ∈ order.reverse.filterMap (fun i => g.names[i]?) ↔
      ∃ p ∈ pairs, a = p.1 ∨ a = p.2 := by
    intro a
    rw [mem_filterMap, ← hr.names, List.mem_iff_getElem?]
    constructor
    · rintro ⟨i, -, hi⟩
      exact ⟨i, hi⟩
    · rintro ⟨i, hi⟩
      exact ⟨i, mem_reverse.2 (hall i (List.getElem?_eq_some_iff.1 hi).1), hi⟩
  have hcycle : ∀ pre b post a, order.reverse.filterMap (fun i => g.names[i]?) =
      pre ++ b :: post → Edge pairs a b → a ∉ pre →
        TransGen (EdgeAmong pairs (b :: post)) b b :=
    fun pre b post a hout he ha => hprinted.cycle hr hall hout he ha
  refine ⟨order.reverse.filterMap fun i => g.names[i]?, ?_, ?_, hmem, ?_, hcycle⟩
  · rw [tsort, ← hg, hstart, horder, Option.map_some]
  · refine List.Nodup.filterMap (fun i j a hi hj => ?_) (List.nodup_reverse.2 hprinted.nodup)
    exact place_unique hr.nodup hi hj
  · intro hacyclic a b he
    obtain ⟨pre, post, hout⟩ := List.append_of_mem ((hmem b).2 ⟨_, he.1, .inr rfl⟩)
    have ha : a ∈ pre := by
      by_contra ha
      exact hacyclic b ((hcycle pre b post a hout he ha).lift id fun _ _ hxy => hxy.1)
    rw [hout]
    exact (List.singleton_sublist.2 ha).append (List.singleton_sublist.2 (by simp))

end Sol26.Tsort
