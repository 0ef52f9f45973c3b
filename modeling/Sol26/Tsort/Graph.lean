import Mathlib.Tactic

/-!
# The graph of tsort

Model of `cmd/sgs/tsort/common/tsort.c`. A node is known by its place on the node list, which grows
in the order in which tokens are first read. The tokens have been split, and there is memory for the
nodes. What goes to the standard error output is left out.
-/
namespace Sol26.Tsort

open Function (update)

variable {α : Type*} [DecidableEq α]

/-- The state of a node. -/
inductive Live
  | dead
  | live
  | visited
  deriving DecidableEq

/-- The names of the nodes, and the predecessors of each. -/
structure Graph (α : Type*) where
  names : List α
  inedges : ℕ → List ℕ

def Graph.empty : Graph α := ⟨[], fun _ => []⟩

/-- `index`, which makes a node of a new token. -/
def Graph.index (g : Graph α) (s : α) : Graph α × ℕ :=
  if s ∈ g.names then (g, g.names.idxOf s)
  else ({ g with names := g.names ++ [s] }, g.names.length)

/-- `present` -/
def Graph.present (g : Graph α) (i j : ℕ) : Bool := (g.inedges j).any (· = i)

/-- One turn of the loop that reads the graph. -/
def Graph.addPair (g : Graph α) (pair : α × α) : Graph α :=
  let (g, i) := g.index pair.1
  let (g, j) := g.index pair.2
  if i = j ∨ g.present i j then g
  else { g with inedges := update g.inedges j (i :: g.inedges j) }

def readPairs (pairs : List (α × α)) : Graph α := pairs.foldl Graph.addPair .empty

/-- `anypred` -/
def Graph.anypred (g : Graph α) (live : ℕ → Live) (i : ℕ) : Bool :=
  (g.inedges i).any fun p => live p = .live

/-- The sweep over the nodes: whether any is live, and the first live one without live
predecessors. -/
def Graph.sweep (g : Graph α) (live : ℕ → Live) : List ℕ → Bool → Bool × Option ℕ
  | [], x => (x, none)
  | i :: is, x =>
    if live i = .live then if g.anypred live i then g.sweep live is true else (true, some i)
    else g.sweep live is x

/-- The loop of `mark` over the predecessors; `visit` is `mark` itself. -/
def markPreds (visit : ℕ → (ℕ → Live) → Option (Option ℕ × (ℕ → Live))) :
    List ℕ → (ℕ → Live) → Option (Option ℕ × (ℕ → Live))
  | [], live => some (none, live)
  | p :: ps, live =>
    match visit p live with
    | none => none
    | some (some j, live) => some (some j, live)
    | some (none, live) => markPreds visit ps live

/-- `mark`; the result is `none` if the recursion is deeper than the fuel. -/
def Graph.mark (g : Graph α) : ℕ → ℕ → (ℕ → Live) → Option (Option ℕ × (ℕ → Live))
  | 0, _, _ => none
  | fuel + 1, i, live =>
    match live i with
    | .dead => some (none, live)
    | .visited => some (some i, live)
    | .live => markPreds (g.mark fuel) (g.inedges i) (update live i .visited)

/-- `findloop`; the result is `none` for "program error". -/
def Graph.findloop (g : Graph α) (live : ℕ → Live) : Option (ℕ × (ℕ → Live)) := do
  let i ← (List.range g.names.length).find? fun i => live i = .live
  let (found, live) ← g.mark (g.names.length + 1) i live
  let j ← found
  return (j, fun k => if live k = .visited then .live else live k)

/-- The loop that prints, with the nodes printed before, the last one first. -/
def Graph.printLoop (g : Graph α) : ℕ → (ℕ → Live) → List ℕ → Option (List ℕ)
  | 0, _, _ => none
  | fuel + 1, live, printed =>
    match g.sweep live (List.range g.names.length) false with
    | (false, _) => some printed.reverse
    | (true, some i) => g.printLoop fuel (update live i .dead) (i :: printed)
    | (true, none) =>
      match g.findloop live with
      | none => none
      | some (i, live) => g.printLoop fuel (update live i .dead) (i :: printed)

/-- The names that tsort prints for a sequence of pairs; `none` if it does not come to its end. -/
def tsort (pairs : List (α × α)) : Option (List α) :=
  let g := readPairs pairs
  (g.printLoop (g.names.length + 1) (fun i => if i < g.names.length then .live else .dead) []).map
    fun order => order.filterMap fun i => g.names[i]?

/-! ### Reading -/

/-- The pairs of different tokens. -/
def Edge (pairs : List (α × α)) (a b : α) : Prop := (a, b) ∈ pairs ∧ a ≠ b

/-- The graph is that of the pairs. -/
structure Reads (g : Graph α) (pairs : List (α × α)) : Prop where
  nodup : g.names.Nodup
  names : ∀ a, a ∈ g.names ↔ ∃ p ∈ pairs, a = p.1 ∨ a = p.2
  edges : ∀ i j, i ∈ g.inedges j ↔
    ∃ a b, Edge pairs a b ∧ g.names[i]? = some a ∧ g.names[j]? = some b

omit [DecidableEq α] in
theorem place_unique {l : List α} (hn : l.Nodup) {i j : ℕ} {a : α} (hi : l[i]? = some a)
    (hj : l[j]? = some a) : i = j := by
  obtain ⟨hi', rfl⟩ := List.getElem?_eq_some_iff.1 hi
  obtain ⟨hj', he⟩ := List.getElem?_eq_some_iff.1 hj
  exact hn.getElem_inj_iff.1 he.symm

omit [DecidableEq α] in
theorem getElem?_prefix_iff {l l' : List α} {a : α} {i : ℕ} (h : l <+: l') (hn : l'.Nodup)
    (ha : a ∈ l) : l'[i]? = some a ↔ l[i]? = some a := by
  obtain ⟨t, rfl⟩ := h
  have hleft : ∀ k : ℕ, l[k]? = some a → (l ++ t)[k]? = some a := by
    intro k hk
    obtain ⟨hlt, -⟩ := List.getElem?_eq_some_iff.1 hk
    rw [List.getElem?_append_left hlt, hk]
  constructor
  · intro hi
    obtain ⟨k, hk⟩ := List.mem_iff_getElem?.1 ha
    rw [place_unique hn hi (hleft k hk), hk]
  · exact hleft i

/-- The node of a token, which is on the list. -/
theorem index_spec (g : Graph α) (s : α) (h : g.names.Nodup) :
    (g.index s).1.names.Nodup ∧ (g.index s).1.inedges = g.inedges ∧
      (g.index s).1.names[(g.index s).2]? = some s ∧ g.names <+: (g.index s).1.names ∧
      ∀ a, a ∈ (g.index s).1.names ↔ a ∈ g.names ∨ a = s := by
  unfold Graph.index
  split_ifs with hs
  · refine ⟨h, rfl, List.getElem?_idxOf hs, List.prefix_rfl, fun a => ?_⟩
    constructor
    · exact .inl
    · rintro (ha | rfl)
      · exact ha
      · exact hs
  · refine ⟨?_, rfl, by simp, List.prefix_append .., by simp⟩
    rw [List.nodup_append]
    exact ⟨h, List.nodup_singleton s, by simpa using fun a ha (he : a = s) => hs (he ▸ ha)⟩

omit [DecidableEq α] in
theorem present_iff (g : Graph α) (i j : ℕ) : g.present i j = true ↔ i ∈ g.inedges j := by
  simp [Graph.present]

omit [DecidableEq α] in
theorem Reads.empty : Reads (.empty : Graph α) [] where
  nodup := List.nodup_nil
  names := by simp [Graph.empty]
  edges := by simp [Graph.empty]

theorem addPair_reads {g : Graph α} {pairs : List (α × α)} (h : Reads g pairs) (p : α × α) :
    Reads (g.addPair p) (pairs ++ [p]) := by
  obtain ⟨hn1, he1, hi1, hp1, hm1⟩ := index_spec g p.1 h.nodup
  obtain ⟨hn2, he2, hi2, hp2, hm2⟩ := index_spec (g.index p.1).1 p.2 hn1
  set g1 := (g.index p.1).1
  set g2 := (g1.index p.2).1
  set i := (g.index p.1).2
  set j := (g1.index p.2).2
  have hi : g2.names[i]? = some p.1 :=
    (getElem?_prefix_iff hp2 hn2 ((hm1 _).2 (.inr rfl))).2 hi1
  have hadd : g.addPair p = if i = j ∨ g2.present i j then g2
      else { g2 with inedges := update g2.inedges j (i :: g2.inedges j) } := rfl
  have hnames : (g.addPair p).names = g2.names := by
    rw [hadd]
    split_ifs <;> rfl
  -- the one edge that may be new
  have hedges : ∀ k l, k ∈ (g.addPair p).inedges l ↔
      k ∈ g.inedges l ∨ k = i ∧ l = j ∧ p.1 ≠ p.2 := by
    intro k l
    have hij : i = j ↔ p.1 = p.2 := by
      constructor
      · intro he
        rw [he, hi2] at hi
        exact (Option.some.inj hi).symm
      · intro he
        rw [← he] at hi2
        exact place_unique hn2 hi hi2
    rw [hadd]
    split_ifs with hc
    · rw [present_iff, he2, he1] at hc
      rw [he2, he1]
      grind
    · push Not at hc
      by_cases hl : l = j
      · subst hl
        simp only [Function.update_self, List.mem_cons, he2, he1]
        grind
      · simp only [Function.update_of_ne hl, he2, he1]
        grind
  refine ⟨hnames ▸ hn2, fun a => ?_, fun k l => ?_⟩
  · rw [hnames, hm2, hm1, h.names]
    simp only [List.mem_append, List.mem_singleton]
    grind
  · rw [hedges, h.edges, hnames]
    have hold : ∀ a b, Edge pairs a b → a ∈ g.names ∧ b ∈ g.names := fun a b he =>
      ⟨(h.names a).2 ⟨_, he.1, .inl rfl⟩, (h.names b).2 ⟨_, he.1, .inr rfl⟩⟩
    have hback : ∀ m a, a ∈ g.names → (g2.names[m]? = some a ↔ g.names[m]? = some a) :=
      fun m a ha => getElem?_prefix_iff (hp1.trans hp2) hn2 ha
    constructor
    · rintro (⟨a, b, he, ha, hb⟩ | ⟨rfl, rfl, hne⟩)
      · exact ⟨a, b, ⟨List.mem_append_left _ he.1, he.2⟩, (hback k a (hold a b he).1).2 ha,
          (hback l b (hold a b he).2).2 hb⟩
      · exact ⟨p.1, p.2, ⟨by simp, hne⟩, hi, hi2⟩
    · rintro ⟨a, b, ⟨hmem, hne⟩, ha, hb⟩
      rcases List.mem_append.1 hmem with hmem | hmem
      · have ho := hold a b ⟨hmem, hne⟩
        exact .inl ⟨a, b, ⟨hmem, hne⟩, (hback k a ho.1).1 ha, (hback l b ho.2).1 hb⟩
      · have hp : p = (a, b) := (List.mem_singleton.1 hmem).symm
        have hk : k = i := place_unique hn2 ha (by rw [hi, hp])
        have hl : l = j := place_unique hn2 hb (by rw [hi2, hp])
        exact .inr ⟨hk, hl, by rw [hp]; exact hne⟩

theorem readPairs_reads (pairs : List (α × α)) : Reads (readPairs pairs) pairs := by
  induction pairs using List.reverseRecOn with
  | nil => exact .empty
  | append_singleton pairs p ih =>
    have hstep : readPairs (pairs ++ [p]) = (readPairs pairs).addPair p := by
      simp only [readPairs, List.foldl_append, List.foldl_cons, List.foldl_nil]
    rw [hstep]
    exact addPair_reads ih p

end Sol26.Tsort
