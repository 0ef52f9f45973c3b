import Sol26.Lib.Buffered

/-!
# The tree of a file to be packed

Model of the first half of `packfile` and of `heapify` from `cmd/pack/pack.c`: the heap of the
characters that occur, the merging that gives every node its parent, and the levels of the
characters. An access outside an array is a fault. Files are shorter than 2^30 bytes, so that the
counts do not overflow.
-/
namespace Sol26.Pack

open Function (update update_of_ne update_self)
open Buffered

/-- `END`, the character behind the last one of the file. -/
def endChar : ℕ := 256

/-- `input`: two for each time that a character occurs, and one for the end. -/
def counts (file : List (BitVec 8)) : ℕ → ℕ :=
  update (file.foldl (fun count c => update count c.toNat (count c.toNat + 2)) fun _ => 0) endChar 1

/-- `struct heap` -/
structure Entry where
  count : ℕ
  node : ℕ

/-- The variables of the tree: `heap[1..n]`, `parent` and `lastnode`. -/
structure Build where
  n : ℕ
  heap : ℕ → Entry
  parent : ℕ → ℕ
  lastnode : ℕ

/-- The loop of `heapify` from the place `i` on, with the entry that is to find its place. -/
def sift (n : ℕ) (heapsubi : Entry) : ℕ → ℕ → (ℕ → Entry) → Run (ℕ → Entry)
  | 0, _, _ => .fault
  | fuel + 1, i, heap =>
    if i ≤ n / 2 then
      if 2 * i + 1 < 258 then
        let k := if (heap (2 * i + 1)).count < (heap (2 * i)).count ∧ 2 * i < n then 2 * i + 1
          else 2 * i
        if heapsubi.count < (heap k).count then .ok (update heap i heapsubi)
        else sift n heapsubi fuel k (update heap i (heap k))
      else .fault
    else if i < 258 then .ok (update heap i heapsubi) else .fault

def heapify (n i : ℕ) (heap : ℕ → Entry) : Run (ℕ → Entry) :=
  if i < 258 then sift n (heap i) (n + 1) i heap else .fault

/-- The characters below `i` that occur are put into the heap, from the last one on. -/
def fill (count : ℕ → ℕ) : ℕ → Build → Run Build
  | 0, b => .ok b
  | i + 1, b =>
    let b := { b with parent := update b.parent i 0 }
    if 0 < count i then
      if b.n + 1 < 258 then
        fill count i { b with n := b.n + 1, heap := update b.heap (b.n + 1) ⟨count i, i⟩ }
      else .fault
    else fill count i b

/-- `heapify` from the place `i` on backwards. -/
def heapifyAll (n : ℕ) : ℕ → (ℕ → Entry) → Run (ℕ → Entry)
  | 0, heap => .ok heap
  | i + 1, heap => do
    let heap ← heapify n (i + 1) heap
    heapifyAll n i heap

/-- The two least entries get a common parent, which takes their place. -/
def merge (b : Build) : Run Build := do
  let lastnode := b.lastnode + 1
  let first := b.heap 1
  if first.node < 513 ∧ b.n < 258 then
    let parent := update b.parent first.node lastnode
    let n := b.n - 1
    let heap ← heapify n 1 (update b.heap 1 (b.heap b.n))
    if (heap 1).node < 513 then
      let parent := update parent (heap 1).node lastnode
      let heap ← heapify n 1 (update heap 1 ⟨(heap 1).count + first.count, lastnode⟩)
      .ok { n := n, heap := heap, parent := parent, lastnode := lastnode }
    else .fault
  else .fault

/-- `while (n > 1)` -/
def mergeAll : ℕ → Build → Run Build
  | 0, _ => .fault
  | fuel + 1, b =>
    if 1 < b.n then do
      let b ← merge b
      mergeAll fuel b
    else .ok b

/-- The parents of the nodes; the file is trivial if one character occurs in it. -/
def buildTree (count : ℕ → ℕ) : Run (ℕ → ℕ) := do
  let b ← fill count (endChar + 1)
    { n := 0, heap := fun _ => ⟨0, 0⟩, parent := fun _ => 0, lastnode := endChar }
  if b.n = 2 then .goof
  else do
    let heap ← heapifyAll b.n (b.n / 2) b.heap
    let b ← mergeAll (b.n + 1) { b with heap := heap }
    if b.lastnode < 513 then .ok (update b.parent b.lastnode 0) else .fault

/-! ### The heap stays in its array -/

variable {n : ℕ} {heap : ℕ → Entry} {Q : Entry → Prop}

theorem sift_yields {e : Entry} (hn : n ≤ 257) (he : Q e) (fuel i : ℕ) (hi : 0 < i)
    (hle : i ≤ n) (hfuel : n < fuel + i) (hheap : ∀ j, 0 < j → j ≤ n → Q (heap j)) :
    (sift n e fuel i heap).Yields fun heap' => ∀ j, 0 < j → j ≤ n → Q (heap' j) := by
  have hset : ∀ x, Q x → ∀ j, 0 < j → j ≤ n → Q (update heap i x j) := by
    intro x hx j hj hjn
    by_cases hji : j = i
    · rw [hji, update_self]
      exact hx
    · rw [update_of_ne hji]
      exact hheap j hj hjn
  induction fuel generalizing i heap with
  | zero => omega
  | succ fuel ih =>
    rw [sift]
    by_cases hhalf : i ≤ n / 2
    · rw [if_pos hhalf, if_pos (by omega)]
      dsimp only
      set k := if (heap (2 * i + 1)).count < (heap (2 * i)).count ∧ 2 * i < n then 2 * i + 1
        else 2 * i with hk
      have hkn : i < k ∧ k ≤ n := by
        rw [hk]
        split_ifs <;> omega
      by_cases hbreak : e.count < (heap k).count
      · rw [if_pos hbreak]
        exact ⟨_, rfl, hset e he⟩
      · rw [if_neg hbreak]
        have hheap' := hset (heap k) (hheap k (by omega) hkn.2)
        refine ih k (by omega) hkn.2 (by omega) hheap' ?_
        intro x hx j hj hjn
        by_cases hjk : j = k
        · rw [hjk, update_self]
          exact hx
        · rw [update_of_ne hjk]
          exact hheap' j hj hjn
    · rw [if_neg hhalf, if_pos (by omega)]
      exact ⟨_, rfl, hset e he⟩

theorem heapify_yields (hn : n ≤ 257) (i : ℕ) (hi : 0 < i) (hle : i ≤ n)
    (hQ : Q (heap i)) (hheap : ∀ j, 0 < j → j ≤ n → Q (heap j)) :
    (heapify n i heap).Yields fun heap' => ∀ j, 0 < j → j ≤ n → Q (heap' j) := by
  unfold heapify
  rw [if_pos (by omega)]
  exact sift_yields hn hQ (n + 1) i hi hle (by omega) hheap

theorem heapifyAll_yields (hn : n ≤ 257) (i : ℕ) (hi : i ≤ n)
    (hheap : ∀ j, 0 < j → j ≤ n → Q (heap j)) :
    (heapifyAll n i heap).Yields fun heap' => ∀ j, 0 < j → j ≤ n → Q (heap' j) := by
  induction i generalizing heap with
  | zero => exact ⟨heap, rfl, hheap⟩
  | succ i ih =>
    rw [heapifyAll]
    refine (heapify_yields hn (i + 1) i.succ_pos hi (hheap _ i.succ_pos hi) hheap).bind ?_
    intro heap' hheap'
    exact ih (by omega) hheap'

/-! ### The tree -/

/-- Every node has a number less than that of its parent, and the last one is the greatest. -/
structure Build.Ascending (b : Build) : Prop where
  room : b.lastnode + b.n ≤ 513
  pos : 0 < b.n
  nodes : ∀ j, 0 < j → j ≤ b.n → (b.heap j).node ≤ b.lastnode
  low : endChar ≤ b.lastnode
  parents : ∀ x, b.parent x = 0 ∨ x < b.parent x ∧ b.parent x ≤ b.lastnode

variable {b : Build}

theorem merge_yields (h : b.Ascending) (hn : 1 < b.n) :
    (merge b).Yields fun b' => b'.Ascending ∧ b'.n = b.n - 1 := by
  have hroom := h.room
  have hlow := h.low
  unfold endChar at hlow
  have hfirst := h.nodes 1 one_pos h.pos
  unfold merge
  dsimp only
  rw [if_pos ⟨by omega, by omega⟩]
  have hmoved : ∀ j, 0 < j → j ≤ b.n - 1 →
      (update b.heap 1 (b.heap b.n) j).node ≤ b.lastnode := by
    intro j hj hjn
    by_cases hj1 : j = 1
    · rw [hj1, update_self]
      exact h.nodes b.n h.pos le_rfl
    · rw [update_of_ne hj1]
      exact h.nodes j hj (by omega)
  refine (heapify_yields (Q := fun e => e.node ≤ b.lastnode) (by omega) 1 one_pos (by omega)
    (hmoved 1 one_pos (by omega)) hmoved).bind ?_
  intro heap hheap
  have hsecond := hheap 1 one_pos (by omega)
  rw [if_pos (by omega)]
  have hnew : ∀ j, 0 < j → j ≤ b.n - 1 →
      (update heap 1 ⟨(heap 1).count + (b.heap 1).count, b.lastnode + 1⟩ j).node ≤
        b.lastnode + 1 := by
    intro j hj hjn
    by_cases hj1 : j = 1
    · rw [hj1, update_self]
    · rw [update_of_ne hj1]
      have := hheap j hj hjn
      omega
  refine (heapify_yields (Q := fun e => e.node ≤ b.lastnode + 1) (by omega) 1 one_pos (by omega)
    (hnew 1 one_pos (by omega)) hnew).bind ?_
  intro heap' hheap'
  refine ⟨_, rfl, ⟨by dsimp only; omega, by dsimp only; omega, hheap', ?_, ?_⟩, rfl⟩
  · unfold endChar
    dsimp only
    omega
  · intro x
    dsimp only
    by_cases hx : x = (heap 1).node
    · rw [hx, update_self]
      omega
    rw [update_of_ne hx]
    by_cases hx' : x = (b.heap 1).node
    · rw [hx', update_self]
      omega
    rw [update_of_ne hx']
    have := h.parents x
    omega

theorem mergeAll_yields (h : b.Ascending) (fuel : ℕ) (hfuel : b.n ≤ fuel) :
    (mergeAll fuel b).Yields fun b' => b'.Ascending := by
  induction fuel generalizing b with
  | zero =>
    have := h.pos
    omega
  | succ fuel ih =>
    rw [mergeAll]
    by_cases hn : 1 < b.n
    · rw [if_pos hn]
      refine (merge_yields h hn).bind ?_
      rintro b' ⟨hb', hn'⟩
      exact ih hb' (by omega)
    · rw [if_neg hn]
      exact ⟨b, rfl, h⟩

theorem fill_yields {count : ℕ → ℕ} (i : ℕ) (hi : i ≤ 257) (hn : b.n + i ≤ 257)
    (hlast : b.lastnode = endChar) (hnodes : ∀ j, 0 < j → j ≤ b.n → (b.heap j).node ≤ endChar)
    (hparent : ∀ x, b.parent x = 0) :
    (fill count i b).Yields fun b' => b'.n = b.n + ((List.range i).countP fun c => 0 < count c) ∧
      b'.n ≤ 257 ∧ b'.lastnode = endChar ∧ (∀ j, 0 < j → j ≤ b'.n → (b'.heap j).node ≤ endChar) ∧
      ∀ x, b'.parent x = 0 := by
  induction i generalizing b with
  | zero => exact ⟨b, rfl, by simp, by omega, hlast, hnodes, hparent⟩
  | succ i ih =>
    have hreset : ∀ x, update b.parent i 0 x = 0 := by
      intro x
      by_cases hx : x = i
      · rw [hx, update_self]
      · rw [update_of_ne hx, hparent x]
    rw [fill, List.range_succ, List.countP_append]
    dsimp only
    by_cases hcount : 0 < count i
    · rw [if_pos hcount, if_pos (by omega)]
      refine (ih (b := { b with
        parent := update b.parent i 0
        n := b.n + 1
        heap := update b.heap (b.n + 1) ⟨count i, i⟩ })
        (by omega) (by dsimp only; omega) hlast ?_ hreset).mono ?_
      · intro j hj hjn
        dsimp only at hjn ⊢
        by_cases hjn' : j = b.n + 1
        · rw [hjn', update_self]
          unfold endChar
          dsimp only
          omega
        · rw [update_of_ne hjn']
          exact hnodes j hj (by omega)
      · rintro b' ⟨hb', hrest⟩
        refine ⟨?_, hrest⟩
        dsimp only at hb'
        simp only [List.countP_singleton, hcount, decide_true, if_true]
        omega
    · rw [if_neg hcount]
      refine (ih (b := { b with parent := update b.parent i 0 }) (by omega)
        (by dsimp only; omega) hlast hnodes hreset).mono ?_
      rintro b' ⟨hb', hrest⟩
      refine ⟨?_, hrest⟩
      dsimp only at hb'
      simp only [List.countP_singleton, hcount, decide_false]
      simpa using hb'

/-- The parents of a tree: each is greater than its children. -/
def Grows (parent : ℕ → ℕ) : Prop := ∀ x, parent x = 0 ∨ x < parent x ∧ parent x ≤ 512

/-- With three characters or more, the end included, the tree is built inside its arrays. -/
theorem buildTree_yields {count : ℕ → ℕ}
    (hthree : 3 ≤ (List.range (endChar + 1)).countP fun c => 0 < count c) :
    (buildTree count).Yields Grows := by
  unfold buildTree
  refine (fill_yields (endChar + 1) le_rfl le_rfl rfl (fun j h1 h2 => by dsimp only at h2; omega)
    fun _ => rfl).bind ?_
  rintro b ⟨hn, hle, hlast, hnodes, hparent⟩
  dsimp only at hn
  rw [if_neg (by omega)]
  refine (heapifyAll_yields (Q := fun e => e.node ≤ endChar) hle (b.n / 2) (by omega)
    hnodes).bind ?_
  intro heap hheap
  have hasc : Build.Ascending { b with heap := heap } := by
    refine ⟨?_, by dsimp only; omega, ?_, hlast.ge, fun x => .inl (hparent x)⟩
    · dsimp only
      rw [hlast]
      unfold endChar
      omega
    · rw [hlast]
      exact hheap
  refine (mergeAll_yields hasc _ (Nat.le_succ _)).bind ?_
  intro b' hb'
  have hroom := hb'.room
  have hpos := hb'.pos
  rw [if_pos (by omega)]
  refine ⟨_, rfl, ?_⟩
  intro x
  by_cases hx : x = b'.lastnode
  · rw [hx, update_self]
    exact .inl rfl
  · rw [update_of_ne hx]
    have := hb'.parents x
    omega

end Sol26.Pack
