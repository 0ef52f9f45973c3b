import Mathlib.Tactic

/-!
# Singly linked lists

Cells with a link to the next one. A pointer is a cell seen through `node`, or something that ends
a list, such as a null pointer or the head of a ring.
-/
namespace Sol26.Linked

variable {α β : Type*} {node : α → β} {link link' : α → β} {p q : β} {l l1 l2 : List α}

/-- Following the links from `p`, the cells `l` are met before `q`. -/
def Links (node link : α → β) : β → List α → β → Prop
  | p, [], q => p = q
  | p, a :: l, q => p = node a ∧ Links node link (link a) l q

/-- The pointer from which the list `l` that ends in `q` is reached. -/
def start (node : α → β) (l : List α) (q : β) : β :=
  match l with
  | [] => q
  | a :: _ => node a

/-- The pointer whose link leads out of `l`, which is `h` for an empty list. -/
def before (node : α → β) (h : β) (l : List α) : β :=
  match l.getLast? with
  | none => h
  | some b => node b

@[simp] theorem before_nil (h : β) : before node h [] = h := rfl

@[simp] theorem before_append_singleton (h : β) (l : List α) (b : α) :
    before node h (l ++ [b]) = node b := by
  simp [before]

theorem Links.start_eq (h : Links node link p l q) : p = start node l q := by
  cases l with
  | nil => exact h
  | cons a l => exact h.1

theorem Links.congr (h : Links node link p l q) (heq : ∀ a ∈ l, link' a = link a) :
    Links node link' p l q := by
  induction l generalizing p with
  | nil => exact h
  | cons a l ih =>
    refine ⟨h.1, ?_⟩
    rw [heq a List.mem_cons_self]
    exact ih h.2 fun b hb => heq b (List.mem_cons_of_mem a hb)

theorem linked_append :
    Links node link p (l1 ++ l2) q ↔
      Links node link p l1 (start node l2 q) ∧ Links node link (start node l2 q) l2 q := by
  induction l1 generalizing p with
  | nil =>
    constructor
    · intro h
      obtain rfl := h.start_eq
      exact ⟨rfl, h⟩
    · rintro ⟨rfl, h⟩
      exact h
  | cons a l1 ih =>
    constructor
    · rintro ⟨hp, h⟩
      have := ih.mp h
      exact ⟨⟨hp, this.1⟩, this.2⟩
    · rintro ⟨⟨hp, h1⟩, h2⟩
      exact ⟨hp, ih.mpr ⟨h1, h2⟩⟩

/-- A list may be cut after any cell and continued with another one. -/
theorem Links.redirect {b : α} (h : Links node link p (l1 ++ b :: l2) q)
    {l3 : List α} {r : β} (heq : ∀ a ∈ l1, link' a = link a)
    (hrest : Links node link' (link' b) l3 r) : Links node link' p (l1 ++ b :: l3) r := by
  have h' := linked_append.mp h
  exact linked_append.mpr ⟨h'.1.congr heq, rfl, hrest⟩

/-- Two walks from one pointer to one end meet the same cells. -/
theorem Links.unique (hnode : Function.Injective node) (hq : ∀ a, node a ≠ q)
    (h1 : Links node link p l1 q) (h2 : Links node link p l2 q) : l1 = l2 := by
  induction l1 generalizing p l2 with
  | nil =>
    cases l2 with
    | nil => rfl
    | cons b l2 => exact absurd (h2.1.symm.trans h1) (hq b)
  | cons a l1 ih =>
    cases l2 with
    | nil => exact absurd (h1.1.symm.trans h2) (hq a)
    | cons b l2 =>
      obtain rfl := hnode (h1.1.symm.trans h2.1)
      rw [ih h1.2 h2.2]

/-- Walks where each pointer is read from a cell: `hd` holds the first one, `cell a` the one of
`a`. -/
def Chain {γ : Type*} (node : α → β) (cell : α → γ) (c : γ → β) (hd : γ) (l : List α) (q : β) :
    Prop :=
  Links node (fun a => c (cell a)) (c hd) l q

section Chains

variable {γ : Type*} {cell : α → γ} {c c' : γ → β} {hd : γ} {n : α}

theorem before_cons (a : α) (l : List α) : before cell hd (a :: l) = before cell (cell a) l := by
  cases l using List.reverseRecOn with
  | nil => rfl
  | append_singleton l b =>
    rw [before_append_singleton, ← List.cons_append, before_append_singleton]

theorem before_mem (cell : α → γ) (hd : γ) (l : List α) : before cell hd l ∈ hd :: l.map cell := by
  cases l using List.reverseRecOn with
  | nil => exact List.mem_cons_self
  | append_singleton l b => simp

theorem Chain.congr (h : Chain node cell c hd l q) (heq : ∀ x ∈ hd :: l.map cell, c' x = c x) :
    Chain node cell c' hd l q := by
  unfold Chain
  rw [heq hd List.mem_cons_self]
  apply Links.congr h
  intro a ha
  exact heq _ (List.mem_cons_of_mem _ (List.mem_map_of_mem ha))

theorem chain_append : Chain node cell c hd (l1 ++ l2) q ↔
    Chain node cell c hd l1 (start node l2 q) ∧ Chain node cell c (before cell hd l1) l2 q := by
  induction l1 generalizing hd with
  | nil =>
    constructor
    · intro h
      exact ⟨Links.start_eq h, h⟩
    · exact And.right
  | cons a l1 ih =>
    rw [before_cons]
    constructor
    · rintro ⟨hp, h⟩
      have h' := ih.mp h
      exact ⟨⟨hp, h'.1⟩, h'.2⟩
    · rintro ⟨⟨hp, h1⟩, h2⟩
      exact ⟨hp, ih.mpr ⟨h1, h2⟩⟩

/-- A list may be changed behind a cell, when no cell before that one changes. -/
theorem Chain.redirect {l3 : List α} {r : β} (h : Chain node cell c hd (l1 ++ l2) q)
    (hnd : (hd :: l1.map cell).Nodup)
    (heq : ∀ x ∈ hd :: l1.map cell, x ≠ before cell hd l1 → c' x = c x)
    (hrest : Chain node cell c' (before cell hd l1) l3 r) :
    Chain node cell c' hd (l1 ++ l3) r := by
  induction l1 generalizing hd with
  | nil => exact hrest
  | cons a l1 ih =>
    rw [before_cons] at heq hrest
    have hhd : hd ≠ before cell (cell a) l1 := by
      intro he
      exact (List.nodup_cons.mp hnd).1 (he ▸ before_mem cell _ l1)
    refine ⟨(heq hd List.mem_cons_self hhd).trans h.1, ?_⟩
    apply ih h.2 (List.nodup_cons.mp hnd).2 _ hrest
    intro x hx
    exact heq x (List.mem_cons_of_mem _ hx)

/-- A new element is linked in behind `l1`. -/
theorem Chain.insert (h : Chain node cell c hd (l1 ++ l2) q)
    (hnd : (hd :: (l1 ++ l2).map cell).Nodup)
    (hnode : c' (before cell hd l1) = node n) (hn : c' (cell n) = c (before cell hd l1))
    (heq : ∀ x ∈ hd :: (l1 ++ l2).map cell, x ≠ before cell hd l1 → c' x = c x) :
    Chain node cell c' hd (l1 ++ n :: l2) q := by
  rw [List.map_append, ← List.cons_append] at hnd heq
  apply h.redirect (List.Nodup.of_append_left hnd)
  · intro x hx
    exact heq x (List.mem_append_left _ hx)
  · refine ⟨hnode, ?_⟩
    dsimp only
    rw [hn]
    apply Links.congr (chain_append.mp h).2
    intro a ha
    have hmem : cell a ∈ l2.map cell := List.mem_map_of_mem ha
    apply heq _ (List.mem_append_right _ hmem)
    intro he
    exact List.disjoint_of_nodup_append hnd (he ▸ before_mem cell _ l1) hmem

/-- The element behind `l1` is taken out. -/
theorem Chain.erase (h : Chain node cell c hd (l1 ++ n :: l2) q)
    (hnd : (hd :: (l1 ++ n :: l2).map cell).Nodup) (hn : c' (before cell hd l1) = c (cell n))
    (heq : ∀ x ∈ hd :: (l1 ++ l2).map cell, x ≠ before cell hd l1 → c' x = c x) :
    Chain node cell c' hd (l1 ++ l2) q := by
  rw [List.map_append, ← List.cons_append] at hnd heq
  apply h.redirect (List.Nodup.of_append_left hnd)
  · intro x hx
    exact heq x (List.mem_append_left _ hx)
  · have hl2 := (chain_append.mp h).2.2
    unfold Chain
    rw [hn]
    apply Links.congr hl2
    intro a ha
    have hmem : cell a ∈ l2.map cell := List.mem_map_of_mem ha
    apply heq _ (List.mem_append_right _ hmem)
    intro he
    exact List.disjoint_of_nodup_append hnd (he ▸ before_mem cell _ l1)
      (by simpa using .inr (List.mem_map.mp hmem))

end Chains

end Sol26.Linked
