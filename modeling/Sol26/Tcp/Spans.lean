import Sol26.Tcp.Reass

/-!
# Chains of spans

What the reassembly queue stands for: spans of positions in the stream, in order and without
overlap. Cutting off overlaps may leave an empty span, which then lies at the beginning of the
span after it.
-/
namespace Sol26.Tcp

/-- The bytes from `lo` up to `hi`, in the block at the address. -/
structure Span where
  id : ℕ
  lo : ℕ
  hi : ℕ
  deriving DecidableEq, Repr

/-- The positions that the spans cover. -/
def covers (l : List Span) : Set ℕ := { x | ∃ p ∈ l, p.lo ≤ x ∧ x < p.hi }

@[simp] theorem mem_covers_nil {x : ℕ} : x ∈ covers [] ↔ False := by simp [covers]

@[simp] theorem mem_covers_cons {x : ℕ} {p : Span} {l : List Span} :
    x ∈ covers (p :: l) ↔ (p.lo ≤ x ∧ x < p.hi) ∨ x ∈ covers l := by
  simp [covers]

/-- Spans in order. The last one is not empty, and an empty one begins where the next begins. -/
def Chain : List Span → Prop
  | [] => True
  | [p] => p.lo < p.hi
  | p :: q :: l => p.lo ≤ p.hi ∧ p.hi ≤ q.lo ∧ (p.lo = p.hi → q.lo = p.lo) ∧ Chain (q :: l)

/-- The span and the list before which it may stand, up to overlap. -/
structure Fits (p : Span) (l : List Span) : Prop where
  le : p.lo ≤ p.hi
  nonempty : l = [] → p.lo < p.hi
  first : ∀ q ∈ l.head?, p.lo ≤ q.lo ∧ (p.lo = p.hi → q.lo = p.lo)

/-- Cut the overlap of a span with the ones after it. -/
def Span.elim (p : Span) : List Span → Span × List Span × Bool
  | [] => (p, [], true)
  | q :: l =>
    if p.hi ≤ q.lo then (p, q :: l, false)
    else if p.hi < q.hi then ({ p with hi := q.lo }, q :: l, false)
    else p.elim l

section Chains

variable {p q : Span} {l : List Span}

theorem Chain.tail (h : Chain (p :: l)) : Chain l := by
  cases l with
  | nil => trivial
  | cons q l => exact h.2.2.2

theorem Chain.le (h : Chain (p :: l)) : p.lo ≤ p.hi := by
  cases l with
  | nil => exact h.le
  | cons q l => exact h.1

theorem Chain.fits (h : Chain (p :: l)) : Fits p l := by
  refine ⟨h.le, ?_, fun q hq => ?_⟩
  · rintro rfl
    exact h
  · cases l with
    | nil => simp at hq
    | cons r l =>
      obtain rfl : r = q := by simpa using hq
      obtain ⟨h1, h2, h3, -⟩ := h
      exact ⟨by omega, h3⟩

/-- In a chain every span ends before the later ones begin. -/
theorem Chain.before (h : Chain (p :: l)) : ∀ q ∈ l, p.hi ≤ q.lo := by
  induction l generalizing p with
  | nil => simp
  | cons r l ih =>
    intro q hq
    obtain ⟨-, h2, -, h4⟩ := h
    cases List.mem_cons.mp hq with
    | inl hq => rwa [hq]
    | inr hq =>
      have := ih h4 q hq
      have := h4.le
      omega

/-- What cutting the overlap comes to: the span stays in place, possibly shorter, some spans after
it are gone, and the same positions are covered. -/
structure Trimmed (p : Span) (l : List Span) (r : Span × List Span × Bool) : Prop where
  id : r.1.id = p.id
  lo : r.1.lo = p.lo
  hi : r.1.hi ≤ p.hi
  chain : Chain (r.1 :: r.2.1)
  covers : covers (r.1 :: r.2.1) = covers (p :: l)
  suffix : r.2.1 <:+ l
  last : r.2.2 = true ↔ r.2.1 = []

theorem Span.elim_trimmed (hc : Chain l) (hf : Fits p l) : Trimmed p l (p.elim l) := by
  induction l with
  | nil =>
    refine ⟨rfl, rfl, le_rfl, ?_, rfl, List.suffix_rfl, by simp [Span.elim]⟩
    exact hf.nonempty rfl
  | cons q l ih =>
    have hle := hf.le
    obtain ⟨hlo, hempty⟩ := hf.first q (by simp)
    have hq := hc.le
    unfold Span.elim
    split_ifs with h1 h2
    · exact ⟨rfl, rfl, le_rfl, ⟨hle, h1, hempty, hc⟩, rfl, List.suffix_rfl, by simp⟩
    · refine ⟨rfl, rfl, by dsimp only; omega, ⟨hlo, le_rfl, Eq.symm, hc⟩, ?_, List.suffix_rfl,
        by simp⟩
      ext x
      simp only [mem_covers_cons]
      by_cases hx : x ∈ Tcp.covers l
      · simp [hx]
      · simp only [hx, or_false]
        omega
    · have hfits : Fits p l := by
        refine ⟨hle, fun _ => by omega, fun r hr => ?_⟩
        have := hc.before r (List.mem_of_mem_head? hr)
        exact ⟨by omega, fun _ => by omega⟩
      have hrec := ih hc.tail hfits
      refine ⟨hrec.id, hrec.lo, hrec.hi, hrec.chain, ?_, hrec.suffix.trans (List.suffix_cons q l),
        hrec.last⟩
      rw [hrec.covers]
      ext x
      simp only [mem_covers_cons]
      by_cases hx : x ∈ Tcp.covers l
      · simp [hx]
      · simp only [hx, or_false]
        omega

end Chains

/-- The span is linked in after `p1` and overlaps are cut, as `linkIn` does. -/
def linkSpan (tail : Option ℕ) (p p1 : Span) (l : List Span) : List Span × Option ℕ :=
  let r := p.elim l
  let tail := if r.2.2 then some p.id else tail
  let r1 := p1.elim (r.1 :: r.2.1)
  (r1.1 :: r1.2.1, if r1.2.2 then some p1.id else tail)

def placeSpan (tail : Option ℕ) (p : Span) : Span → List Span → List Span × Option ℕ
  | p1, [] => linkSpan tail p p1 []
  | p1, q :: l =>
    if p.lo ≤ q.lo then linkSpan tail p p1 (q :: l)
    else
      let r := placeSpan tail p q l
      (p1 :: r.1, r.2)

/-- The address of the last span. -/
def lastId (l : List Span) : Option ℕ := l.getLast?.map Span.id

section Place

variable {p p1 q : Span} {l l' : List Span} {tail : Option ℕ}

theorem lastId_suffix (h : l' <:+ l) (hne : l' ≠ []) : lastId l' = lastId l := by
  obtain ⟨t, rfl⟩ := h
  unfold lastId
  rw [List.getLast?_append_of_ne_nil t hne]

theorem lastId_cons (hne : l ≠ []) : lastId (p :: l) = lastId l :=
  (lastId_suffix (List.suffix_cons p l) hne).symm

/-- What putting a span into a chain comes to. -/
structure Placed (p : Span) (l l' : List Span) (tail : Option ℕ) : Prop where
  chain : Chain l'
  covers : covers l' = covers (p :: l)
  last : tail = lastId l'
  ids : (l'.map Span.id).Subperm (p.id :: l.map Span.id)
  within : ∀ r ∈ l', ∃ s ∈ p :: l, r.lo = s.lo ∧ r.hi ≤ s.hi

theorem Trimmed.mem {r : Span × List Span × Bool} (h : Trimmed p l r) :
    ∀ q ∈ r.1 :: r.2.1, ∃ s ∈ p :: l, q.lo = s.lo ∧ q.hi ≤ s.hi := by
  intro q hq
  cases List.mem_cons.mp hq with
  | inl hq => exact ⟨p, by simp, by rw [hq, h.lo], hq ▸ h.hi⟩
  | inr hq => exact ⟨q, by simp [h.suffix.subset hq], rfl, le_rfl⟩

theorem Trimmed.ids {r : Span × List Span × Bool} (h : Trimmed p l r) :
    ((r.1 :: r.2.1).map Span.id).Sublist ((p :: l).map Span.id) := by
  simp only [List.map_cons, h.id]
  exact (h.suffix.sublist.map Span.id).cons_cons _

/-- The new span comes after `p1` and before the spans that begin where it begins or later. -/
theorem linkSpan_placed (hc : Chain (p1 :: l)) (hp : p.lo < p.hi) (hle : p1.lo ≤ p.lo)
    (hl : ∀ q ∈ l.head?, p.lo ≤ q.lo) (ht : tail = lastId (p1 :: l)) :
    Placed p (p1 :: l) (linkSpan tail p p1 l).1 (linkSpan tail p p1 l).2 ∧
      ∃ h t, (linkSpan tail p p1 l).1 = h :: t ∧ h.lo = p1.lo ∧
        ∀ r ∈ t, ∃ s ∈ p :: l, r.lo = s.lo := by
  have hfits : Fits p l := ⟨hp.le, fun _ => hp, fun q hq => ⟨hl q hq, fun heq => by omega⟩⟩
  have h1 := Span.elim_trimmed hc.tail hfits
  unfold linkSpan
  generalize p.elim l = r at h1
  obtain ⟨p', l', e⟩ := r
  have hfits1 : Fits p1 (p' :: l') := by
    refine ⟨hc.le, by simp, fun q hq => ?_⟩
    obtain rfl : p' = q := by simpa using hq
    have hlo := h1.lo
    dsimp only at hlo
    refine ⟨by omega, fun heq => ?_⟩
    -- an empty span lies at the beginning of the next one, so that the new one begins there
    cases l with
    | nil =>
      have := hc.fits.nonempty rfl
      omega
    | cons q l =>
      have := (hc.fits.first q (by simp)).2 heq
      have := hl q (by simp)
      omega
  have h2 := Span.elim_trimmed h1.chain hfits1
  dsimp only at h1 h2 ⊢
  generalize p1.elim (p' :: l') = r at h2
  obtain ⟨p1', l1, e1⟩ := r
  dsimp only at h1 h2 ⊢
  refine ⟨⟨h2.chain, ?_, ?_, ?_, ?_⟩, p1', l1, rfl, h2.lo, ?_⟩
  · rw [h2.covers]
    ext x
    rw [mem_covers_cons, h1.covers]
    simp only [mem_covers_cons]
    exact or_left_comm
  · by_cases he1 : e1 = true
    · have hnil := h2.last.mp he1
      dsimp only at hnil
      simpa [he1, hnil, lastId] using h2.id.symm
    · have hne1 : l1 ≠ [] := fun h => he1 (h2.last.mpr h)
      rw [if_neg he1, lastId_cons hne1, lastId_suffix h2.suffix hne1]
      by_cases he : e = true
      · have hnil := h1.last.mp he
        dsimp only at hnil
        simpa [he, hnil, lastId] using h1.id.symm
      · have hne : l' ≠ [] := fun h => he (h1.last.mpr h)
        have hnel : l ≠ [] := fun h => hne (List.suffix_nil.mp (h ▸ h1.suffix))
        rw [if_neg he, lastId_cons hne, lastId_suffix h1.suffix hne, ht, lastId_cons hnel]
  · have hsub : ((p1' :: l1).map Span.id).Sublist (p1.id :: p.id :: l.map Span.id) :=
      h2.ids.trans (List.Sublist.cons_cons p1.id h1.ids)
    exact hsub.subperm.trans (List.Perm.swap _ _ _).subperm
  · intro r hr
    obtain ⟨s, hs, h3, h4⟩ := h2.mem r hr
    cases List.mem_cons.mp hs with
    | inl hs => exact ⟨p1, by simp, hs ▸ h3, hs ▸ h4⟩
    | inr hs =>
      obtain ⟨s', hs', h5, h6⟩ := h1.mem s hs
      refine ⟨s', ?_, by omega, by omega⟩
      rw [List.mem_cons] at hs' ⊢
      exact hs'.imp_right (List.mem_cons_of_mem p1)
  · intro r hr
    obtain ⟨s, hs, h3, -⟩ := h1.mem r (h2.suffix.subset hr)
    exact ⟨s, hs, h3⟩

theorem placeSpan_placed (hc : Chain (p1 :: l)) (hp : p.lo < p.hi) (hle : p1.lo ≤ p.lo)
    (ht : tail = lastId (p1 :: l)) :
    Placed p (p1 :: l) (placeSpan tail p p1 l).1 (placeSpan tail p p1 l).2 ∧
      ∃ h t, (placeSpan tail p p1 l).1 = h :: t ∧ h.lo = p1.lo ∧
        ∀ r ∈ t, ∃ s ∈ p :: l, r.lo = s.lo := by
  induction l generalizing p1 with
  | nil => exact linkSpan_placed hc hp hle (by simp) ht
  | cons q l ih =>
    unfold placeSpan
    split_ifs with h
    · exact linkSpan_placed hc hp hle (by simpa using h) ht
    · obtain ⟨hrec, a, t, ha, hlo, -⟩ := ih hc.tail (by omega) (ht.trans (lastId_cons (by simp)))
      dsimp only
      generalize placeSpan tail p q l = r at hrec ha
      obtain ⟨l', tail'⟩ := r
      obtain rfl : l' = a :: t := ha
      obtain ⟨h1, h2, h3, -⟩ := hc
      refine ⟨⟨?_, ?_, ?_, ?_, ?_⟩, p1, a :: t, rfl, rfl, ?_⟩
      · exact ⟨h1, by omega, fun heq => by have := h3 heq; omega, hrec.chain⟩
      · ext x
        rw [mem_covers_cons, hrec.covers]
        simp only [mem_covers_cons]
        exact or_left_comm
      · rw [lastId_cons (by simp)]
        exact hrec.last
      · exact ((List.subperm_cons p1.id).mpr hrec.ids).trans (List.Perm.swap _ _ _).subperm
      · intro r hr
        cases List.mem_cons.mp hr with
        | inl hr => exact ⟨p1, by simp, by rw [hr], by rw [hr]⟩
        | inr hr =>
          obtain ⟨s, hs, h5, h6⟩ := hrec.within r hr
          refine ⟨s, ?_, h5, h6⟩
          rw [List.mem_cons] at hs ⊢
          exact hs.imp_right (List.mem_cons_of_mem p1)
      · intro r hr
        obtain ⟨s, hs, h5, -⟩ := hrec.within r hr
        exact ⟨s, hs, h5⟩

/-- A span that begins before all others. -/
theorem elim_placed (hc : Chain l) (hp : p.lo < p.hi)
    (hl : ∀ q ∈ l.head?, p.lo ≤ q.lo) (ht : tail = lastId l) :
    Placed p l ((p.elim l).1 :: (p.elim l).2.1) (if (p.elim l).2.2 then some p.id else tail) := by
  have hfits : Fits p l := ⟨hp.le, fun _ => hp, fun q hq => ⟨hl q hq, fun heq => by omega⟩⟩
  have h1 := Span.elim_trimmed hc hfits
  generalize p.elim l = r at h1
  obtain ⟨p', l', e⟩ := r
  dsimp only at h1 ⊢
  refine ⟨h1.chain, h1.covers, ?_, h1.ids.subperm, h1.mem⟩
  by_cases he : e = true
  · have hnil := h1.last.mp he
    dsimp only at hnil
    simpa [he, hnil, lastId] using h1.id.symm
  · have hne' : l' ≠ [] := fun h => he (h1.last.mpr h)
    rw [if_neg he, lastId_cons hne', lastId_suffix h1.suffix hne', ht]

/-- A span that begins where the last one ends or later. -/
theorem append_placed (hc : Chain l) (hp : p.lo < p.hi)
    (hl : ∀ q ∈ l.getLast?, q.hi ≤ p.lo) : Placed p l (l ++ [p]) (some p.id) := by
  refine ⟨?_, ?_, ?_, ?_, fun r hr => ⟨r, ?_, rfl, le_rfl⟩⟩
  · induction l with
    | nil => exact hp
    | cons q l ih =>
      cases l with
      | nil =>
        have := hl q (by simp)
        have hq : q.lo < q.hi := hc
        exact ⟨hq.le, this, fun heq => by omega, hp⟩
      | cons r l => exact ⟨hc.1, hc.2.1, hc.2.2.1, ih hc.tail (by simpa using hl)⟩
  · ext x
    simp [covers, or_comm, or_and_right, exists_or]
  · simp [lastId]
  · rw [List.map_append]
    exact List.perm_append_comm.subperm
  · simpa [or_comm] using hr

end Place

end Sol26.Tcp
