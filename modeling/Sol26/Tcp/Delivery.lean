import Sol26.Tcp.Spans

/-!
# Delivery of the stream

The queue holds slices of the stream, and `tcp_reass` acts on it as on the spans of the slices.
What it returns in the course of a connection is the stream from the first byte on.
-/
namespace Sol26.Tcp

open Serial
open List (map_cons mem_cons nodup_cons)

variable {α : Type*} {S : ℕ → α}

/-- The bytes of the stream from `a` up to `b`. -/
def slice (S : ℕ → α) (a b : ℕ) : List α := (List.range' a (b - a)).map S

/-- The block that holds a span of the stream. -/
def toMblk (S : ℕ → α) (p : Span) : Mblk α := ⟨p.id, word p.lo, word p.hi, slice S p.lo p.hi⟩

section Slices

variable {a b c : ℕ}

@[simp] theorem slice_length : (slice S a b).length = b - a := by simp [slice]

@[simp] theorem slice_self : slice S a a = [] := by simp [slice]

theorem slice_append (hab : a ≤ b) (hbc : b ≤ c) : slice S a b ++ slice S b c = slice S a c := by
  unfold slice
  have hsum : c - a = (b - a) + (c - b) := by omega
  rw [← List.map_append, hsum, ← List.range'_append_1, Nat.add_sub_cancel' hab]

theorem slice_take (n : ℕ) : (slice S a b).take n = slice S a (min b (a + n)) := by
  apply List.ext_getElem
  · simp only [List.length_take, slice_length]
    omega
  · simp [slice]

theorem slice_drop (n : ℕ) : (slice S a b).drop n = slice S (a + n) b := by
  apply List.ext_getElem
  · simp only [List.length_drop, slice_length]
    omega
  · simp [slice, Nat.add_assoc]

end Slices

section Compare

variable {x y : ℕ}

theorem seqLt_word (hlo : y ≤ x + 2 ^ 31) (hhi : x < y + 2 ^ 31) :
    seqLt (word x) (word y) ↔ x < y := by
  rw [seqLt, diff_word hlo hhi]
  omega

theorem seqLeq_word (hlo : y ≤ x + 2 ^ 31) (hhi : x < y + 2 ^ 31) :
    seqLeq (word x) (word y) ↔ x ≤ y := by
  rw [seqLeq, diff_word hlo hhi]
  omega

theorem seqGt_word (hlo : y ≤ x + 2 ^ 31) (hhi : x < y + 2 ^ 31) :
    seqGt (word x) (word y) ↔ y < x := by
  rw [seqGt, diff_word hlo hhi]
  omega

theorem seqGeq_word (hlo : y ≤ x + 2 ^ 31) (hhi : x < y + 2 ^ 31) :
    seqGeq (word x) (word y) ↔ y ≤ x := by
  rw [seqGeq, diff_word hlo hhi]
  omega

end Compare

/-- The span lies in the half of the sequence space that begins at `pos`. -/
def InWindow (pos : ℕ) (p : Span) : Prop := pos ≤ p.lo ∧ p.lo ≤ p.hi ∧ p.hi ≤ pos + 2 ^ 31

section Refine

variable {pos : ℕ} {p p1 : Span} {l : List Span}

theorem elimOverlap_toMblk (hp : InWindow pos p) (hl : ∀ q ∈ l, InWindow pos q ∧ pos < q.lo)
    (hle : ∀ q ∈ l, p.lo ≤ q.lo) :
    elimOverlap (toMblk S p) (l.map (toMblk S)) =
      (toMblk S (p.elim l).1, (p.elim l).2.1.map (toMblk S), (p.elim l).2.2) := by
  obtain ⟨hp1, hp2, hp3⟩ := hp
  induction l with
  | nil => rfl
  | cons q l ih =>
    obtain ⟨⟨hq1, hq2, hq3⟩, hq4⟩ := hl q (by simp)
    have hpq := hle q (by simp)
    have hgt : seqGt (toMblk S p).fin (toMblk S q).seq ↔ q.lo < p.hi :=
      seqGt_word (by omega) (by omega)
    have hgeq : seqGeq (toMblk S p).fin (toMblk S q).fin ↔ q.hi ≤ p.hi :=
      seqGeq_word (by omega) (by omega)
    have hdiff : diff (toMblk S p).fin (toMblk S q).seq = (p.hi : ℤ) - q.lo :=
      diff_word (by omega) (by omega)
    simp only [map_cons, elimOverlap, Span.elim, hgt, hgeq, not_lt, not_le]
    split_ifs with h1 h2
    · rfl
    · rw [hdiff]
      simp only [toMblk, slice_length, slice_take, map_cons, Prod.mk.injEq, Mblk.mk.injEq,
        true_and, and_true]
      congr 1
      omega
    · exact ih (fun r hr => hl r (by simp [hr])) fun r hr => hle r (by simp [hr])

theorem Chain.first_le (h : Chain (p :: l)) : ∀ q ∈ l, p.lo ≤ q.lo := by
  intro q hq
  have := h.le
  have := h.before q hq
  omega

theorem linkIn_toMblk (tail : Option ℕ) (hc : Chain (p1 :: l)) (hp : p.lo < p.hi) (hw : InWindow pos p)
    (hpos : pos < p.lo) (hw1 : InWindow pos p1) (hl : ∀ q ∈ l, InWindow pos q ∧ pos < q.lo)
    (hle : p1.lo ≤ p.lo) (hfirst : ∀ q ∈ l.head?, p.lo ≤ q.lo) :
    linkIn tail (toMblk S p) (toMblk S p1) (l.map (toMblk S)) =
      ((linkSpan tail p p1 l).1.map (toMblk S), (linkSpan tail p p1 l).2) := by
  have hall : ∀ q ∈ l, p.lo ≤ q.lo := by
    cases l with
    | nil => simp
    | cons q l =>
      have hq := hfirst q (by simp)
      intro r hr
      cases mem_cons.mp hr with
      | inl hr => rwa [hr]
      | inr hr =>
        have := hc.tail.first_le r hr
        omega
  have hfits : Fits p l := ⟨hp.le, fun _ => hp, fun q hq => ⟨hfirst q hq, fun heq => by omega⟩⟩
  have htrim := Span.elim_trimmed hc.tail hfits
  have h1 := elimOverlap_toMblk (S := S) hw hl hall
  unfold linkIn linkSpan
  rw [h1]
  generalize p.elim l = r at htrim
  obtain ⟨p', l', e⟩ := r
  dsimp only at htrim ⊢
  have hlo := htrim.lo
  have hhi := htrim.hi
  have hle' := htrim.chain.le
  dsimp only at hlo hhi hle'
  have hw' : ∀ q ∈ p' :: l', (InWindow pos q ∧ pos < q.lo) ∧ p1.lo ≤ q.lo := by
    intro q hq
    cases mem_cons.mp hq with
    | inl hq =>
      subst hq
      unfold InWindow at *
      omega
    | inr hq =>
      have hq := htrim.suffix.subset hq
      have := hall q hq
      exact ⟨hl q hq, by omega⟩
  have h2 := elimOverlap_toMblk (S := S) hw1 (fun q hq => (hw' q hq).1) fun q hq => (hw' q hq).2
  rw [map_cons] at h2
  rw [h2]
  simp [toMblk]

theorem place_toMblk (tail : Option ℕ) (hc : Chain (p1 :: l)) (hp : p.lo < p.hi) (hw : InWindow pos p)
    (hpos : pos < p.lo) (hw1 : InWindow pos p1) (hl : ∀ q ∈ l, InWindow pos q ∧ pos < q.lo)
    (hle : p1.lo ≤ p.lo) :
    place tail (toMblk S p) (toMblk S p1) (l.map (toMblk S)) =
      ((placeSpan tail p p1 l).1.map (toMblk S), (placeSpan tail p p1 l).2) := by
  induction l generalizing p1 with
  | nil =>
    rw [List.map_nil, place, placeSpan]
    exact linkIn_toMblk (l := []) tail hc hp hw hpos hw1 hl hle (by simp)
  | cons q l ih =>
    obtain ⟨hwq, hq⟩ := hl q (by simp)
    have hleq : seqLeq (toMblk S p).seq (toMblk S q).seq ↔ p.lo ≤ q.lo := by
      unfold InWindow at hw hwq
      exact seqLeq_word (by omega) (by omega)
    have hfirst : p.lo ≤ q.lo → ∀ r ∈ (q :: l).head?, p.lo ≤ r.lo := by simp
    simp only [map_cons, place, placeSpan, hleq]
    split_ifs with h
    · have hlink := linkIn_toMblk (S := S) tail hc hp hw hpos hw1 hl hle (hfirst h)
      rwa [map_cons] at hlink
    · rw [ih hc.tail hwq (fun r hr => hl r (by simp [hr])) (by omega)]
      simp

theorem find_last (hn : (l.map Span.id).Nodup) {last : Span} (hlast : l.getLast? = some last) :
    (l.map (toMblk S)).find? (fun m => m.id = last.id) = some (toMblk S last) := by
  induction l with
  | nil => simp at hlast
  | cons q l ih =>
    cases l with
    | nil =>
      obtain rfl : q = last := by simpa using hlast
      simp [toMblk]
    | cons r l =>
      rw [map_cons, nodup_cons] at hn
      have hlast' : (r :: l).getLast? = some last := by simpa using hlast
      have hne : q.id ≠ last.id := fun heq =>
        hn.1 (heq ▸ List.mem_map_of_mem (List.mem_of_getLast? hlast'))
      have hskip : decide ((toMblk S q).id = last.id) = false := decide_eq_false hne
      rw [map_cons, List.find?_cons, hskip]
      exact ih hn.2 hlast'

theorem linkAfter_last (hn : (l.map Span.id).Nodup) {last : Span} (hlast : l.getLast? = some last) :
    linkAfter last.id (toMblk S p) (l.map (toMblk S)) = (l ++ [p]).map (toMblk S) := by
  induction l with
  | nil => simp at hlast
  | cons q l ih =>
    cases l with
    | nil =>
      obtain rfl : q = last := by simpa using hlast
      simp [linkAfter, toMblk]
    | cons r l =>
      rw [map_cons, nodup_cons] at hn
      have hlast' : (r :: l).getLast? = some last := by simpa using hlast
      have hne : q.id ≠ last.id := fun heq =>
        hn.1 (heq ▸ List.mem_map_of_mem (List.mem_of_getLast? hlast'))
      rw [map_cons, linkAfter, if_neg (by simpa [toMblk] using hne), ih hn.2 hlast']
      simp

end Refine

/-- The queue holds the spans of the stream, and the first byte that is missing is at `pos`. -/
structure Holds (S : ℕ → α) (pos : ℕ) (q : Queue α) (l : List Span) : Prop where
  head : q.head = l.map (toMblk S)
  tail : q.tail = lastId l
  rnxt : q.rnxt = word pos
  chain : Chain l
  nodup : (l.map Span.id).Nodup
  window : ∀ p ∈ l, InWindow pos p
  later : ∀ p ∈ l.tail, pos < p.lo

section Add

variable {pos : ℕ} {p : Span} {l l' : List Span} {q : Queue α}

theorem Chain.mem_le (h : Chain l) : ∀ p ∈ l, p.lo ≤ p.hi := by
  induction l with
  | nil => simp
  | cons q l ih =>
    intro p hp
    cases mem_cons.mp hp with
    | inl hp => exact hp ▸ h.le
    | inr hp => exact ih h.tail p hp

theorem Chain.last_lt (h : Chain l) {last : Span} (hlast : l.getLast? = some last) :
    last.lo < last.hi := by
  induction l with
  | nil => simp at hlast
  | cons q l ih =>
    cases l with
    | nil =>
      obtain rfl : q = last := by simpa using hlast
      exact h
    | cons r l => exact ih h.tail (by simpa using hlast)

theorem Placed.window {tail : Option ℕ} (h : Placed p l l' tail) (hp : InWindow pos p)
    (hl : ∀ r ∈ l, InWindow pos r) : ∀ r ∈ l', InWindow pos r := by
  intro r hr
  have hle := h.chain.mem_le r hr
  obtain ⟨s, hs, h1, h2⟩ := h.within r hr
  have hws : InWindow pos s := by
    cases mem_cons.mp hs with
    | inl hs => exact hs ▸ hp
    | inr hs => exact hl s hs
  unfold InWindow at *
  omega

theorem Placed.nodup {tail : Option ℕ} (h : Placed p l l' tail) (hn : (l.map Span.id).Nodup)
    (hid : p.id ∉ l.map Span.id) : (l'.map Span.id).Nodup :=
  Multiset.nodup_of_le (Multiset.coe_le.mpr h.ids) (nodup_cons.mpr ⟨hid, hn⟩)

/-- The queue after a span has been placed in it. -/
theorem Holds.placed (h : Holds S pos q l) {tail : Option ℕ} (hpl : Placed p l l' tail)
    (hw : InWindow pos p) (hid : p.id ∉ l.map Span.id) (hlater : ∀ r ∈ l'.tail, pos < r.lo) :
    Holds S pos { q with head := l'.map (toMblk S), tail := tail } l' :=
  ⟨rfl, hpl.last, h.rnxt, hpl.chain, hpl.nodup h.nodup hid, hpl.window hw h.window, hlater⟩

/-- A block with a slice of the stream goes into the queue. -/
theorem Holds.add (h : Holds S pos q l) (hp : p.lo < p.hi) (hw : InWindow pos p)
    (hid : p.id ∉ l.map Span.id) (hpos : pos < p.lo ∨ ∀ r ∈ l, pos < r.lo) :
    ∃ q' ack l', q.add (toMblk S p) = some (q', ack) ∧ Holds S pos q' l' ∧
      covers l' = covers (p :: l) ∧ (l'.map Span.id).Subperm (p.id :: l.map Span.id) := by
  unfold Queue.add
  rw [h.tail]
  match l, h, hid, hpos with
  | [], h, hid, hpos =>
    have hpl : Placed p [] [p] (some p.id) := append_placed (l := []) trivial hp (by simp)
    exact ⟨_, _, [p], rfl, h.placed hpl hw hid (by simp), hpl.covers, hpl.ids⟩
  | a :: l, h, hid, hpos =>
    obtain ⟨last, hlast⟩ : ∃ last, (a :: l).getLast? = some last :=
      Option.isSome_iff_exists.mp (by simp)
    have hlm := List.mem_of_getLast? hlast
    have hwl := h.window last hlm
    have hwa := h.window a (by simp)
    have hchain := h.chain
    have hlastlt : pos < last.hi := lt_of_le_of_lt hwl.1 (hchain.last_lt hlast)
    have hwin : ∀ r ∈ l, InWindow pos r ∧ pos < r.lo := fun r hr =>
      ⟨h.window r (by simp [hr]), h.later r hr⟩
    have hgeq : seqGeq (toMblk S p).seq (toMblk S last).fin ↔ last.hi ≤ p.lo := by
      unfold InWindow at hw hwl
      exact seqGeq_word (by omega) (by omega)
    have hlt : seqLt (toMblk S p).seq (toMblk S a).seq ↔ p.lo < a.lo := by
      unfold InWindow at hw hwa
      exact seqLt_word (by omega) (by omega)
    have htail : lastId (a :: l) = some last.id := by simp [lastId, hlast]
    rw [htail]
    simp only [h.head, Option.bind_eq_bind, find_last h.nodup hlast, Option.bind_some, hgeq]
    by_cases hbeyond : last.hi ≤ p.lo
    · have hpl : Placed p (a :: l) (a :: l ++ [p]) (some p.id) :=
        append_placed hchain hp (by simp [hlast, hbeyond])
      rw [if_pos hbeyond, linkAfter_last h.nodup hlast]
      refine ⟨_, _, a :: l ++ [p], rfl, h.placed hpl hw hid fun r hr => ?_, hpl.covers, hpl.ids⟩
      have hr : r ∈ l ∨ r = p := by simpa using hr
      cases hr with
      | inl hr => exact h.later r hr
      | inr hr =>
        rw [hr]
        omega
    · rw [if_neg hbeyond]
      simp only [map_cons, hlt]
      by_cases hfront : p.lo < a.lo
      · rw [if_pos hfront]
        have hw' := hw.1
        have hall : ∀ r ∈ a :: l, (InWindow pos r ∧ pos < r.lo) ∧ p.lo ≤ r.lo := by
          intro r hr
          have hle : a.lo ≤ r.lo := by
            cases mem_cons.mp hr with
            | inl hr => rw [hr]
            | inr hr => exact hchain.first_le r hr
          exact ⟨⟨h.window r hr, by omega⟩, by omega⟩
        have hel := elimOverlap_toMblk (S := S) hw (fun r hr => (hall r hr).1) fun r hr =>
          (hall r hr).2
        have hhead : ∀ r ∈ (a :: l).head?, p.lo ≤ r.lo := by simpa using hfront.le
        have hpl := elim_placed hchain hp hhead htail.symm
        have hsuf := (Span.elim_trimmed hchain
          ⟨hp.le, fun _ => hp, fun r hr => ⟨hhead r hr, fun heq => by omega⟩⟩).suffix
        rw [map_cons] at hel
        rw [hel]
        refine ⟨_, _, _, rfl, h.placed hpl hw hid fun r hr => ?_, hpl.covers, hpl.ids⟩
        exact (hall r (hsuf.subset hr)).1.2
      · rw [if_neg hfront]
        have hposp : pos < p.lo := by
          cases hpos with
          | inl hpos => exact hpos
          | inr hpos =>
            have := hpos a (by simp)
            omega
        have hplace := place_toMblk (S := S) (some last.id) hchain hp hw hposp hwa hwin (by omega)
        obtain ⟨hpl, b, t, hb, -, ht⟩ := placeSpan_placed (p := p) hchain hp (by omega) htail.symm
        rw [hplace]
        refine ⟨_, _, _, rfl, h.placed hpl hw hid fun r hr => ?_, hpl.covers, hpl.ids⟩
        rw [hb] at hr
        obtain ⟨s, hs, hlo⟩ := ht r hr
        rw [hlo]
        cases mem_cons.mp hs with
        | inl hs => rwa [hs]
        | inr hs => exact h.later s hs

/-- The first piece of a slice is a slice, and so is the rest. -/
theorem slice_split {a e : ℕ} {d r : List α} (h : d ++ r = slice S a e) :
    d = slice S a (a + d.length) ∧ r = slice S (a + d.length) e ∧ d.length ≤ e - a := by
  have hlen := congrArg List.length h
  simp only [List.length_append, slice_length] at hlen
  refine ⟨?_, ?_, by omega⟩
  · have := congrArg (List.take d.length) h
    rw [List.take_left, slice_take] at this
    by_cases hd : d.length = 0
    · simp [List.length_eq_zero_iff.mp hd]
    · rwa [min_eq_right (by omega)] at this
  · have := congrArg (List.drop d.length) h
    rwa [List.drop_left, slice_drop] at this

/-- The blocks of a segment go into the queue one after the other. -/
theorem Holds.addAll {mps : List (ℕ × List α)} {a e : ℕ} (h : Holds S pos q l)
    (hdata : mps.flatMap Prod.snd = slice S a e) (hae : a ≤ e) (ha : pos ≤ a)
    (he : e ≤ pos + 2 ^ 31) (hids : (mps.map Prod.fst ++ l.map Span.id).Nodup)
    (hpos : pos < a ∨ ∀ r ∈ l, pos < r.lo) :
    ∃ q' ack l', q.addAll (word a) mps = some (q', ack) ∧ Holds S pos q' l' ∧
      ∀ x, x ∈ covers l' ↔ x ∈ covers l ∨ a ≤ x ∧ x < e := by
  induction mps generalizing q l a with
  | nil =>
    have hlen := congrArg List.length hdata
    simp only [List.flatMap_nil, List.length_nil, slice_length] at hlen
    refine ⟨q, false, l, rfl, h, fun x => ?_⟩
    have : ¬ (a ≤ x ∧ x < e) := by omega
    simp [this]
  | cons mp mps ih =>
    obtain ⟨id, data⟩ := mp
    rw [List.flatMap_cons] at hdata
    obtain ⟨hd, hrest, hlen⟩ := slice_split hdata
    dsimp only at hd hrest hlen
    rw [map_cons, List.cons_append, nodup_cons] at hids
    rw [Queue.addAll]
    dsimp only
    rw [word_add]
    by_cases hempty : data.length = 0
    · rw [hempty, Nat.add_zero] at hrest ⊢
      rw [if_pos rfl]
      exact ih h hrest hae ha hids.2 hpos
    · have hne : word a ≠ word (a + data.length) := by
        rw [Ne, word_inj (by omega) (by omega)]
        omega
      rw [if_neg hne]
      have hmblk : (⟨id, word a, word (a + data.length), data⟩ : Mblk α) =
          toMblk S ⟨id, a, a + data.length⟩ := by
        simp only [toMblk]
        rw [← hd]
      have hw : InWindow pos ⟨id, a, a + data.length⟩ := by
        unfold InWindow
        dsimp only
        omega
      rw [hmblk]
      obtain ⟨q', ack, l', hadd, hh, hcov, hsub⟩ := h.add (p := ⟨id, a, a + data.length⟩)
        (by dsimp only; omega) hw (fun hm => hids.1 (List.mem_append_right _ hm)) hpos
      have hids' : (mps.map Prod.fst ++ l'.map Span.id).Nodup := by
        have hbig : (mps.map Prod.fst ++ id :: l.map Span.id).Nodup :=
          List.nodup_middle.mpr (nodup_cons.mpr hids)
        have hle : (mps.map Prod.fst ++ l'.map Span.id).Subperm
            (mps.map Prod.fst ++ id :: l.map Span.id) := (List.subperm_append_left _).mpr hsub
        exact Multiset.nodup_of_le (Multiset.coe_le.mpr hle) hbig
      obtain ⟨q'', ack', l'', hadd', hh', hcov'⟩ :=
        ih hh hrest (by omega) (by omega) hids' (.inl (by omega))
      refine ⟨q'', ack || ack', l'', ?_, hh', fun x => ?_⟩
      · simp [hadd, hadd']
      · rw [hcov', hcov, mem_covers_cons]
        dsimp only
        by_cases hx : x ∈ covers l
        · simp [hx]
        · simp only [hx, or_false, false_or]
          omega

end Add

/-! ### What is returned -/

/-- The bytes of a chain of blocks. -/
def bytes (mps : List (Mblk α)) : List α := mps.flatMap Mblk.data

section Eat

variable {pos : ℕ} {p : Span} {l : List Span}

/-- The chain from the front up to the first gap is returned: a slice of the stream that is not
empty. -/
theorem eat_toMblk (hc : Chain (p :: l)) (hl : ∀ q ∈ p :: l, InWindow pos q) :
    ∃ l1 l2 pos', p :: l = l1 ++ l2 ∧
      eat (toMblk S p) (l.map (toMblk S)) = (l1.map (toMblk S), l2.map (toMblk S)) ∧
      bytes (l1.map (toMblk S)) = slice S p.lo pos' ∧ p.lo < pos' ∧ pos' ≤ pos + 2 ^ 31 ∧
      (∀ q ∈ l2, pos' < q.lo) ∧ ∀ x, x ∈ covers l1 ↔ p.lo ≤ x ∧ x < pos' := by
  induction l generalizing p with
  | nil =>
    have hlt : p.lo < p.hi := hc
    refine ⟨[p], [], p.hi, rfl, rfl, ?_, hlt, (hl p (by simp)).2.2, by simp, by simp⟩
    simp [bytes, toMblk]
  | cons q l ih =>
    obtain ⟨h1, h2, h3, h4⟩ := hc
    have hwp := hl p (by simp)
    have hwq := hl q (by simp)
    have hgap : (toMblk S p).fin ≠ (toMblk S q).seq ↔ p.hi ≠ q.lo := by
      unfold InWindow at hwp hwq
      exact (word_inj (by omega) (by omega)).not
    simp only [map_cons, eat, hgap]
    split_ifs with h
    · refine ⟨[p], q :: l, p.hi, rfl, rfl, by simp [bytes, toMblk], ?_, hwp.2.2, ?_, by simp⟩
      · -- an empty span would have no gap after it
        rcases Nat.eq_or_lt_of_le h1 with heq | hlt
        · exact absurd (by rw [← heq, h3 heq]) h
        · exact hlt
      · intro r hr
        have hq : p.hi < q.lo := lt_of_le_of_ne h2 h
        cases mem_cons.mp hr with
        | inl hr => rwa [hr]
        | inr hr =>
          have := h4.first_le r hr
          omega
    · obtain ⟨l1, l2, pos', hl1, heat, hbytes, hlt, hle, hafter, hcov⟩ :=
        ih h4 fun r hr => hl r (by simp [hr])
      rw [heat]
      refine ⟨p :: l1, l2, pos', by rw [hl1, List.cons_append], rfl, ?_, by omega, hle, hafter,
        fun x => ?_⟩
      · have hcons : bytes ((p :: l1).map (toMblk S)) =
            slice S p.lo p.hi ++ bytes (l1.map (toMblk S)) := by simp [bytes, toMblk]
        rw [hcons, hbytes, ← not_not.mp h, slice_append h1 (by omega)]
      · rw [mem_covers_cons, hcov]
        omega

end Eat

end Sol26.Tcp
