import Sol26.Tcp.Delivery

/-!
# A connection from its first byte on

Segments arrive in any order, with gaps, overlaps and repetitions. What `tcp_reass` has returned
after any number of calls is the stream up to `tcp_rnxt`.
-/
namespace Sol26.Tcp

open Serial

variable {α : Type*} {S : ℕ → α}

section Call

variable {pos : ℕ} {l : List Span} {q : Queue α}

theorem Chain.suffix {l' : List Span} (h : Chain l) (hs : l' <:+ l) : Chain l' := by
  obtain ⟨t, rfl⟩ := hs
  induction t with
  | nil => exact h
  | cons p t ih => exact ih h.tail

/-- One call: the segment `[a, e)` goes into the queue, and what is complete comes out. -/
theorem Holds.reass {mps : List (ℕ × List α)} {a e : ℕ} (h : Holds S pos q l)
    (hgap : ∀ r ∈ l, pos < r.lo) (hdata : mps.flatMap Prod.snd = slice S a e) (hae : a < e)
    (ha : pos ≤ a) (he : e ≤ pos + 2 ^ 31) (hids : (mps.map Prod.fst ++ l.map Span.id).Nodup) :
    ∃ r pos' l', q.reass (word a) mps = some r ∧ pos ≤ pos' ∧
      bytes r.ret = slice S pos pos' ∧ (r.ret = [] ↔ pos' = pos) ∧
      Holds S pos' { r.queue with rnxt := word pos' } l' ∧ (∀ p ∈ l', pos' < p.lo) ∧
      ∀ x, (x ∈ covers l ∨ a ≤ x ∧ x < e) ↔ (x ∈ covers l' ∨ pos ≤ x ∧ x < pos') := by
  obtain ⟨q1, ack, l1, hadd, hh, hcov⟩ := h.addAll hdata hae.le ha he hids (.inr hgap)
  unfold Queue.reass
  simp only [hadd, Option.bind_eq_bind, Option.bind_some]
  match l1, hh, hcov with
  | [], hh, hcov =>
    have := (hcov a).mpr (.inr ⟨le_rfl, hae⟩)
    simp at this
  | p :: rest, hh, hcov =>
    have hwp := hh.window p (by simp)
    have hseq : (toMblk S p).seq ≠ q1.rnxt ↔ p.lo ≠ pos := by
      rw [hh.rnxt]
      unfold InWindow at hwp
      exact (word_inj (by omega) (by omega)).not
    rw [hh.head]
    simp only [List.map_cons, hseq]
    by_cases hlo : p.lo = pos
    · obtain ⟨l2, l3, pos', hsplit, heat, hbytes, hlt, hle, hafter, hcov2⟩ :=
        eat_toMblk (S := S) hh.chain hh.window
      rw [if_neg (by simpa using hlo), heat]
      have hsuf : l3 <:+ p :: rest := ⟨l2, hsplit.symm⟩
      refine ⟨_, pos', l3, rfl, by omega, ?_, ?_, ⟨rfl, ?_, rfl, hh.chain.suffix hsuf, ?_, ?_, ?_⟩,
        hafter, fun x => ?_⟩
      · rw [hbytes, hlo]
      · have hne : l2 ≠ [] := by
          rintro rfl
          have := (hcov2 p.lo).mpr ⟨le_rfl, hlt⟩
          simp at this
        simp only [List.map_eq_nil_iff, hne, false_iff]
        omega
      · dsimp only
        by_cases hnil : l3 = []
        · simp [hnil, lastId]
        · rw [if_neg (by simpa using hnil), hh.tail, lastId_suffix hsuf hnil]
      · exact hh.nodup.sublist (hsuf.sublist.map Span.id)
      · intro r hr
        have h1 := hh.window r (hsuf.subset hr)
        have h2 := hafter r hr
        unfold InWindow at *
        omega
      · exact fun r hr => hafter r (List.mem_of_mem_tail hr)
      · rw [← hcov x, hsplit]
        have := hcov2 x
        rw [hlo] at this
        simp only [covers, List.mem_append, Set.mem_ofPred_eq, or_and_right, exists_or] at this ⊢
        rw [this, or_comm]
    · have hafter : ∀ r ∈ p :: rest, pos < r.lo := by
        intro r hr
        cases List.mem_cons.mp hr with
        | inl hr =>
          have := hwp.1
          rw [hr]
          omega
        | inr hr => exact hh.later r hr
      rw [if_pos hlo]
      refine ⟨_, pos, p :: rest, rfl, le_rfl, by simp [bytes], by simp, ?_, hafter, fun x => ?_⟩
      · exact ⟨hh.head, hh.tail, rfl, hh.chain, hh.nodup, hh.window, hh.later⟩
      · rw [← hcov x]
        simp

end Call

/-- A connection: the queue, the position of `tcp_rnxt` in the stream, the positions that have
been received and the bytes that have been returned. -/
structure Conn (α : Type*) where
  queue : Queue α
  pos : ℕ
  got : Set ℕ
  delivered : List α

/-- A segment that may arrive: the bytes of the stream from `a` to `e`, not before `tcp_rnxt` and
within half the sequence space of it, split into message blocks that are not on the queue. -/
structure Arrives (S : ℕ → α) (c : Conn α) (a e : ℕ) (mps : List (ℕ × List α)) : Prop where
  data : mps.flatMap Prod.snd = slice S a e
  nonempty : a < e
  start : c.pos ≤ a
  stop : e ≤ c.pos + 2 ^ 31
  blocks : (mps.map Prod.fst ++ c.queue.head.map Mblk.id).Nodup

/-- The connection after a call, with `tcp_rnxt` advanced by what the call returned. -/
def Conn.next (c : Conn α) (a e : ℕ) (r : Result α) : Conn α where
  queue := { r.queue with rnxt := word (c.queue.rnxt + (bytes r.ret).length) }
  pos := c.pos + (bytes r.ret).length
  got := c.got ∪ Set.Ico a e
  delivered := c.delivered ++ bytes r.ret

/-- The connections that begin at `pos0`. -/
inductive Run (S : ℕ → α) (pos0 : ℕ) : Conn α → Prop
  | start : Run S pos0 ⟨⟨[], none, word pos0⟩, pos0, ∅, []⟩
  | segment {c : Conn α} (h : Run S pos0 c) {a e : ℕ} {mps : List (ℕ × List α)}
      (ha : Arrives S c a e mps) {r : Result α} (hr : c.queue.reass (word a) mps = some r) :
      Run S pos0 (c.next a e r)

/-- The queue holds what has been received from `pos` on, and what was before has been
delivered. -/
structure Delivers (S : ℕ → α) (pos0 : ℕ) (c : Conn α) (l : List Span) : Prop where
  holds : Holds S c.pos c.queue l
  gap : ∀ p ∈ l, c.pos < p.lo
  le : pos0 ≤ c.pos
  delivered : c.delivered = slice S pos0 c.pos
  got : ∀ x, c.pos ≤ x → (x ∈ c.got ↔ x ∈ covers l)

section Run

variable {pos0 : ℕ} {c : Conn α} {l : List Span}

theorem Delivers.next (h : Delivers S pos0 c l) {a e : ℕ} {mps : List (ℕ × List α)}
    (ha : Arrives S c a e mps) :
    ∃ r l', c.queue.reass (word a) mps = some r ∧ Delivers S pos0 (c.next a e r) l' ∧
      (r.ret ≠ [] ↔ c.pos ∈ c.got ∪ Set.Ico a e) ∧ (r.ret ≠ [] ↔ bytes r.ret ≠ []) := by
  have hids : (mps.map Prod.fst ++ l.map Span.id).Nodup := by
    have := ha.blocks
    rw [h.holds.head, List.map_map] at this
    exact this
  obtain ⟨r, pos', l', hr, hle, hbytes, hret, hh, hafter, hcov⟩ :=
    h.holds.reass h.gap ha.data ha.nonempty ha.start ha.stop hids
  have hlen : (bytes r.ret).length = pos' - c.pos := by rw [hbytes, slice_length]
  have hpos : c.pos + (bytes r.ret).length = pos' := by omega
  refine ⟨r, l', hr, ⟨?_, ?_, ?_, ?_, ?_⟩, ?_, ?_⟩
  · unfold Conn.next
    rw [h.holds.rnxt, word_add, hpos]
    exact hh
  · unfold Conn.next
    rw [hpos]
    exact hafter
  · have := h.le
    unfold Conn.next
    dsimp only
    omega
  · unfold Conn.next
    rw [hpos, h.delivered, hbytes, slice_append h.le hle]
  · unfold Conn.next
    rw [hpos]
    dsimp only
    intro x hx
    have hgot := h.got x (by omega)
    have hpast : ¬ (c.pos ≤ x ∧ x < pos') := by omega
    simp only [Set.mem_union, Set.mem_Ico, hgot, hcov x, hpast, or_false]
  · -- the byte at `pos` is there if the chain begins with it
    have hx := hcov c.pos
    have hout : c.pos ∉ covers l' := by
      rintro ⟨p, hp, hp1, -⟩
      have := hafter p hp
      omega
    simp only [Set.mem_union, Set.mem_Ico, h.got c.pos le_rfl, hx, hout, false_or, ne_eq, hret]
    omega
  · rw [ne_eq, ne_eq, hret, ← List.length_eq_zero_iff, hlen]
    omega

theorem Run.delivers (h : Run S pos0 c) : ∃ l, Delivers S pos0 c l := by
  induction h with
  | start =>
    refine ⟨[], ⟨rfl, rfl, rfl, trivial, by simp, by simp, by simp⟩, by simp, le_rfl, by simp,
      by simp⟩
  | segment _ ha hr ih =>
    obtain ⟨l, hl⟩ := ih
    obtain ⟨r', l', hr', hd, -⟩ := hl.next ha
    cases hr.symm.trans hr'
    exact ⟨l', hd⟩

end Run

/-- After any sequence of segments the queue is the blocks of spans of the stream in order and
without overlap, `tcp_reass_tail` is its last block, and what has been returned is the stream up
to `tcp_rnxt`. The next call returns data if and only if the byte at `tcp_rnxt` has been
received. -/
theorem run_delivers_stream {α : Type*} {S : ℕ → α} {pos0 : ℕ} {c : Conn α} (h : Run S pos0 c) :
    c.delivered = slice S pos0 c.pos ∧ pos0 ≤ c.pos ∧ c.queue.rnxt = word c.pos ∧
    (∃ l : List Span, c.queue.head = l.map (toMblk S) ∧ c.queue.tail = lastId l ∧
      l.Pairwise (fun p q => p.lo ≤ q.lo ∧ p.hi ≤ q.lo) ∧
      (∀ p ∈ l, c.pos ≤ p.lo ∧ p.lo ≤ p.hi ∧ p.hi ≤ c.pos + 2 ^ 31) ∧
      ∀ x, c.pos ≤ x → (x ∈ c.got ↔ x ∈ covers l)) ∧
    ∀ a e mps, Arrives S c a e mps → ∃ r, c.queue.reass (word a) mps = some r ∧
      (r.ret ≠ [] ↔ c.pos ∈ c.got ∪ Set.Ico a e) ∧ (r.ret ≠ [] ↔ bytes r.ret ≠ []) := by
  obtain ⟨l, hl⟩ := h.delivers
  refine ⟨hl.delivered, hl.le, hl.holds.rnxt, ⟨l, hl.holds.head, hl.holds.tail, ?_,
    hl.holds.window, hl.got⟩, fun a e mps ha => ?_⟩
  · have hchain := hl.holds.chain
    clear hl
    induction l with
    | nil => exact .nil
    | cons p l ih =>
      exact .cons (fun q hq => ⟨hchain.first_le q hq, hchain.before q hq⟩) (ih hchain.tail)
  · obtain ⟨r, -, hr, -, hret, hbytes⟩ := hl.next ha
    exact ⟨r, hr, hret, hbytes⟩

/-- Two segments in the wrong order, the second one with two blocks and an overlap. -/
def swapped : Conn ℕ :=
  ⟨⟨[], none, 6⟩, 6, ∅ ∪ Set.Ico 3 6 ∪ Set.Ico 0 4, [0, 1, 2, 3, 4, 5]⟩

theorem swapped_run : Run (fun x => x) 0 swapped := by
  have hlate : Arrives (fun x => x) (⟨⟨[], none, word 0⟩, 0, ∅, []⟩ : Conn ℕ) 3 6
      [(1, [3, 4, 5])] := ⟨rfl, by decide, by decide, by decide, by decide⟩
  have h1 : Run (fun x => x) 0 ((⟨⟨[], none, word 0⟩, 0, ∅, []⟩ : Conn ℕ).next 3 6
      ⟨⟨[⟨1, 3, 6, [3, 4, 5]⟩], some 1, 0⟩, [], true⟩) := Run.start.segment hlate rfl
  have hfirst : Arrives (fun x => x) ((⟨⟨[], none, word 0⟩, 0, ∅, []⟩ : Conn ℕ).next 3 6
      ⟨⟨[⟨1, 3, 6, [3, 4, 5]⟩], some 1, 0⟩, [], true⟩) 0 4 [(2, [0]), (3, [1, 2, 3])] :=
    ⟨rfl, by decide, by decide, by decide, by decide⟩
  exact h1.segment hfirst
    (r := ⟨⟨[], none, 0⟩, [⟨2, 0, 1, [0]⟩, ⟨3, 1, 3, [1, 2]⟩, ⟨1, 3, 6, [3, 4, 5]⟩], false⟩)
    (by decide)

theorem run_delivers_stream_swapped : swapped.delivered = slice (fun x => x) 0 6 :=
  (run_delivers_stream swapped_run).1

end Sol26.Tcp
