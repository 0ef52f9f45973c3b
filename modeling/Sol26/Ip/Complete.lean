import Sol26.Ip.Fragment

/-!
# When a datagram is complete

The fragments of one identity in any order, with overlaps and repetitions. As long as the number
of holes is kept right, a datagram is complete as soon as everything up to its end is there.
-/
namespace Sol26.Ip

open Gaps
open List (length_append length_take map_cons)
open Option (bind_eq_bind bind_eq_some_iff bind_some pure_def)

section Mark

variable {a b c : ℕ} {l l' : List Mblk} {data : List UInt8}

theorem mark_data (h : mark a l = some l') : l'.map Mblk.data = l.map Mblk.data := by
  induction l generalizing a l' with
  | nil =>
    cases h
    rfl
  | cons m l ih =>
    unfold mark at h
    simp only [bind_eq_bind, bind_eq_some_iff, pure_def, Option.some.injEq] at h
    obtain ⟨u, -, rest, hrest, rfl⟩ := h
    simp [ih hrest]

theorem mark_append (h : mark a l = some l') (hend : blockEnd (top a (spans l')) data = some c) :
    mark a (l ++ blocks [data]) = some (l' ++ [⟨data, top a (spans l'), c⟩]) := by
  induction l generalizing a l' with
  | nil =>
    cases h
    have hend' : blockEnd a data = some c := hend
    simp [blocks, mark, hend', top]
  | cons m l ih =>
    unfold mark at h
    simp only [bind_eq_bind, bind_eq_some_iff, pure_def, Option.some.injEq] at h
    obtain ⟨u, hu, rest, hrest, rfl⟩ := h
    have := ih hrest hend
    simp only [List.cons_append, mark, hu, bind_eq_bind, bind_some, this]
    rfl

theorem complete_congr (h : l.map Mblk.data = l'.map Mblk.data) : complete l = complete l' := by
  cases l with
  | nil =>
    cases l' with
    | nil => rfl
    | cons m l' => simp at h
  | cons m l =>
    cases l' with
    | nil => simp at h
    | cons m' l' =>
      simp only [map_cons, List.cons.injEq] at h
      have hlen : ∀ q : List Mblk, q.map (fun m => m.data.length) =
          (q.map Mblk.data).map List.length := fun q => by simp
      simp only [complete, hlen, map_cons, h.1, h.2]

end Mark

/-- A datagram that is handed up: the header of a fragment at the beginning, with the length and
the fragment field set, and bytes that are all at their place in one of the fragments. -/
def Delivered (got : List Frag) (msg : List (List UInt8)) : Prop :=
  ∃ f ∈ got, f.start = 0 ∧ ∃ payload : List UInt8,
    msg.flatten = htons (htons f.hdr 2 (f.hdr.length + payload.length)) 6 0 ++ payload ∧
    (∀ x, x ∈ received got ↔ x < payload.length) ∧
    ∀ x b, payload[x]? = some b → Provides got x b

/-- A queue that is not complete. -/
structure Waiting (got : List Frag) (ipf q : Ipf) : Prop where
  harden : ipf.harden = some q
  ne_nil : q.queue ≠ []
  queued : Queued got q.queue
  holes : q.holeCnt = gaps 0 (spans q.queue) + missingTail got
  incomplete : ¬ Complete got
  easy : ipf.last ≠ 0 → ipf.last = top 0 (spans q.queue) ∧ gaps 0 (spans q.queue) = 0 ∧
    missingTail got = 1

section Queue

variable {got : List Frag} {l : List Mblk}

/-- The number of holes is 0 if and only if the datagram is complete, unless there is a gap beyond
an end. -/
theorem Queued.complete_iff (h : Queued got l) (hne : l ≠ [])
    (hends : Complete got → ∀ x ∈ received got, ∀ y < x, y ∈ received got) :
    gaps 0 (spans l) + missingTail got = 0 ↔ Complete got := by
  rw [Nat.add_eq_zero_iff, h.pieces.gaps_eq_zero, missingTail_eq_zero]
  constructor
  · rintro ⟨hgaps, f, hf, hmore⟩
    refine ⟨f, hf, hmore, fun x hx => ?_⟩
    have hlast : f.stop - 1 ∈ received got := by
      have := f.start_lt_stop
      exact ⟨f, hf, by omega, by omega⟩
    have htop := h.pieces.lt_top ((h.cover _).mpr hlast)
    exact (h.cover x).mp (hgaps x (Nat.zero_le _) (by omega))
  · intro hc
    refine ⟨fun x _ hx => ?_, ?_⟩
    · have hlast := h.pieces.pred_top_mem (by simpa [spans] using hne)
      by_cases hxl : x = top 0 (spans l) - 1
      · rwa [hxl]
      · exact (h.cover x).mpr (hends hc _ ((h.cover _).mp hlast) x (by omega))
    · obtain ⟨f, hf, hmore, -⟩ := hc
      exact ⟨f, hf, hmore⟩

/-- Blocks without a gap, from `a` on. -/
theorem flatten_provides {a : ℕ} (ha : a ≠ 0) (hl : Pieces a (spans l)) (hg : gaps a (spans l) = 0)
    (hparts : ∀ m ∈ l, ∃ f ∈ got, PartOf f m) :
    (l.map Mblk.data).flatten.length = top a (spans l) - a ∧
      ∀ x b, (l.map Mblk.data).flatten[x]? = some b → Provides got (a + x) b := by
  induction l generalizing a with
  | nil => simp [top]
  | cons m l ih =>
    obtain ⟨h1, h2, h3⟩ : a ≤ m.start ∧ m.start < m.stop ∧ Pieces m.stop (spans l) := hl
    obtain ⟨hm, hg'⟩ : ¬ a < m.start ∧ gaps m.stop (spans l) = 0 := by
      simp only [spans_cons, gaps, Nat.add_eq_zero_iff] at hg
      exact ⟨fun hlt => by simp [hlt] at hg, hg.2⟩
    obtain rfl : a = m.start := by omega
    obtain ⟨f, hf, hpart⟩ := hparts m (by simp)
    obtain ⟨hlen, hbytes⟩ := ih (by omega) h3 hg' fun m' hm' => hparts m' (by simp [hm'])
    have hmlen := hpart.length h2.le ha
    have htop := h3.le_top
    simp only [map_cons, List.flatten_cons, length_append, spans_cons, top, hmlen, hlen]
    refine ⟨by omega, fun x b hx => ?_⟩
    by_cases hxl : x < m.data.length
    · rw [List.getElem?_append_left hxl, hpart.data, if_neg ha, List.nil_append] at hx
      exact hpart.provides hf hx
    · rw [List.getElem?_append_right (by omega), hmlen] at hx
      have := hbytes _ b hx
      rwa [show m.stop + (x - (m.stop - m.start)) = m.start + x by omega] at this

/-- What is handed up when the blocks leave no gap. -/
theorem Queued.delivered (h : Queued got l) (hne : l ≠ []) (hg : gaps 0 (spans l) = 0) :
    ∃ msg, complete l = some msg ∧ Delivered got msg := by
  cases l with
  | nil => exact absurd rfl hne
  | cons m l =>
    have hpieces := h.pieces
    obtain ⟨-, h2, h3⟩ : 0 ≤ m.start ∧ m.start < m.stop ∧ Pieces m.stop (spans l) := hpieces
    have hall := h.pieces.gaps_eq_zero.mp hg
    obtain ⟨hm, hg'⟩ : ¬ 0 < m.start ∧ gaps m.stop (spans l) = 0 := by
      simp only [spans_cons, gaps, Nat.add_eq_zero_iff] at hg
      exact ⟨fun hlt => by simp [hlt] at hg, hg.2⟩
    have hstart : m.start = 0 := by omega
    obtain ⟨f, hf, hpart⟩ := h.parts m (by simp)
    obtain ⟨hlen, hbytes⟩ := flatten_provides (by omega) h3 hg'
      fun m' hm' => h.parts m' (by simp [hm'])
    have hfs : f.start = 0 := by
      have := hpart.start
      omega
    have hstop : m.stop ≤ f.payload.length := by
      have h1 := hpart.stop
      have h2 : f.stop = f.start + f.payload.length := rfl
      omega
    have hdata : m.data = f.hdr ++ f.payload.take m.stop := by
      rw [hpart.data, hstart, hfs]
      simp
    have htop := h3.le_top
    refine ⟨_, rfl, f, hf, hfs, f.payload.take m.stop ++ (l.map Mblk.data).flatten, ?_, fun x => ?_,
      fun x b hx => ?_⟩
    · have h6 : 6 + 1 < f.hdr.length := length_of_ntohs f.flags
      have hsum : ((m :: l).map fun m => m.data.length).sum =
          f.hdr.length + (f.payload.take m.stop ++ (l.map Mblk.data).flatten).length := by
        simp only [map_cons, List.sum_cons, hdata, length_append, List.length_flatten,
          List.map_map]
        rw [Nat.add_assoc]
        rfl
      rw [hsum, List.flatten_cons, hdata, htons_append (by omega), htons_append (by simpa using h6),
        List.append_assoc]
    · have hlength : (f.payload.take m.stop ++ (l.map Mblk.data).flatten).length =
          top 0 (spans (m :: l)) := by
        rw [length_append, length_take, hlen, spans_cons, top]
        dsimp only
        omega
      rw [hlength, ← h.cover x]
      exact ⟨h.pieces.lt_top, hall x (Nat.zero_le _)⟩
    · by_cases hxl : x < m.stop
      · rw [List.getElem?_append_left (by rw [length_take]; omega)] at hx
        have := hpart.provides hf (n := x) (b := b) (by rw [hstart, hfs]; simpa using hx)
        rwa [hstart, zero_add] at this
      · rw [List.getElem?_append_right (by rw [length_take]; omega), length_take,
          min_eq_left hstop] at hx
        have := hbytes _ b hx
        rwa [show m.stop + (x - m.stop) = x by omega] at this

end Queue

/-- The fragments since the queue was last empty, the queue, and the datagram that the last one
completed. -/
structure State where
  got : List Frag
  ipf : Option Ipf
  out : Option (List (List UInt8))

/-- The fragments that have not been delivered. -/
def State.pending (s : State) : List Frag := if s.out.isSome then [] else s.got

/-- The blocks of the queue with their offsets. -/
def State.queue (s : State) : List Mblk := (s.ipf.bind Ipf.harden).elim [] Ipf.queue

/-- The states that fragments lead to, each of them allowed by `ok` where it arrives. -/
inductive Run (ok : State → Frag → Prop) : State → Prop
  | start : Run ok ⟨[], none, none⟩
  | frag {s : State} (h : Run ok s) {f : Frag} (hok : ok s f) {q : Option Ipf}
      {out : Option (List (List UInt8))} (hr : ipRputLocal s.ipf [f.bytes] = some (q, out)) :
      Run ok ⟨s.pending ++ [f], q, out⟩

/-- The fragment does not run into one of the defects. -/
structure Sound (s : State) (f : Frag) : Prop where
  /-- With `IPH_MF` clear, it takes one more hole off than the gaps that it closes if it is the first
  such fragment, and otherwise none. -/
  flag : f.more = false → surplus f.stop f.start (spans s.queue) = missingTail s.pending
  /-- At the beginning, it is not trimmed off where the header is. -/
  header : f.start = 0 → lead 0 (spans s.queue) = 0 ∨ f.stop ≤ lead 0 (spans s.queue)
  /-- It does not complete the bytes below an end while there is a gap beyond that end. -/
  ends : Complete (s.pending ++ [f]) →
    ∀ x ∈ received (s.pending ++ [f]), ∀ y < x, y ∈ received (s.pending ++ [f])

/-- What holds in every state. -/
structure Valid (s : State) : Prop where
  fresh : s.ipf = none → s.pending = []
  idle : s.out.isSome → s.ipf = none
  empty : s.got = [] → s.out = none
  waiting : ∀ ipf, s.ipf = some ipf → ∃ q, Waiting s.got ipf q
  delivered : ∀ msg, s.out = some msg → Complete s.got ∧ Delivered s.got msg

section Steps

variable {s : State} {f : Frag} {got : List Frag} {ipf q : Ipf}

theorem Valid.of_waiting (h : Waiting (s.pending ++ [f]) ipf q) :
    Valid ⟨s.pending ++ [f], some ipf, none⟩ := by
  refine ⟨by simp, by simp, by simp, fun ipf' hipf => ?_, by simp⟩
  cases hipf
  exact ⟨q, h⟩

theorem Valid.of_delivered {msg : List (List UInt8)} (h : Delivered (s.pending ++ [f]) msg)
    (hc : Complete (s.pending ++ [f])) : Valid ⟨s.pending ++ [f], none, some msg⟩ := by
  refine ⟨fun _ => rfl, fun _ => rfl, by simp, by simp, fun msg' hmsg => ?_⟩
  cases hmsg
  exact ⟨hc, h⟩

theorem queued_single : Queued [f] [f.block] := by
  refine ⟨⟨Nat.zero_le _, f.start_lt_stop, trivial⟩, fun x => ?_, fun m hm => ?_⟩
  · simp [received, Frag.block]
  · obtain rfl : m = f.block := by simpa using hm
    have hpart := partOf_cut (f := f) le_rfl le_rfl f.start_lt_stop fun h => h
    have hself : f.block.cut f.start f.stop = f.block := Mblk.cut_self rfl rfl
    exact ⟨f, by simp, hself ▸ hpart⟩

theorem Valid.pending_eq (h : Valid s) (hipf : s.ipf = some ipf) : s.pending = s.got := by
  have hout : ¬ s.out.isSome = true := fun ho => by simp [h.idle ho] at hipf
  unfold State.pending
  rw [if_neg hout]

theorem State.mem_got_of_pending {g : Frag} (hg : g ∈ s.pending) : g ∈ s.got := by
  unfold State.pending at hg
  split_ifs at hg
  · simp at hg
  · exact hg

theorem Waiting.queue_eq (h : Waiting got ipf q) (hipf : s.ipf = some ipf) : s.queue = q.queue := by
  unfold State.queue
  rw [hipf, bind_some, h.harden]
  rfl

theorem Valid.queued (h : Valid s) : Queued s.pending s.queue := by
  cases hipf : s.ipf with
  | none =>
    have hq : s.queue = [] := by simp [State.queue, hipf]
    rw [hq, h.fresh hipf]
    exact ⟨trivial, fun x => by simp [received], by simp⟩
  | some ipf =>
    obtain ⟨q, hw⟩ := h.waiting ipf hipf
    rw [h.pending_eq hipf, hw.queue_eq hipf]
    exact hw.queued

/-- The first fragment, at the beginning. -/
theorem waiting_first (hs : f.start = 0) :
    Waiting [f] ⟨blocks [f.block.data], 0, f.stop⟩ ⟨[f.block], 1, 0⟩ := by
  have hlt := f.start_lt_stop
  have hmore := f.more_of_start hs
  have hblock : f.block = ⟨f.block.data, 0, f.stop⟩ := by
    unfold Frag.block
    rw [hs]
  have hend := f.blockEnd_block
  rw [hs] at hend
  refine ⟨?_, by simp, queued_single, ?_, ?_, fun _ => ⟨rfl, ?_, ?_⟩⟩
  · have hne : f.stop ≠ 0 := by omega
    simp only [Ipf.harden, ne_eq, hne, not_false_eq_true, if_true, blocks, map_cons,
      List.map_nil, mark, hend, bind_eq_bind, bind_some]
    rw [hblock]
    rfl
  · simp [missingTail, hmore, gaps, Frag.block, hs]
  · rintro ⟨g, hg, hgm, -⟩
    obtain rfl : g = f := by simpa using hg
    simp [hmore] at hgm
  · simp [gaps, Frag.block, hs]
  · simp [missingTail, hmore]

/-- The first fragment, not at the beginning. -/
theorem waiting_hole (hs : f.start ≠ 0) :
    ∃ ipf ret, ipReassemble [f.block.data] ⟨[], 0, 0⟩ f.u1 = some (ipf, ret) ∧
      Waiting [f] ipf ipf := by
  have hlt := f.start_lt_stop
  have hb : f.block.start ≠ 0 := hs
  rw [f.ipReassemble_block]
  refine ⟨⟨[f.block], if !f.more then 1 else 2, 0⟩,
    decide ((if !f.more then (1 : ℤ) else 2) = 0), ?_, rfl, by simp, queued_single, ?_, ?_,
    fun h => absurd rfl h⟩
  · simp only [Ipf.harden, ne_eq, not_true_eq_false, if_false, Ipf.add, hb, decide_false,
      Bool.false_or, Bool.false_eq_true, bind_eq_bind, bind_some]
    rfl
  · have hpos : 0 < f.block.start := Nat.pos_of_ne_zero hb
    cases h : f.more <;> simp [missingTail, h, gaps, hpos]
  · rintro ⟨g, hg, -, hall⟩
    obtain rfl : g = f := by simpa using hg
    obtain ⟨g', hg', h0, -⟩ := hall 0 (by omega)
    obtain rfl : g' = g := by simpa using hg'
    omega

/-- In order, the block goes at the end of the queue. -/
theorem Waiting.append (h : Waiting got ipf q) (hlast : ipf.last ≠ 0) (hs : ipf.last = f.start) :
    mark 0 (ipf.queue ++ blocks [f.block.data]) = some (q.queue ++ [f.block]) ∧
      Queued (got ++ [f]) (q.queue ++ [f.block]) ∧ gaps 0 (spans (q.queue ++ [f.block])) = 0 ∧
      top 0 (spans (q.queue ++ [f.block])) = f.stop := by
  obtain ⟨htop, hgaps, -⟩ := h.easy hlast
  have htop' : top 0 (spans q.queue) = f.start := by omega
  have hmark : mark 0 ipf.queue = some q.queue := by
    have hh := h.harden
    unfold Ipf.harden at hh
    rw [if_pos hlast] at hh
    simp only [bind_eq_bind, bind_eq_some_iff, pure_def, Option.some.injEq] at hh
    obtain ⟨l, hl, rfl⟩ := hh
    exact hl
  have hadd : Added 0 true f.block q.queue 0 (q.queue ++ [f.block]) 0 := by
    apply append_added f.start_lt_stop h.queued.pieces htop'.le
    simp [htop', Frag.block]
  refine ⟨?_, h.queued.added hadd fun h0 => by omega, ?_, ?_⟩
  · have := mark_append hmark (htop' ▸ f.blockEnd_block)
    rw [this, htop']
    rfl
  · rw [spans_append, spans_cons, spans_nil, gaps_append, hgaps, htop']
    simp [Frag.block]
  · rw [spans_append, spans_cons, spans_nil, top_append]
    rfl

theorem Waiting.step_easy (h : Waiting got ipf q) (hlast : ipf.last ≠ 0) (hs : ipf.last = f.start)
    (hmore : f.more = true) :
    Waiting (got ++ [f]) ⟨ipf.queue ++ blocks [f.block.data], ipf.holeCnt, f.stop⟩
      ⟨q.queue ++ [f.block], 1, 0⟩ := by
  obtain ⟨hmark, hq, hgaps, htop⟩ := h.append hlast hs
  obtain ⟨-, -, htail⟩ := h.easy hlast
  have hne : f.stop ≠ 0 := by
    have := f.start_lt_stop
    omega
  have htail' : missingTail (got ++ [f]) = 1 := by rw [missingTail_append, if_pos hmore, htail]
  refine ⟨?_, by simp, hq, ?_, ?_, fun _ => ⟨htop.symm, hgaps, htail'⟩⟩
  · simp only [Ipf.harden, ne_eq, hne, not_false_eq_true, if_true, hmark, bind_eq_bind, bind_some]
    rfl
  · rw [hgaps, htail']
    rfl
  · rintro ⟨g, hg, hgm, -⟩
    have := missingTail_eq_zero.mpr ⟨g, hg, hgm⟩
    omega

theorem Waiting.complete_easy (h : Waiting got ipf q) (hlast : ipf.last ≠ 0)
    (hs : ipf.last = f.start) (hmore : f.more = false) :
    Complete (got ++ [f]) ∧ ∃ msg, complete (ipf.queue ++ blocks [f.block.data]) = some msg ∧
      Delivered (got ++ [f]) msg := by
  obtain ⟨hmark, hq, hgaps, htop⟩ := h.append hlast hs
  constructor
  · refine ⟨f, by simp, hmore, fun x hx => (hq.cover x).mp ?_⟩
    exact hq.pieces.gaps_eq_zero.mp hgaps x (Nat.zero_le _) (htop.symm ▸ hx)
  · rw [complete_congr (mark_data hmark).symm]
    exact hq.delivered (by simp) hgaps

/-- Out of order, the number of holes is kept right. -/
theorem Waiting.reassemble (h : Waiting got ipf q)
    (hflag : f.more = false → surplus f.stop f.start (spans q.queue) = missingTail got)
    (hhdr : f.start = 0 → lead 0 (spans q.queue) = 0 ∨ f.stop ≤ lead 0 (spans q.queue)) :
    ∃ l holes, ipReassemble [f.block.data] ipf f.u1 =
        some (⟨l, holes, 0⟩, decide (holes = 0)) ∧ l ≠ [] ∧ Queued (got ++ [f]) l ∧
      holes = gaps 0 (spans l) + missingTail (got ++ [f]) := by
  have hq0 : q.last = 0 := by
    have hh := h.harden
    unfold Ipf.harden at hh
    split_ifs at hh with hl
    · simp only [bind_eq_bind, bind_eq_some_iff, pure_def, Option.some.injEq] at hh
      obtain ⟨l, -, rfl⟩ := hh
      rfl
    · cases hh
      exact not_not.mp hl
  obtain ⟨l, holes, hadd, ha⟩ := Ipf.add_added f.more f.block f.start_lt_stop
    h.queued.pieces h.ne_nil
  have hq := h.queued.added ha hhdr
  refine ⟨l, holes, ?_, ?_, hq, ?_⟩
  · rw [f.ipReassemble_block, h.harden]
    simp only [bind_eq_bind, bind_some, hadd, hq0]
    rfl
  · rintro rfl
    have := (hq.cover f.start).mpr (by simp [f.start_lt_stop])
    simp at this
  · have hholes := ha.holes
    have hq := h.holes
    rw [missingTail_append]
    cases hm : f.more with
    | true =>
      simp only [hm, if_true] at hholes ⊢
      omega
    | false =>
      have hsur : surplus f.block.stop f.block.start (spans q.queue) = missingTail got := hflag hm
      simp only [hm, Bool.false_eq_true, if_false, hsur] at hholes ⊢
      omega

/-- Every fragment is taken, and what holds goes on to hold. -/
theorem Valid.step (h : Valid s) (hf : Sound s f) :
    ∃ q out, ipRputLocal s.ipf [f.bytes] = some (q, out) ∧ Valid ⟨s.pending ++ [f], q, out⟩ := by
  rw [f.ipRputLocal_bytes]
  cases hipf : s.ipf with
  | none =>
    have hp := h.fresh hipf
    dsimp only
    by_cases hs : f.start = 0
    · rw [if_pos hs]
      refine ⟨_, _, rfl, Valid.of_waiting (q := ⟨[f.block], 1, 0⟩) ?_⟩
      rw [hp]
      exact waiting_first hs
    · obtain ⟨ipf, ret, hr, hw⟩ := waiting_hole hs
      rw [if_neg hs, hr]
      refine ⟨_, _, rfl, Valid.of_waiting (q := ipf) ?_⟩
      rw [hp]
      exact hw
  | some ipf =>
    obtain ⟨q, hw⟩ := h.waiting ipf hipf
    have hqueue : s.queue = q.queue := hw.queue_eq hipf
    rw [← h.pending_eq hipf] at hw
    dsimp only
    by_cases heasy : f.start ≠ 0 ∧ ipf.last = f.start
    · have hlast : ipf.last ≠ 0 := by omega
      rw [if_pos heasy]
      by_cases hm : f.more = true
      · rw [if_pos hm]
        exact ⟨_, _, rfl, Valid.of_waiting (hw.step_easy hlast heasy.2 hm)⟩
      · obtain ⟨hc, msg, hmsg, hd⟩ := hw.complete_easy hlast heasy.2 (by simpa using hm)
        rw [if_neg hm, hmsg]
        exact ⟨_, _, rfl, Valid.of_delivered hd hc⟩
    · obtain ⟨l, holes, hr, hne, hq, hholes⟩ :=
        hw.reassemble (hqueue ▸ hf.flag) (hqueue ▸ hf.header)
      have hiff := hq.complete_iff hne hf.ends
      rw [if_neg heasy, hr]
      simp only [bind_some, decide_eq_true_eq]
      by_cases h0 : holes = 0
      · have hg : gaps 0 (spans l) + missingTail (s.pending ++ [f]) = 0 := by omega
        obtain ⟨msg, hmsg, hd⟩ := hq.delivered hne (by omega)
        rw [if_pos h0, hmsg]
        exact ⟨_, _, rfl, Valid.of_delivered hd (hiff.mp hg)⟩
      · rw [if_neg h0]
        refine ⟨_, _, rfl, Valid.of_waiting (q := ⟨l, holes, 0⟩) ⟨rfl, hne, hq, hholes, ?_, ?_⟩⟩
        · intro hc
          have := hiff.mpr hc
          omega
        · exact fun hl => absurd rfl hl

theorem Valid.out_iff (h : Valid s) : s.out.isSome = true ↔ Complete s.got := by
  constructor
  · intro ho
    obtain ⟨msg, hmsg⟩ := Option.isSome_iff_exists.mp ho
    exact (h.delivered msg hmsg).1
  · intro hc
    by_contra ho
    cases hipf : s.ipf with
    | none =>
      have hp := h.fresh hipf
      unfold State.pending at hp
      rw [if_neg ho] at hp
      obtain ⟨f, hf, -⟩ := hc
      simp [hp] at hf
    | some ipf =>
      obtain ⟨q, hw⟩ := h.waiting ipf hipf
      exact hw.incomplete hc

theorem Run.valid (h : Run Sound s) : Valid s := by
  induction h with
  | start => exact ⟨fun _ => rfl, by simp, fun _ => rfl, by simp, by simp⟩
  | frag _ hok hr ih =>
    obtain ⟨q, out, hr', hv⟩ := ih.step hok
    cases hr.symm.trans hr'
    exact hv

end Steps

/-- The queue is in order, without overlap, and made of what has been received; the number of holes
is that of the gaps, with one for a missing tail; and a fragment completes the datagram if and only
if everything up to an end has been received. -/
theorem sound_run_completes {s : State} (h : Run Sound s) :
    (s.out.isSome = true ↔ Complete s.got) ∧ (∀ msg, s.out = some msg → Delivered s.got msg) ∧
    (∀ ipf, s.ipf = some ipf → ∃ q, ipf.harden = some q ∧ (ipf.last = 0 → q = ipf) ∧
      Pieces 0 (spans q.queue) ∧ (∀ x, x ∈ cover (spans q.queue) ↔ x ∈ received s.got) ∧
      (∀ m ∈ q.queue, ∃ f ∈ s.got, PartOf f m) ∧
      q.holeCnt = gapCount (received s.got) (top 0 (spans q.queue)) + missingTail s.got ∧
      (ipf.last ≠ 0 → ∀ x, x ∈ received s.got ↔ x < ipf.last)) ∧
    ∀ f, Sound s f → ∃ r, ipRputLocal s.ipf [f.bytes] = some r := by
  have hv := h.valid
  refine ⟨hv.out_iff, fun msg hmsg => (hv.delivered msg hmsg).2, fun ipf hipf => ?_, fun f hf => ?_⟩
  · obtain ⟨q, hw⟩ := hv.waiting ipf hipf
    have hset : cover (spans q.queue) = received s.got := Set.ext hw.queued.cover
    refine ⟨q, hw.harden, fun h0 => ?_, hw.queued.pieces, hw.queued.cover, hw.queued.parts, ?_,
      fun hl x => ?_⟩
    · have hh := hw.harden
      unfold Ipf.harden at hh
      rw [if_neg (not_not.mpr h0)] at hh
      exact (Option.some.inj hh).symm
    · rw [hw.holes, hw.queued.pieces.gaps_eq, hset]
    · obtain ⟨htop, hgaps, -⟩ := hw.easy hl
      rw [← hset, htop]
      exact ⟨hw.queued.pieces.lt_top, hw.queued.pieces.gaps_eq_zero.mp hgaps x (Nat.zero_le _)⟩
  · obtain ⟨q, out, hr, -⟩ := hv.step hf
    exact ⟨_, hr⟩

/-- A header of 20 bytes for `n` bytes of data, with the fragment field `v`. -/
def plainHdr (n v : ℕ) : List UInt8 :=
  htons (htons (0x45 :: List.replicate 19 0) 2 (20 + n)) 6 v

/-- The bytes from 8 to 16, the last ones. -/
def tailFrag : Frag :=
  ⟨plainHdr 8 1, [8, 9, 10, 11, 12, 13, 14, 15], 1, by decide, by decide, by decide, by decide,
    by decide⟩

/-- The bytes from 0 to 8. -/
def headFrag : Frag :=
  ⟨plainHdr 8 0x2000, [0, 1, 2, 3, 4, 5, 6, 7], 0x2000, by decide, by decide, by decide, by decide,
    by decide⟩

theorem sound_tailFrag : Sound ⟨[], none, none⟩ tailFrag := by
  refine ⟨fun _ => by decide, fun h => absurd h (by decide), fun hc => ?_⟩
  obtain ⟨f, -, -, hall⟩ := hc
  obtain ⟨g, hg, h0, -⟩ := hall 0 (Nat.zero_lt_of_lt f.start_lt_stop)
  obtain rfl : g = tailFrag := by simpa [State.pending] using hg
  exact absurd h0 (by decide)

/-- The two fragments in the wrong order. -/
def swappedDone : State :=
  ⟨[tailFrag, headFrag], none,
    some [plainHdr 16 0 ++ [0, 1, 2, 3, 4, 5, 6, 7], [8, 9, 10, 11, 12, 13, 14, 15]]⟩

theorem swappedDone_run : Run Sound swappedDone := by
  have h1 : Run Sound ⟨[tailFrag], some ⟨[tailFrag.block], 1, 0⟩, none⟩ :=
    Run.start.frag sound_tailFrag (by decide)
  refine h1.frag (f := headFrag) ⟨fun h => absurd h (by decide), fun _ => .inl (by decide),
    fun _ x hx y hy => ?_⟩ (by decide)
  have hmem : ∀ z, z ∈ received [tailFrag, headFrag] ↔ z < 16 := by
    intro z
    have ht : tailFrag.start = 8 ∧ tailFrag.stop = 16 := by decide
    have hh : headFrag.start = 0 ∧ headFrag.stop = 8 := by decide
    simp only [received, Set.mem_ofPred_eq, List.mem_cons, List.not_mem_nil, or_false,
      exists_eq_or_imp, exists_eq_left, ht.1, ht.2, hh.1, hh.2]
    omega
  have hx' := (hmem x).mp hx
  exact (hmem y).mpr (by omega)

theorem sound_run_completes_swapped : swappedDone.out.isSome = true ∧ Complete swappedDone.got :=
  ⟨rfl, (sound_run_completes swappedDone_run).1.mp rfl⟩

/-- The bytes from 16 to 24, the last ones. -/
def lastFrag : Frag :=
  ⟨plainHdr 8 2, [16, 17, 18, 19, 20, 21, 22, 23], 2, by decide, by decide, by decide, by decide,
    by decide⟩

/-- The bytes from 8 to 24, the last ones in a longer fragment. -/
def longFrag : Frag :=
  ⟨plainHdr 16 1, [8, 9, 10, 11, 12, 13, 14, 15, 16, 17, 18, 19, 20, 21, 22, 23], 1, by decide,
    by decide, by decide, by decide, by decide⟩

/-- The bytes from 0 to 16. -/
def frontFrag : Frag :=
  ⟨plainHdr 16 0x2000, [0, 1, 2, 3, 4, 5, 6, 7, 8, 9, 10, 11, 12, 13, 14, 15], 0x2000, by decide,
    by decide, by decide, by decide, by decide⟩

/-- The last fragment and a longer one with the same end complete a datagram of which the first
bytes have not been received. A longer fragment at the beginning leaves its header among the
data. -/
theorem overlap_run_fails :
    (∃ s, Run (fun _ _ => True) s ∧ s.out.isSome = true ∧ ¬ Complete s.got) ∧
    ∃ s msg, Run (fun _ _ => True) s ∧ s.out = some msg ∧ ¬ Delivered s.got msg := by
  constructor
  · have h1 : Run (fun _ _ => True) ⟨[lastFrag], some ⟨[lastFrag.block], 1, 0⟩, none⟩ :=
      Run.start.frag trivial (by decide)
    have h2 : Run (fun _ _ => True) ⟨[lastFrag, longFrag], none,
        some [htons (htons longFrag.payload 2 16) 6 0]⟩ :=
      h1.frag (f := longFrag) trivial (by decide)
    refine ⟨_, h2, rfl, ?_⟩
    rintro ⟨f, -, -, hall⟩
    obtain ⟨g, hg, h0, -⟩ := hall 0 (Nat.zero_lt_of_lt f.start_lt_stop)
    have hg' : g = lastFrag ∨ g = longFrag := by simpa using hg
    rcases hg' with rfl | rfl <;> exact absurd h0 (by decide)
  · have h1 : Run (fun _ _ => True) ⟨[headFrag], some ⟨blocks [headFrag.bytes], 0, 8⟩, none⟩ :=
      Run.start.frag trivial (by decide +kernel)
    have h2 : Run (fun _ _ => True) ⟨[headFrag, frontFrag],
        some ⟨[headFrag.block, ⟨frontFrag.bytes.drop 8, 8, 16⟩], 1, 0⟩, none⟩ :=
      h1.frag (f := frontFrag) trivial (by decide +kernel)
    have h3 : Run (fun _ _ => True) ⟨[headFrag, frontFrag, lastFrag], none,
        some [htons (htons headFrag.bytes 2 64) 6 0, frontFrag.bytes.drop 8, lastFrag.payload]⟩ :=
      h2.frag (f := lastFrag) trivial (by decide)
    refine ⟨_, _, h3, rfl, ?_⟩
    rintro ⟨f, hf, -, payload, hflat, hmem, -⟩
    have hhdr : f.hdr.length = 20 := by
      have hf' : f = headFrag ∨ f = frontFrag ∨ f = lastFrag := by simpa using hf
      rcases hf' with rfl | rfl | rfl <;> rfl
    have hlen := congrArg List.length hflat
    simp only [length_append, htons_length, hhdr] at hlen
    have h64 : payload.length = 44 := by
      have : (List.flatten [htons (htons headFrag.bytes 2 64) 6 0, frontFrag.bytes.drop 8,
        lastFrag.payload]).length = 64 := by decide
      omega
    -- no fragment has a byte at 43
    obtain ⟨g, hg, -, hlt⟩ := (hmem 43).mpr (by omega)
    have hg' : g = headFrag ∨ g = frontFrag ∨ g = lastFrag := by simpa using hg
    rcases hg' with rfl | rfl | rfl <;> exact absurd hlt (by decide)

end Sol26.Ip
