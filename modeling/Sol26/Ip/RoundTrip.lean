import Sol26.Ip.Complete
import Sol26.Ip.Tiles

/-!
# Fragmentation and reassembly

The fragments of one datagram, delivered in any order and any number of times.
-/
namespace Sol26.Ip

open Gaps
open List (flatten length_append mem_cons)

section Tiles

variable {m : Bool} {o : ℕ} {p : List UInt8} {fs : List Frag}

theorem Tiles.stop_le (h : Tiles m o p fs) : ∀ f ∈ fs, f.stop ≤ o + p.length := by
  induction h with
  | last hm => simp [Frag.stop]
  | @cons f p fs hm h8 h ih =>
    intro g hg
    have hstop : f.stop = f.start + f.payload.length := rfl
    rw [length_append]
    cases mem_cons.mp hg with
    | inl hg =>
      rw [hg]
      omega
    | inr hg =>
      have := ih g hg
      omega

/-- Every byte is in one of the fragments. -/
theorem Tiles.cover (h : Tiles m o p fs) {x : ℕ} (h1 : o ≤ x) (h2 : x < o + p.length) :
    ∃ f ∈ fs, f.start ≤ x ∧ x < f.stop := by
  induction h with
  | last hm => exact ⟨_, by simp, h1, h2⟩
  | @cons f p fs hm h8 h ih =>
    have hstop : f.stop = f.start + f.payload.length := rfl
    rw [length_append] at h2
    by_cases hx : x < f.stop
    · exact ⟨f, by simp, h1, hx⟩
    · obtain ⟨g, hg, hmem⟩ := ih (by omega) (by omega)
      exact ⟨g, List.mem_cons_of_mem _ hg, hmem⟩

/-- The bytes of a fragment are at their place in the payload. -/
theorem Tiles.slice (h : Tiles m o p fs) : ∀ f ∈ fs, ∀ i b, f.payload[i]? = some b →
    p[f.start - o + i]? = some b := by
  induction h with
  | @last f hm =>
    intro g hg i b hb
    obtain rfl : g = f := by simpa using hg
    rw [Nat.sub_self, Nat.zero_add, hb]
  | @cons f p fs hm h8 h ih =>
    intro g hg i b hb
    have hstop : f.stop = f.start + f.payload.length := rfl
    cases mem_cons.mp hg with
    | inl hg =>
      subst hg
      rw [Nat.sub_self, Nat.zero_add,
        List.getElem?_append_left (List.getElem?_eq_some_iff.mp hb).choose, hb]
    | inr hg =>
      have hle := h.le_start g hg
      rw [List.getElem?_append_right (by omega), ← ih g hg i b hb]
      congr 1
      omega

/-- Two fragments are the same or do not overlap. -/
theorem Tiles.eq_of_mem (h : Tiles m o p fs) {f g : Frag} (hf : f ∈ fs) (hg : g ∈ fs) {x : ℕ}
    (h1 : f.start ≤ x) (h2 : x < f.stop) (h3 : g.start ≤ x) (h4 : x < g.stop) : f = g := by
  induction h with
  | @last f0 hm =>
    obtain rfl : f = f0 := by simpa using hf
    obtain rfl : g = f := by simpa using hg
    rfl
  | @cons f0 p fs hm h8 h ih =>
    have hle := h.le_start
    cases mem_cons.mp hf with
    | inl hf =>
      cases mem_cons.mp hg with
      | inl hg => rw [hf, hg]
      | inr hg =>
        have := hle g hg
        rw [hf] at h2
        omega
    | inr hf =>
      cases mem_cons.mp hg with
      | inl hg =>
        have := hle f hf
        rw [hg] at h4
        omega
      | inr hg => exact ih hf hg

theorem Tiles.ne_nil (h : Tiles m o p fs) : p ≠ [] := by
  cases h with
  | last hm => exact Frag.nonempty _
  | cons hm h8 h => simp [Frag.nonempty]

/-- With the flag of the datagram clear, it is clear in the last fragment only. -/
theorem Tiles.more_eq_false (h : Tiles false o p fs) {f : Frag} (hf : f ∈ fs) :
    f.more = false ↔ f.stop = o + p.length := by
  induction h with
  | @last f0 hm =>
    obtain rfl : f = f0 := by simpa using hf
    simp [hm, Frag.stop]
  | @cons f0 p fs hm h8 h ih =>
    have hstop : f0.stop = f0.start + f0.payload.length := rfl
    have hpos := List.length_pos_iff.mpr h.ne_nil
    rw [length_append]
    cases mem_cons.mp hf with
    | inl hf =>
      rw [hf, hm]
      simp only [Bool.true_eq_false, false_iff]
      omega
    | inr hf =>
      rw [ih hf]
      omega

/-- There is a last fragment. -/
theorem Tiles.exists_last (h : Tiles m o p fs) : ∃ f ∈ fs, f.stop = o + p.length := by
  induction h with
  | last hm => exact ⟨_, by simp, rfl⟩
  | @cons f p fs hm h8 h ih =>
    obtain ⟨g, hg, hstop⟩ := ih
    refine ⟨g, List.mem_cons_of_mem _ hg, ?_⟩
    rw [hstop, Frag.stop, length_append]
    omega

end Tiles

/-- What the surplus is when the fragment is all there. -/
theorem surplus_eq_zero {s e : ℕ} {l : List (ℕ × ℕ)} (hse : s < e) (h : e ≤ lead s l) :
    surplus e s l = 0 := by
  induction l generalizing s with
  | nil =>
    unfold lead at h
    omega
  | cons p l ih =>
    unfold lead at h
    unfold surplus
    by_cases hp : p.1 ≤ s
    · rw [if_pos hp] at h
      rw [if_neg (by omega)]
      split_ifs with h2
      · rfl
      · apply ih _ h
        omega
    · rw [if_neg hp] at h
      omega

/-- What it is when nothing from the start of the fragment on is there. -/
theorem surplus_eq_one {a s e : ℕ} {l : List (ℕ × ℕ)} (hl : Pieces a l) (hse : s < e)
    (h : top a l ≤ s) : surplus e s l = 1 := by
  induction l generalizing a with
  | nil => rfl
  | cons p l ih =>
    obtain ⟨h1, h2, h3⟩ := hl
    have hle := h3.le_top
    have h' : top p.2 l ≤ s := h
    unfold surplus
    rw [if_neg (by omega), if_neg (by omega), max_eq_left (by omega)]
    exact ih h3 h

theorem lead_eq_self {s : ℕ} {l : List (ℕ × ℕ)} (h : s ∉ cover l) : lead s l = s := by
  by_contra hne
  have hle : s ≤ lead s l := le_lead
  exact h (mem_cover_of_lt_lead le_rfl (by omega))

section Deliver

variable {p : List UInt8} {fs : List Frag} {s : State} {f : Frag}

theorem mem_received_of_mem {got : List Frag} (hf : f ∈ got) {x : ℕ} (h1 : f.start ≤ x)
    (h2 : x < f.stop) : x ∈ received got := ⟨f, hf, h1, h2⟩

/-- The fragments of one datagram do not run into the defects. -/
theorem Tiles.sound (ht : Tiles false 0 p fs) (hs : Valid s) (hgot : ∀ g ∈ s.pending, g ∈ fs)
    (hf : f ∈ fs) : Sound s f := by
  have hlt := f.start_lt_stop
  obtain ⟨hpieces, hcover, -⟩ := hs.queued
  -- the lead is past a fragment that is there
  have hlead : f ∈ s.pending → f.stop ≤ lead f.start (spans s.queue) := by
    intro hmem
    by_contra hgt
    have hle : f.start ≤ lead f.start (spans s.queue) := le_lead
    exact hpieces.lead_notMem ((hcover _).mpr (mem_received_of_mem hmem hle (by omega)))
  refine ⟨fun hmore => ?_, fun h0 => ?_, fun hc x hx y hy => ?_⟩
  · have hstop := (ht.more_eq_false hf).mp hmore
    by_cases hmem : f ∈ s.pending
    · rw [surplus_eq_zero hlt (hlead hmem), missingTail_eq_zero.mpr ⟨f, hmem, hmore⟩]
    · -- the others all end before the last one
      have hother : ∀ g ∈ s.pending, ∀ x, g.start ≤ x → x < g.stop → x < f.start := by
        intro g hg x h1 h2
        by_contra hx
        have hle := ht.stop_le g (hgot g hg)
        exact hmem (ht.eq_of_mem hf (hgot g hg) (not_lt.mp hx) (by omega) h1 h2 ▸ hg)
      have hall : s.pending.all Frag.more = true := by
        rw [List.all_eq_true]
        intro g hg
        by_contra hgm
        have hgstop := (ht.more_eq_false (hgot g hg)).mp (by simpa using hgm)
        have hglt := g.start_lt_stop
        have := hother g hg (g.stop - 1) (by omega) (by omega)
        omega
      have htop : top 0 (spans s.queue) ≤ f.start := by
        by_cases hq : spans s.queue = []
        · simp [hq, top]
        · obtain ⟨g, hg, h1, h2⟩ := (hcover _).mp (hpieces.pred_top_mem hq)
          have := hother g hg _ h1 h2
          omega
      rw [surplus_eq_one hpieces hlt htop, missingTail, if_pos hall]
  · by_cases hmem : f ∈ s.pending
    · exact .inr (h0 ▸ hlead hmem)
    · left
      apply lead_eq_self
      intro hx
      obtain ⟨g, hg, h1, h2⟩ := (hcover 0).mp hx
      have : f = g := ht.eq_of_mem hf (hgot g hg) (x := 0) (by omega) (by omega) h1 h2
      exact hmem (this ▸ hg)
  · have hmem : ∀ g ∈ s.pending ++ [f], g ∈ fs := by
      intro g hg
      cases List.mem_append.mp hg with
      | inl hg => exact hgot g hg
      | inr hg => exact List.mem_singleton.mp hg ▸ hf
    obtain ⟨g, hg, hmore, hall⟩ := hc
    obtain ⟨g', hg', -, hx2⟩ := hx
    have hstop := (ht.more_eq_false (hmem g hg)).mp hmore
    have hle := ht.stop_le g' (hmem g' hg')
    exact hall y (by omega)

theorem Tiles.run (ht : Tiles false 0 p fs) (h : Run (fun _ f => f ∈ fs) s) :
    Run Sound s ∧ ∀ g ∈ s.got, g ∈ fs := by
  induction h with
  | start => exact ⟨.start, by simp⟩
  | @frag s _ f hf q out hr ih =>
    obtain ⟨hrun, hgot⟩ := ih
    have hpend : ∀ g ∈ s.pending, g ∈ fs := fun g hg => hgot g (State.mem_got_of_pending hg)
    refine ⟨hrun.frag (ht.sound hrun.valid hpend hf) hr, fun g hg => ?_⟩
    cases List.mem_append.mp hg with
    | inl hg => exact hpend g hg
    | inr hg => exact List.mem_singleton.mp hg ▸ hf

/-- What is complete is all the fragments. -/
theorem Tiles.complete_iff (ht : Tiles false 0 p fs) {got : List Frag} (hgot : ∀ g ∈ got, g ∈ fs) :
    Complete got ↔ ∀ f ∈ fs, f ∈ got := by
  constructor
  · rintro ⟨f, hf, hmore, hall⟩ g hg
    have hstop := (ht.more_eq_false (hgot f hf)).mp hmore
    have hle := ht.stop_le g hg
    have hlt := g.start_lt_stop
    obtain ⟨g', hg', h1, h2⟩ := hall g.start (by omega)
    rwa [ht.eq_of_mem hg (hgot g' hg') le_rfl hlt h1 h2]
  · intro hall
    obtain ⟨f, hf, hstop⟩ := ht.exists_last
    refine ⟨f, hall f hf, (ht.more_eq_false hf).mpr hstop, fun x hx => ?_⟩
    obtain ⟨g, hg, h1, h2⟩ := ht.cover (Nat.zero_le x) (by omega)
    exact mem_received_of_mem (hall g hg) h1 h2

/-- What is delivered of them is the payload. -/
theorem Tiles.delivered (ht : Tiles false 0 p fs) {got : List Frag} (hgot : ∀ g ∈ got, g ∈ fs)
    (hall : ∀ f ∈ fs, f ∈ got) {msg : List (List UInt8)} (hd : Delivered got msg) :
    ∃ f ∈ fs, f.start = 0 ∧ ∃ hdr, hdr.length = f.hdr.length ∧ msg.flatten = hdr ++ p := by
  obtain ⟨f, hf, hs, payload, hmsg, hmem, hbytes⟩ := hd
  have hp : payload = p := by
    have hlen : ∀ x, x < payload.length ↔ x < p.length := by
      intro x
      rw [← hmem x]
      constructor
      · rintro ⟨g, hg, -, h2⟩
        have := ht.stop_le g (hgot g hg)
        omega
      · intro hx
        obtain ⟨g, hg, h1, h2⟩ := ht.cover (Nat.zero_le x) (by omega)
        exact mem_received_of_mem (hall g hg) h1 h2
    have hleneq : payload.length = p.length := by
      have h1 := hlen payload.length
      have h2 := hlen p.length
      omega
    apply List.ext_getElem? fun x => ?_
    cases hb : payload[x]? with
    | none =>
      have := List.getElem?_eq_none_iff.mp hb
      exact (List.getElem?_eq_none_iff.mpr (by omega)).symm
    | some b =>
      obtain ⟨g, hg, h1, h2⟩ := hbytes x b hb
      have := ht.slice g (hgot g hg) _ b h2
      rw [← this]
      congr 1
      omega
  exact ⟨f, hgot f hf, hs, _, by simp, hp ▸ hmsg⟩

end Deliver

/-- A datagram without `IPH_DF` that is longer than `max_frag` is sent as fragments that cover its
payload one after the other. If it is not a fragment itself, these fragments, each in one block, in
any order and any number of times, complete a datagram whenever all of them have been delivered
since the last time, and it has the payload that was sent. -/
theorem ipWputFrag_roundTrip {mp : List (List UInt8)} {hdr payload copied : List UInt8}
    {field maxFrag d : ℕ} (h : IsDatagram mp hdr payload field) (hdf : field &&& iphDf = 0)
    (hd : d = 0 ∨ d = iphDf) (hmin : hdr.length + 8 ≤ maxFrag)
    (hmax : maxFrag < hdr.length + payload.length)
    (hcopy : ipWputFragCopyhdr (htons hdr 10 0) (field &&& iphOffset) = some copied)
    (hend : 8 * (field &&& iphOffset) + payload.length ≤ 65536) :
    ∃ msgs fs, ipWputFrag mp maxFrag d = some msgs ∧ msgs.map flatten = fs.map Frag.bytes ∧
      Tiles (decide (field &&& iphMf ≠ 0)) (8 * (field &&& iphOffset)) payload fs ∧
      (field &&& iphMf = 0 → field &&& iphOffset = 0 → ∀ s, Run (fun _ f => f ∈ fs) s →
        (s.out.isSome = true ↔ ∀ f ∈ fs, f ∈ s.got) ∧
        (∀ msg, s.out = some msg → ∃ hdr', hdr'.length = hdr.length ∧
          msg.flatten = hdr' ++ payload) ∧
        ∀ f ∈ fs, ∃ r, ipRputLocal s.ipf [f.bytes] = some r) := by
  obtain ⟨msgs, fs, hmsgs, hfs, htiles, hhdr⟩ := ipWputFrag_tiles h hdf hd hmin hmax hcopy hend
  refine ⟨msgs, fs, hmsgs, hfs, htiles, fun hmf hoff s hrun => ?_⟩
  have ht : Tiles false 0 payload fs := by simpa [hmf, hoff] using htiles
  rw [hoff] at hhdr
  obtain ⟨hsound, hgot⟩ := ht.run hrun
  have hv := hsound.valid
  have hpend : ∀ g ∈ s.pending, g ∈ fs := fun g hg => hgot g (State.mem_got_of_pending hg)
  have hiff := ht.complete_iff hgot
  refine ⟨hv.out_iff.trans hiff, fun msg hmsg => ?_, fun f hf => ?_⟩
  · obtain ⟨hc, hdel⟩ := hv.delivered msg hmsg
    obtain ⟨f, hf, hs, hdr', hlen, hflat⟩ := ht.delivered hgot (hiff.mp hc) hdel
    exact ⟨hdr', hlen.trans (hhdr f hf hs), hflat⟩
  · obtain ⟨q, out, hr, -⟩ := hv.step (ht.sound hv hpend hf)
    exact ⟨_, hr⟩

/-- A datagram of 24 bytes with a header of 20, in four blocks. -/
def chain : List (List UInt8) :=
  [plainHdr 24 0 ++ [0, 1, 2, 3, 4, 5, 6, 7], [8, 9, 10, 11, 12, 13, 14, 15], [16, 17, 18, 19],
    [20, 21, 22, 23]]

theorem chain_isDatagram : IsDatagram chain (plainHdr 24 0) (chain.flatten.drop 20) 0 :=
  ⟨⟨by decide, by decide⟩, ⟨_, _, rfl, rfl⟩, by decide, by decide⟩

theorem ipWputFrag_roundTrip_chain : ∃ msgs fs, ipWputFrag chain 28 0 = some msgs ∧
    msgs.map flatten = fs.map Frag.bytes ∧ Tiles false 0 (chain.flatten.drop 20) fs := by
  obtain ⟨msgs, fs, h1, h2, h3, -⟩ := ipWputFrag_roundTrip chain_isDatagram (by decide)
    (.inl rfl) (show (plainHdr 24 0).length + 8 ≤ 28 by decide) (by decide) rfl (by decide)
  exact ⟨msgs, fs, h1, h2, h3⟩

/-- Whether each of the messages completes a datagram. -/
def completions (ipf : Option Ipf) : List (List (List UInt8)) → Option (List Bool)
  | [] => some []
  | mp :: rest => do
    let r ← ipRputLocal ipf mp
    let rest ← completions r.1 rest
    return r.2.isSome :: rest

/-- The last fragment comes in three blocks, of which the last one follows on the one before: the
hole in front of them is taken for filled, and the datagram is complete without its second
fragment. Nor is a datagram sent that need not be fragmented, and one that is complete is
forgotten. -/
theorem chain_not_roundTrip :
    ∃ first second third, ipWputFrag chain 28 0 = some [first, second, third] ∧
      completions none [first, third] = some [false, true] ∧
      completions none [[first.flatten], [third.flatten]] = some [false, false] ∧
      ipWputFrag chain 44 0 = some [] ∧
      completions none ([first, second, third, first, second, third].map fun m => [m.flatten]) =
        some [false, false, true, false, false, true] := by
  refine ⟨[stampHdr (plainHdr 24 0) 0x2000 28 ++ [0, 1, 2, 3, 4, 5, 6, 7]],
    [stampHdr (plainHdr 24 0) 0x2001 28, [8, 9, 10, 11, 12, 13, 14, 15]],
    [stampHdr (plainHdr 24 0) 2 28, [16, 17, 18, 19], [20, 21, 22, 23]], ?_⟩
  decide +kernel

end Sol26.Ip
