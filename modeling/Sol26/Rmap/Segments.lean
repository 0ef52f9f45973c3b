import Sol26.Rmap.Map

/-!
# The segments of a resource map

The abstract side of a map: a list of non-empty segments in increasing order with gaps between
them, and the set of addresses that they cover. A map represents such a list when its array
holds the segments and only slots of size 0 after them.
-/
namespace Sol26.Rmap

/-- A segment of the resource: not empty, not at address 0, not past the end of the address
space. -/
structure Slot.Sound (s : Slot) : Prop where
  size : 0 < s.size
  addr : 0 < s.addr
  bound : s.addr + s.size ≤ 2 ^ 32

/-- One segment lies before another one with a gap between them. -/
def Slot.Before (s t : Slot) : Prop := s.addr + s.size < t.addr

/-- The segments that a map may hold. -/
structure Layout (segs : List Slot) : Prop where
  sound : ∀ s ∈ segs, s.Sound
  sorted : segs.Pairwise Slot.Before

/-- The addresses that the segments cover. -/
def cover (segs : List Slot) : Set ℕ := { x | ∃ s ∈ segs, s.addr ≤ x ∧ x < s.addr + s.size }

section Cover

variable {pre mid post segs : List Slot} {b s t : Slot} {x : ℕ}

@[simp] theorem mem_cover_nil : x ∈ cover [] ↔ False := by simp [cover]

@[simp] theorem mem_cover_cons :
    x ∈ cover (b :: segs) ↔ (b.addr ≤ x ∧ x < b.addr + b.size) ∨ x ∈ cover segs := by
  simp [cover]

@[simp] theorem mem_cover_append : x ∈ cover (pre ++ post) ↔ x ∈ cover pre ∨ x ∈ cover post := by
  simp [cover, or_and_right, exists_or]

theorem Layout.nil : Layout [] := ⟨by simp, .nil⟩

theorem layout_append : Layout (pre ++ post) ↔
    Layout pre ∧ Layout post ∧ ∀ s ∈ pre, ∀ t ∈ post, s.Before t := by
  constructor
  · intro h
    obtain ⟨h1, h2, h3⟩ := List.pairwise_append.mp h.sorted
    refine ⟨⟨fun s hs => h.sound s ?_, h1⟩, ⟨fun s hs => h.sound s ?_, h2⟩, h3⟩
    · exact List.mem_append_left _ hs
    · exact List.mem_append_right _ hs
  · intro ⟨h1, h2, h3⟩
    constructor
    · intro s hs
      cases List.mem_append.mp hs with
      | inl hs => exact h1.sound s hs
      | inr hs => exact h2.sound s hs
    · exact List.pairwise_append.mpr ⟨h1.sorted, h2.sorted, h3⟩

theorem layout_cons : Layout (b :: post) ↔ b.Sound ∧ Layout post ∧ ∀ t ∈ post, b.Before t := by
  have hb : Layout [b] ↔ b.Sound := ⟨fun h => h.sound b (by simp), fun h => ⟨by simpa, by simp⟩⟩
  rw [← List.singleton_append, layout_append, hb]
  simp

/-- A segment may be replaced by segments inside it. -/
theorem Layout.replace (h : Layout (pre ++ b :: post)) (hm : Layout mid)
    (hin : ∀ s ∈ mid, b.addr ≤ s.addr ∧ s.addr + s.size ≤ b.addr + b.size) :
    Layout (pre ++ (mid ++ post)) := by
  obtain ⟨hpre, hb, hcross⟩ := layout_append.mp h
  obtain ⟨hs, hpost, hgap⟩ := layout_cons.mp hb
  refine layout_append.mpr ⟨hpre, layout_append.mpr ⟨hm, hpost, ?_⟩, ?_⟩
  · intro s hsm t ht
    have := hgap t ht
    have := hin s hsm
    unfold Slot.Before at *
    omega
  · intro s hsp t ht
    have hsb := hcross s hsp b (by simp)
    cases List.mem_append.mp ht with
    | inl ht =>
      have := hin t ht
      unfold Slot.Before at *
      omega
    | inr ht => exact hcross s hsp t (by simp [ht])

/-- Nothing of a segment is covered by the ones around it. -/
theorem Layout.outside (h : Layout (pre ++ b :: post)) (hx : b.addr ≤ x ∧ x < b.addr + b.size) :
    x ∉ cover pre ∧ x ∉ cover post := by
  obtain ⟨-, hb, hcross⟩ := layout_append.mp h
  obtain ⟨-, -, hgap⟩ := layout_cons.mp hb
  constructor
  · rintro ⟨s, hs, hsx⟩
    have := hcross s hs b (by simp)
    unfold Slot.Before at this
    omega
  · rintro ⟨t, ht, htx⟩
    have := hgap t ht
    unfold Slot.Before at this
    omega

/-- A segment of which the range `[lo, hi)` is cut out covers what is left. -/
theorem Layout.cover_cut (h : Layout (pre ++ b :: post)) {lo hi : ℕ} (hlo : b.addr ≤ lo)
    (hhi : hi ≤ b.addr + b.size)
    (hmid : ∀ x, x ∈ cover mid ↔ (b.addr ≤ x ∧ x < b.addr + b.size) ∧ ¬ (lo ≤ x ∧ x < hi)) :
    cover (pre ++ (mid ++ post)) = cover (pre ++ b :: post) \ Set.Ico lo hi := by
  ext x
  have hout : b.addr ≤ x ∧ x < b.addr + b.size → x ∉ cover pre ∧ x ∉ cover post := h.outside
  simp only [mem_cover_append, mem_cover_cons, hmid, Set.mem_sdiff, Set.mem_Ico]
  constructor
  · rintro (hp | ⟨hb, hc⟩ | hp)
    · exact ⟨.inl hp, fun hc => (hout (by omega)).1 hp⟩
    · exact ⟨.inr (.inl hb), hc⟩
    · exact ⟨.inr (.inr hp), fun hc => (hout (by omega)).2 hp⟩
  · rintro ⟨hp | hb | hp, hc⟩
    · exact .inl hp
    · exact .inr (.inl ⟨hb, hc⟩)
    · exact .inr (.inr hp)

end Cover

/-! ### The array -/

section Edits

variable {segs zs : List Slot} {b z u : Slot} {size addr : ℕ}

theorem shiftDown_segments (hs : ∀ s ∈ segs, s.size ≠ 0) (hz : z.size = 0) :
    shiftDown (b :: (segs ++ z :: zs)) = segs ++ z :: z :: zs := by
  induction segs generalizing b with
  | nil => simp [shiftDown, hz]
  | cons s segs ih =>
    simp only [List.cons_append, shiftDown, hs s (by simp), ↓reduceIte]
    rw [ih fun t ht => hs t (by simp [ht])]

theorem pushUp_segments (hs : ∀ s ∈ segs, s.size ≠ 0) (hz : z.size = 0) :
    pushUp size addr (segs ++ z :: zs) = ⟨size, addr⟩ :: (segs ++ zs) := by
  induction segs generalizing size addr with
  | nil => simp [pushUp, hz]
  | cons s segs ih =>
    simp only [List.cons_append, pushUp, hs s (by simp), ↓reduceIte]
    rw [ih fun t ht => hs t (by simp [ht])]

theorem openUp_segments (hs : ∀ s ∈ segs, s.size ≠ 0) (hz : z.size = 0) :
    openUp b (segs ++ z :: u :: zs) = b :: (segs ++ { u with size := 0 } :: zs) := by
  induction segs generalizing b with
  | nil => simp [openUp, hz]
  | cons s segs ih =>
    have hs' : ∀ t ∈ segs, t.size ≠ 0 := fun t ht => hs t (by simp [ht])
    have hstep : openUp b (s :: (segs ++ z :: u :: zs)) = b :: openUp s (segs ++ z :: u :: zs) := by
      cases segs <;> simp [openUp, hs s (by simp)]
    rw [List.cons_append, hstep, ih hs', List.cons_append]

end Edits

/-- The segments of a map: what the array holds before its first slot of size 0. -/
def RMap.segments (mp : RMap) : List Slot := mp.map.takeWhile fun s => s.size ≠ 0

/-- The map represents the segments. -/
structure Represents (mp : RMap) (segs zs : List Slot) : Prop where
  map : mp.map = segs ++ zs
  layout : Layout segs
  zero : ∀ z ∈ zs, z.size = 0
  count : mp.mfree + segs.length = mp.msize
  length : mp.map.length = mp.msize + 2
  slots : 1 ≤ mp.msize

section Represents

variable {mp : RMap} {segs zs pre post : List Slot} {b : Slot}

theorem Represents.segments_eq (h : Represents mp segs zs) : mp.segments = segs := by
  have hs : ∀ s ∈ segs, decide (s.size ≠ 0) = true := fun s hs => by
    simpa using (h.layout.sound s hs).size.ne'
  have hz : zs.takeWhile (fun s => s.size ≠ 0) = [] := by
    cases zs with
    | nil => rfl
    | cons z zs => simp [h.zero z (by simp)]
  rw [RMap.segments, h.map, List.takeWhile_append_of_pos hs, hz, List.append_nil]

theorem Represents.ne_zero (h : Represents mp segs zs) : ∀ s ∈ segs, s.size ≠ 0 :=
  fun s hs => (h.layout.sound s hs).size.ne'

/-- There are two slots of size 0 or more: the array has two slots more than segments fit. -/
theorem Represents.terminator (h : Represents mp segs zs) :
    ∃ z u zs', zs = z :: u :: zs' ∧ z.size = 0 ∧ u.size = 0 := by
  have hlen := h.length
  rw [h.map, List.length_append] at hlen
  have hcount := h.count
  match zs, h with
  | [], _ => simp at hlen; omega
  | [z], _ => simp at hlen; omega
  | z :: u :: zs', h => exact ⟨z, u, zs', rfl, h.zero z (by simp), h.zero u (by simp)⟩

/-- A scan of the array that stops at the terminator is a scan of the segments. -/
theorem Represents.scan (h : Represents mp segs zs) (skip : Slot → Bool)
    (hskip : ∀ s, s.size = 0 → skip s = false) :
    mp.map.takeWhile skip = segs.takeWhile skip ∧
      mp.map.dropWhile skip = segs.dropWhile skip ++ zs := by
  obtain ⟨z, u, zs', rfl, hz, -⟩ := h.terminator
  rw [h.map]
  constructor
  · rw [List.takeWhile_append]
    split_ifs with hlen
    · simp [hskip z hz, (List.takeWhile_prefix skip).eq_of_length hlen]
    · rfl
  · rw [List.dropWhile_append]
    split_ifs with hnil
    · simp [hskip z hz, List.isEmpty_iff.mp hnil]
    · rfl

end Represents

end Sol26.Rmap
