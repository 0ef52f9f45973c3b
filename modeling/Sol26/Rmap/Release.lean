import Mathlib
import Sol26.Rmap.Allocate

/-!
# Giving space back to a resource map

`rmfree` joins the space to the segments that it abuts on, or puts a new segment between the
others. When there is no slot for that, it gives up a segment and tries again.
-/
namespace Sol26.Rmap

section Layouts

variable {pre post : List Slot} {s : Slot}

theorem Layout.remove (segs : List Slot) (h : Layout (pre ++ (segs ++ post))) :
    Layout (pre ++ post) := by
  obtain ⟨h1, h2, h3⟩ := layout_append.mp h
  obtain ⟨-, h4, -⟩ := layout_append.mp h2
  exact layout_append.mpr ⟨h1, h4, fun s hs t ht => h3 s hs t (by simp [ht])⟩

/-- A segment may be put between segments that it does not touch. -/
theorem Layout.insert (h : Layout (pre ++ post)) (hs : s.Sound) (hpre : ∀ t ∈ pre, t.Before s)
    (hpost : ∀ t ∈ post, s.Before t) : Layout (pre ++ s :: post) := by
  obtain ⟨h1, h2, h3⟩ := layout_append.mp h
  refine layout_append.mpr ⟨h1, layout_cons.mpr ⟨hs, h2, hpost⟩, fun t ht u hu => ?_⟩
  cases List.mem_cons.mp hu with
  | inl hu => exact hu ▸ hpre t ht
  | inr hu => exact h3 t ht u hu

/-- Segments that grow by a range make the whole grow by it. -/
theorem cover_give (old new : List Slot) {lo hi : ℕ}
    (h : ∀ x, x ∈ cover new ↔ x ∈ cover old ∨ lo ≤ x ∧ x < hi) :
    cover (pre ++ (new ++ post)) = cover (pre ++ (old ++ post)) ∪ Set.Ico lo hi := by
  ext x
  simp only [mem_cover_append, h, Set.mem_union, Set.mem_Ico]
  tauto

end Layouts

section Joins

variable {mp : RMap} {segs zs pre post : List Slot} {left right : Slot} {size addr : ℕ}

/-- The map is what the segments are with `[addr, addr + size)` put in. -/
def Gives (segs : List Slot) (mp' : RMap) (size addr : ℕ) : Prop :=
  ∃ segs' zs', Represents mp' segs' zs' ∧
    cover segs' = cover segs ∪ Set.Ico addr (addr + size)

/-- The space fills the gap between two segments. -/
theorem Represents.gives_both (h : Represents mp (pre ++ left :: right :: post) zs)
    (hl : left.addr + left.size = addr) (hr : addr + size = right.addr) :
    Gives (pre ++ left :: right :: post)
      { mp with
        map := pre ++ ⟨left.size + size + right.size, left.addr⟩ :: shiftDown (right :: (post ++ zs))
        mfree := mp.mfree + 1 }
      size addr := by
  obtain ⟨z, u, zs', rfl, hz, hu⟩ := h.terminator
  have hlay := h.layout
  have hls := hlay.sound left (by simp)
  have hrs := hlay.sound right (by simp)
  have hpost : ∀ t ∈ post, t.size ≠ 0 := fun t ht => h.ne_zero t (by simp [ht])
  obtain ⟨-, h2, h3⟩ := layout_append.mp hlay
  obtain ⟨-, h4, -⟩ := layout_cons.mp h2
  obtain ⟨-, -, h5⟩ := layout_cons.mp h4
  refine ⟨_, z :: z :: u :: zs', h.splice [left, right]
    [⟨left.size + size + right.size, left.addr⟩] ?_ ?_ ?_ ?_ rfl ?_, ?_⟩
  · simp [shiftDown_segments hpost hz]
  · apply (hlay.remove [left, right]).insert
    · have := hls.addr
      have := hls.size
      have := hrs.bound
      constructor <;> dsimp only <;> omega
    · exact fun t ht => h3 t ht left (by simp)
    · intro t ht
      have := h5 t ht
      unfold Slot.Before at *
      dsimp only
      omega
  · exact List.forall_mem_cons.mpr ⟨hz, h.zero⟩
  · simp
    omega
  · simp
  · apply cover_give [left, right] [⟨left.size + size + right.size, left.addr⟩]
    intro x
    simp only [mem_cover_cons, mem_cover_nil, or_false]
    omega

/-- The space follows a segment and ends before the next one. -/
theorem Represents.gives_left (h : Represents mp (pre ++ left :: post) zs)
    (hl : left.addr + left.size = addr) (hwrap : addr + size ≤ 2 ^ 32)
    (hr : ∀ t ∈ post, addr + size < t.addr) :
    Gives (pre ++ left :: post)
      { mp with map := pre ++ ⟨left.size + size, left.addr⟩ :: (post ++ zs) } size addr := by
  have hls := h.layout.sound left (by simp)
  obtain ⟨-, -, h3⟩ := layout_append.mp h.layout
  refine ⟨_, zs, h.splice [left] [⟨left.size + size, left.addr⟩] (by simp) ?_ h.zero rfl rfl rfl,
    ?_⟩
  · apply (h.layout.remove [left]).insert
    · have := hls.addr
      have := hls.size
      constructor <;> dsimp only <;> omega
    · exact fun t ht => h3 t ht left (by simp)
    · intro t ht
      have := hr t ht
      unfold Slot.Before
      dsimp only
      omega
  · apply cover_give [left] [⟨left.size + size, left.addr⟩]
    intro x
    simp only [mem_cover_cons, mem_cover_nil, or_false]
    omega

/-- The space ends where a segment begins and begins after the one before. -/
theorem Represents.gives_right (h : Represents mp (pre ++ right :: post) zs) (ha : 0 < addr)
    (hr : addr + size = right.addr) (hl : ∀ s ∈ pre, s.addr + s.size < addr) :
    Gives (pre ++ right :: post)
      { mp with map := pre ++ ⟨right.size + size, right.addr - size⟩ :: (post ++ zs) }
      size addr := by
  have hrs := h.layout.sound right (by simp)
  obtain ⟨-, h2, -⟩ := layout_append.mp h.layout
  obtain ⟨-, -, h3⟩ := layout_cons.mp h2
  refine ⟨_, zs, h.splice [right] [⟨right.size + size, right.addr - size⟩] (by simp) ?_ h.zero rfl
    rfl rfl, ?_⟩
  · apply (h.layout.remove [right]).insert
    · have := hrs.size
      have := hrs.bound
      constructor <;> dsimp only <;> omega
    · intro s hs
      have := hl s hs
      unfold Slot.Before
      dsimp only
      omega
    · intro t ht
      have := h3 t ht
      unfold Slot.Before at *
      dsimp only
      omega
  · apply cover_give [right] [⟨right.size + size, right.addr - size⟩]
    intro x
    simp only [mem_cover_cons, mem_cover_nil, or_false]
    omega

/-- The space becomes a segment of its own. -/
theorem Represents.gives_new (h : Represents mp (pre ++ post) zs) (ha : 0 < addr)
    (hsize : 0 < size) (hwrap : addr + size ≤ 2 ^ 32) (hl : ∀ s ∈ pre, s.addr + s.size < addr)
    (hr : ∀ t ∈ post, addr + size < t.addr) (hfree : mp.mfree ≠ 0) :
    Gives (pre ++ post)
      { mp with map := pre ++ pushUp size addr (post ++ zs), mfree := mp.mfree - 1 }
      size addr := by
  obtain ⟨z, u, zs', rfl, hz, hu⟩ := h.terminator
  have hpost : ∀ t ∈ post, t.size ≠ 0 := fun t ht => h.ne_zero t (by simp [ht])
  refine ⟨_, u :: zs', h.splice [] [⟨size, addr⟩] ?_ ?_ ?_ ?_ rfl ?_, ?_⟩
  · simp [pushUp_segments hpost hz]
  · exact h.layout.insert ⟨hsize, ha, hwrap⟩ hl hr
  · exact fun y hy => h.zero y (by simp [hy])
  · simp
    omega
  · simp
    omega
  · apply cover_give [] [⟨size, addr⟩]
    simp

end Joins

section Overflow

variable {mp : RMap} {segs zs : List Slot}

@[simp] theorem cell_succ (mp : RMap) (i : ℕ) : mp.cell (i + 1) = mp.map.getD i ⟨0, 0⟩ := by
  simp [RMap.cell]

/-- The entry is given up and the one after it takes its place. -/
theorem discard_slot {pre rest : List Slot} {x y : Slot} (hmap : mp.map = pre ++ x :: y :: rest) :
    mp.discard (pre.length + 1) =
      { mp with mfree := mp.mfree + 1, map := pre ++ y :: { y with size := 0 } :: rest } := by
  unfold RMap.discard
  simp [hmap, List.set_append_right]

/-- The slot that is compared with the last segment: the one before it, which is the header
for a map with one segment. -/
theorem smaller_eq (h : Represents mp segs zs) :
    mp.smaller = if (mp.cell (segs.length - 1)).size < (mp.cell segs.length).size
      then segs.length - 1 else segs.length := by
  rw [← h.segments_eq]
  rfl

theorem Represents.cell_eq {pre post : List Slot} {x : Slot}
    (h : Represents mp (pre ++ x :: post) zs) : mp.cell (pre.length + 1) = x := by
  simp [h.map]

/-- The last segment or the last but one is given up. -/
theorem Represents.discard {pre post : List Slot} {x : Slot}
    (h : Represents mp (pre ++ x :: post) zs) (hpost : post.length ≤ 1) :
    ∃ zs', Represents (mp.discard (pre.length + 1)) (pre ++ ([] ++ post)) zs' := by
  have hlay : Layout (pre ++ ([] ++ post)) := h.layout.replace .nil (by simp)
  cases post with
  | nil =>
    obtain ⟨z, u, zs', rfl, hz, hu⟩ := h.terminator
    have hmap : mp.map = pre ++ x :: z :: (u :: zs') := by simp [h.map]
    rw [discard_slot hmap]
    refine ⟨z :: { z with size := 0 } :: u :: zs', h.splice [x] [] (by simp) hlay ?_ ?_ rfl rfl⟩
    · intro y hy
      simp only [List.mem_cons] at hy
      rcases hy with rfl | rfl | hy
      · exact hz
      · rfl
      · exact h.zero y (by simpa using .inr hy)
    · simp
      omega
  | cons y post =>
    obtain rfl : post = [] := by simpa using hpost
    have hmap : mp.map = pre ++ x :: y :: zs := by simp [h.map]
    rw [discard_slot hmap]
    refine ⟨{ y with size := 0 } :: zs, h.splice [x] [] (by simp) hlay ?_ ?_ rfl rfl⟩
    · exact List.forall_mem_cons.mpr ⟨rfl, h.zero⟩
    · simp
      omega

/-- Which of the last two segments goes. With one segment, the word of the header that stands
before it is taken for the size of another one. -/
theorem Represents.smaller_cases (h : Represents mp segs zs) (hne : segs ≠ [])
    (hsafe : ∀ s, segs = [s] → s.size ≤ mp.before.size) :
    ∃ pre x post, segs = pre ++ x :: post ∧ post.length ≤ 1 ∧ mp.smaller = pre.length + 1 := by
  obtain ⟨init, b, rfl⟩ := List.eq_nil_or_concat segs |>.resolve_left hne
  rw [List.concat_eq_append] at *
  have hb : (mp.cell (init ++ [b]).length).size = b.size := by
    rw [List.length_append, List.length_singleton, h.cell_eq]
  have hsmaller := smaller_eq h
  rw [hb, List.length_append, List.length_singleton, Nat.add_sub_cancel] at hsmaller
  split_ifs at hsmaller with hlt
  · rcases List.eq_nil_or_concat init with rfl | ⟨init', p, rfl⟩
    · exact absurd (hsafe b rfl) (not_le.mpr hlt)
    · refine ⟨init', p, [b], by simp, by simp, ?_⟩
      rw [hsmaller]
      simp
  · exact ⟨init, b, [], rfl, by simp, hsmaller⟩

theorem overflow_spec (h : Represents mp segs zs) (hne : segs ≠ [])
    (hsafe : ∀ s, segs = [s] → s.size ≤ mp.before.size) :
    ∃ mp' pre x post, segs = pre ++ x :: post ∧ mp.overflow = .retry mp' x.addr x.stop ∧
      mp'.mfree = mp.mfree + 1 ∧ ∃ zs', Represents mp' (pre ++ ([] ++ post)) zs' := by
  obtain ⟨pre, x, post, rfl, hpost, hsm⟩ := h.smaller_cases hne hsafe
  refine ⟨mp.discard (pre.length + 1), pre, x, post, rfl, ?_, rfl, h.discard hpost⟩
  rw [RMap.overflow, hsm, h.cell_eq]

end Overflow

section Rmfree

variable {mp : RMap} {segs zs pre post : List Slot} {size addr : ℕ}

/-- Where space that is not in the map belongs: `rmfree` finds the gap that it lies in. -/
theorem Represents.gap (h : Represents mp segs zs) (hsize : 0 < size)
    (hdisj : Disjoint (Set.Ico addr (addr + size)) (cover segs)) :
    ∃ pre post, segs = pre ++ post ∧
      mp.map.takeWhile (fun bp => bp.addr ≤ addr ∧ bp.size ≠ 0) = pre ∧
      mp.map.dropWhile (fun bp => bp.addr ≤ addr ∧ bp.size ≠ 0) = post ++ zs ∧
      (∀ s ∈ pre, s.addr + s.size ≤ addr) ∧ ∀ t ∈ post, addr + size ≤ t.addr := by
  set skip : Slot → Bool := fun bp => bp.addr ≤ addr ∧ bp.size ≠ 0 with hskip
  obtain ⟨htake, hdrop⟩ := h.scan skip (by simp +contextual [hskip])
  have hout : ∀ x, addr ≤ x → x < addr + size → x ∉ cover segs := fun x h1 h2 =>
    Set.disjoint_left.mp hdisj ⟨h1, h2⟩
  refine ⟨segs.takeWhile skip, segs.dropWhile skip, ?_, htake, hdrop, fun s hs => ?_,
    fun t ht => ?_⟩
  · rw [List.takeWhile_append_dropWhile]
  · have hle := List.mem_takeWhile_imp hs
    simp only [hskip, decide_eq_true_eq] at hle
    by_contra hlt
    exact hout addr le_rfl (by omega) ⟨s, List.takeWhile_subset _ hs, by omega⟩
  · have hts := List.dropWhile_subset _ ht
    -- the first one that is not skipped begins after `addr`, and so do the ones after it
    have hgt : addr < t.addr := by
      have hlay := h.layout
      rw [← List.takeWhile_append_dropWhile (p := skip) (l := segs)] at hlay
      match hd : segs.dropWhile skip with
      | [] => simp [hd] at ht
      | d :: post =>
        have hfalse := List.head?_dropWhile_not skip segs
        rw [hd] at hfalse ht hlay
        obtain ⟨hds, -, hafter⟩ := layout_cons.mp (layout_append.mp hlay).2.1
        have hd : addr < d.addr := by
          have := hds.size
          simp only [List.head?_cons, hskip, decide_eq_false_iff_not] at hfalse
          omega
        cases List.mem_cons.mp ht with
        | inl ht => rwa [ht]
        | inr ht =>
          have := hafter t ht
          unfold Slot.Before at this
          omega
    by_contra hlt
    have := (h.layout.sound t hts).size
    exact hout t.addr (by omega) (by omega) ⟨t, hts, by omega⟩

/-- The piece on the left, if it abuts. -/
theorem Layout.left_cases (h : Layout pre) (hle : ∀ s ∈ pre, s.addr + s.size ≤ addr)
    (haddr : addr < 2 ^ 32) :
    (∃ pre' left, pre = pre' ++ [left] ∧ left.addr + left.size = addr ∧ left.stop = addr ∧
      (pre.getLast?.filter fun left => left.stop ≥ addr) = some left) ∨
    (∀ s ∈ pre, s.addr + s.size < addr) ∧
      (pre.getLast?.filter fun left => left.stop ≥ addr) = none := by
  rcases List.eq_nil_or_concat pre with rfl | ⟨pre', left, rfl⟩
  · simp
  rw [List.concat_eq_append] at *
  have hleft := hle left (by simp)
  have hstop : left.stop = left.addr + left.size := w32_of_lt (by omega)
  by_cases habut : left.addr + left.size = addr
  · left
    exact ⟨pre', left, rfl, habut, by omega, by simp [hstop, habut]⟩
  · right
    constructor
    · intro s hs
      cases List.mem_append.mp hs with
      | inl hs =>
        have := (layout_append.mp h).2.2 s hs left (by simp)
        have := ((layout_append.mp h).2.1).sound left (by simp)
        unfold Slot.Before at *
        have := this.size
        omega
      | inr hs =>
        rw [List.mem_singleton.mp hs]
        omega
    · simp [hstop]
      omega

/-- The piece on the right, if it abuts. -/
theorem Represents.right_cases (h : Represents mp (pre ++ post) zs)
    (hle : ∀ t ∈ post, addr + size ≤ t.addr) (hwrap : addr + size ≤ 2 ^ 32) :
    (∃ right post', post = right :: post' ∧ addr + size = right.addr ∧ right.size ≠ 0 ∧
      w32 (addr + size) = right.addr) ∨
    (∀ t ∈ post, addr + size < t.addr) ∧ ∃ bp rest, post ++ zs = bp :: rest ∧
      ¬ (bp.size ≠ 0 ∧ w32 (addr + size) ≥ bp.addr) := by
  obtain ⟨z, u, zs', rfl, hz, -⟩ := h.terminator
  match post with
  | [] => exact .inr ⟨by simp, z, u :: zs', rfl, by simp [hz]⟩
  | right :: post' =>
    have hlay := (layout_append.mp h.layout).2.1
    have hright := hlay.sound right (by simp)
    have hr := hle right (by simp)
    have := hright.size
    have := hright.bound
    have hw : w32 (addr + size) = addr + size := w32_of_lt (by omega)
    by_cases habut : addr + size = right.addr
    · exact .inl ⟨right, post', rfl, habut, by omega, by omega⟩
    · right
      refine ⟨fun t ht => ?_, right, post' ++ z :: u :: zs', rfl, by omega⟩
      cases List.mem_cons.mp ht with
      | inl ht => rw [ht]; omega
      | inr ht =>
        have := (layout_cons.mp hlay).2.2 t ht
        unfold Slot.Before at this
        omega

/-- A full map whose only segment is not touched by the space can only be left intact if the
segment is not larger than what the header has before the first slot. -/
def RMap.FreeSafe (mp : RMap) (size addr : ℕ) : Prop :=
  ∀ s, mp.segments = [s] → mp.mfree = 0 → s.addr + s.size ≠ addr → addr + size ≠ s.addr →
    s.size ≤ mp.before.size

/-- A pass of `rmfree` puts the space into the map, or gives up one segment of a full map. -/
theorem rmfree_spec (h : Represents mp segs zs) (haddr : addr ≠ 0) (hbad : ¬ badSize size)
    (hwrap : addr + size ≤ 2 ^ 32)
    (hdisj : Disjoint (Set.Ico addr (addr + size)) (cover segs)) (hsafe : mp.FreeSafe size addr) :
    (∃ mp', mp.rmfree size addr = .done mp' ∧ Gives segs mp' size addr) ∨
    mp.mfree = 0 ∧ ∃ mp' pre x post, segs = pre ++ x :: post ∧
      mp.rmfree size addr = .retry mp' x.addr x.stop ∧ mp'.mfree = 1 ∧
      ∃ zs', Represents mp' (pre ++ ([] ++ post)) zs' := by
  have hpos : 0 < size := by
    unfold badSize at hbad
    omega
  obtain ⟨pre, post, rfl, htake, hdrop, hpre, hpost⟩ := h.gap hpos hdisj
  have hlow : ∀ {b : Slot}, b ∈ pre ++ post → b.addr + b.size ≤ 2 ^ 32 ∧ 0 < b.addr :=
    fun hb => ⟨(h.layout.sound _ hb).bound, (h.layout.sound _ hb).addr⟩
  unfold RMap.rmfree
  simp only [haddr, hbad, or_self, ↓reduceIte, htake, hdrop]
  rcases (layout_append.mp h.layout).1.left_cases hpre (by omega) with
    ⟨pre', left, rfl, hl, hstop, hfilter⟩ | ⟨hl, hfilter⟩
  all_goals rcases h.right_cases hpost hwrap with
    ⟨right, post', rfl, hr, hrs, hw⟩ | ⟨hr, bp, rest, hbp, hno⟩
  · -- both sides abut
    left
    have h1 := hlow (b := left) (by simp)
    have h2 := hlow (b := right) (by simp)
    simp only [List.cons_append, hfilter, hstop, hrs, hw, gt_iff_lt, lt_irrefl, ↓reduceIte,
      ge_iff_le, le_refl, ne_eq, not_false_eq_true, and_self, List.dropLast_concat]
    rw [w32_of_lt (by omega : left.size + size < 2 ^ 32), w32_of_lt (by omega)]
    refine ⟨_, rfl, ?_⟩
    rw [List.append_assoc] at h ⊢
    exact h.gives_both hl hr
  · left
    have h1 := hlow (b := left) (by simp)
    simp only [hbp, hfilter, hstop, gt_iff_lt, lt_irrefl, ↓reduceIte, hno, List.dropLast_concat]
    rw [w32_of_lt (by omega : left.size + size < 2 ^ 32), ← hbp]
    refine ⟨_, rfl, ?_⟩
    rw [List.append_assoc] at h ⊢
    exact h.gives_left hl hwrap hr
  · left
    have h2 := hlow (b := right) (by simp)
    simp only [List.cons_append, hfilter, hrs, hw, gt_iff_lt, lt_irrefl, ↓reduceIte,
      ge_iff_le, le_refl, ne_eq, not_false_eq_true, and_self]
    rw [w32_of_lt (by omega : right.size + size < 2 ^ 32), sub32_of_le (by omega) (by omega)]
    exact ⟨_, rfl, h.gives_right (by omega) hr hl⟩
  · simp only [hbp, hfilter, and_comm.not.mp hno, ↓reduceIte]
    by_cases hfree : mp.mfree = 0
    · right
      simp only [hfree, ↓reduceIte, true_and]
      have hne : pre ++ post ≠ [] := by
        intro hnil
        have := h.slots
        have := h.count
        rw [hnil, List.length_nil] at this
        omega
      obtain ⟨mp', pre', x, post', hsegs, hover, hone, hrep⟩ := overflow_spec h hne fun s hs => by
        have hmem : s ∈ pre ∨ s ∈ post := List.mem_append.mp (by simp [hs])
        have hapart : s.addr + s.size < addr ∨ addr + size < s.addr := hmem.imp (hl s) (hr s)
        exact hsafe s (h.segments_eq.trans hs) hfree (by omega) (by omega)
      exact ⟨mp', pre', x, post', hsegs, hover, by omega, hrep⟩
    · left
      simp only [hfree, ↓reduceIte]
      rw [← hbp]
      exact ⟨_, rfl, h.gives_new (by omega) hpos hwrap hl hr hfree⟩

end Rmfree

end Sol26.Rmap
