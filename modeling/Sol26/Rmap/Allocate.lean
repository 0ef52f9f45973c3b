import Sol26.Rmap.Segments

/-!
# Taking space from a resource map

`rmalloc_locked` takes the front of the first segment that is large enough, and `rmget` takes
a given range. Both replace one segment by what is left of it.
-/
namespace Sol26.Rmap

section

variable {mp mp' : RMap} {segs zs pre post zs' : List Slot} {b : Slot} {size addr : ℕ}

/-- Some segments are replaced by others, and the free slots are counted anew. -/
theorem Represents.splice (old new : List Slot) (h : Represents mp (pre ++ (old ++ post)) zs)
    (hmap : mp'.map = pre ++ (new ++ post) ++ zs') (hlay : Layout (pre ++ (new ++ post)))
    (hz : ∀ z ∈ zs', z.size = 0) (hlen : new.length + zs'.length = old.length + zs.length)
    (hsize : mp'.msize = mp.msize) (hfree : mp'.mfree + new.length = mp.mfree + old.length) :
    Represents mp' (pre ++ (new ++ post)) zs' := by
  have hcount := h.count
  have hlength := h.length
  rw [h.map] at hlength
  simp only [List.length_append] at hcount hlength
  constructor
  · exact hmap
  · exact hlay
  · exact hz
  · simp only [List.length_append]
    omega
  · rw [hmap]
    simp only [List.length_append]
    omega
  · exact hsize ▸ h.slots

/-- Where a scan of the segments stops: at the end or at a segment that is not skipped. -/
theorem Represents.scan_cases (h : Represents mp segs zs) (skip : Slot → Bool)
    (hskip : ∀ s, s.size = 0 → skip s = false) :
    (∃ z zs', mp.map.dropWhile skip = z :: zs' ∧ z.size = 0 ∧ ∀ s ∈ segs, skip s = true) ∨
    ∃ pre b post, segs = pre ++ b :: post ∧ (∀ s ∈ pre, skip s = true) ∧ skip b = false ∧
      mp.map.takeWhile skip = pre ∧ mp.map.dropWhile skip = b :: (post ++ zs) := by
  obtain ⟨htake, hdrop⟩ := h.scan skip hskip
  obtain ⟨z, u, zs', rfl, hz, -⟩ := h.terminator
  match hd : segs.dropWhile skip with
  | [] =>
    left
    rw [hdrop, hd]
    exact ⟨z, u :: zs', rfl, hz, List.dropWhile_eq_nil_iff.mp hd⟩
  | b :: post =>
    right
    refine ⟨segs.takeWhile skip, b, post, ?_, fun s hs => List.mem_takeWhile_imp hs, ?_, htake, ?_⟩
    · rw [← hd, List.takeWhile_append_dropWhile]
    · have := List.head?_dropWhile_not skip segs
      rwa [hd] at this
    · rw [hdrop, hd, List.cons_append]

/-- The segment is used up and the ones after it move down. -/
theorem Represents.remove (h : Represents mp (pre ++ b :: post) zs) (c : Slot) :
    ∃ zs', Represents
      { mp with map := pre ++ shiftDown (c :: (post ++ zs)), mfree := mp.mfree + 1 }
      (pre ++ ([] ++ post)) zs' := by
  obtain ⟨z, u, zs', rfl, hz, hu⟩ := h.terminator
  have hpost : ∀ s ∈ post, s.size ≠ 0 := fun s hs => h.ne_zero s (by simp [hs])
  refine ⟨z :: z :: u :: zs', h.splice [b] [] ?_ (h.layout.replace .nil (by simp)) ?_ ?_ rfl rfl⟩
  · rw [shiftDown_segments hpost hz]
    simp
  · exact List.forall_mem_cons.mpr ⟨hz, h.zero⟩
  · simp
    omega

/-- The segment is cut to a part of it. -/
theorem Represents.shrink (h : Represents mp (pre ++ b :: post) zs) {c : Slot} (hc : c.Sound)
    (hin : b.addr ≤ c.addr ∧ c.addr + c.size ≤ b.addr + b.size) :
    Represents { mp with map := pre ++ c :: (post ++ zs) } (pre ++ ([c] ++ post)) zs := by
  have hlay : Layout (pre ++ ([c] ++ post)) :=
    h.layout.replace (layout_cons.mpr ⟨hc, .nil, by simp⟩) (by simpa using hin)
  exact h.splice [b] [c] (by simp) hlay h.zero rfl rfl rfl

/-- The segment is split in two and the ones after it move up. -/
theorem Represents.split (h : Represents mp (pre ++ b :: post) zs) {c d : Slot} (hc : c.Sound)
    (hd : d.Sound) (hcd : c.Before d) (hcin : b.addr = c.addr)
    (hdin : d.addr + d.size = b.addr + b.size) (hfree : mp.mfree ≠ 0) :
    ∃ zs', Represents
      { mp with map := pre ++ c :: openUp d (post ++ zs), mfree := mp.mfree - 1 }
      (pre ++ ([c, d] ++ post)) zs' := by
  obtain ⟨z, u, zs', rfl, hz, hu⟩ := h.terminator
  have hpost : ∀ s ∈ post, s.size ≠ 0 := fun s hs => h.ne_zero s (by simp [hs])
  refine ⟨{ u with size := 0 } :: zs', h.splice [b] [c, d] ?_ (h.layout.replace ?_ ?_) ?_ ?_ rfl ?_⟩
  · rw [openUp_segments hpost hz]
    simp
  · exact layout_cons.mpr ⟨hc, layout_cons.mpr ⟨hd, .nil, by simp⟩, by simpa using hcd⟩
  · have := hc.size
    have := hd.size
    unfold Slot.Before at hcd
    simp only [List.mem_cons, List.not_mem_nil, or_false, forall_eq_or_imp, forall_eq]
    omega
  · exact List.forall_mem_cons.mpr ⟨rfl, fun y hy => h.zero y (by simp [hy])⟩
  · simp
    omega
  · simp
    omega

/-- The map is what is left of the segments when `[addr, addr + size)` is taken out. -/
def Takes (segs : List Slot) (mp' : RMap) (size addr : ℕ) : Prop :=
  Set.Ico addr (addr + size) ⊆ cover segs ∧
    ∃ segs' zs', Represents mp' segs' zs' ∧ cover segs' = cover segs \ Set.Ico addr (addr + size)

theorem Ico_subset_cover {lo hi : ℕ} (hlo : b.addr ≤ lo) (hhi : hi ≤ b.addr + b.size) :
    Set.Ico lo hi ⊆ cover (pre ++ b :: post) := by
  intro x hx
  simp only [Set.mem_Ico] at hx
  simp only [mem_cover_append, mem_cover_cons]
  exact .inr (.inl (by omega))

theorem w32_of_lt {x : ℕ} (h : x < 2 ^ 32) : w32 x = x := Nat.mod_eq_of_lt h

theorem sub32_of_le {x y : ℕ} (hyx : y ≤ x) (hx : x < 2 ^ 32) : sub32 x y = x - y := by
  unfold sub32
  omega

/-- The front of a segment is taken. -/
theorem Represents.takes_front (h : Represents mp (pre ++ b :: post) zs) (hlt : size < b.size) :
    Takes (pre ++ b :: post)
      { mp with map := pre ++ ⟨b.size - size, w32 (b.addr + size)⟩ :: (post ++ zs) }
      size b.addr := by
  have hb := h.layout.sound b (by simp)
  have := hb.bound
  have := hb.addr
  rw [w32_of_lt (by omega)]
  refine ⟨Ico_subset_cover le_rfl (by omega), _, _, h.shrink ?_ ?_, ?_⟩
  · constructor <;> dsimp only <;> omega
  · dsimp only
    omega
  · apply h.layout.cover_cut le_rfl (by omega)
    intro x
    simp only [mem_cover_cons, mem_cover_nil, or_false]
    omega

/-- A whole segment is taken. -/
theorem Represents.takes_all (h : Represents mp (pre ++ b :: post) zs) (c : Slot) :
    Takes (pre ++ b :: post)
      { mp with map := pre ++ shiftDown (c :: (post ++ zs)), mfree := mp.mfree + 1 }
      b.size b.addr := by
  obtain ⟨zs', hr⟩ := h.remove c
  refine ⟨Ico_subset_cover le_rfl le_rfl, _, _, hr, h.layout.cover_cut le_rfl le_rfl fun x => ?_⟩
  simp only [mem_cover_nil, false_iff]
  omega

/-- First fit: nothing is large enough, or the front of the first segment that is goes. -/
theorem rmallocLocked_spec (h : Represents mp segs zs) (size : ℕ) :
    ((∀ s ∈ segs, s.size < size) ∧ mp.rmallocLocked size = (mp, 0)) ∨
    ∃ pre b post, segs = pre ++ b :: post ∧ (∀ s ∈ pre, s.size < size) ∧ size ≤ b.size ∧
      (mp.rmallocLocked size).2 = b.addr ∧
      Takes segs (mp.rmallocLocked size).1 size b.addr := by
  unfold RMap.rmallocLocked
  set skip : Slot → Bool := fun bp => bp.size ≠ 0 ∧ ¬ size ≤ bp.size with hskip
  rcases h.scan_cases skip (by simp +contextual [hskip]) with
    ⟨z, zs', hd, hz, hall⟩ | ⟨pre, b, post, rfl, hpre, hb, ht, hd⟩
  · left
    refine ⟨fun s hs => ?_, ?_⟩
    · have := hall s hs
      simp only [hskip, decide_eq_true_eq] at this
      omega
    · simp only [hd, hz, ↓reduceIte]
  · right
    have hbs := h.ne_zero b (by simp)
    have hfit : size ≤ b.size := by
      simp only [hskip, decide_eq_false_iff_not] at hb
      omega
    refine ⟨pre, b, post, rfl, fun s hs => ?_, hfit, ?_⟩
    · have := hpre s hs
      simp only [hskip, decide_eq_true_eq] at this
      omega
    simp only [ht, hd, hbs, ↓reduceIte]
    by_cases hall : b.size - size = 0
    · obtain rfl : size = b.size := by omega
      simp only [hall, ↓reduceIte, true_and]
      exact h.takes_all _
    · simp only [hall, ↓reduceIte, true_and]
      exact h.takes_front (by omega)

/-- The end of a segment is taken. -/
theorem Represents.takes_back (h : Represents mp (pre ++ b :: post) zs) (hlo : b.addr < addr)
    (hhi : addr + size = b.addr + b.size) :
    Takes (pre ++ b :: post) { mp with map := pre ++ ⟨b.size - size, b.addr⟩ :: (post ++ zs) }
      size addr := by
  have hb := h.layout.sound b (by simp)
  have := hb.bound
  have := hb.addr
  refine ⟨Ico_subset_cover (by omega) (by omega), _, _, h.shrink ?_ ?_, ?_⟩
  · constructor <;> dsimp only <;> omega
  · dsimp only
    omega
  · apply h.layout.cover_cut (by omega) (by omega)
    intro x
    simp only [mem_cover_cons, mem_cover_nil, or_false]
    omega

/-- A range inside a segment is taken. -/
theorem Represents.takes_middle (h : Represents mp (pre ++ b :: post) zs) (hlo : b.addr < addr)
    (hhi : addr + size < b.addr + b.size) (hsize : 0 < size) (hfree : mp.mfree ≠ 0) :
    Takes (pre ++ b :: post)
      { mp with
        map := pre ++ ⟨addr - b.addr, b.addr⟩ ::
          openUp ⟨b.addr + b.size - (addr + size), addr + size⟩ (post ++ zs)
        mfree := mp.mfree - 1 }
      size addr := by
  have hb := h.layout.sound b (by simp)
  have := hb.bound
  have := hb.addr
  have hsplit := h.split (c := ⟨addr - b.addr, b.addr⟩)
    (d := ⟨b.addr + b.size - (addr + size), addr + size⟩)
  obtain ⟨zs', hr⟩ := hsplit (by constructor <;> dsimp only <;> omega)
    (by constructor <;> dsimp only <;> omega) (by unfold Slot.Before; dsimp only; omega) rfl
    (by dsimp only; omega) hfree
  refine ⟨Ico_subset_cover (by omega) (by omega), _, _, hr, ?_⟩
  apply h.layout.cover_cut (by omega) (by omega)
  intro x
  simp only [mem_cover_cons, mem_cover_nil, or_false]
  omega

/-- The sum `addr + size` wraps to 0 for a range that ends with the address space. `rmget`
then takes the range for one that ends inside any segment that `addr` lies in, and goes on
unless the segment would have to be split and there is no slot for that. -/
def RMap.GetSafe (mp : RMap) (size addr : ℕ) : Prop :=
  addr + size = 2 ^ 32 → ∀ s ∈ mp.segments, s.addr ≤ addr → addr < s.addr + s.size →
    s.addr + s.size < 2 ^ 32 → s.addr ≠ addr ∧ mp.mfree = 0

/-- `rmget` leaves the map alone or takes the range that it was asked for. -/
theorem rmget_spec (h : Represents mp segs zs) (hbad : ¬ badSize size)
    (hwrap : addr + size ≤ 2 ^ 32) (hsafe : mp.GetSafe size addr) :
    mp.rmget size addr = some (mp, 0) ∨
    ∃ mp', mp.rmget size addr = some (mp', addr) ∧ 0 < addr ∧ Takes segs mp' size addr := by
  unfold RMap.rmget
  have hpos : 0 < size := by
    unfold badSize at hbad
    omega
  set skip : Slot → Bool := fun bp => bp.size ≠ 0 ∧ ¬ (bp.addr ≤ addr ∧ bp.stop > addr) with hskip
  simp only [hbad, ↓reduceIte]
  rcases h.scan_cases skip (by simp +contextual [hskip]) with
    ⟨z, zs', hd, hz, -⟩ | ⟨pre, b, post, rfl, -, hb, ht, hd⟩
  · simp [hd, hz]
  have hbs := h.layout.sound b (by simp)
  have hsize := hbs.size
  have haddr := hbs.addr
  have hbound := hbs.bound
  -- the segment ends below 2^32: the scan does not see one that ends there
  obtain ⟨hlo, hhi, hend⟩ :
      b.addr ≤ addr ∧ addr < b.addr + b.size ∧ b.addr + b.size < 2 ^ 32 := by
    simp only [hskip, decide_eq_false_iff_not] at hb
    unfold Slot.stop w32 at hb
    omega
  have hstop : b.stop = b.addr + b.size := w32_of_lt hend
  simp only [ht, hd, hbs.size.ne', ↓reduceIte, hstop]
  by_cases hlast : addr + size = 2 ^ 32
  · obtain ⟨hne, hfree⟩ := hsafe hlast b (by simp [h.segments_eq]) hlo hhi hend
    left
    rw [hlast, show w32 (2 ^ 32) = 0 from rfl]
    simp only [Nat.not_lt_zero, hne, hfree, show ¬ b.addr + b.size = 0 by omega, ↓reduceIte]
  rw [w32_of_lt (by omega : addr + size < 2 ^ 32)]
  split_ifs with h1 h2 h3 h4 h5
  · exact .inl rfl
  · obtain ⟨rfl, rfl⟩ := And.intro h2 h3
    exact .inr ⟨_, rfl, haddr, h.takes_all b⟩
  · obtain rfl := h2
    rw [sub32_of_le (by omega) (by omega)]
    exact .inr ⟨_, rfl, haddr, h.takes_front (by omega)⟩
  · rw [sub32_of_le (by omega) (by omega)]
    exact .inr ⟨_, rfl, by omega, h.takes_back (by omega) h4.symm⟩
  · exact .inl rfl
  · rw [sub32_of_le (by omega) (by omega), sub32_of_le (by omega) (by omega)]
    exact .inr ⟨_, rfl, by omega, h.takes_middle (by omega) (by omega) hpos h5⟩

end

end Sol26.Rmap
