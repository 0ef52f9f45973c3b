import Sol26.Rmap.Allocate

/-!
# Taking a given range from a resource map

What `rmget` has to do for a range of exact integers, and when the sums that wrap at 2^32 make
it do something else.
-/
namespace Sol26.Rmap

/-- Every address of `[addr, addr + size)` lies in the segment. -/
def Slot.Holds (s : Slot) (size addr : ℕ) : Prop :=
  ∀ x, addr ≤ x → x < addr + size → s.addr ≤ x ∧ x < s.addr + s.size

/-- The range lies in a single free segment, and there is a slot for the second half when the
segment has to be split. -/
def RMap.Grantable (mp : RMap) (size addr : ℕ) : Prop :=
  ∃ s ∈ mp.segments, s.Holds size addr ∧
    (s.addr < addr → addr + size < s.addr + s.size → mp.mfree ≠ 0)

/-- `rmget` answers `addr` for a range that it can grant and takes just this range; otherwise it
answers 0, which is no address of a resource, and leaves the map as it is. -/
def RMap.GrantsFree (mp : RMap) (size addr : ℕ) : Prop :=
  ∃ mp' r, mp.rmget size addr = some (mp', r) ∧ (r = addr ∨ r = 0) ∧
    (r ≠ 0 ↔ mp.Grantable size addr) ∧
    (r ≠ 0 → (∃ zs, Represents mp' mp'.segments zs) ∧
      cover mp'.segments = cover mp.segments \ Set.Ico addr (addr + size)) ∧
    (r = 0 → mp' = mp)

/-- The sums do not wrap where it matters. A segment that ends with the address space is not
seen, so the range must not be one to grant from it; and from any other segment a range that
reaches the end of the address space must be one that `rmget` refuses for want of a slot. -/
def RMap.GetClear (mp : RMap) (size addr : ℕ) : Prop :=
  ∀ s ∈ mp.segments, s.addr ≤ addr → addr < s.addr + s.size →
    if s.addr + s.size = 2 ^ 32 then
      2 ^ 32 < addr + size ∨ (s.addr < addr ∧ addr + size < 2 ^ 32 ∧ mp.mfree = 0)
    else addr + size < 2 ^ 32 ∨ (s.addr ≠ addr ∧ mp.mfree = 0)

section

variable {mp mp' : RMap} {segs zs pre post : List Slot} {s b : Slot} {size addr : ℕ}

theorem Slot.holds_iff (hsize : 0 < size) :
    s.Holds size addr ↔ s.addr ≤ addr ∧ addr + size ≤ s.addr + s.size := by
  constructor
  · intro h
    have hfirst := h addr le_rfl (by omega)
    have hlast := h (addr + size - 1) (by omega) (by omega)
    omega
  · intro h x hlo hhi
    omega

/-- The segment that an address lies in is the only one. -/
theorem Layout.eq_of_mem (h : Layout segs) (hs : s ∈ segs) (hb : b ∈ segs)
    (hsx : s.addr ≤ addr ∧ addr < s.addr + s.size) (hbx : b.addr ≤ addr ∧ addr < b.addr + b.size) :
    s = b := by
  obtain ⟨pre, post, rfl⟩ := List.append_of_mem hb
  obtain ⟨hpre, hpost⟩ := h.outside hbx
  rcases List.mem_append.mp hs with hs | hs
  · exact absurd ⟨s, hs, hsx⟩ hpre
  rcases List.mem_cons.mp hs with rfl | hs
  · rfl
  · exact absurd ⟨s, hs, hsx⟩ hpost

/-- Whether the range can be granted is up to the segment that its first address lies in. -/
theorem Represents.grantable_iff (h : Represents mp segs zs) (hsize : 0 < size) (hb : b ∈ segs)
    (hbx : b.addr ≤ addr ∧ addr < b.addr + b.size) :
    mp.Grantable size addr ↔ addr + size ≤ b.addr + b.size ∧
      (b.addr < addr → addr + size < b.addr + b.size → mp.mfree ≠ 0) := by
  unfold RMap.Grantable
  rw [h.segments_eq]
  constructor
  · intro ⟨s, hs, hold, hslot⟩
    rw [Slot.holds_iff hsize] at hold
    obtain rfl := h.layout.eq_of_mem hs hb (by omega) hbx
    exact ⟨hold.2, hslot⟩
  · intro ⟨hend, hslot⟩
    exact ⟨b, hb, (Slot.holds_iff hsize).mpr ⟨hbx.1, hend⟩, hslot⟩

theorem Represents.not_grantable (h : Represents mp segs zs) (hsize : 0 < size)
    (hnone : ∀ s ∈ segs, ¬ (s.addr ≤ addr ∧ addr < s.addr + s.size)) :
    ¬ mp.Grantable size addr := by
  intro ⟨s, hs, hold, _⟩
  rw [h.segments_eq] at hs
  rw [Slot.holds_iff hsize] at hold
  exact hnone s hs (by omega)

/-- The scan finds nothing when every segment that the address lies in ends with the address
space: the end of such a segment is read as 0. -/
theorem Represents.rmget_unseen (h : Represents mp segs zs) (hbad : ¬ badSize size)
    (hun : ∀ s ∈ segs, s.addr ≤ addr → addr < s.addr + s.size → s.addr + s.size = 2 ^ 32) :
    mp.rmget size addr = some (mp, 0) := by
  unfold RMap.rmget
  set skip : Slot → Bool := fun bp => bp.size ≠ 0 ∧ ¬ (bp.addr ≤ addr ∧ bp.stop > addr) with hskip
  simp only [hbad, ↓reduceIte]
  rcases h.scan_cases skip (by simp +contextual [hskip]) with
    ⟨z, zs', hd, hz, -⟩ | ⟨pre, b, post, rfl, -, hb, -, -⟩
  · simp [hd, hz]
  · have hbs := h.layout.sound b (by simp)
    have hbound := hbs.bound
    have hsize := hbs.size
    have hend := hun b (by simp)
    simp only [hskip, decide_eq_false_iff_not] at hb
    unfold Slot.stop w32 at hb
    omega

/-- The scan stops at the segment that the address lies in, if this ends before the end of the
address space. -/
theorem Represents.scan_seen (h : Represents mp (pre ++ b :: post) zs)
    (hbx : b.addr ≤ addr ∧ addr < b.addr + b.size) (hend : b.addr + b.size < 2 ^ 32) :
    mp.map.takeWhile (fun bp => bp.size ≠ 0 ∧ ¬ (bp.addr ≤ addr ∧ bp.stop > addr)) = pre ∧
    mp.map.dropWhile (fun bp => bp.size ≠ 0 ∧ ¬ (bp.addr ≤ addr ∧ bp.stop > addr)) =
      b :: (post ++ zs) := by
  set skip : Slot → Bool := fun bp => bp.size ≠ 0 ∧ ¬ (bp.addr ≤ addr ∧ bp.stop > addr) with hskip
  have hb : ¬ skip b = true := by
    simp only [hskip, decide_eq_true_eq, Slot.stop, w32_of_lt hend]
    omega
  have hpre : ∀ s ∈ pre, skip s = true := by
    intro s hs
    have hsound := h.layout.sound s (by simp [hs])
    have hsize := hsound.size
    have hbound := hsound.bound
    have hout : ¬ (s.addr ≤ addr ∧ addr < s.addr + s.size) :=
      fun hsx => (h.layout.outside hbx).1 ⟨s, hs, hsx⟩
    simp only [hskip, decide_eq_true_eq]
    unfold Slot.stop w32
    omega
  rw [h.map, List.append_assoc, List.cons_append]
  constructor
  · rw [List.takeWhile_append_of_pos hpre, List.takeWhile_cons_of_neg hb, List.append_nil]
  · rw [List.dropWhile_append_of_pos hpre, List.dropWhile_cons_of_neg hb]

theorem RMap.GrantsFree.refused (hget : mp.rmget size addr = some (mp, 0))
    (hnot : ¬ mp.Grantable size addr) : mp.GrantsFree size addr :=
  ⟨mp, 0, hget, .inr rfl, by simpa using hnot, by simp, fun _ => rfl⟩

theorem RMap.grantsFree_of_zero (hget : mp.rmget size addr = some (mp, 0)) :
    mp.GrantsFree size addr ↔ ¬ mp.Grantable size addr := by
  constructor
  · rintro ⟨mp', r, hget', -, hgrant, -⟩
    simp only [hget, Option.some.injEq, Prod.mk.injEq] at hget'
    simpa [← hget'.2] using hgrant
  · exact RMap.GrantsFree.refused hget

theorem RMap.not_grantsFree (hget : mp.rmget size addr = some (mp', addr)) (hne : addr ≠ 0)
    (hnot : ¬ mp.Grantable size addr) : ¬ mp.GrantsFree size addr := by
  rintro ⟨mp'', r, hget', -, hgrant, -⟩
  simp only [hget, Option.some.injEq, Prod.mk.injEq] at hget'
  exact hnot (hgrant.mp (hget'.2 ▸ hne))

theorem Represents.granted (h : Represents mp segs zs)
    (hget : mp.rmget size addr = some (mp', addr)) (haddr : 0 < addr)
    (hgrant : mp.Grantable size addr) (ht : Takes segs mp' size addr) :
    mp.GrantsFree size addr := by
  obtain ⟨-, segs', zs', hr, hcover⟩ := ht
  obtain rfl := hr.segments_eq
  rw [← h.segments_eq] at hcover
  refine ⟨mp', addr, hget, .inl rfl, ?_, fun _ => ⟨⟨zs', hr⟩, hcover⟩, ?_⟩
  · simp [hgrant, haddr.ne']
  · intro h0
    omega

/-- A range that ends inside the address space is granted or refused as it should be. -/
theorem Represents.grantsFree_seen (h : Represents mp (pre ++ b :: post) zs)
    (hbad : ¬ badSize size) (hbx : b.addr ≤ addr ∧ addr < b.addr + b.size)
    (hend : b.addr + b.size < 2 ^ 32) (hlast : addr + size < 2 ^ 32) :
    mp.GrantsFree size addr := by
  have hpos : 0 < size := by
    unfold badSize at hbad
    omega
  have hb := (h.layout.sound b (by simp)).addr
  have hgrant := h.grantable_iff hpos (by simp : b ∈ pre ++ b :: post) hbx
  have hzero : ¬ addr = 0 := by omega
  -- where the answer is 0 nothing could be granted, elsewhere the range is taken
  have hspec := rmget_spec h hbad hlast.le (fun hwrap => by omega)
  suffices hret : mp.rmget size addr = some (mp, 0) ↔ ¬ mp.Grantable size addr by
    rcases hspec with h0 | ⟨mp', hget, haddr, ht⟩
    · exact .refused h0 (hret.mp h0)
    · apply h.granted hget haddr _ ht
      by_contra hnot
      simpa [hget, hzero] using hret.mpr hnot
  rw [hgrant]
  obtain ⟨ht, hd⟩ := h.scan_seen hbx hend
  have hsize : ¬ b.size = 0 := by omega
  have hstop : b.stop = b.addr + b.size := w32_of_lt hend
  simp only [RMap.rmget, hbad, ht, hd, hsize, hstop, w32_of_lt hlast, ↓reduceIte]
  split_ifs with h1 h2 h3 h4 h5 <;> simp [hzero] <;> omega

/-- A range that reaches the end of the address space is taken for one that ends before the
segment does. -/
theorem Represents.rmget_wrapped (h : Represents mp (pre ++ b :: post) zs)
    (hbad : ¬ badSize size) (hbx : b.addr ≤ addr ∧ addr < b.addr + b.size)
    (hend : b.addr + b.size < 2 ^ 32) (hlast : 2 ^ 32 ≤ addr + size) :
    if b.addr ≠ addr ∧ mp.mfree = 0 then mp.rmget size addr = some (mp, 0)
    else ∃ mp', mp.rmget size addr = some (mp', addr) := by
  obtain ⟨ht, hd⟩ := h.scan_seen hbx hend
  have hsize : ¬ b.size = 0 := by omega
  have hsmall : size < 2 ^ 31 := by
    unfold badSize at hbad
    omega
  have hw : w32 (addr + size) = addr + size - 2 ^ 32 := by
    unfold w32
    omega
  have hshort : ¬ b.addr + b.size < addr + size - 2 ^ 32 := by omega
  have hback : ¬ b.addr + b.size = addr + size - 2 ^ 32 := by omega
  have hall : b.addr = addr → ¬ b.size = size := by omega
  have hstop : b.stop = b.addr + b.size := w32_of_lt hend
  simp only [RMap.rmget, hbad, ht, hd, hsize, hstop, hw, hshort, hback, ↓reduceIte]
  by_cases hfront : b.addr = addr
  · simp [hfront, hall hfront]
  · by_cases hfree : mp.mfree = 0
    · simp [hfront, hfree]
    · simp [hfront, hfree]

theorem forall_at {P : Slot → Prop} (hb : b ∈ segs) (hbx : b.addr ≤ addr ∧ addr < b.addr + b.size)
    (hone : ∀ s ∈ segs, s.addr ≤ addr → addr < s.addr + s.size → s = b) :
    (∀ s ∈ segs, s.addr ≤ addr → addr < s.addr + s.size → P s) ↔ P b := by
  constructor
  · intro h
    exact h b hb hbx.1 hbx.2
  · intro h s hs hlo hhi
    exact hone s hs hlo hhi ▸ h

/-- `rmget` grants just what is free, unless a sum that wraps misleads it. -/
theorem Represents.grantsFree_iff (h : Represents mp segs zs) (hbad : ¬ badSize size) :
    mp.GrantsFree size addr ↔ mp.GetClear size addr := by
  have hpos : 0 < size := by
    unfold badSize at hbad
    omega
  unfold RMap.GetClear
  rw [h.segments_eq]
  by_cases hin : ∃ b ∈ segs, b.addr ≤ addr ∧ addr < b.addr + b.size
  · obtain ⟨b, hb, hbx⟩ := hin
    have hgrant := h.grantable_iff hpos hb hbx
    have hone : ∀ s ∈ segs, s.addr ≤ addr → addr < s.addr + s.size → s = b :=
      fun s hs h1 h2 => h.layout.eq_of_mem hs hb ⟨h1, h2⟩ hbx
    have hbs := h.layout.sound b hb
    have hbound := hbs.bound
    rw [forall_at hb hbx hone]
    by_cases hend : b.addr + b.size = 2 ^ 32
    · have hget := h.rmget_unseen hbad fun s hs h1 h2 => hone s hs h1 h2 ▸ hend
      rw [if_pos hend, RMap.grantsFree_of_zero hget, hgrant]
      omega
    · rw [if_neg hend]
      obtain ⟨pre, post, rfl⟩ := List.append_of_mem hb
      by_cases hlast : addr + size < 2 ^ 32
      · simp only [h.grantsFree_seen hbad hbx (by omega) hlast, hlast, true_or]
      have hout : ¬ mp.Grantable size addr := by
        rw [hgrant]
        omega
      have hget := h.rmget_wrapped hbad hbx (by omega) (by omega)
      split_ifs at hget with hfree
      · simp only [RMap.GrantsFree.refused hget hout, hfree, ne_eq, not_false_eq_true, and_self,
          or_true]
      · obtain ⟨mp', hget⟩ := hget
        have hne : addr ≠ 0 := by
          have := hbs.addr
          omega
        simp only [RMap.not_grantsFree hget hne hout, hlast, hfree, or_self]
  · push Not at hin
    have hnone : ∀ s ∈ segs, ¬ (s.addr ≤ addr ∧ addr < s.addr + s.size) := by
      intro s hs hsx
      have := hin s hs hsx.1
      omega
    have hget := h.rmget_unseen hbad fun s hs h1 h2 => absurd ⟨h1, h2⟩ (hnone s hs)
    simp only [RMap.GrantsFree.refused hget (h.not_grantable hpos hnone), true_iff]
    intro s hs h1 h2
    exact absurd ⟨h1, h2⟩ (hnone s hs)

end

/-- For every map, size and address: `rmget` grants just what is free if and only if the sums
do not wrap where it matters. -/
theorem rmget_grantsFree_iff (mp : RMap) (size addr : ℕ)
    (hmp : ∃ zs, Represents mp mp.segments zs) (hsize : 0 < size ∧ size < 2 ^ 31) :
    mp.GrantsFree size addr ↔ mp.GetClear size addr := by
  obtain ⟨zs, h⟩ := hmp
  have hbad : ¬ badSize size := by
    unfold badSize
    omega
  exact h.grantsFree_iff hbad

/-- Sixteen units below the end of the address space, of which the first eight are free. -/
def nearTheEnd : RMap := ⟨1, 2, ⟨0, 0⟩, [⟨8, 2 ^ 32 - 16⟩, ⟨0, 0⟩, ⟨0, 0⟩, ⟨0, 0⟩]⟩

theorem nearTheEnd_represents :
    Represents nearTheEnd nearTheEnd.segments [⟨0, 0⟩, ⟨0, 0⟩, ⟨0, 0⟩] where
  map := rfl
  layout := ⟨by simpa [nearTheEnd, RMap.segments] using ⟨by decide, by decide, by decide⟩,
    by simp [nearTheEnd, RMap.segments]⟩
  zero := by simp
  count := rfl
  length := rfl
  slots := by decide

/-- The last four free units are granted. -/
theorem rmget_grantsFree_nearTheEnd :
    nearTheEnd.GetClear 4 (2 ^ 32 - 12) ∧ nearTheEnd.GrantsFree 4 (2 ^ 32 - 12) := by
  have hclear : nearTheEnd.GetClear 4 (2 ^ 32 - 12) := by
    simp [RMap.GetClear, nearTheEnd, RMap.segments]
  exact ⟨hclear, (rmget_grantsFree_iff nearTheEnd 4 (2 ^ 32 - 12) ⟨_, nearTheEnd_represents⟩
    (by decide)).mpr hclear⟩

/-- All sixteen units are granted though only eight of them are free. -/
theorem not_grantsFree_nearTheEnd :
    (∃ zs, Represents nearTheEnd nearTheEnd.segments zs) ∧
      ¬ nearTheEnd.GrantsFree 16 (2 ^ 32 - 16) := by
  refine ⟨⟨_, nearTheEnd_represents⟩, ?_⟩
  have hget : nearTheEnd.rmget 16 (2 ^ 32 - 16) =
      some ({ nearTheEnd with map := [⟨2 ^ 32 - 8, 0⟩, ⟨0, 0⟩, ⟨0, 0⟩, ⟨0, 0⟩] }, 2 ^ 32 - 16) := by
    decide
  apply RMap.not_grantsFree hget (by decide)
  intro ⟨s, hs, hold, _⟩
  obtain rfl : s = ⟨8, 2 ^ 32 - 16⟩ := by simpa [nearTheEnd, RMap.segments] using hs
  have := hold (2 ^ 32 - 1) (by decide) (by decide)
  dsimp only at this
  omega

end Sol26.Rmap
