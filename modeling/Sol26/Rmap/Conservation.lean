import Sol26.Rmap.Release

/-!
# Conservation of the resource

Runs of a resource map together with what its callers hold and what the overflow warnings
report. Every address of the space is in exactly one place: in one free segment, in one
allocation, or in one lost segment.
-/
namespace Sol26.Rmap

/-- A map, how often each address is held by a caller, and the ranges reported as lost. -/
structure World where
  mp : RMap
  held : ℕ → ℕ
  lost : List (ℕ × ℕ)

/-- What happens to a map. A pass of `rmfree` that ends in a retry is followed by other
operations or by the next pass: the lock is dropped in between. -/
inductive Event where
  | rmalloc (size : ℕ)
  | rmget (size addr : ℕ)
  | rmfree (size addr : ℕ)
  /-- Lock and condition variable change under the threads that use them. -/
  | sync (before : Slot)

/-- The range is held once more. -/
def grant (held : ℕ → ℕ) (size addr : ℕ) : ℕ → ℕ :=
  fun x => if addr ≤ x ∧ x < addr + size then held x + 1 else held x

/-- The range is held once less. -/
def release (held : ℕ → ℕ) (size addr : ℕ) : ℕ → ℕ :=
  fun x => if addr ≤ x ∧ x < addr + size then held x - 1 else held x

/-- The effect of an event, or `none` for a panic. -/
def World.exec (w : World) : Event → Option World
  | .rmalloc size =>
    let r := w.mp.rmallocLocked size
    some { w with mp := r.1, held := if r.2 = 0 then w.held else grant w.held size r.2 }
  | .rmget size addr =>
    (w.mp.rmget size addr).map fun r =>
      { w with mp := r.1, held := if r.2 = 0 then w.held else grant w.held size r.2 }
  | .rmfree size addr =>
    match w.mp.rmfree size addr with
    | .done mp' => some { w with mp := mp', held := release w.held size addr }
    | .retry mp' lo hi => some { w with mp := mp', lost := (lo, hi) :: w.lost }
    | .panic => none
  | .sync before => some { w with mp := { w.mp with before := before } }

/-- What callers promise: no range wraps, and only what is held is given back. -/
def Event.Allowed (w : World) : Event → Prop
  | .rmalloc _ => True
  | .rmget size addr => addr + size ≤ 2 ^ 32
  | .rmfree size addr => ∀ x, addr ≤ x → x < addr + size → 0 < w.held x
  | .sync _ => True

/-- The count is 1 on the set and 0 elsewhere. -/
def Once (space : Set ℕ) (count : ℕ → ℕ) : Prop :=
  ∀ x, (x ∈ space → count x = 1) ∧ (x ∉ space → count x = 0)

/-- A map of `m` slots fresh from `mapinit`, in zeroed memory, with the space that it and its
callers start with. -/
structure Initial (space : Set ℕ) (w : World) : Prop where
  init : ∃ m mem before size addr, 1 ≤ m ∧ mem.length = m + 2 ∧ (∀ s ∈ mem, s.size = 0) ∧
    mapinit mem before size addr (m + mapOverhead) = some w.mp ∧
    (size ≠ 0 → addr ≠ 0 ∧ addr + size ≤ 2 ^ 32) ∧
    Once space fun x => (if addr ≤ x ∧ x < addr + size then 1 else 0) + w.held x
  range : ∀ x ∈ space, 0 < x ∧ x < 2 ^ 32
  lost : w.lost = []

/-- The worlds that allowed events lead to when each step meets a condition. -/
inductive World.Reachable (ok : World → Event → Prop) (space : Set ℕ) : World → Prop
  | init {w : World} (h : Initial space w) : Reachable ok space w
  | step {w w' : World} (h : Reachable ok space w) (e : Event) (ha : e.Allowed w) (hok : ok w e)
      (he : w.exec e = some w') : Reachable ok space w'

/-- The steps that keep inside the map. -/
def Event.Safe (w : World) : Event → Prop
  | .rmalloc _ => True
  | .rmget size addr => w.mp.GetSafe size addr
  | .rmfree size addr => w.mp.FreeSafe size addr
  | .sync _ => True

/-- How many free segments cover an address. -/
def freeCount (segs : List Slot) (x : ℕ) : ℕ :=
  segs.countP fun s => s.addr ≤ x ∧ x < s.addr + s.size

/-- The addresses of a range of words that is given by its first address and the one after its
last. -/
def inRange (r : ℕ × ℕ) (x : ℕ) : Prop := x < 2 ^ 32 ∧ sub32 x r.1 < sub32 r.2 r.1

instance (r : ℕ × ℕ) (x : ℕ) : Decidable (inRange r x) := by unfold inRange; infer_instance

/-- How many lost ranges cover an address. -/
def lostCount (lost : List (ℕ × ℕ)) (x : ℕ) : ℕ := lost.countP fun r => inRange r x

theorem inRange_segment {s : Slot} (hs : s.Sound) (x : ℕ) :
    inRange (s.addr, s.stop) x ↔ s.addr ≤ x ∧ x < s.addr + s.size := by
  have := hs.size
  have := hs.addr
  have := hs.bound
  unfold inRange sub32 Slot.stop w32
  dsimp only
  omega

theorem Layout.freeCount_eq {segs : List Slot} (h : Layout segs) :
    Once (cover segs) (freeCount segs) := by
  intro x
  induction segs with
  | nil => simp [freeCount]
  | cons s segs ih =>
    obtain ⟨-, hlay, hgap⟩ := layout_cons.mp h
    have hcount : freeCount (s :: segs) x =
        freeCount segs x + if s.addr ≤ x ∧ x < s.addr + s.size then 1 else 0 := by
      simp [freeCount, List.countP_cons]
    have hout : s.addr ≤ x ∧ x < s.addr + s.size → x ∉ cover segs := by
      rintro hx ⟨t, ht, htx⟩
      have := hgap t ht
      unfold Slot.Before at this
      omega
    rw [hcount, mem_cover_cons]
    by_cases hs : s.addr ≤ x ∧ x < s.addr + s.size
    · simp [hs, (ih hlay).2 (hout hs)]
    · simpa [hs] using ih hlay

/-- The map represents its segments, and every address is accounted for once. -/
structure Balanced (space : Set ℕ) (w : World) : Prop where
  rep : ∃ zs, Represents w.mp w.mp.segments zs
  range : ∀ x ∈ space, 0 < x ∧ x < 2 ^ 32
  balance : Once space fun x => freeCount w.mp.segments x + w.held x + lostCount w.lost x

section Steps

variable {space : Set ℕ} {w : World} {mp' : RMap} {segs zs zs' : List Slot} {size addr : ℕ}

/-- What is accounted for once stays so when the counts of each address have the same sum. -/
theorem Once.congr {f g : ℕ → ℕ} (h : Once space f) (hfg : ∀ x, g x = f x) : Once space g := by
  intro x
  rw [hfg]
  exact h x

theorem Balanced.free_of_held (h : Balanced space w) {x : ℕ} (hx : 0 < w.held x) :
    x ∈ space ∧ freeCount w.mp.segments x = 0 := by
  obtain ⟨h1, h2⟩ := h.balance x
  by_cases hs : x ∈ space
  · have := h1 hs
    dsimp only at this
    exact ⟨hs, by omega⟩
  · have := h2 hs
    dsimp only at this
    omega

/-- Free space becomes held space. -/
theorem Balanced.take (h : Balanced space w) (ht : Takes w.mp.segments mp' size addr) :
    Balanced space { w with mp := mp', held := grant w.held size addr } := by
  obtain ⟨hsub, segs', zs', hrep, hcover⟩ := ht
  obtain ⟨zs, hold⟩ := h.rep
  constructor
  · exact ⟨zs', hrep.segments_eq.symm ▸ hrep⟩
  · exact h.range
  · apply h.balance.congr
    intro x
    dsimp only
    rw [hrep.segments_eq]
    have hnew := hrep.layout.freeCount_eq x
    have hwas := hold.layout.freeCount_eq x
    rw [hcover, Set.mem_sdiff, Set.mem_Ico] at hnew
    unfold grant
    split_ifs with hx
    · rw [hnew.2 (by tauto), hwas.1 (hsub hx)]
      omega
    · by_cases hc : x ∈ cover w.mp.segments
      · rw [hnew.1 ⟨hc, hx⟩, hwas.1 hc]
      · rw [hnew.2 (by tauto), hwas.2 hc]

/-- Held space becomes free space. -/
theorem Balanced.give (h : Balanced space w) (hg : Gives w.mp.segments mp' size addr)
    (hheld : ∀ x, addr ≤ x → x < addr + size → 0 < w.held x) :
    Balanced space { w with mp := mp', held := release w.held size addr } := by
  obtain ⟨segs', zs', hrep, hcover⟩ := hg
  obtain ⟨zs, hold⟩ := h.rep
  constructor
  · exact ⟨zs', hrep.segments_eq.symm ▸ hrep⟩
  · exact h.range
  · apply h.balance.congr
    intro x
    dsimp only
    rw [hrep.segments_eq]
    have hnew := hrep.layout.freeCount_eq x
    have hwas := hold.layout.freeCount_eq x
    rw [hcover, Set.mem_union, Set.mem_Ico] at hnew
    unfold release
    split_ifs with hx
    · have := hheld x hx.1 hx.2
      have hfree : freeCount w.mp.segments x = 0 := (h.free_of_held this).2
      rw [hnew.1 (.inr hx), hfree]
      omega
    · by_cases hc : x ∈ cover w.mp.segments
      · rw [hnew.1 (.inl hc), hwas.1 hc]
      · rw [hnew.2 (by tauto), hwas.2 hc]

/-- A free segment becomes a lost one. -/
theorem Balanced.lose {pre post : List Slot} {s : Slot} (h : Balanced space w)
    (hsegs : w.mp.segments = pre ++ s :: post) (hrep : Represents mp' (pre ++ ([] ++ post)) zs') :
    Balanced space { w with mp := mp', lost := (s.addr, s.stop) :: w.lost } := by
  obtain ⟨zs, hold⟩ := h.rep
  constructor
  · exact ⟨zs', hrep.segments_eq.symm ▸ hrep⟩
  · exact h.range
  · apply h.balance.congr
    intro x
    have hs := inRange_segment (hold.layout.sound s (by simp [hsegs])) x
    dsimp only
    rw [hrep.segments_eq, hsegs]
    simp only [freeCount, lostCount, List.countP_append, List.countP_cons, List.countP_nil, hs]
    omega

theorem mapOverhead_eq : mapOverhead = 6 := rfl

theorem Initial.balanced (h : Initial space w) : Balanced space w := by
  obtain ⟨m, mem, before, size, addr, hm, hlen, hzero, hinit, hseg, honce⟩ := h.init
  unfold mapinit at hinit
  rw [if_neg (by rw [mapOverhead_eq]; omega), Option.some.injEq] at hinit
  simp only [Nat.add_sub_cancel] at hinit
  match mem, hlen with
  | s :: rest, hlen =>
  simp only [List.length_cons] at hlen
  rw [List.set_cons_zero] at hinit
  have hrest : ∀ z ∈ rest, z.size = 0 := fun z hz => hzero z (by simp [hz])
  have hrep : ∃ zs, Represents w.mp (if size = 0 then [] else [⟨size, addr⟩]) zs := by
    rw [← hinit]
    by_cases hsize : size = 0
    · rw [if_pos hsize, if_neg (not_not.mpr hsize)]
      refine ⟨⟨size, addr⟩ :: rest, rfl, .nil, List.forall_mem_cons.mpr ⟨hsize, hrest⟩, ?_, ?_, hm⟩
      · simp
      · simp only [List.length_cons]
        omega
    · rw [if_neg hsize, if_pos hsize]
      obtain ⟨haddr, hwrap⟩ := hseg hsize
      have hs : Slot.Sound ⟨size, addr⟩ := ⟨by dsimp only; omega, by dsimp only; omega, hwrap⟩
      refine ⟨rest, rfl, layout_cons.mpr ⟨hs, .nil, by simp⟩, hrest, ?_, ?_, hm⟩
      · simp
        omega
      · simp only [List.length_cons]
        omega
  obtain ⟨zs, hrep⟩ := hrep
  constructor
  · exact ⟨zs, hrep.segments_eq.symm ▸ hrep⟩
  · exact h.range
  · apply honce.congr
    intro x
    rw [hrep.segments_eq, h.lost]
    split_ifs with hsize hx hx
    · omega
    · simp [freeCount, lostCount]
    · simp [freeCount, lostCount, hx]
    · simp [freeCount, lostCount, hx]

/-- One safe step keeps the account. -/
theorem Balanced.exec (h : Balanced space w) {w' : World} {e : Event} (ha : e.Allowed w)
    (hs : e.Safe w) (he : w.exec e = some w') : Balanced space w' := by
  obtain ⟨zs, hrep⟩ := h.rep
  cases e with
  | rmalloc size =>
    simp only [World.exec, Option.some.injEq] at he
    rcases rmallocLocked_spec hrep size with ⟨-, hnone⟩ | ⟨pre, b, post, hsegs, -, -, haddr, ht⟩
    · rw [hnone] at he
      exact he ▸ h
    · have hb := (hrep.layout.sound b (by simp [hsegs])).addr
      rw [haddr, if_neg hb.ne'] at he
      exact he ▸ h.take ht
  | rmget size addr =>
    by_cases hbad : badSize size
    · simp [World.exec, RMap.rmget, hbad] at he
    rcases rmget_spec hrep hbad ha hs with hnone | ⟨mp', hsome, haddr, ht⟩
    · simp only [World.exec, hnone, Option.map_some, ↓reduceIte, Option.some.injEq] at he
      exact he ▸ h
    · simp only [World.exec, hsome, Option.map_some, haddr.ne', ↓reduceIte, Option.some.injEq] at he
      exact he ▸ h.take ht
  | rmfree size addr =>
    by_cases hbad : addr = 0 ∨ badSize size
    · simp [World.exec, RMap.rmfree, hbad] at he
    obtain ⟨haddr, hbad⟩ := not_or.mp hbad
    have hpos : 0 < size := by
      unfold badSize at hbad
      omega
    have hlast := h.free_of_held (ha (addr + size - 1) (by omega) (by omega))
    have hwrap : addr + size ≤ 2 ^ 32 := by
      have := h.range _ hlast.1
      omega
    have hdisj : Disjoint (Set.Ico addr (addr + size)) (cover w.mp.segments) := by
      refine Set.disjoint_left.mpr fun x hx hc => ?_
      have := (h.free_of_held (ha x hx.1 hx.2)).2
      rw [(hrep.layout.freeCount_eq x).1 hc] at this
      omega
    rcases rmfree_spec hrep haddr hbad hwrap hdisj hs with
      ⟨mp', hdone, hg⟩ | ⟨-, mp', pre, s, post, hsegs, hretry, -, zs', hrep'⟩
    · simp only [World.exec, hdone, Option.some.injEq] at he
      exact he ▸ h.give hg ha
    · simp only [World.exec, hretry, Option.some.injEq] at he
      exact he ▸ h.lose hsegs hrep'
  | sync before =>
    cases he
    exact ⟨⟨zs, hrep.map, hrep.layout, hrep.zero, hrep.count, hrep.length, hrep.slots⟩, h.range,
      h.balance⟩

theorem World.Reachable.balanced (h : World.Reachable (fun w e => e.Safe w) space w) :
    Balanced space w := by
  induction h with
  | init h => exact h.balanced
  | step _ e ha hok he ih => exact ih.exec ha hok he

end Steps

/-- The state of a map as its users may rely on it. -/
structure Conserved (space : Set ℕ) (w : World) : Prop where
  nonempty : ∀ s ∈ w.mp.segments, 0 < s.size
  /-- in order, and with a gap between one segment and the next -/
  sorted : w.mp.segments.Pairwise Slot.Before
  zero : ∀ s ∈ w.mp.map.drop w.mp.segments.length, s.size = 0
  count : w.mp.mfree + w.mp.segments.length = w.mp.msize
  /-- free, held and lost ranges cover each address of the space once and no other one -/
  partition : Once space fun x => freeCount w.mp.segments x + w.held x + lostCount w.lost x
  fail : ∀ size, (w.mp.rmallocLocked size).2 = 0 ↔ ∀ s ∈ w.mp.segments, s.size < size
  firstFit : ∀ size, ∀ s ∈ w.mp.segments, size ≤ s.size →
    (∀ t ∈ w.mp.segments, size ≤ t.size → s.addr ≤ t.addr) →
    (w.mp.rmallocLocked size).2 = s.addr

section Conserved

variable {mp : RMap} {segs zs : List Slot} {size : ℕ}

theorem Represents.rmalloc_eq_zero (h : Represents mp segs zs) :
    (mp.rmallocLocked size).2 = 0 ↔ ∀ s ∈ segs, s.size < size := by
  rcases rmallocLocked_spec h size with ⟨hall, hnone⟩ | ⟨pre, b, post, rfl, -, hfit, haddr, -⟩
  · simp only [hnone, true_iff]
    exact hall
  · have hb := (h.layout.sound b (by simp)).addr
    rw [haddr]
    constructor
    · intro hzero
      omega
    · intro hall
      have := hall b (by simp)
      omega

/-- The first segment that fits is the lowest one. -/
theorem Represents.rmalloc_eq_lowest (h : Represents mp segs zs) {s : Slot} (hs : s ∈ segs)
    (hfit : size ≤ s.size) (hlow : ∀ t ∈ segs, size ≤ t.size → s.addr ≤ t.addr) :
    (mp.rmallocLocked size).2 = s.addr := by
  rcases rmallocLocked_spec h size with ⟨hall, -⟩ | ⟨pre, b, post, rfl, hpre, hb, haddr, -⟩
  · have := hall s hs
    omega
  · rw [haddr]
    have hle := hlow b (by simp) hb
    rcases List.mem_append.mp hs with hs | hs
    · have := hpre s hs
      omega
    · rcases List.mem_cons.mp hs with rfl | hs
      · rfl
      · have := (layout_cons.mp (layout_append.mp h.layout).2.1).2.2 s hs
        unfold Slot.Before at this
        omega

end Conserved

/-- In every run of a map in which no step goes wrong in the two ways that `Event.Safe` names,
the array is in order and no address of the space gets lost or is handed out twice. -/
theorem safe_run_conserved {space : Set ℕ} {w : World}
    (h : World.Reachable (fun w e => e.Safe w) space w) : Conserved space w := by
  obtain ⟨⟨zs, hrep⟩, -, hbal⟩ := h.balanced
  refine ⟨fun s hs => (hrep.layout.sound s hs).size, hrep.layout.sorted, ?_, hrep.count, hbal,
    fun size => hrep.rmalloc_eq_zero, fun size s hs => hrep.rmalloc_eq_lowest hs⟩
  have hdrop : w.mp.map.drop w.mp.segments.length = zs := by
    rw [hrep.map, List.drop_left]
  rw [hdrop]
  exact hrep.zero

/-- Four units are taken from the front of a segment of ten. -/
def fourOfTen : World where
  mp := ⟨1, 2, ⟨0, 0⟩, [⟨6, 14⟩, ⟨0, 0⟩, ⟨0, 0⟩, ⟨0, 0⟩]⟩
  held := grant (fun _ => 0) 4 10
  lost := []

theorem fourOfTen_reachable : World.Reachable (fun w e => e.Safe w) (Set.Ico 10 20) fourOfTen := by
  have hinit : Initial (Set.Ico 10 20)
      ⟨⟨1, 2, ⟨0, 0⟩, [⟨10, 10⟩, ⟨0, 0⟩, ⟨0, 0⟩, ⟨0, 0⟩]⟩, fun _ => 0, []⟩ := by
    refine ⟨⟨2, List.replicate 4 ⟨0, 0⟩, ⟨0, 0⟩, 10, 10, by decide, rfl, by simp, rfl, by decide,
      fun x => ?_⟩, fun x hx => ?_, rfl⟩
    · simp only [Set.mem_Ico]
      split_ifs <;> omega
    · simp only [Set.mem_Ico] at hx
      omega
  exact .step (.init hinit) (.rmalloc 4) trivial trivial rfl

theorem safe_run_conserved_fourOfTen : Conserved (Set.Ico 10 20) fourOfTen :=
  safe_run_conserved fourOfTen_reachable

/-- Two units that do not touch are given to a map of one slot: the second one drives the first
one out, into the header of the map. -/
def twoInOne : World where
  mp := ⟨0, 1, ⟨1, 10⟩, [⟨1, 20⟩, ⟨0, 0⟩, ⟨0, 0⟩]⟩
  held := release (release (fun x => if x = 10 ∨ x = 20 then 1 else 0) 1 10) 1 20
  lost := [(0, 0)]

theorem twoInOne_reachable : World.Reachable (fun _ _ => True) { 10, 20 } twoInOne := by
  have hinit : Initial { 10, 20 }
      ⟨⟨1, 1, ⟨0, 0⟩, [⟨0, 0⟩, ⟨0, 0⟩, ⟨0, 0⟩]⟩, fun x => if x = 10 ∨ x = 20 then 1 else 0, []⟩ := by
    refine ⟨⟨1, List.replicate 3 ⟨0, 0⟩, ⟨0, 0⟩, 0, 0, le_rfl, rfl, by simp, rfl, by decide,
      fun x => ?_⟩, fun x hx => ?_, rfl⟩
    · by_cases hx : x = 10 ∨ x = 20 <;> simp [hx]
    · rcases hx with rfl | rfl <;> decide
  have h1 : ∀ x, 10 ≤ x → x < 10 + 1 → 0 < (if x = 10 ∨ x = 20 then 1 else 0) := by
    intro x h1 h2
    rw [if_pos (by omega)]
    decide
  have h2 : ∀ x, 20 ≤ x → x < 20 + 1 →
      0 < release (fun x => if x = 10 ∨ x = 20 then 1 else 0) 1 10 x := by
    intro x h1 h2
    rw [release, if_neg (by omega), if_pos (by omega)]
    decide
  exact .step (.step (.step (.init hinit) (.rmfree 1 10) h1 trivial rfl) (.rmfree 1 20) h2 trivial
    rfl) (.rmfree 1 20) h2 trivial rfl

/-- The unit 10 is neither free, nor held, nor reported as lost. -/
theorem oneSlot_run_not_conserved :
    World.Reachable (fun _ _ => True) { 10, 20 } twoInOne ∧ ¬ Conserved { 10, 20 } twoInOne := by
  refine ⟨twoInOne_reachable, fun h => ?_⟩
  have := (h.partition 10).1 (by simp)
  revert this
  decide

end Sol26.Rmap
