import Sol26.Ip.Reassemble
import Sol26.Lib.Gaps

/-!
# What a fragment does to the queue

The blocks stay in order and without overlap, and cover the new range as well. The number of
holes changes with the gaps, except that a fragment with `IPH_MF` clear takes one more off for
every block that it clips out without closing a gap after it.
-/
namespace Sol26.Ip

open Gaps

/-- The range of a block. -/
def Mblk.span (m : Mblk) : ℕ × ℕ := (m.start, m.stop)

/-- The ranges of the blocks. -/
def spans (l : List Mblk) : List (ℕ × ℕ) := l.map Mblk.span

@[simp] theorem spans_nil : spans [] = [] := rfl

@[simp] theorem spans_cons {m : Mblk} {l : List Mblk} :
    spans (m :: l) = (m.start, m.stop) :: spans l := rfl

@[simp] theorem spans_append {l l' : List Mblk} : spans (l ++ l') = spans l ++ spans l' :=
  List.map_append

/-- The part of a block from `lo` to `hi`. -/
def Mblk.cut (mp : Mblk) (lo hi : ℕ) : Mblk :=
  ⟨(mp.data.drop (lo - mp.start)).take (mp.data.length - (lo - mp.start) - (mp.stop - hi)), lo, hi⟩

/-- The blocks that are clipped out by a new one which ends at `e` while no gap after them is
closed. -/
def idle (e : ℕ) : List (ℕ × ℕ) → ℕ
  | [] => 0
  | p :: l =>
    if p.1 < e ∧ p.2 ≤ e then (gaps e l + 1 - gaps p.2 l) + idle e l
    else 0

/-- The decrements of the number of holes for a fragment `[s, e)` with `IPH_MF` clear, beyond
those for the gaps that it closes. -/
def surplus (e : ℕ) : ℕ → List (ℕ × ℕ) → ℕ
  | _, [] => 1
  | s, p :: l =>
    if s < p.1 then idle e (p :: l)
    else if e ≤ p.2 then 0
    else surplus e (max s p.2) l

section Cut

variable {mp : Mblk} {lo hi : ℕ}

theorem Mblk.cut_self (hlo : mp.start = lo) (hhi : mp.stop = hi) : mp.cut lo hi = mp := by
  subst hlo hhi
  simp [Mblk.cut]

theorem Mblk.trimBack_eq : mp.trimBack hi = mp.cut mp.start hi := by
  simp [Mblk.trimBack, Mblk.cut]

theorem Mblk.trimFront_eq : mp.trimFront lo = mp.cut lo mp.stop := by
  simp [Mblk.trimFront, Mblk.cut]

theorem Mblk.cut_cut {lo' hi' : ℕ} (h1 : mp.start ≤ lo) (h2 : lo ≤ lo') (h3 : hi' ≤ hi)
    (h4 : hi ≤ mp.stop) : (mp.cut lo hi).cut lo' hi' = mp.cut lo' hi' := by
  unfold Mblk.cut
  simp only [List.length_take, List.length_drop, List.drop_take, List.drop_drop, List.take_take,
    Mblk.mk.injEq, and_true]
  have hd : lo - mp.start + (lo' - lo) = lo' - mp.start := by omega
  rw [hd]
  congr 1
  omega

end Cut

section Clip

variable (more : Bool) (holes : ℤ) {mp : Mblk} {l : List Mblk}

/-- What the overlap loop leaves. -/
structure Clipped (more : Bool) (mp : Mblk) (l : List Mblk) (holes : ℤ)
    (r : Mblk × List Mblk × ℤ) : Prop where
  cut : ∃ hi, mp.start < hi ∧ hi ≤ mp.stop ∧ r.1 = mp.cut mp.start hi
  suffix : r.2.1 <:+ l
  pieces : Pieces mp.start (spans (r.1 :: r.2.1))
  cover : ∀ x, x ∈ cover (spans (r.1 :: r.2.1)) ↔
    (mp.start ≤ x ∧ x < mp.stop) ∨ x ∈ cover (spans l)
  holes : r.2.2 + gaps mp.stop (spans l) + (if more then 0 else idle mp.stop (spans l) : ℕ) =
    holes + gaps r.1.stop (spans r.2.1)

/-- A block that ends below `e` is followed by a gap of which `e` is past the end, or not. -/
theorem gaps_of_le {a e : ℕ} (hae : a ≤ e) (q : List (ℕ × ℕ)) :
    gaps e q ≤ gaps a q ∧ gaps a q ≤ gaps e q + 1 := by
  cases q with
  | nil => simp [gaps]
  | cons p q =>
    simp only [gaps]
    split_ifs <;> omega

theorem coversHole_eq {mp1 : Mblk} {stop : ℕ} (h : Pieces mp1.stop (spans l))
    (hle : mp1.stop ≤ stop) :
    coversHole more stop mp1 l = true ↔
      gaps mp1.stop (spans l) = gaps stop (spans l) + 1 ∨ more = false := by
  cases l with
  | nil => simp [coversHole, gaps]
  | cons next l =>
    have h1 : mp1.stop ≤ next.start := h.1
    simp only [coversHole, spans_cons, gaps, ne_eq, decide_not, ge_iff_le, Bool.or_eq_true,
      Bool.and_eq_true, Bool.not_eq_true', decide_eq_false_iff_not, decide_eq_true_eq]
    apply or_congr_left
    split_ifs <;> omega

theorem coversHole_holes {mp1 : Mblk} {stop : ℕ} (h : Pieces mp1.stop (spans l))
    (hle : mp1.stop ≤ stop) :
    (if coversHole more stop mp1 l then holes - 1 else holes) + gaps mp1.stop (spans l) +
        (if more then 0 else gaps stop (spans l) + 1 - gaps mp1.stop (spans l) : ℕ) =
      holes + gaps stop (spans l) := by
  have hstep := coversHole_eq more h hle
  have hgap := gaps_of_le hle (spans l)
  cases more with
  | true =>
    simp only [Bool.true_eq_false, or_false] at hstep
    simp only [hstep, if_true]
    split_ifs <;> omega
  | false =>
    simp only [or_true, iff_true] at hstep
    simp only [hstep, if_true, Bool.false_eq_true, if_false]
    omega

theorem clip_spec (hne : mp.start < mp.stop) (hl : Pieces (mp.start + 1) (spans l)) :
    Clipped more mp l holes (clip more mp l holes) := by
  induction l generalizing holes with
  | nil =>
    refine ⟨⟨mp.stop, hne, le_rfl, (Mblk.cut_self rfl rfl).symm⟩, List.suffix_rfl,
      ⟨le_rfl, hne, trivial⟩, fun x => by simp [clip], ?_⟩
    simp [clip, gaps, idle]
  | cons mp1 rest ih =>
    obtain ⟨h1, h2, h3⟩ : mp.start + 1 ≤ mp1.start ∧ mp1.start < mp1.stop ∧
      Pieces mp1.stop (spans rest) := hl
    unfold clip
    by_cases hover : mp.stop > mp1.start
    · rw [if_pos hover]
      by_cases hpart : mp.stop < mp1.stop
      · -- the new block is cut where `mp1` starts
        rw [if_pos hpart, Mblk.trimBack_eq]
        refine ⟨⟨mp1.start, by omega, by omega, rfl⟩, List.suffix_rfl,
          ⟨le_rfl, h1, le_rfl, h2, h3⟩, fun x => ?_, ?_⟩
        · simp only [spans_cons, mem_cover_cons, Mblk.cut]
          by_cases hx : x ∈ Gaps.cover (spans rest)
          · simp [hx]
          · simp only [hx, or_false]
            omega
        · have hlt : ¬ mp.stop < mp1.start := by omega
          have hnot : ¬ mp1.stop ≤ mp.stop := by omega
          simp [gaps, idle, Mblk.cut, hlt, hnot]
      · have hle : mp1.stop ≤ mp.stop := by omega
        rw [if_neg hpart]
        obtain ⟨hcut, hsuf, hpieces, hcover, hholes⟩ :=
          ih (if coversHole more mp.stop mp1 rest then holes - 1 else holes)
            (h3.mono (by omega))
        refine ⟨hcut, hsuf.trans (List.suffix_cons _ _), hpieces, fun x => ?_, ?_⟩
        · rw [hcover x, spans_cons, mem_cover_cons]
          by_cases hx : x ∈ Gaps.cover (spans rest)
          · simp [hx]
          · simp only [hx, or_false]
            omega
        · have hstep := coversHole_holes more holes h3 hle
          have hlt : ¬ mp.stop < mp1.start := by omega
          simp only [spans_cons, gaps, hlt, if_false, idle, hover, hle, and_self, if_true, zero_add]
          generalize (if coversHole more mp.stop mp1 rest then holes - 1 else holes) = k
            at hstep hholes ⊢
          split_ifs at hstep hholes ⊢ <;> omega
    · rw [if_neg hover]
      refine ⟨⟨mp.stop, hne, le_rfl, (Mblk.cut_self rfl rfl).symm⟩, List.suffix_rfl,
        ⟨le_rfl, hne, not_lt.mp hover, h2, h3⟩, fun x => by simp, ?_⟩
      have hnot : ¬ (mp1.start < mp.stop ∧ mp1.stop ≤ mp.stop) := by omega
      simp [idle, hnot]

end Clip

/-- What adding a block to a queue that begins at `a` comes to. -/
structure Added (a : ℕ) (more : Bool) (mp : Mblk) (l : List Mblk) (holes : ℤ) (l' : List Mblk)
    (holes' : ℤ) : Prop where
  pieces : Pieces a (spans l')
  cover : ∀ x, x ∈ cover (spans l') ↔ (mp.start ≤ x ∧ x < mp.stop) ∨ x ∈ cover (spans l)
  holes : holes' + gaps a (spans l) + (if more then 0 else surplus mp.stop mp.start (spans l) : ℕ) =
    holes + gaps a (spans l')
  blocks : ∀ m ∈ l', m ∈ l ∨ ∃ hi, lead mp.start (spans l) < hi ∧ hi ≤ mp.stop ∧
    m = mp.cut (lead mp.start (spans l)) hi

section Added

variable {a : ℕ} {more : Bool} {mp mp1 next : Mblk} {l l' rest : List Mblk} {holes holes' : ℤ}

/-- Behind a block that ends before the new one. -/
theorem Added.cons (h : Added mp1.stop more mp l holes l' holes') (ha : a ≤ mp1.start)
    (hmp1 : mp1.start < mp1.stop) (hle : mp1.stop ≤ mp.start) (hne : mp.start < mp.stop) :
    Added a more mp (mp1 :: l) holes (mp1 :: l') holes' := by
  have hlead : lead mp.start (spans (mp1 :: l)) = lead mp.start (spans l) := by
    rw [spans_cons, lead, if_pos (by dsimp only; omega), max_eq_left hle]
  have hsurplus : surplus mp.stop mp.start (spans (mp1 :: l)) =
      surplus mp.stop mp.start (spans l) := by
    rw [spans_cons, surplus, if_neg (by dsimp only; omega), if_neg (by dsimp only; omega),
      max_eq_left hle]
  refine ⟨⟨ha, hmp1, h.pieces⟩, fun x => ?_, ?_, fun m hm => ?_⟩
  · rw [spans_cons, spans_cons, mem_cover_cons, mem_cover_cons, h.cover x, or_left_comm]
  · rw [hsurplus]
    have := h.holes
    simp only [spans_cons, gaps]
    omega
  · rw [hlead]
    cases List.mem_cons.mp hm with
    | inl hm => exact .inl (hm ▸ List.mem_cons_self)
    | inr hm => exact (h.blocks m hm).imp_left (List.mem_cons_of_mem _)

/-- The redundant beginning of a new block makes no difference. -/
theorem Added.of_trimFront (h : Added a more (mp.trimFront mp1.stop) (mp1 :: l) holes l' holes')
    (hstart : mp1.start ≤ mp.start) (hlt : mp.start < mp1.stop) (hstop : mp1.stop < mp.stop) :
    Added a more mp (mp1 :: l) holes l' holes' := by
  have hlead : lead mp1.stop (spans (mp1 :: l)) = lead mp.start (spans (mp1 :: l)) := by
    simp only [spans_cons, lead]
    rw [if_pos (by omega), if_pos hstart, max_eq_right (by omega), max_eq_right (by omega)]
  have hsurplus : surplus mp.stop mp1.stop (spans (mp1 :: l)) =
      surplus mp.stop mp.start (spans (mp1 :: l)) := by
    simp only [spans_cons, surplus]
    rw [if_neg (by omega), if_neg (by omega), if_neg (by omega), if_neg (by omega),
      max_eq_right (by omega), max_eq_right (by omega)]
  obtain ⟨hpieces, hcover, hholes, hblocks⟩ := h
  rw [Mblk.trimFront_eq] at hcover hholes hblocks
  simp only [Mblk.cut] at hcover hholes
  refine ⟨hpieces, fun x => ?_, hsurplus ▸ hholes, fun m hm => ?_⟩
  · rw [hcover x, spans_cons, mem_cover_cons]
    by_cases hx : x ∈ Gaps.cover (spans l)
    · simp [hx]
    · simp only [hx, or_false]
      omega
  · cases hblocks m hm with
    | inl hm => exact .inl hm
    | inr hm =>
      obtain ⟨hi, h1, h2, rfl⟩ := hm
      have hle : mp1.stop ≤ lead mp1.stop (spans (mp1 :: l)) := le_lead
      dsimp only [Mblk.cut] at h1 h2
      refine .inr ⟨hi, hlead ▸ h1, h2, ?_⟩
      rw [← hlead]
      exact Mblk.cut_cut hlt.le hle h2 le_rfl

/-- Linked in front of a block that starts after it. -/
theorem clip_added (more : Bool) (holes holes' : ℤ) (hne : mp.start < mp.stop)
    (ha : a ≤ mp.start) (hlt : mp.start < mp1.start) (hl : Pieces a (spans (mp1 :: rest)))
    (hholes : holes' + 1 =
      holes + (if a < mp.start then 1 else 0) + (if mp.stop < mp1.start then 1 else 0)) :
    Added a more mp (mp1 :: rest) holes
      ((clip more mp (mp1 :: rest) holes').1 :: (clip more mp (mp1 :: rest) holes').2.1)
      (clip more mp (mp1 :: rest) holes').2.2 := by
  obtain ⟨-, h2, h3⟩ : a ≤ mp1.start ∧ mp1.start < mp1.stop ∧ Pieces mp1.stop (spans rest) := hl
  obtain ⟨⟨hi, hhi, hle, hcut⟩, hsuf, hpieces, hcover, hclip⟩ :=
    clip_spec more holes' hne
      (l := mp1 :: rest) (⟨hlt, h2, h3⟩ : Pieces (mp.start + 1) (spans (mp1 :: rest)))
  have hstart : (clip more mp (mp1 :: rest) holes').1.start = mp.start := by rw [hcut]; rfl
  have hlead : lead mp.start (spans (mp1 :: rest)) = mp.start := by
    rw [spans_cons, lead, if_neg (by dsimp only; omega)]
  have hsurplus : surplus mp.stop mp.start (spans (mp1 :: rest)) =
      idle mp.stop (spans (mp1 :: rest)) := by
    rw [spans_cons, surplus, if_pos hlt]
  refine ⟨hpieces.mono ha, hcover, ?_, fun m hm => ?_⟩
  · rw [hsurplus]
    have hlt' : a < mp1.start := by omega
    simp only [spans_cons, gaps, hstart, if_pos hlt'] at hclip ⊢
    split_ifs at hclip hholes ⊢ <;> omega
  · cases List.mem_cons.mp hm with
    | inl hm =>
      right
      rw [hlead]
      exact ⟨hi, hhi, hle, hm.trans hcut⟩
    | inr hm => exact .inl (hsuf.subset hm)

/-- A block in a gap after `mp1`. -/
theorem fill_added (hne : mp.start < mp.stop) (hle : mp1.stop ≤ mp.start)
    (hlt : mp.start < next.start) (hl : Pieces a (spans (mp1 :: next :: rest))) :
    Added a more mp (mp1 :: next :: rest) holes (fill more mp mp1 next rest holes).1
      (fill more mp mp1 next rest holes).2 := by
  obtain ⟨h1, h2, h3⟩ : a ≤ mp1.start ∧ mp1.start < mp1.stop ∧
    Pieces mp1.stop (spans (next :: rest)) := hl
  unfold fill
  by_cases hover : mp.stop ≥ next.start
  · rw [if_pos hover]
    refine (clip_added _ _ _ hne hle hlt h3 ?_).cons h1 h2 hle hne
    split_ifs <;> omega
  · rw [if_neg hover]
    have hclip := clip_added more holes
      (if mp.start > mp1.stop then holes + 1 else holes) hne hle hlt h3
      (by split_ifs <;> omega)
    rw [clip, if_neg (by omega)] at hclip
    exact hclip.cons h1 h2 hle hne

/-- A block at or after the end of the queue. -/
theorem append_added (hne : mp.start < mp.stop) (hl : Pieces a (spans l))
    (htop : top a (spans l) ≤ mp.start)
    (hholes : holes' + (if more then 0 else 1) =
      holes + (if top a (spans l) < mp.start then 1 else 0)) :
    Added a more mp l holes (l ++ [mp]) holes' := by
  induction l generalizing a with
  | nil =>
    refine ⟨⟨htop, hne, trivial⟩, fun x => by simp, ?_, fun m hm => ?_⟩
    · simp only [spans_nil, top] at hholes
      simp only [spans_nil, gaps, surplus, List.nil_append, spans_cons]
      split_ifs at hholes ⊢ <;> omega
    · obtain rfl : m = mp := by simpa using hm
      exact .inr ⟨m.stop, hne, le_rfl, (Mblk.cut_self rfl rfl).symm⟩
  | cons mp1 l ih =>
    obtain ⟨h1, h2, h3⟩ : a ≤ mp1.start ∧ mp1.start < mp1.stop ∧ Pieces mp1.stop (spans l) := hl
    have hle : mp1.stop ≤ mp.start := h3.le_top.trans htop
    exact (ih h3 htop hholes).cons h1 h2 hle hne

/-- A block within one that is there. -/
theorem same_added (hstart : mp1.start ≤ mp.start) (hstop : mp.stop ≤ mp1.stop)
    (hl : Pieces a (spans (mp1 :: rest))) :
    Added a more mp (mp1 :: rest) holes (mp1 :: rest) holes := by
  refine ⟨hl, fun x => ?_, ?_, fun m hm => .inl hm⟩
  · rw [spans_cons, mem_cover_cons]
    by_cases hx : x ∈ Gaps.cover (spans rest)
    · simp [hx]
    · simp only [hx, or_false]
      omega
  · have : surplus mp.stop mp.start (spans (mp1 :: rest)) = 0 := by
      rw [spans_cons, surplus, if_neg (not_lt.mpr hstart), if_pos hstop]
    rw [this, ite_self, Nat.cast_zero, add_zero]

/-- A block that starts in the queue: it is behind the first block, once what the first block has
is trimmed off. -/
theorem place_added (more : Bool) (holes : ℤ) (hne : mp.start < mp.stop)
    (hl : Pieces a (spans (mp1 :: rest)))
    (hstart : mp1.start ≤ mp.start) (htop : mp.start < top a (spans (mp1 :: rest))) :
    ∃ r, place more mp (mp1 :: rest) holes = some r ∧
      Added a more mp (mp1 :: rest) holes r.1 r.2 := by
  induction rest generalizing a mp mp1 with
  | nil =>
    have hlt : mp.start < mp1.stop := htop
    unfold place
    by_cases hsame : mp.start < mp1.stop ∧ mp.stop ≤ mp1.stop
    · exact ⟨_, by rw [if_pos hsame], same_added hstart hsame.2 hl⟩
    · have hstop : mp1.stop < mp.stop := by omega
      simp only [if_neg hsame, if_pos hlt]
      refine ⟨_, rfl, Added.of_trimFront ?_ hstart hlt hstop⟩
      apply append_added (l := [mp1]) hstop hl le_rfl
      simp only [spans_cons, spans_nil, top, Mblk.trimFront, lt_self_iff_false, if_false]
      split_ifs <;> omega
  | cons next rest ih =>
    have hl' := hl
    obtain ⟨h1, h2, h4, h5, h6⟩ : a ≤ mp1.start ∧ mp1.start < mp1.stop ∧ mp1.stop ≤ next.start ∧
      next.start < next.stop ∧ Pieces next.stop (spans rest) := hl'
    have hnext : next.stop ≤ top a (spans (mp1 :: next :: rest)) := h6.le_top
    unfold place
    by_cases hsame : mp.start < mp1.stop ∧ mp.stop ≤ mp1.stop
    · exact ⟨_, by rw [if_pos hsame], same_added hstart hsame.2 hl⟩
    · simp only [hsame, if_false]
      -- the rest of the walk, for a block behind `mp1`
      have hwalk : ∀ mp' : Mblk, mp1.stop ≤ mp'.start → mp'.start < mp'.stop →
          mp'.start < top a (spans (mp1 :: next :: rest)) →
          ∃ r, (if mp'.start ≥ next.start then do
              let r ← place more mp' (next :: rest) holes
              return (mp1 :: r.1, r.2)
            else some (fill more mp' mp1 next rest holes)) = some r ∧
            Added a more mp' (mp1 :: next :: rest) holes r.1 r.2 := by
        intro mp' hle hne' htop'
        by_cases hpast : mp'.start ≥ next.start
        · obtain ⟨r, hr, hadd⟩ := ih hne' hl.2.2 hpast htop'
          rw [if_pos hpast, hr]
          exact ⟨_, rfl, hadd.cons h1 h2 hle hne'⟩
        · rw [if_neg hpast]
          exact ⟨_, rfl, fill_added hne' hle (by omega) hl⟩
      by_cases hlt : mp.start < mp1.stop
      · have hstop : mp1.stop < mp.stop := by omega
        rw [if_pos hlt]
        obtain ⟨r, hr, hadd⟩ := hwalk (mp.trimFront mp1.stop) le_rfl hstop
          (show mp1.stop < _ by omega)
        exact ⟨r, hr, hadd.of_trimFront hstart hlt hstop⟩
      · rw [if_neg hlt]
        exact hwalk mp (by omega) hne htop

theorem getLastD_stop : (rest.getLastD mp1).stop = top a (spans (mp1 :: rest)) := by
  induction rest generalizing mp1 a with
  | nil => rfl
  | cons next rest ih =>
    rw [List.getLastD_cons]
    exact ih (a := a)

/-- A block that is the whole of a message, on a queue that is not empty. -/
theorem Ipf.add_added {ipf : Ipf} (more : Bool) (mp : Mblk) (hne : mp.start < mp.stop)
    (hl : Pieces 0 (spans ipf.queue)) (hq : ipf.queue ≠ []) :
    ∃ q h, ipf.add more mp false = some ⟨q, h, ipf.last⟩ ∧
      Added 0 more mp ipf.queue ipf.holeCnt q h := by
  obtain ⟨queue, holes, last⟩ := ipf
  cases queue with
  | nil => exact absurd rfl hq
  | cons mp1 rest =>
    dsimp only at hl ⊢
    have hlast : (rest.getLastD mp1).stop = top 0 (spans (mp1 :: rest)) := getLastD_stop
    unfold Ipf.add
    simp only [hlast]
    by_cases hend : mp.start ≥ top 0 (spans (mp1 :: rest))
    · rw [if_pos hend]
      refine ⟨_, _, rfl, append_added hne hl hend ?_⟩
      simp only [Bool.not_false, Bool.and_true, decide_eq_true_eq]
      split_ifs <;> omega
    · rw [if_neg hend]
      by_cases hfront : mp.start < mp1.start
      · rw [if_pos hfront]
        refine ⟨_, _, rfl, clip_added _ _ _ hne (Nat.zero_le _) hfront hl ?_⟩
        unfold frontHoles
        split_ifs <;> omega
      · rw [if_neg hfront]
        obtain ⟨r, hr, hadd⟩ := place_added more holes hne hl
          (not_lt.mp hfront) (not_le.mp hend)
        rw [hr]
        exact ⟨_, _, rfl, hadd⟩

end Added

end Sol26.Ip
