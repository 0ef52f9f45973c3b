import Sol26.Qsort.Partition

/-!
# The quicksort leaves the elements nearly sorted

The parts that are still to be sorted are disjoint, everything before one of them is not larger
and everything behind it not smaller than its elements, and elements that are far apart are in
order unless they are in one of these parts. Each partition splits a part in two, of which the
smaller one is sorted first, so that the stack stays small.
-/
namespace Sol26.Qsort

variable {β : Type} {A : Args β} {m m' : ℕ → β} {mid base max k : ℕ}

/-- The elements are in order, but for those of the parts that are still to be sorted. -/
structure Split (A : Args β) (parts : List (ℕ × ℕ)) (m : ℕ → β) : Prop where
  long : ∀ p ∈ parts, p.1 + THRESH ≤ p.2 ∧ p.2 ≤ A.n
  disjoint : parts.Pairwise fun p p' => p.2 ≤ p'.1 ∨ p'.2 ≤ p.1
  below : ∀ p ∈ parts, ∀ x y, x < p.1 → p.1 ≤ y → y < p.2 → A.le m x y
  above : ∀ p ∈ parts, ∀ x y, p.1 ≤ x → x < p.2 → p.2 ≤ y → y < A.n → A.le m x y
  near : ∀ x y, x + THRESH ≤ y + 1 → y < A.n → A.le m x y ∨
    ∃ p ∈ parts, p.1 ≤ x ∧ y < p.2

theorem Split.perm {parts parts' : List (ℕ × ℕ)} (h : Split A parts m)
    (hperm : parts'.Perm parts) : Split A parts' m := by
  refine ⟨fun p hp => h.long p (hperm.mem_iff.1 hp), ?_, fun p hp => h.below p (hperm.mem_iff.1 hp),
    fun p hp => h.above p (hperm.mem_iff.1 hp), ?_⟩
  · refine hperm.symm.pairwise h.disjoint ?_
    intro p p' hd
    exact hd.symm
  · intro x y hxy hy
    rcases h.near x y hxy hy with hle | ⟨p, hp, hin⟩
    · exact .inl hle
    · exact .inr ⟨p, hperm.mem_iff.2 hp, hin⟩

/-- The parts on both sides of the pivot that are long enough to be sorted. -/
def sides (base mid max : ℕ) : List (ℕ × ℕ) :=
  [(base, mid), (mid + 1, max)].filter fun p => p.1 + THRESH ≤ p.2

theorem mem_sides {p : ℕ × ℕ} : p ∈ sides base mid max ↔
    (p = (base, mid) ∨ p = (mid + 1, max)) ∧ p.1 + THRESH ≤ p.2 := by
  simp [sides]

/-- The order of elements outside of a part does not change when the part is rearranged. -/
theorem le_outside {x y : ℕ} (hmoved : Moved A base max m m') (hx : ¬ (base ≤ x ∧ x < max))
    (hy : ¬ (base ≤ y ∧ y < max)) (h : A.le m x y) : A.le m' x y := by
  rw [Args.le, hmoved.elems.outside hx, hmoved.elems.outside hy]
  exact h

theorem le_inside {x y : ℕ} (hmoved : Moved A base max m m') (hx : ¬ (base ≤ x ∧ x < max))
    (hy : base ≤ y ∧ y < max) (h : ∀ y, base ≤ y → y < max → A.le m x y) : A.le m' x y := by
  rw [Args.le, hmoved.elems.outside hx]
  exact hmoved.elems.forall_inside
    (p := fun e => A.qcmp (elem A.qsz m x) e ≤ 0) h y hy.1 hy.2

theorem inside_le {x y : ℕ} (hmoved : Moved A base max m m') (hx : base ≤ x ∧ x < max)
    (hy : ¬ (base ≤ y ∧ y < max)) (h : ∀ x, base ≤ x → x < max → A.le m x y) : A.le m' x y := by
  rw [Args.le, hmoved.elems.outside hy]
  exact hmoved.elems.forall_inside
    (p := fun e => A.qcmp e (elem A.qsz m y) ≤ 0) h x hx.1 hx.2

/-- A partition splits the first part. -/
theorem Split.partition {rest : List (ℕ × ℕ)} (hpre : A.Preorder)
    (h : Split A ((base, max) :: rest) m) (hmoved : Moved A base max m m') (hmid : base ≤ mid)
    (hmid' : mid < max) (haround : Around A base max mid mid mid m') :
    Split A (sides base mid max ++ rest) m' := by
  obtain ⟨hlong, hmax⟩ := h.long (base, max) List.mem_cons_self
  obtain ⟨hapart, hdisjoint⟩ : (∀ p ∈ rest, max ≤ p.1 ∨ p.2 ≤ base) ∧ _ :=
    List.pairwise_cons.1 h.disjoint
  have hfirst : ∀ {x y : ℕ}, x < base → base ≤ y → y < max → A.le m' x y := by
    intro x y hx hy hy'
    exact le_inside hmoved (by omega) ⟨hy, hy'⟩ fun y hy hy' =>
      h.below _ List.mem_cons_self x y hx hy hy'
  have hlast : ∀ {x y : ℕ}, base ≤ x → x < max → max ≤ y → y < A.n → A.le m' x y := by
    intro x y hx hx' hy hy'
    exact inside_le hmoved ⟨hx, hx'⟩ (by omega) fun x hx hx' =>
      h.above _ List.mem_cons_self x y hx hx' hy hy'
  have hmiddle : ∀ {x y : ℕ}, base ≤ x → x ≤ mid → mid ≤ y → y < max → A.le m' x y := by
    intro x y hx hx' hy hy'
    have hxm : A.le m' x mid :=
      if hxe : x = mid then hxe ▸ hpre.refl m' x else haround.below x hx (by omega)
    have hmy : A.le m' mid y :=
      if hye : y = mid then hye ▸ hpre.refl m' y else haround.above y (by omega) hy'
    exact hpre.trans _ _ _ hxm hmy
  refine ⟨?_, ?_, ?_, ?_, ?_⟩
  · intro p hp
    rcases List.mem_append.1 hp with hp | hp
    · obtain ⟨rfl | rfl, hlen⟩ := mem_sides.1 hp
      · exact ⟨hlen, by omega⟩
      · exact ⟨hlen, hmax⟩
    · exact h.long p (List.mem_cons_of_mem _ hp)
  · rw [List.pairwise_append]
    refine ⟨?_, hdisjoint, ?_⟩
    · apply List.Pairwise.filter
      simp
    · intro p hp p' hp'
      have := hapart p' hp'
      obtain ⟨rfl | rfl, -⟩ := mem_sides.1 hp <;> simp only <;> omega
  · intro p hp x y hx hy hy'
    rcases List.mem_append.1 hp with hp | hp
    · obtain ⟨rfl | rfl, -⟩ := mem_sides.1 hp
      · exact hfirst hx hy (by simp only at hy'; omega)
      · simp only at hx hy hy'
        by_cases hxb : x < base
        · exact hfirst hxb (by omega) hy'
        · exact hmiddle (by omega) (by omega) (by omega) hy'
    · have hd := hapart p hp
      have hold := h.below p (List.mem_cons_of_mem _ hp)
      by_cases hxc : base ≤ x ∧ x < max
      · apply inside_le hmoved hxc (by omega)
        intro x' hx1 hx2
        exact hold x' y (by omega) hy hy'
      · exact le_outside hmoved hxc (by omega) (hold x y hx hy hy')
  · intro p hp x y hx hx' hy hy'
    rcases List.mem_append.1 hp with hp | hp
    · obtain ⟨rfl | rfl, -⟩ := mem_sides.1 hp
      · simp only at hx hx' hy
        by_cases hym : max ≤ y
        · exact hlast hx (by omega) hym hy'
        · exact hmiddle hx (by omega) (by omega) (by omega)
      · exact hlast (by simp only at hx; omega) hx' hy hy'
    · have hd := hapart p hp
      have hold := h.above p (List.mem_cons_of_mem _ hp)
      by_cases hyc : base ≤ y ∧ y < max
      · apply le_inside hmoved (by omega) hyc
        intro y' hy1 hy2
        exact hold x y' hx hx' (by omega) (by omega)
      · exact le_outside hmoved (by omega) hyc (hold x y hx hx' hy hy')
  · intro x y hxy hy
    have hT : THRESH = 14 := rfl
    by_cases hxc : base ≤ x ∧ x < max
    · by_cases hyc : base ≤ y ∧ y < max
      · -- both in the part: on both sides of the pivot, or in a side that is long enough
        by_cases hcross : x ≤ mid ∧ mid ≤ y
        · exact .inl (hmiddle hxc.1 hcross.1 hcross.2 hyc.2)
        · right
          by_cases hxm : x ≤ mid
          · exact ⟨(base, mid), List.mem_append_left _ (mem_sides.2 ⟨.inl rfl, by simp only; omega⟩),
              hxc.1, by simp only; omega⟩
          · exact ⟨(mid + 1, max),
              List.mem_append_left _ (mem_sides.2 ⟨.inr rfl, by simp only; omega⟩),
              by simp only; omega, hyc.2⟩
      · exact .inl (hlast hxc.1 hxc.2 (by omega) hy)
    · by_cases hyc : base ≤ y ∧ y < max
      · exact .inl (hfirst (by omega) hyc.1 hyc.2)
      · rcases h.near x y hxy hy with hle | ⟨p, hp, hpx, hpy⟩
        · exact .inl (le_outside hmoved hxc hyc hle)
        · rcases List.mem_cons.1 hp with rfl | hp
          · simp only at hpx hpy
            omega
          · exact .inr ⟨p, List.mem_append_right _ hp, hpx, hpy⟩

/-! ### The stack -/

/-- Elements of at least one byte, all of them below `2 ^ 31`. -/
structure Args.Small (A : Args β) : Prop where
  qsz : 1 ≤ A.qsz
  size : A.n * A.qsz < 2 ^ 31

theorem Args.Small.n_lt (h : A.Small) : A.n < 2 ^ 31 :=
  lt_of_le_of_lt (Nat.le_mul_of_pos_right _ h.qsz) h.size

/-- The bytes of a part tell whether it is long enough. -/
theorem Args.Small.thresh_le (h : A.Small) (hn : THRESH ≤ A.n) (x : ℕ) :
    A.thresh ≤ (x : ℤ) * A.qsz ↔ THRESH ≤ x := by
  have hle := Nat.mul_le_mul_right A.qsz hn
  have hsize := h.size
  have hthresh : A.thresh = ((THRESH * A.qsz : ℕ) : ℤ) := by
    rw [Args.thresh, int, mul_comm]
    push_cast at hle hsize ⊢
    omega
  rw [hthresh, ← Nat.cast_mul, Nat.cast_le]
  exact Nat.mul_le_mul_right_iff h.qsz

def Part.range (p : Part) : ℕ × ℕ := (p.base, p.max)

/-- The part that a frame of the stack stands for. -/
def Stack.part (st : Stack) (k : ℕ) : Part :=
  (st.stack k).resume (st.resume &&& (1#32 <<< k) ≠ 0)

def Stack.parts (st : Stack) : ℕ → List (ℕ × ℕ)
  | 0 => []
  | k + 1 => (st.part k).range :: st.parts k

theorem testBit_iff (r : BitVec 32) (hk : k < 32) :
    r &&& (1#32 <<< k) ≠ 0 ↔ r.getLsbD k = true := by
  constructor
  · intro hne
    by_contra hbit
    apply hne
    apply BitVec.eq_of_getLsbD_eq
    intro i hi
    by_cases hik : i = k
    · subst hik
      simp [hbit]
    · simp
      omega
  · intro hbit heq
    have hzero := congrArg (BitVec.getLsbD · k) heq
    simp only [BitVec.getLsbD_and, BitVec.getLsbD_shiftLeft, hbit] at hzero
    simp [hk] at hzero

/-- A push leaves the frames below as they are. -/
theorem push_spec {st : Stack} (f : Frame) (r : Bool) (h : st.stackp < 31) :
    ∃ st', st.push f r = some st' ∧ st'.stackp = st.stackp + 1 ∧
      st'.part st.stackp = f.resume r ∧ ∀ k < st.stackp, st'.part k = st.part k := by
  refine ⟨_, if_neg (by omega), rfl, ?_, ?_⟩
  · rw [Stack.part]
    simp only [Function.update_self, testBit_iff _ (show st.stackp < 32 by omega)]
    cases r with
    | true =>
      have hbit : (st.resume ||| 1#32 <<< st.stackp).getLsbD st.stackp = true := by
        simp
        omega
      simp [hbit, Frame.resume]
    | false =>
      have hbit : (st.resume &&& ~~~(1#32 <<< st.stackp)).getLsbD st.stackp = false := by
        simp
      simp [hbit, Frame.resume]
  · intro k hk
    rw [Stack.part, Stack.part]
    simp only [Function.update_of_ne (show k ≠ st.stackp by omega),
      testBit_iff _ (show k < 32 by omega)]
    congr 2
    cases r with
    | true =>
      have hbit : (st.resume ||| 1#32 <<< st.stackp).getLsbD k = st.resume.getLsbD k := by
        simp
        omega
      simp only [if_true, hbit]
    | false =>
      have hbit : (st.resume &&& ~~~(1#32 <<< st.stackp)).getLsbD k = st.resume.getLsbD k := by
        simp
        omega
      simp only [Bool.false_eq_true, if_false, hbit]

theorem parts_congr {st st' : Stack} (h : ∀ k' < k, st'.part k' = st.part k') :
    st'.parts k = st.parts k := by
  induction k with
  | zero => rfl
  | succ k ih =>
    rw [Stack.parts, Stack.parts, h k (by omega), ih fun k' hk' => h k' (by omega)]

/-- A part with its length in bytes, at a depth of the stack that it is short enough for. -/
structure Part.Fits (A : Args β) (p : Part) (depth : ℕ) : Prop where
  lo : p.lo = ((p.max - p.base : ℕ) : ℤ) * A.qsz
  long : p.base + THRESH ≤ p.max
  depth : (p.max - p.base) * 2 ^ depth ≤ A.n

theorem Part.Fits.stackp_lt {p : Part} {depth : ℕ} (h : p.Fits A depth) (hsmall : A.Small) :
    depth < 31 := by
  have hone : 1 * 2 ^ depth ≤ (p.max - p.base) * 2 ^ depth :=
    Nat.mul_le_mul_right _ (by have := h.long; rw [THRESH] at this; omega)
  have hlt : 2 ^ depth < 2 ^ 31 := by
    have := h.depth
    have := hsmall.n_lt
    omega
  exact (Nat.pow_lt_pow_iff_right (by omega)).1 hlt

/-- The part at the start of the loop body and the parts on the stack. -/
structure Ready (A : Args β) (p : Part) (st : Stack) : Prop where
  part : p.Fits A st.stackp
  stack : ∀ k < st.stackp, (st.part k).Fits A k

def pending (next : Option Part) (st : Stack) : List (ℕ × ℕ) :=
  match next with
  | none => []
  | some p => p.range :: st.parts st.stackp

/-- The next part: the given one, or the one on top of the stack. -/
theorem next_spec {st : Stack} {p : Part} (hsmall : A.Small) (hn : THRESH ≤ A.n)
    (hlo : p.lo = ((p.max - p.base : ℕ) : ℤ) * A.qsz)
    (hstack : ∀ k < st.stackp, (st.part k).Fits A k)
    (hdepth : (p.max - p.base) * 2 ^ st.stackp ≤ A.n) :
    ∃ next st', (A.next st p st.stackp).elim (none, st)
        (fun (p, sp) => (some p, { st with stackp := sp })) = (next, st') ∧
      pending next st' = ([p.range].filter fun r => r.1 + THRESH ≤ r.2) ++ st.parts st.stackp ∧
      ∀ p', next = some p' → Ready A p' st' := by
  have hthresh : A.thresh ≤ p.lo ↔ p.base + THRESH ≤ p.max := by
    have hT : THRESH = 14 := rfl
    rw [hlo, hsmall.thresh_le hn]
    omega
  by_cases hlong : p.base + THRESH ≤ p.max
  · refine ⟨some p, st, ?_, ?_, ?_⟩
    · cases hsp : st.stackp with
      | zero | succ k =>
        rw [Args.next, if_pos (hthresh.2 hlong)]
        simp only [Option.elim_some, ← hsp]
    · simp [pending, Part.range, hlong]
    · rintro p' ⟨⟩
      exact ⟨⟨hlo, hlong, hdepth⟩, hstack⟩
  · have hfilter : ([p.range].filter fun r => r.1 + THRESH ≤ r.2) = [] := by
      simp [Part.range, hlong]
    rw [hfilter, List.nil_append]
    cases hsp : st.stackp with
    | zero =>
      refine ⟨none, st, ?_, rfl, by simp⟩
      rw [Args.next, if_neg (fun h => hlong (hthresh.1 h))]
      rfl
    | succ k =>
      have htop := hstack k (by omega)
      have hnext : A.next st (st.part k) k = some (st.part k, k) := by
        have htlo : A.thresh ≤ (st.part k).lo := by
          have := htop.long
          rw [htop.lo, hsmall.thresh_le hn]
          omega
        cases k with
        | zero | succ k => rw [Args.next, if_pos htlo]
      have hparts : Stack.parts { st with stackp := k } k = st.parts k :=
        parts_congr fun _ _ => rfl
      refine ⟨some (st.part k), { st with stackp := k }, ?_, ?_, ?_⟩
      · rw [Args.next, if_neg (fun h => hlong (hthresh.1 h))]
        change Option.elim (A.next st (st.part k) k) _ _ = _
        rw [hnext]
        rfl
      · simp only [pending, hparts]
        rfl
      · rintro p' ⟨⟩
        exact ⟨htop, fun k' hk' => hstack k' (by simp only at hk'; omega)⟩

/-- The smaller side comes first, the other one is pushed. -/
theorem push_ready {st : Stack} {p other : Part} {f : Frame} {r : Bool} (hsmall : A.Small)
    (hstack : ∀ k < st.stackp, (st.part k).Fits A k) (hother : f.resume r = other)
    (hfits : other.Fits A st.stackp) (hp : p.Fits A (st.stackp + 1)) :
    ∃ st', st.push f r = some st' ∧
      pending (some p) st' = p.range :: other.range :: st.parts st.stackp ∧ Ready A p st' := by
  obtain ⟨st', hpush, hsp, htop, hbelow⟩ := push_spec f r (hfits.stackp_lt hsmall)
  refine ⟨st', hpush, ?_, ?_, ?_⟩
  · simp only [pending, hsp, Stack.parts, htop, hother, parts_congr hbelow]
  · rw [hsp]
    exact hp
  · intro k hk
    rw [hsp] at hk
    by_cases heq : k = st.stackp
    · rw [heq, htop, hother]
      exact hfits
    · rw [hbelow k (by omega)]
      exact hstack k (by omega)

/-- The smaller side `(b, e)` comes next if it is long enough, and else the other one or the top of
the stack. -/
theorem side_spec {b e c d : ℕ} {st : Stack} {f : Frame} {r : Bool} (hsmall : A.Small)
    (hn : THRESH ≤ A.n) (hstack : ∀ k < st.stackp, (st.part k).Fits A k)
    (hres : f.resume r = ⟨c, d, (d - c : ℕ) * A.qsz⟩) (hle : e - b ≤ d - c)
    (hlarge : (d - c) * 2 ^ st.stackp ≤ A.n) (hhalf : (e - b) * 2 ^ (st.stackp + 1) ≤ A.n) :
    ∃ next st', (if A.thresh ≤ (e - b : ℕ) * A.qsz then
        (st.push f r).bind fun st => some (some ⟨b, e, (e - b : ℕ) * A.qsz⟩, st)
      else some ((A.next st ⟨c, d, (d - c : ℕ) * A.qsz⟩ st.stackp).elim (none, st)
        fun (p, sp) => (some p, { st with stackp := sp }))) = some (next, st') ∧
      pending next st' = ([(b, e), (c, d)].filter fun p => p.1 + THRESH ≤ p.2) ++
        st.parts st.stackp ∧
      ∀ p, next = some p → Ready A p st' := by
  have hT : THRESH = 14 := rfl
  by_cases hlong : THRESH ≤ e - b
  · rw [if_pos ((hsmall.thresh_le hn _).2 hlong)]
    obtain ⟨st', hpush, hpending, hready⟩ := push_ready
      (p := ⟨b, e, (e - b : ℕ) * A.qsz⟩) hsmall hstack hres ⟨rfl, by simp only; omega, hlarge⟩
      ⟨rfl, by simp only; omega, hhalf⟩
    refine ⟨_, st', by rw [hpush]; rfl, ?_, ?_⟩
    · rw [hpending]
      simp [Part.range, show b + THRESH ≤ e by omega, show c + THRESH ≤ d by omega]
    · rintro p ⟨⟩
      exact hready
  · rw [if_neg fun hc => hlong ((hsmall.thresh_le hn _).1 hc)]
    obtain ⟨next, st', heq, hpending, hready⟩ := next_spec
      (p := ⟨c, d, (d - c : ℕ) * A.qsz⟩) hsmall hn rfl hstack hlarge
    refine ⟨next, st', by rw [heq], ?_, hready⟩
    rw [hpending]
    simp [Part.range, show ¬ b + THRESH ≤ e by omega, List.filter_cons]

/-- After a partition both sides that are long enough are pending, and nothing else is new. -/
theorem split_spec {st : Stack} {lo : ℤ} (hsmall : A.Small) (hn : THRESH ≤ A.n)
    (h : Ready A ⟨base, max, lo⟩ st) (hmid : base ≤ mid) (hmid' : mid < max) :
    ∃ next st', A.split st base max mid = some (next, st') ∧
      (pending next st').Perm (sides base mid max ++ st.parts st.stackp) ∧
      ∀ p, next = some p → Ready A p st' := by
  have hle : ∀ x, x ≤ max - base → x * 2 ^ st.stackp ≤ A.n :=
    fun x hx => (Nat.mul_le_mul_right _ hx).trans h.part.depth
  have hhalf : ∀ x, 2 * x ≤ max - base → x * 2 ^ (st.stackp + 1) ≤ A.n := by
    intro x hx
    rw [pow_succ, mul_comm _ 2, ← mul_assoc, mul_comm x]
    exact hle _ hx
  have hcmp : ((mid - base : ℕ) : ℤ) * A.qsz ≤ ((max - (mid + 1) : ℕ) : ℤ) * A.qsz ↔
      mid - base ≤ max - (mid + 1) := by
    rw [← Nat.cast_mul, ← Nat.cast_mul, Nat.cast_le]
    exact Nat.mul_le_mul_right_iff hsmall.qsz
  simp only [Args.split]
  by_cases hside : mid - base ≤ max - (mid + 1)
  · rw [if_pos (hcmp.2 hside)]
    obtain ⟨next, st', heq, hpending, hready⟩ := side_spec (r := false) (b := base)
      (e := mid) (c := mid + 1) (d := max)
      (f := ⟨base, max, (mid - base : ℕ) * A.qsz, (max - (mid + 1) : ℕ) * A.qsz, mid + 1, mid⟩)
      hsmall hn h.stack rfl hside (hle _ (by omega)) (hhalf _ (by omega))
    exact ⟨next, st', heq, .of_eq hpending, hready⟩
  · rw [if_neg fun hc => hside (hcmp.1 hc)]
    obtain ⟨next, st', heq, hpending, hready⟩ := side_spec (r := true) (b := mid + 1)
      (e := max) (c := base) (d := mid)
      (f := ⟨base, max, (mid - base : ℕ) * A.qsz, (max - (mid + 1) : ℕ) * A.qsz, mid + 1, mid⟩)
      hsmall hn h.stack rfl (by omega) (hle _ (by omega)) (hhalf _ (by omega))
    refine ⟨next, st', heq, ?_, hready⟩
    rw [hpending]
    exact ((List.Perm.swap _ _ _).filter _).append_right _

/-! ### The loop -/

/-- The elements of the pending parts. -/
def weight (parts : List (ℕ × ℕ)) : ℕ := (parts.map fun p => p.2 - p.1).sum

theorem weight_sides (rest : List (ℕ × ℕ)) (hmid : base ≤ mid) (hmid' : mid < max) :
    weight (sides base mid max ++ rest) < weight ((base, max) :: rest) := by
  have hsides : weight (sides base mid max) ≤ (mid - base) + (max - (mid + 1)) := by
    simp only [sides, weight, List.filter_cons, List.filter_nil]
    split_ifs <;> simp
  simp only [weight, List.map_append, List.sum_append, List.map_cons, List.sum_cons] at hsides ⊢
  omega

theorem qstLoop_spec (hpre : A.Preorder) (hsmall : A.Small) (hn : THRESH ≤ A.n) {fuel : ℕ}
    {p : Part} {st : Stack} (hready : Ready A p st)
    (hsplit : Split A (p.range :: st.parts st.stackp) m)
    (hfuel : weight (p.range :: st.parts st.stackp) < fuel) :
    ∃ m', A.qstLoop fuel p st m = some m' ∧ Moved A 0 A.n m m' ∧ Split A [] m' := by
  induction fuel generalizing p st m with
  | zero => omega
  | succ fuel ih =>
    obtain ⟨base, max, lo⟩ := p
    have hT : THRESH = 14 := rfl
    have hlong : base + THRESH ≤ max := hready.part.long
    have hmax : max ≤ A.n := (hsplit.long (base, max) List.mem_cons_self).2
    have hlo : lo = ((max - base : ℕ) : ℤ) * A.qsz := hready.part.lo
    have hcount : lo.toNat / A.qsz = max - base := by
      rw [hlo, ← Nat.cast_mul, Int.toNat_natCast, Nat.mul_div_cancel _ hsmall.qsz]
    have hmid : base ≤ base + (max - base) / 2 ∧ base + (max - base) / 2 < max := by omega
    obtain ⟨m1, hmiddle, hmoved1⟩ := middle_spec hmid hmax lo m
    have hstart : Around A base max base (base + (max - base) / 2) (max - 1) m1 :=
      ⟨fun x hx hx' => by omega, fun x hx hx' => by omega⟩
    obtain ⟨mid, m2, hpart, hlow, hhigh, hmoved, haround⟩ := partition_spec hpre hmax le_rfl
      hmid.1 (by omega) (by omega) (show max - 1 - base < max - base + 1 by omega) hmoved1 hstart
    obtain ⟨next, st', hnext, hperm, hready'⟩ := split_spec hsmall hn hready hlow hhigh
    have hsplit' : Split A (pending next st') m2 :=
      (hsplit.partition hpre hmoved hlow hhigh haround).perm hperm
    simp only [Args.qstLoop, hcount, hmiddle, hpart, hnext, Option.bind_eq_bind, Option.bind_some]
    cases next with
    | none => exact ⟨m2, rfl, hmoved.mono (Nat.zero_le _) hmax, hsplit'⟩
    | some p' =>
      have hweight : weight (pending (some p') st') = weight (sides base mid max ++
          st.parts st.stackp) := (hperm.map _).sum_eq
      have hless := weight_sides (st.parts st.stackp) hlow hhigh
      obtain ⟨m3, hloop, hmoved3, hdone⟩ := ih (hready' p' rfl) hsplit' (by
        change weight (pending (some p') st') < fuel
        rw [hweight]
        exact lt_of_lt_of_le hless (Nat.le_of_lt_succ hfuel))
      exact ⟨m3, hloop, (hmoved.mono (Nat.zero_le _) hmax).trans hmoved3, hdone⟩

/-- The quicksort leaves elements in order that are far enough apart. -/
theorem qst_spec (hpre : A.Preorder) (hsmall : A.Small) (hn : THRESH ≤ A.n) (m : ℕ → β) :
    ∃ m', A.qst m = some m' ∧ Moved A 0 A.n m m' ∧
      ∀ x y, x + THRESH ≤ y + 1 → y < A.n → A.le m' x y := by
  have hready : Ready A ⟨0, A.n, (A.n : ℤ) * A.qsz⟩
      ⟨fun _ => ⟨0, 0, 0, 0, 0, 0⟩, 0, 0⟩ :=
    ⟨⟨by simp, by simpa using hn, by simp⟩, fun k hk => by simp at hk⟩
  have hsplit : Split A [(0, A.n)] m := by
    refine ⟨?_, List.pairwise_singleton _ _, ?_, ?_, ?_⟩
    · intro p hp
      obtain rfl := List.mem_singleton.1 hp
      exact ⟨by simpa using hn, le_rfl⟩
    · intro p hp x y hx
      obtain rfl := List.mem_singleton.1 hp
      simp at hx
    · intro p hp x y _ _ hy hy'
      obtain rfl := List.mem_singleton.1 hp
      simp only at hy
      omega
    · intro x y _ hy
      exact .inr ⟨(0, A.n), List.mem_singleton_self _, Nat.zero_le _, hy⟩
  obtain ⟨m', hloop, hmoved, hdone⟩ := qstLoop_spec hpre hsmall hn hready hsplit
    (show weight [(0, A.n)] < A.n + 1 by simp [weight])
  refine ⟨m', hloop, hmoved, ?_⟩
  intro x y hxy hy
  rcases hdone.near x y hxy hy with hle | ⟨p, hp, -⟩
  · exact hle
  · cases hp

end Sol26.Qsort
