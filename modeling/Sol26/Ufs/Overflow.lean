import Sol26.Ufs.Alloc
import Sol26.Ufs.Holes

/-!
# The cylinder overflow algorithm

`hashalloc` asks the preferred group, then some groups by quadratic rehash and then all but two
in turn.  Together these are all groups, so that it gives up only if no group has a run of the
size asked for.
-/

namespace Sol26.Ufs

/-! ### The order in which groups are asked -/

section Order

variable {ncg : ℕ} {allocator : Ufsvfs → ℕ → Ufsvfs × ℕ} {s : Ufsvfs}
  {Good : Ufsvfs × ℕ → Prop} {Has : ℕ → Prop}

/-- The allocator, in each group, gives something good or leaves the state, and then the group
has nothing. -/
def Answers (ncg : ℕ) (allocator : Ufsvfs → ℕ → Ufsvfs × ℕ) (s : Ufsvfs)
    (Good : Ufsvfs × ℕ → Prop) (Has : ℕ → Prop) : Prop :=
  ∀ c < ncg, (allocator s c = (s, 0) ∧ ¬Has c) ∨
    ((allocator s c).2 ≠ 0 ∧ Good (allocator s c))

variable {fs : Fs} {cg size : ℕ}

theorem rehashLoop_spec (hans : Answers ncg allocator s Good Has) (fuel : ℕ) {i : ℕ}
    (hi : 0 < i) (hcg : cg < ncg) :
    ((rehashLoop ncg allocator fuel i cg s).2 ≠ 0 ∧
      Good (rehashLoop ncg allocator fuel i cg s)) ∨
    (rehashLoop ncg allocator fuel i cg s = (s, 0) ∧
      (0 < fuel → i < ncg → ¬Has ((cg + i) % ncg))) := by
  induction fuel generalizing i cg with
  | zero => exact .inr ⟨rfl, fun h => absurd h (by decide)⟩
  | succ fuel ih =>
    rw [rehashLoop]
    by_cases hlt : i < ncg
    · have hnext : (if ncg ≤ cg + i then cg + i - ncg else cg + i) = (cg + i) % ncg := by
        split_ifs with hge
        · rw [Nat.mod_eq_sub_mod hge, Nat.mod_eq_of_lt (by omega)]
        · rw [Nat.mod_eq_of_lt (by omega)]
      have hmod : (cg + i) % ncg < ncg := Nat.mod_lt _ (by omega)
      simp only [if_pos hlt, hnext]
      cases hans _ hmod with
      | inl hnone =>
        simp only [hnone.1, ne_eq, not_true_eq_false, if_false]
        refine (ih (by omega) hmod).imp_right fun hrest => ?_
        exact ⟨hrest.1, fun _ _ => hnone.2⟩
      | inr hgood =>
        simp only [hgood.1, ne_eq, not_false_eq_true, if_true]
        exact .inl ⟨trivial, hgood.2⟩
    · rw [if_neg hlt]
      exact .inr ⟨rfl, fun _ h => absurd h hlt⟩

theorem bruteLoop_spec (hans : Answers ncg allocator s Good Has) (n : ℕ) (hcg : cg < ncg) :
    ((bruteLoop ncg allocator n cg s).2 ≠ 0 ∧ Good (bruteLoop ncg allocator n cg s)) ∨
    (bruteLoop ncg allocator n cg s = (s, 0) ∧ ∀ d < n, ¬Has ((cg + d) % ncg)) := by
  induction n generalizing cg with
  | zero => exact .inr ⟨rfl, fun d hd => by omega⟩
  | succ n ih =>
    rw [bruteLoop]
    have hnext : (if cg + 1 = ncg then 0 else cg + 1) = (cg + 1) % ncg := by
      split_ifs with hend
      · rw [hend, Nat.mod_self]
      · rw [Nat.mod_eq_of_lt (by omega)]
    have hmod : (cg + 1) % ncg < ncg := Nat.mod_lt _ (by omega)
    cases hans cg hcg with
    | inl hnone =>
      simp only [hnone.1, ne_eq, not_true_eq_false, if_false, hnext]
      refine (ih hmod).imp_right fun hrest => ⟨hrest.1, fun d hd => ?_⟩
      cases d with
      | zero =>
        rw [Nat.add_zero, Nat.mod_eq_of_lt hcg]
        exact hnone.2
      | succ d =>
        have hd' := hrest.2 d (by omega)
        rwa [Nat.mod_add_mod, show cg + 1 + d = cg + (d + 1) by omega] at hd'
    | inr hgood =>
      simp only [hgood.1, ne_eq, not_false_eq_true, if_true]
      exact .inl ⟨trivial, hgood.2⟩

end Order

/-- `hashalloc` with an allocator that answers for each group: it asks every group. -/
theorem hashalloc_spec {allocator : Ufsvfs → ℕ → ℕ → Ufsvfs × ℕ} {s : Ufsvfs}
    {Good : Ufsvfs × ℕ → Prop} {Has : ℕ → Prop}
    (hans : ∀ pref, Answers fs.ncg (fun s c => allocator s c pref) s Good Has)
    (hcg : cg < fs.ncg) (pref : ℕ) :
    ((hashalloc fs allocator s cg pref).2 ≠ 0 ∧ Good (hashalloc fs allocator s cg pref)) ∨
    (hashalloc fs allocator s cg pref = (s, 0) ∧ ∀ c < fs.ncg, ¬Has c) := by
  rw [hashalloc]
  cases hans pref cg hcg with
  | inr hgood =>
    simp only [hgood.1, ne_eq, not_false_eq_true, if_true]
    exact .inl ⟨trivial, hgood.2⟩
  | inl hfirst =>
    simp only [hfirst.1, ne_eq, not_true_eq_false, if_false]
    cases rehashLoop_spec (hans 0) fs.ncg (i := 1) (by decide) hcg with
    | inl hgood =>
      simp only [hgood.1, not_false_eq_true, if_true]
      exact .inl ⟨trivial, hgood.2⟩
    | inr hsecond =>
      simp only [hsecond.1, not_true_eq_false, if_false]
      have hstart : (cg + 2) % fs.ncg < fs.ncg := Nat.mod_lt _ (by omega)
      refine (bruteLoop_spec (hans 0) (fs.ncg - 2) hstart).imp_right fun hrest => ?_
      refine ⟨hrest.1, fun c hc => ?_⟩
      -- the distance of the group from the preferred one tells by which part it was asked
      obtain ⟨d, hd, hdc⟩ : ∃ d < fs.ncg, (cg + d) % fs.ncg = c := by
        by_cases hle : cg ≤ c
        · exact ⟨c - cg, by omega, by rw [Nat.add_sub_cancel' hle, Nat.mod_eq_of_lt hc]⟩
        · refine ⟨c + fs.ncg - cg, by omega, ?_⟩
          rw [show cg + (c + fs.ncg - cg) = c + fs.ncg by omega, Nat.add_mod_right,
            Nat.mod_eq_of_lt hc]
      match d, hd, hdc with
      | 0, _, hdc =>
        rw [Nat.add_zero, Nat.mod_eq_of_lt hcg] at hdc
        rw [← hdc]
        exact hfirst.2
      | 1, hd, hdc =>
        rw [← hdc]
        exact hsecond.2 (by omega) hd
      | d + 2, hd, hdc =>
        have hno := hrest.2 d (by omega)
        rw [Nat.mod_add_mod, show cg + 2 + d = cg + (d + 2) by omega, hdc] at hno
        exact hno

/-- A consistent file system: its groups agree with their summaries, and these with `fs_cs` and
`fs_cstotal`. -/
structure Ufsvfs.Consistent (fs : Fs) (s : Ufsvfs) : Prop where
  groups : ∀ c < fs.ncg, (s.cg c).Consistent fs c
  cs_eq : ∀ c < fs.ncg, s.cs c = (s.cg c).cs
  nbfree_total : s.cstotal.nbfree = ∑ c ∈ Finset.range fs.ncg, (s.cs c).nbfree
  nffree_total : s.cstotal.nffree = ∑ c ∈ Finset.range fs.ncg, (s.cs c).nffree
  unlocked : s.locked = false

/-- `hashalloc` with `alloccg`: blocks and fragments for a file. -/
def allocBlocks (fs : Fs) (s : Ufsvfs) (cg pref size : ℕ) : Ufsvfs × ℕ :=
  hashalloc fs (fun s cg pref => alloccg fs nolog s cg pref size) s cg pref

/-- A group that can be read has a run of at least `n` fragments. -/
def Ufsvfs.GroupHas (fs : Fs) (s : Ufsvfs) (n c : ℕ) : Prop :=
  (s.cg c).valid = true ∧ fs.HasRun (s.blksfree c) n

/-- The answer is an address whose fragments have been taken, and no others. -/
def Ufsvfs.Gives (fs : Fs) (s : Ufsvfs) (n : ℕ) (r : Ufsvfs × ℕ) : Prop :=
  ∃ c < fs.ncg, ∃ b, r.2 = c * fs.fpg + b ∧ Taken fs s r.1 c b n

theorem alloccg_answers {s : Ufsvfs} (hl : fs.Layout) (hcpc : fs.cpc = 0)
    (hs : s.Consistent fs) (hsize : fs.LegalSize size) (pref : ℕ) :
    Answers fs.ncg (fun s c => alloccg fs nolog s c pref size) s
      (s.Gives fs (fs.geom.numfrags size)) (s.GroupHas fs (fs.geom.numfrags size)) := by
  intro c hc
  have hout := alloccg_outcome hl (.inl hcpc) (hs.groups c hc) (hs.cs_eq c hc) hs.unlocked pref hsize
  obtain ⟨heq, hno⟩ | ⟨b, haddr, hne, htaken⟩ :=
    hout.taken hl (hs.groups c hc) hsize.numfrags_pos
  · exact .inl ⟨heq, fun hhas => hno hhas.1 hhas.2⟩
  · exact .inr ⟨hne, c, hc, b, haddr, htaken⟩

/-- It gives an address if some group that can be read has a run, and only then. -/
theorem allocBlocks_cases {s : Ufsvfs} (hl : fs.Layout) (hcpc : fs.cpc = 0) (hs : s.Consistent fs)
    (hcg : cg < fs.ncg) (pref : ℕ) (hsize : fs.LegalSize size) :
    ((allocBlocks fs s cg pref size).2 ≠ 0 ∧
      s.Gives fs (fs.geom.numfrags size) (allocBlocks fs s cg pref size)) ∨
    (allocBlocks fs s cg pref size = (s, 0) ∧
      ∀ c < fs.ncg, ¬s.GroupHas fs (fs.geom.numfrags size) c) :=
  hashalloc_spec (alloccg_answers hl hcpc hs hsize) hcg pref

theorem Taken.hasRun {s s' : Ufsvfs} {c b n : ℕ} (h : Taken fs s s' c b n) :
    fs.HasRun (s.blksfree c) n := by
  refine ⟨b / fs.frag, b % fs.frag, h.inBlock, fun j hj => ?_⟩
  rw [Geometry.blockFree, ← Nat.add_assoc, Nat.mul_comm, Nat.div_add_mod]
  exact h.wasFree j hj

/-- Block allocation is sound and complete: `hashalloc` returns an address if and only if some
group has a free run of the size inside one block.  The run returned was free and inside one
block, is allocated afterwards, and no other fragment changes. -/
theorem allocBlocks_sound_complete {s : Ufsvfs} (hl : fs.Layout) (hcpc : fs.cpc = 0)
    (hs : s.Consistent fs) (hvalid : ∀ c < fs.ncg, (s.cg c).valid = true)
    (hcg : cg < fs.ncg) (pref : ℕ) (hsize : fs.LegalSize size) :
    ((allocBlocks fs s cg pref size).2 ≠ 0 ↔
      ∃ c < fs.ncg, fs.HasRun (s.blksfree c) (fs.geom.numfrags size)) ∧
    ((allocBlocks fs s cg pref size).2 ≠ 0 →
      s.Gives fs (fs.geom.numfrags size) (allocBlocks fs s cg pref size)) := by
  cases allocBlocks_cases hl hcpc hs hcg pref hsize with
  | inl hgood =>
    obtain ⟨c, hc, b, -, htaken⟩ := hgood.2
    exact ⟨iff_of_true hgood.1 ⟨c, hc, htaken.hasRun⟩, fun _ => hgood.2⟩
  | inr hnone =>
    have hzero : (allocBlocks fs s cg pref size).2 = 0 := by rw [hnone.1]
    refine ⟨iff_of_false (not_not.mpr hzero) ?_, fun hne => absurd hzero hne⟩
    intro ⟨c, hc, hrun⟩
    exact hnone.2 c hc ⟨hvalid c hc, hrun⟩

/-- A file system of one group of one block, with fragments of 1024 bytes. -/
def smallFs : Fs where
  geom := eightK
  fpg := 8
  ncg := 1
  spc := 16
  nspf := 2
  cpc := 0
  nsect := 16
  nrpos := 8
  postbl := fun _ _ => -1
  rotbl := fun _ => 0

/-- Only its fragment 2 is free. -/
def smallUfsvfs : Ufsvfs where
  cg := fun cgx =>
    { valid := true, cgx := cgx, cs := ⟨0, 1⟩, rotor := 0, frotor := 0
      frsum := fun k => if k = 1 then 1 else 0
      blktot := fun _ => 0, blks := fun _ _ => 0
      blksfree := fun byte => if byte = 0 then 0x04#8 else 0 }
  cs := fun _ => ⟨0, 1⟩
  cstotal := ⟨0, 1⟩
  locked := false

theorem smallUfsvfs_consistent : smallUfsvfs.Consistent smallFs := by
  refine ⟨fun c hc => ?_, fun c hc => rfl, by decide, by decide, rfl⟩
  have hzero : c = 0 := Nat.lt_one_iff.mp hc
  subst hzero
  refine ⟨rfl, fun i hi => ?_, fun _ => by decide, by decide, by decide, by decide,
    fun k hpos hlt => ?_⟩
  · by_contra hge
    have hbyte : i / 8 ≠ 0 := by
      have hfpg : smallFs.fpg = 8 := rfl
      omega
    have hclear : isset (smallUfsvfs.cg 0).blksfree i = false := by
      simp [isset, smallUfsvfs, hbyte]
    rw [hclear] at hi
    exact absurd hi (by decide)
  · have hk : k < 8 := hlt
    interval_cases k <;> decide

/-- The free fragment is given for a request of one fragment. -/
theorem allocBlocks_smallUfsvfs : (allocBlocks smallFs smallUfsvfs 0 5 1024).2 ≠ 0 ∧
    smallUfsvfs.Gives smallFs 1 (allocBlocks smallFs smallUfsvfs 0 5 1024) := by
  have hspec := @allocBlocks_sound_complete smallFs 0 1024 smallUfsvfs
    ⟨by decide, by decide, by decide⟩ rfl smallUfsvfs_consistent (fun _ _ => rfl)
    (by decide) 5 ⟨by decide, by decide, by decide⟩
  have hne := hspec.1.mpr ⟨0, by decide, 0, 2, by decide, by decide⟩
  exact ⟨hne, hspec.2 hne⟩

end Sol26.Ufs
