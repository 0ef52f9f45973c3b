import Sol26.Ufs.Overflow

/-!
# Rejected frees

`free` notices when it is asked to free what is already free.  The branch for a block looks
first and leaves everything as it was.  The branch for fragments has already changed the map and
`cg_frsum` by then, and returns with `vfs_lock` held.
-/

namespace Sol26.Ufs

/-- A request to `free`: a block is given by its first fragment. -/
def Fs.IsRequest (fs : Fs) (bno size : ℕ) : Prop :=
  size = fs.geom.bsize → fs.frag ∣ fs.dtogd bno

/-- At least one fragment of the range is already free. -/
def Ufsvfs.PartlyFree (fs : Fs) (s : Ufsvfs) (bno size : ℕ) : Prop :=
  ∃ i < fs.geom.numfrags size, isset (s.blksfree (fs.dtog bno)) (fs.dtogd bno + i) = true

/-- The maps, `cg_frsum`, `cg_cs`, `fs_cs` and `fs_cstotal` are the same, and the lock is free. -/
structure Ufsvfs.Untouched (s s' : Ufsvfs) : Prop where
  blksfree : ∀ cg i, isset (s'.blksfree cg) i = isset (s.blksfree cg) i
  frsum : ∀ cg k, (s'.cg cg).frsum k = (s.cg cg).frsum k
  cgCs : ∀ cg, (s'.cg cg).cs = (s.cg cg).cs
  cs : s'.cs = s.cs
  cstotal : s'.cstotal = s.cstotal
  locked : s'.locked = false

/-- `free` gives up before it locks: a bad size, or a group that cannot be read. -/
def Ufsvfs.NotLooked (fs : Fs) (s : Ufsvfs) (bno size : ℕ) : Prop :=
  fs.geom.bsize < size ∨ fs.geom.fragoff size ≠ 0 ∨ (s.cg (fs.dtog bno)).valid = false

variable {fs : Fs} {s : Ufsvfs} {bno size : ℕ}

theorem Ufsvfs.Untouched.refl (h : s.locked = false) : s.Untouched s :=
  ⟨fun _ _ => rfl, fun _ _ => rfl, fun _ => rfl, rfl, rfl, h⟩

theorem free_of_notLooked (h : s.NotLooked fs bno size) : free fs s bno size = s := by
  rw [free]
  by_cases hbad : fs.geom.bsize < size ∨ fs.geom.fragoff size ≠ 0
  · rw [if_pos hbad]
  · have hvalid : (s.cg (fs.dtog bno)).valid = false := by
      rw [not_or] at hbad
      exact (h.resolve_left hbad.1).resolve_left hbad.2
    simp only [if_neg hbad, hvalid, Bool.not_false, if_true]

/-- The loop stops at the first fragment that is already free. -/
theorem freeLoop_rejects {n loc i : ℕ} {a : Bytes} (hi : i < n)
    (hset : isset a (loc + i) = true) : (freeLoop n loc a).2 = false := by
  induction n generalizing loc i a with
  | zero => omega
  | succ n ih =>
    rw [freeLoop]
    split_ifs with hloc
    · rfl
    · cases i with
      | zero => exact absurd hset hloc
      | succ i =>
        refine ih (i := i) (by omega) ?_
        rw [isset_setbit, show loc + 1 + i = loc + (i + 1) by omega, hset, Bool.or_true]

/-- A rejected free of fragments leaves the lock held. -/
theorem freeFrags_locked {cg loc n : ℕ} (hlocked : s.locked = true)
    (h : ∃ i < n, isset (s.blksfree cg) (loc + i) = true) :
    (freeFrags fs s cg loc n).locked = true := by
  obtain ⟨i, hi, hset⟩ := h
  simp only [freeFrags, Ufsvfs.blksfree, Ufsvfs.cg_modifyCg]
  have hrej := freeLoop_rejects hi hset
  rw [Ufsvfs.blksfree] at hrej
  cases hloop : freeLoop n loc (s.cg cg).blksfree with
  | mk blksfree done =>
    rw [hloop] at hrej
    simp only at hrej
    subst hrej
    exact hlocked

/-- A block of which a fragment is free is rejected before anything is changed. -/
theorem freeBlock_rejected {cg loc : ℕ} (hloc : fs.frag ∣ loc)
    (h : ∃ i < fs.frag, isset (s.blksfree cg) (loc + i) = true) :
    freeBlock fs s cg loc = s.unlock := by
  obtain ⟨i, hi, hset⟩ := h
  have hclr : fs.geom.isclrblock (s.blksfree cg) (fs.geom.fragstoblks loc) = false := by
    rw [Bool.eq_false_iff, Ne, fs.geom.isclrblock_iff]
    intro hall
    have hin : (loc + i) / fs.geom.frag = fs.geom.fragstoblks loc := by
      obtain ⟨q, rfl⟩ := hloc
      rw [fs.geom.fragstoblks_eq, Nat.mul_add_div fs.geom.frag_pos, Nat.div_eq_of_lt hi,
        Nat.add_zero, Nat.mul_div_cancel_left _ fs.geom.frag_pos]
    rw [hall _ hin] at hset
    exact absurd hset (by decide)
  simp only [freeBlock, hclr, Bool.not_false, if_true]

theorem numfrags_bsize (g : Geometry) : g.numfrags g.bsize = g.frag := by
  rw [g.numfrags_eq, g.bsize_eq_frag_mul, Nat.mul_div_cancel _ g.fsize_pos]

/-- A rejected free leaves the cylinder group untouched if and only if it frees a whole block, or
gives up before it looks at the map. -/
theorem free_untouched_iff (hlock : s.locked = false) (hreq : fs.IsRequest bno size)
    (hfree : s.PartlyFree fs bno size) :
    s.Untouched (free fs s bno size) ↔ size = fs.geom.bsize ∨ s.NotLooked fs bno size := by
  constructor
  · intro hsame
    by_contra hno
    rw [not_or, Ufsvfs.NotLooked, not_or, not_or, not_not, Bool.not_eq_false] at hno
    obtain ⟨hblock, hle, hoff, hvalid⟩ := hno
    have hlocked : (free fs s bno size).locked = true := by
      have hbad : ¬(fs.geom.bsize < size ∨ fs.geom.fragoff size ≠ 0) := by
        rw [not_or, not_not]
        exact ⟨hle, hoff⟩
      rw [free, if_neg hbad]
      simp only [hvalid, Bool.not_true, Bool.false_eq_true, if_false, if_neg hblock]
      exact freeFrags_locked rfl hfree
    rw [hsame.locked] at hlocked
    exact absurd hlocked (by decide)
  · intro h
    by_cases hnot : s.NotLooked fs bno size
    · rw [free_of_notLooked hnot]
      exact Ufsvfs.Untouched.refl hlock
    · have hblock := h.resolve_right hnot
      rw [Ufsvfs.NotLooked, not_or, not_or, not_not, Bool.not_eq_false] at hnot
      obtain ⟨hle, hoff, hvalid⟩ := hnot
      have hbad : ¬(fs.geom.bsize < size ∨ fs.geom.fragoff size ≠ 0) := by
        rw [not_or, not_not]
        exact ⟨hle, hoff⟩
      have hpart : ∃ i < fs.frag,
          isset (s.lock.blksfree (fs.dtog bno)) (fs.dtogd bno + i) = true := by
        rw [Ufsvfs.PartlyFree, hblock, numfrags_bsize] at hfree
        exact hfree
      rw [free, if_neg hbad]
      simp only [hvalid, Bool.not_true, Bool.false_eq_true, if_false, if_pos hblock]
      rw [freeBlock_rejected (hreq hblock) hpart]
      exact ⟨fun _ _ => rfl, fun _ _ => rfl, fun _ => rfl, rfl, rfl, rfl⟩

/-- Of the only block the fragment 2 is free. Freeing the block is rejected, and nothing changes. -/
theorem free_untouched_thirdFree : smallUfsvfs.PartlyFree smallFs 0 8192 ∧
    smallUfsvfs.Untouched (free smallFs smallUfsvfs 0 8192) := by
  have hpart : smallUfsvfs.PartlyFree smallFs 0 8192 := ⟨2, by decide, by decide⟩
  exact ⟨hpart, (free_untouched_iff rfl (fun _ => by decide) hpart).mpr (.inl rfl)⟩

/-- Freeing its fragments 1 and 2 is rejected too, but fragment 1 is marked free, the run of one
fragment is no longer counted, and the lock is held. -/
theorem free_thirdFree_touched :
    smallUfsvfs.PartlyFree smallFs 1 2048 ∧
      isset ((free smallFs smallUfsvfs 1 2048).blksfree 0) 1 = true ∧
      ((free smallFs smallUfsvfs 1 2048).cg 0).frsum 1 = 0 ∧
      (free smallFs smallUfsvfs 1 2048).locked = true ∧
      ¬smallUfsvfs.Untouched (free smallFs smallUfsvfs 1 2048) := by
  have hlocked : (free smallFs smallUfsvfs 1 2048).locked = true := by decide
  refine ⟨⟨1, by decide, by decide⟩, by decide, by decide, hlocked, fun h => ?_⟩
  rw [h.locked] at hlocked
  exact absurd hlocked (by decide)

end Sol26.Ufs
