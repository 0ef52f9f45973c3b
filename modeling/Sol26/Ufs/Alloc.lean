import Sol26.Ufs.Search

/-!
# Allocation in a cylinder group

What `alloccg` does in a group whose summaries agree with its map: it gives nothing, a whole
block, a piece of a whole block, or a piece of a shorter run.  It gives nothing only if the group
has no run of the size asked for.
-/

namespace Sol26.Ufs

open Ufsvfs (addCs blksfree lock modifyCg unlock)

/-- The groups consist of whole blocks. -/
structure Fs.Layout (fs : Fs) : Prop where
  fpg_pos : 0 < fs.fpg
  frag_dvd : fs.frag ∣ fs.fpg
  ncg_pos : 0 < fs.ncg

/-- The number of blocks of a group. -/
def Fs.bpg (fs : Fs) : ℕ := fs.fpg / fs.frag

/-- The free fragments of the block `h`, by number. -/
def Geometry.fragsFree (g : Geometry) (a : Bytes) (h : ℕ) : ℕ :=
  (List.range g.frag).countP (g.blockFree a h)

/-- What the summaries count: free blocks, free fragments in other blocks, maximal runs in
them. -/
def Fs.nbfreeOf (fs : Fs) (a : Bytes) : ℕ :=
  ∑ h ∈ Finset.range fs.bpg, if fs.geom.isblock a h then 1 else 0

def Fs.nffreeOf (fs : Fs) (a : Bytes) : ℕ :=
  ∑ h ∈ Finset.range fs.bpg, if fs.geom.isblock a h then 0 else fs.geom.fragsFree a h

def Fs.frsumOf (fs : Fs) (a : Bytes) (k : ℕ) : ℕ :=
  ∑ h ∈ Finset.range fs.bpg,
    if fs.geom.isblock a h then 0 else runs fs.frag (fs.geom.blockFree a h) k

/-- A group that agrees with its summaries.  No fragment behind its end is free, and neither is
the boot block, fragment 0 of the file system. -/
structure Cg.Consistent (fs : Fs) (c : ℕ) (cgp : Cg) : Prop where
  cgx_eq : cgp.cgx = c
  inside : ∀ i, isset cgp.blksfree i = true → i < fs.fpg
  boot : c = 0 → isset cgp.blksfree 0 = false
  frotor_lt : cgp.frotor < fs.fpg
  nbfree_eq : cgp.cs.nbfree = fs.nbfreeOf cgp.blksfree
  nffree_eq : cgp.cs.nffree = fs.nffreeOf cgp.blksfree
  frsum_eq : ∀ k, 1 ≤ k → k < fs.frag → cgp.frsum k = fs.frsumOf cgp.blksfree k

/-- A run of at least `n` free fragments inside one block. -/
def Fs.HasRun (fs : Fs) (a : Bytes) (n : ℕ) : Prop :=
  ∃ h p, p + n ≤ fs.frag ∧ ∀ j < n, fs.geom.blockFree a h (p + j) = true

/-- A size that can be asked for. -/
structure Fs.LegalSize (fs : Fs) (size : ℕ) : Prop where
  pos : 0 < size
  le_bsize : size ≤ fs.geom.bsize
  whole : fs.geom.fragoff size = 0

section Sizes

variable {fs : Fs} {size : ℕ}

theorem Fs.LegalSize.eq_numfrags_mul (h : fs.LegalSize size) :
    size = fs.geom.numfrags size * fs.geom.fsize := by
  have hdvd := Nat.dvd_of_mod_eq_zero h.whole
  rw [fs.geom.numfrags_eq, Nat.div_mul_cancel hdvd]

theorem Fs.LegalSize.numfrags_pos (h : fs.LegalSize size) : 1 ≤ fs.geom.numfrags size := by
  by_contra hzero
  have heq := h.eq_numfrags_mul
  rw [show fs.geom.numfrags size = 0 by omega, Nat.zero_mul] at heq
  exact absurd heq h.pos.ne'

theorem Fs.LegalSize.numfrags_le (h : fs.LegalSize size) : fs.geom.numfrags size ≤ fs.frag := by
  have hle := h.le_bsize
  rw [h.eq_numfrags_mul, fs.geom.bsize_eq_frag_mul] at hle
  exact Nat.le_of_mul_le_mul_right hle (Nat.two_pow_pos _)

/-- The size is that of a block if and only if it is all its fragments. -/
theorem Fs.LegalSize.eq_bsize_iff (h : fs.LegalSize size) :
    size = fs.geom.bsize ↔ fs.geom.numfrags size = fs.frag := by
  rw [fs.geom.bsize_eq_frag_mul]
  constructor
  · intro heq
    rw [h.eq_numfrags_mul] at heq
    exact Nat.eq_of_mul_eq_mul_right (Nat.two_pow_pos _) heq
  · intro heq
    rw [h.eq_numfrags_mul, heq]

end Sizes

/-! ### Runs -/

variable {frag i k p : ℕ}

/-- A run of free fragments is part of a maximal one. -/
theorem exists_isRun {free : ℕ → Bool} {n : ℕ} (hfit : p + n ≤ frag)
    (hfree : ∀ j < n, free (p + j) = true) : ∃ q k, n ≤ k ∧ IsRun frag free q k := by
  -- extend the run to either side as long as that is possible
  induction hm : frag - n generalizing p n with
  | zero =>
    have hp : p = 0 := by omega
    exact ⟨p, n, le_refl n, hfit, hfree, .inl hp, .inl (by omega)⟩
  | succ m ih =>
    by_cases hleft : p = 0 ∨ free (p - 1) = false
    · by_cases hright : p + n = frag ∨ free (p + n) = false
      · exact ⟨p, n, le_refl n, hfit, hfree, hleft, hright⟩
      · rw [not_or, Bool.not_eq_false] at hright
        obtain ⟨q, k, hle, hrun⟩ := ih (p := p) (n := n + 1) (by omega)
          (fun j hj => by
            by_cases hlast : j = n
            · rw [hlast]
              exact hright.2
            · exact hfree j (by omega)) (by omega)
        exact ⟨q, k, by omega, hrun⟩
    · rw [not_or, Bool.not_eq_false] at hleft
      obtain ⟨q, k, hle, hrun⟩ := ih (p := p - 1) (n := n + 1) (by omega)
        (fun j hj => by
          cases j with
          | zero => exact hleft.2
          | succ j =>
            rw [show p - 1 + (j + 1) = p + j by omega]
            exact hfree j (by omega)) (by omega)
      exact ⟨q, k, by omega, hrun⟩

namespace Geometry

variable (g : Geometry) {a : Bytes} {h : ℕ}

theorem isblock_iff_blockFree : g.isblock a h = true ↔ ∀ j < g.frag, g.blockFree a h j = true := by
  rw [g.isblock_iff]
  constructor
  · intro hall j hj
    refine hall _ ?_
    rw [Nat.mul_comm, Nat.mul_add_div g.frag_pos, Nat.div_eq_of_lt hj, Nat.add_zero]
  · intro hall i hi
    have hbit := hall (i % g.frag) (Nat.mod_lt _ g.frag_pos)
    rw [blockFree, ← hi, Nat.mul_comm, Nat.div_add_mod] at hbit
    exact hbit

/-- A run of all fragments is the whole block. -/
theorem isRun_frag_iff :
    IsRun g.frag (g.blockFree a h) p g.frag ↔ p = 0 ∧ g.isblock a h = true := by
  rw [isblock_iff_blockFree]
  constructor
  · intro ⟨hfit, hrun, _⟩
    have hp : p = 0 := by omega
    subst hp
    refine ⟨rfl, fun j hj => ?_⟩
    have hbit := hrun j hj
    rwa [Nat.zero_add] at hbit
  · intro ⟨hp, hall⟩
    subst hp
    exact ⟨by omega, fun j hj => by rw [Nat.zero_add]; exact hall j hj, .inl rfl,
      .inl (Nat.zero_add _)⟩

end Geometry

theorem runs_pos_iff {free : ℕ → Bool} (hk : 1 ≤ k) :
    runs frag free k ≠ 0 ↔ ∃ p, IsRun frag free p k := by
  rw [runs, ← Nat.pos_iff_ne_zero, List.countP_pos_iff]
  constructor
  · intro ⟨p, _, hrun⟩
    exact ⟨p, of_decide_eq_true hrun⟩
  · intro ⟨p, hrun⟩
    have hfit := hrun.1
    exact ⟨p, List.mem_range.mpr (by omega), decide_eq_true hrun⟩

section Group

variable {fs : Fs} {c : ℕ} {cgp : Cg}

/-- A block with a free fragment is a block of the group. -/
theorem Cg.Consistent.block_lt (hl : fs.Layout) (hc : cgp.Consistent fs c) {h j : ℕ}
    (hfree : fs.geom.blockFree cgp.blksfree h j = true) :
    h < fs.bpg ∧ h * fs.frag + j < fs.fpg := by
  have hlt := hc.inside _ hfree
  obtain ⟨q, hq⟩ := hl.frag_dvd
  refine ⟨?_, hlt⟩
  rw [Fs.bpg, hq, Nat.mul_div_cancel_left _ fs.geom.frag_pos]
  rw [hq] at hlt
  have hmul : h * fs.frag < q * fs.frag := by
    rw [Nat.mul_comm q]
    exact lt_of_le_of_lt (Nat.le_add_right _ _) hlt
  exact Nat.lt_of_mul_lt_mul_right hmul

theorem Cg.Consistent.nbfree_ne_zero_iff (hl : fs.Layout) (hc : cgp.Consistent fs c) :
    cgp.cs.nbfree ≠ 0 ↔ ∃ h, fs.geom.isblock cgp.blksfree h = true := by
  rw [hc.nbfree_eq, Fs.nbfreeOf, Ne, Nat.cast_eq_zero, Finset.sum_eq_zero_iff, not_forall]
  constructor
  · intro ⟨h, hh⟩
    rw [Classical.not_imp] at hh
    exact ⟨h, by simpa using hh.2⟩
  · intro ⟨h, hh⟩
    have hfree := fs.geom.isblock_iff_blockFree.mp hh 0 fs.geom.frag_pos
    refine ⟨h, ?_⟩
    rw [Classical.not_imp, Finset.mem_range]
    exact ⟨(hc.block_lt hl hfree).1, by simp [hh]⟩

theorem not_isblock_of_isRun {a : Bytes} {h : ℕ} (hk : k < fs.frag)
    (hrun : IsRun fs.frag (fs.geom.blockFree a h) p k) : fs.geom.isblock a h = false := by
  rw [Bool.eq_false_iff]
  intro hblock
  rw [fs.geom.isblock_iff_blockFree] at hblock
  change ∀ j < fs.frag, _ at hblock
  obtain ⟨hfit, -, hleft, hright⟩ := hrun
  by_cases hp : p = 0
  · have hend := hright.resolve_left (by omega)
    rw [hblock _ (by omega)] at hend
    exact absurd hend (by decide)
  · have hbefore := hleft.resolve_left hp
    rw [hblock _ (by omega)] at hbefore
    exact absurd hbefore (by decide)

theorem Cg.Consistent.frsum_ne_zero_iff (hl : fs.Layout) (hc : cgp.Consistent fs c)
    (hk : 1 ≤ k) (hlt : k < fs.frag) :
    cgp.frsum k ≠ 0 ↔ ∃ h p, IsRun fs.frag (fs.geom.blockFree cgp.blksfree h) p k := by
  rw [hc.frsum_eq k hk hlt, Fs.frsumOf, Ne, Nat.cast_eq_zero, Finset.sum_eq_zero_iff, not_forall]
  constructor
  · intro ⟨h, hh⟩
    rw [Classical.not_imp] at hh
    refine ⟨h, (runs_pos_iff hk).mp ?_⟩
    intro hzero
    exact hh.2 (by rw [hzero, ite_self])
  · intro ⟨h, p, hrun⟩
    have hfit := hrun.1
    have hfree : fs.geom.blockFree cgp.blksfree h (p + 0) = true := hrun.2.1 0 (by omega)
    refine ⟨h, ?_⟩
    rw [Classical.not_imp, Finset.mem_range, not_isblock_of_isRun hlt hrun]
    exact ⟨(hc.block_lt hl hfree).1, (runs_pos_iff hk).mpr ⟨p, hrun⟩⟩

end Group

/-- The loop of `alloccg` over `cg_frsum`. -/
theorem allocsizLoop_spec (frag : ℕ) (frsum : ℕ → ℤ) (fuel : ℕ) (hk : k ≤ frag)
    (hfuel : frag ≤ k + fuel) :
    k ≤ allocsizLoop frag frsum fuel k ∧ allocsizLoop frag frsum fuel k ≤ frag ∧
      (allocsizLoop frag frsum fuel k < frag →
        frsum (allocsizLoop frag frsum fuel k) ≠ 0) ∧
      ∀ i, k ≤ i → i < allocsizLoop frag frsum fuel k → frsum i = 0 := by
  induction fuel generalizing k with
  | zero =>
    rw [allocsizLoop]
    exact ⟨le_refl k, hk, fun hlt => by omega, fun i hlo hhi => by omega⟩
  | succ fuel ih =>
    rw [allocsizLoop]
    split_ifs with hlt hne
    · exact ⟨le_refl k, hk, fun _ => hne, fun i hlo hhi => by omega⟩
    · obtain ⟨h1, h2, h3, h4⟩ := ih (k := k + 1) (by omega) (by omega)
      refine ⟨by omega, h2, h3, fun i hlo hhi => ?_⟩
      by_cases hi : i = k
      · rw [hi]
        exact not_not.mp hne
      · exact h4 i (by omega) hhi
    · exact ⟨le_refl k, hk, fun hlt' => absurd hlt' hlt, fun i hlo hhi => by omega⟩

/-! ### What `alloccg` does -/

/-- `TRANS_ISCANCEL` of a file system without a log. -/
def nolog (_ : ℕ) : Bool := false

namespace Ufsvfs

/-- Only `cg_rotor` and `cg_frotor` of a group change. -/
def rotated (s : Ufsvfs) (c rotor frotor : ℕ) : Ufsvfs :=
  s.modifyCg c fun cgp => { cgp with rotor := rotor, frotor := frotor }

theorem rotated_self (s : Ufsvfs) (c : ℕ) : s.rotated c (s.cg c).rotor (s.cg c).frotor = s := by
  rw [rotated, modifyCg, Function.update_eq_self]

theorem unlock_lock {s : Ufsvfs} (h : s.locked = false) : s.lock.unlock = s := by
  rw [lock, unlock, ← h]

/-- The rest of a block is free again when only its first `frags` fragments are needed. -/
def hackedUp (s : Ufsvfs) (fs : Fs) (c bno frags : ℕ) : Ufsvfs :=
  (s.modifyCg c fun cgp =>
    { cgp.addFrsum (fs.frag - frags) 1 with
      blksfree := setbits (fs.frag - frags) (bno + frags) cgp.blksfree }).addCs c
    (·.addNffree (fs.frag - frags : ℕ))

end Ufsvfs

/-- What `alloccg` does in a group: nothing, or it takes `frags` fragments. -/
inductive Outcome (fs : Fs) (s : Ufsvfs) (c frags : ℕ) : Ufsvfs × ℕ → Prop
  | none (h : (s.cg c).valid = true → ¬fs.HasRun (s.blksfree c) frags) : Outcome fs s c frags (s, 0)
  | block (rotor frotor h : ℕ) (hfrags : frags = fs.frag) (hlt : frotor < fs.fpg)
      (hblock : fs.geom.isblock (s.blksfree c) h = true) :
      Outcome fs s c frags
        ((takeBlk fs (s.rotated c rotor frotor) c (h * fs.frag)).1, c * fs.fpg + h * fs.frag)
  | split (rotor frotor h : ℕ) (hfrags : frags < fs.frag) (hlt : frotor < fs.fpg)
      (hblock : fs.geom.isblock (s.blksfree c) h = true) :
      Outcome fs s c frags
        ((takeBlk fs (s.rotated c rotor frotor) c (h * fs.frag)).1.hackedUp fs c (h * fs.frag)
          frags, c * fs.fpg + h * fs.frag)
  | piece (frotor h p k : ℕ) (hfrags : frags ≤ k) (hk : k < fs.frag) (hlt : frotor < fs.fpg)
      (hrun : IsRun fs.frag (fs.geom.blockFree (s.blksfree c) h) p k) :
      Outcome fs s c frags
        (takeFrags fs (s.rotated c (s.cg c).rotor frotor) c (h * fs.frag + p) frags k)

section Outcomes

variable {fs : Fs} {s : Ufsvfs} {c : ℕ}

/-- `dtogd` of the start of a block is the start of a block of the group. -/
theorem Fs.Layout.frag_dvd_place (hl : fs.Layout) (bpref : ℕ) :
    fs.frag ∣ fs.dtogd (fs.geom.blknum bpref) := by
  rw [fs.geom.blknum_eq, Fs.dtogd]
  exact (Nat.dvd_mod_iff hl.frag_dvd).mpr (Nat.dvd_sub_mod bpref)

/-- Where free blocks are counted at a position of a cylinder, the rotational tables lead to one. -/
def Cg.Rotates (fs : Fs) (cgp : Cg) : Prop :=
  fs.cpc = 0 ∨ ∀ cylno i, 0 < cgp.blks cylno i → fs.postbl (cylno % fs.cpc) i ≠ -1 ∧
    (rotLoop fs cgp.blksfree
      ((cylno - cylno % fs.cpc) * fs.spc / (fs.nspf <<< fs.geom.fragshift))
      (fs.geom.fragstoblks fs.fpg + 1) (fs.postbl (cylno % fs.cpc) i).toNat).isSome

/-- The walk ends at a free block. -/
theorem rotLoop_isblock {a : Bytes} {bno fuel r : ℕ} (hr : rotLoop fs a bno fuel i = some r) :
    ∃ h, fs.geom.isblock a h = true ∧ r = h * fs.frag := by
  induction fuel generalizing i with
  | zero => cases hr
  | succ fuel ih =>
    rw [rotLoop] at hr
    dsimp only at hr
    split_ifs at hr with hblock
    · exact ⟨bno + i, hblock, (Option.some.inj hr).symm.trans (Nat.shiftLeft_eq ..)⟩
    · exact ih hr

/-- With a free block in the group, `alloccgblk` takes one. -/
theorem alloccgblk_spec (hl : fs.Layout) (hrot : (s.cg c).Rotates fs) (hc : (s.cg c).Consistent fs c)
    (hex : ∃ h, fs.geom.isblock (s.blksfree c) h = true) (bpref : ℕ) :
    ∃ rotor frotor h, frotor < fs.fpg ∧ fs.geom.isblock (s.blksfree c) h = true ∧
      alloccgblk fs nolog s c bpref = takeBlk fs (s.rotated c rotor frotor) c (h * fs.frag) := by
  have hsearch : ∀ b, ∃ rotor frotor h, frotor < fs.fpg ∧
      fs.geom.isblock (s.blksfree c) h = true ∧
      searchBlk fs nolog s c b = takeBlk fs (s.rotated c rotor frotor) c (h * fs.frag) := by
    intro b
    cases mapsearch_spec fs (s.cg c) b fs.geom.frag_pos (le_refl fs.frag) hl.fpg_pos
        hc.frotor_lt with
    | inl hfound =>
      obtain ⟨frotor, h, p, hlt, hrun, hmap⟩ := hfound
      obtain ⟨rfl, hblock⟩ := fs.geom.isRun_frag_iff.mp hrun
      refine ⟨h * fs.frag, frotor, h, hlt, hblock, ?_⟩
      rw [searchBlk, show nolog = fun _ => false from rfl, hmap]
      rfl
    | inr hnone =>
      obtain ⟨h, hh⟩ := hex
      have hfree := fs.geom.isblock_iff_blockFree.mp hh 0 fs.geom.frag_pos
      exact absurd (fs.geom.isRun_frag_iff.mpr ⟨rfl, hh⟩)
        (hnone.1 h 0 (hc.block_lt hl hfree).2)
  rw [alloccgblk, placeBlk]
  by_cases hzero : bpref = 0
  · rw [if_pos hzero]
    exact hsearch _
  · simp only [if_neg hzero]
    by_cases hpref : fs.geom.isblock (s.cg c).blksfree
        (fs.geom.fragstoblks (fs.dtogd (fs.geom.blknum bpref))) = true
    · rw [if_pos hpref]
      obtain ⟨h, hh⟩ := hl.frag_dvd_place bpref
      rw [hh, fs.geom.fragstoblks_eq, Nat.mul_div_cancel_left _ fs.geom.frag_pos] at hpref
      refine ⟨(s.cg c).rotor, (s.cg c).frotor, h, hc.frotor_lt, hpref, ?_⟩
      rw [s.rotated_self, hh, Nat.mul_comm]
      rfl
    · rw [if_neg hpref]
      split_ifs with _ hcpc
      · exact hsearch _
      · exact hsearch _
      · cases hturn : List.find? _ _ with
        | none => exact hsearch _
        | some i =>
          dsimp only
          obtain ⟨hpos, hwalk⟩ := hrot.resolve_left hcpc _ i (by simpa using List.find?_some hturn)
          obtain ⟨bno, hbno⟩ := Option.isSome_iff_exists.mp hwalk
          obtain ⟨h, hblock, rfl⟩ := rotLoop_isblock hbno
          rw [if_neg hpos, hbno]
          refine ⟨(s.cg c).rotor, (s.cg c).frotor, h, hc.frotor_lt, hblock, ?_⟩
          rw [s.rotated_self]
          rfl

theorem takeBlk_addr (bno : ℕ) : (takeBlk fs s c bno).2 = (s.cg c).cgx * fs.fpg + bno := by
  simp [takeBlk, Cg.addBlk]

/-- The address of something that was free is not 0. -/
theorem Cg.Consistent.addr_ne_zero {cgp : Cg} (hl : fs.Layout) (hc : cgp.Consistent fs c)
    (hi : isset cgp.blksfree i = true) : c * fs.fpg + i ≠ 0 := by
  intro hzero
  rw [Nat.add_eq_zero_iff, Nat.mul_eq_zero] at hzero
  have hcz : c = 0 := hzero.1.resolve_right hl.fpg_pos.ne'
  rw [hzero.2, hc.boot hcz] at hi
  exact absurd hi (by decide)

theorem Geometry.isset_of_isblock (g : Geometry) {a : Bytes} {h : ℕ}
    (hblock : g.isblock a h = true) :
    isset a (h * g.frag) = true :=
  g.isblock_iff_blockFree.mp hblock 0 g.frag_pos

/-- The address of a block that `alloccgblk` takes, whatever its rotors. -/
theorem takeBlk_rotated_addr (hc : (s.cg c).Consistent fs c) (rotor frotor bno : ℕ) :
    (takeBlk fs (s.lock.rotated c rotor frotor) c bno).2 = c * fs.fpg + bno := by
  rw [takeBlk_addr, Ufsvfs.rotated, Ufsvfs.cg_modifyCg]
  exact congrArg (· * fs.fpg + bno) hc.cgx_eq

/-- With a free block in the group, one is hacked up. -/
theorem splitBlk_spec (hl : fs.Layout) (hrot : (s.cg c).Rotates fs) (hc : (s.cg c).Consistent fs c)
    (hlock : s.locked = false) (hex : ∃ h, fs.geom.isblock (s.blksfree c) h = true)
    (bpref : ℕ) {frags : ℕ} (hfrags : frags < fs.frag) :
    Outcome fs s c frags (splitBlk fs nolog s.lock c bpref frags) := by
  have hnb : (s.lock.cg c).cs.nbfree ≠ 0 := (hc.nbfree_ne_zero_iff hl).mpr hex
  obtain ⟨rotor, frotor, h, hlt, hblock, heq⟩ :=
    alloccgblk_spec (s := s.lock) hl hrot hc hex bpref
  have haddr := takeBlk_rotated_addr hc rotor frotor (h * fs.frag)
  have hset := fs.geom.isset_of_isblock hblock
  have hne := hc.addr_ne_zero hl hset
  have hplace : fs.dtogd (c * fs.fpg + h * fs.frag) = h * fs.frag := by
    rw [Fs.dtogd, Nat.add_comm, Nat.add_mul_mod_self_right]
    exact Nat.mod_eq_of_lt (hc.inside _ hset)
  have hsplit : splitBlk fs nolog s.lock c bpref frags =
      ((takeBlk fs (s.rotated c rotor frotor) c (h * fs.frag)).1.hackedUp fs c (h * fs.frag) frags,
        c * fs.fpg + h * fs.frag) := by
    rw [splitBlk, if_neg hnb, heq]
    simp only [haddr, hne, if_false, hplace]
    refine Prod.ext ?_ rfl
    simp only [Ufsvfs.hackedUp, unlock, addCs, modifyCg, takeBlk, Ufsvfs.rotated, lock, ← hlock]
  rw [hsplit]
  exact Outcome.split rotor frotor h hfrags hlt hblock

/-- Without a free block there is no run of a whole block. -/
theorem not_hasRun_frag {a : Bytes} (hno : ¬∃ h, fs.geom.isblock a h = true) :
    ¬fs.HasRun a fs.frag := by
  intro ⟨h, p, hfit, hfree⟩
  refine hno ⟨h, fs.geom.isblock_iff_blockFree.mpr fun j hj => ?_⟩
  have hbit := hfree j hj
  rwa [show p = 0 by omega, Nat.zero_add] at hbit

/-- `alloccg` for a size that is asked for, in a consistent group. -/
theorem alloccg_outcome (hl : fs.Layout) (hrot : (s.cg c).Rotates fs) (hc : (s.cg c).Consistent fs c)
    (hcs : s.cs c = (s.cg c).cs) (hlock : s.locked = false) (bpref : ℕ) {size : ℕ}
    (hsize : fs.LegalSize size) :
    Outcome fs s c (fs.geom.numfrags size) (alloccg fs nolog s c bpref size) := by
  have hnb := hc.nbfree_ne_zero_iff hl
  have hbsize := hsize.eq_bsize_iff
  rw [alloccg, hcs]
  by_cases hnone : (s.cg c).cs.nbfree = 0 ∧ size = fs.geom.bsize
  · rw [if_pos hnone]
    refine Outcome.none fun _ => ?_
    rw [hbsize.mp hnone.2]
    exact not_hasRun_frag fun hex => hnb.mpr hex hnone.1
  rw [if_neg hnone]
  by_cases hvalid : (s.cg c).valid = true
  swap
  · rw [Bool.not_eq_true] at hvalid
    simp only [hvalid, Bool.not_false, true_or, if_true]
    exact Outcome.none fun h => absurd (hvalid.symm.trans h) (by decide)
  have hpass : ¬((!(s.cg c).valid) = true ∨ ((s.cg c).cs.nbfree = 0 ∧ size = fs.geom.bsize)) := by
    simpa [hvalid] using hnone
  rw [if_neg hpass]
  by_cases hblk : size = fs.geom.bsize
  · -- a whole block
    have hex := hnb.mp fun hzero => hnone ⟨hzero, hblk⟩
    obtain ⟨rotor, frotor, h, hlt, hblock, heq⟩ :=
      alloccgblk_spec (s := s.lock) hl hrot hc hex bpref
    have haddr := takeBlk_rotated_addr hc rotor frotor (h * fs.frag)
    have hstate : (takeBlk fs (s.lock.rotated c rotor frotor) c (h * fs.frag)).1.unlock =
        (takeBlk fs (s.rotated c rotor frotor) c (h * fs.frag)).1 := by
      simp only [unlock, addCs, modifyCg, takeBlk, Ufsvfs.rotated, lock, ← hlock]
    simp only [if_pos hblk, heq, haddr, hstate]
    exact Outcome.block rotor frotor h (hbsize.mp hblk) hlt hblock
  · -- fragments
    have hfrags : fs.geom.numfrags size < fs.frag :=
      lt_of_le_of_ne hsize.numfrags_le fun heq => hblk (hbsize.mpr heq)
    simp only [if_neg hblk]
    obtain ⟨hge, hle, hsome, hzero⟩ := allocsizLoop_spec fs.frag (s.lock.cg c).frsum
      fs.frag hsize.numfrags_le (Nat.le_add_left _ _)
    set k := allocsizLoop fs.frag (s.lock.cg c).frsum fs.frag (fs.geom.numfrags size)
    have hpos := hsize.numfrags_pos
    by_cases hfull : k = fs.frag
    · rw [if_pos hfull]
      by_cases hex : ∃ h, fs.geom.isblock (s.blksfree c) h = true
      · exact splitBlk_spec hl hrot hc hlock hex bpref hfrags
      · have hnbz : (s.lock.cg c).cs.nbfree = 0 := not_not.mp fun hne => hex (hnb.mp hne)
        rw [splitBlk, if_pos hnbz, s.unlock_lock hlock]
        refine Outcome.none fun _ => ?_
        intro ⟨h, p, hfit, hfree⟩
        obtain ⟨q, m, hm, hrun⟩ := exists_isRun hfit hfree
        have hmle := hrun.1
        by_cases hmf : m = fs.frag
        · rw [hmf] at hrun
          exact hex ⟨h, (fs.geom.isRun_frag_iff.mp hrun).2⟩
        · exact (hc.frsum_ne_zero_iff hl (by omega) (by omega)).mpr ⟨h, q, hrun⟩
            (hzero m hm (by omega))
    · rw [if_neg hfull]
      have hlt : k < fs.frag := lt_of_le_of_ne hle hfull
      obtain ⟨h0, p0, hrun0⟩ := (hc.frsum_ne_zero_iff hl (by omega) hlt).mp (hsome hlt)
      have hfit0 := hrun0.1
      have hfree0 : fs.geom.blockFree (s.cg c).blksfree h0 (p0 + 0) = true :=
        hrun0.2.1 0 (by omega)
      cases mapsearch_spec fs (s.cg c) bpref (by omega : 1 ≤ k) hle hl.fpg_pos hc.frotor_lt with
      | inl hfound =>
        obtain ⟨frotor, h, p, hfr, hrun, hmap⟩ := hfound
        have hcall : mapsearch fs nolog (s.lock.cg c) bpref k =
            ({ s.cg c with frotor := frotor }, some (h * fs.frag + p)) := hmap
        rw [hcall]
        have hstate : takeFrags fs (s.lock.modifyCg c fun _ => { s.cg c with frotor := frotor }) c
            (h * fs.frag + p) (fs.geom.numfrags size) k =
            takeFrags fs (s.rotated c (s.cg c).rotor frotor) c (h * fs.frag + p)
              (fs.geom.numfrags size) k := by
          simp only [takeFrags, Ufsvfs.rotated, lock, modifyCg]
          split_ifs <;> rfl
        exact (congrArg (Outcome fs s c _) hstate).mpr
          (Outcome.piece frotor h p k hge hlt hfr hrun)
      | inr hno =>
        exact absurd hrun0 (hno.1 h0 p0 (lt_of_le_of_lt (Nat.le_add_right _ _)
          (hc.block_lt hl hfree0).2))

end Outcomes

/-! ### What the outcomes leave in the maps -/

/-- The fragments `b .. b + n - 1` of the group `c` have been taken, and no others. -/
structure Taken (fs : Fs) (s s' : Ufsvfs) (c b n : ℕ) : Prop where
  inBlock : b % fs.frag + n ≤ fs.frag
  wasFree : ∀ j < n, isset (s.blksfree c) (b + j) = true
  isset_eq : ∀ i, isset (s'.blksfree c) i =
    (!decide (b ≤ i ∧ i < b + n) && isset (s.blksfree c) i)
  others : ∀ c' ≠ c, s'.cg c' = s.cg c'

theorem isset_clrbits (n b : ℕ) (a : Bytes) (i : ℕ) :
    isset (clrbits n b a) i = (!decide (b ≤ i ∧ i < b + n) && isset a i) := by
  induction n generalizing b a with
  | zero =>
    rw [clrbits, decide_eq_false (by omega)]
    rfl
  | succ n ih =>
    rw [clrbits, ih, isset_clrbit, ← Bool.and_assoc]
    congr 1
    rw [Bool.eq_iff_iff]
    simp only [Bool.and_eq_true, Bool.not_eq_true', decide_eq_false_iff_not]
    omega

theorem isset_setbits (n b : ℕ) (a : Bytes) (i : ℕ) :
    isset (setbits n b a) i = (decide (b ≤ i ∧ i < b + n) || isset a i) := by
  induction n generalizing b a with
  | zero =>
    rw [setbits, decide_eq_false (by omega)]
    rfl
  | succ n ih =>
    rw [setbits, ih, isset_setbit, ← Bool.or_assoc]
    congr 1
    rw [Bool.eq_iff_iff]
    simp only [Bool.or_eq_true, decide_eq_true_eq]
    omega

theorem div_eq_iff_mem_block {h : ℕ} (hpos : 0 < frag) :
    i / frag = h ↔ h * frag ≤ i ∧ i < h * frag + frag := by
  rw [Nat.div_eq_iff hpos]
  omega

section Maps

variable {fs : Fs} {s : Ufsvfs} {c : ℕ}

variable {c' frags : ℕ}

theorem cg_takeBlk_of_ne (hne : c' ≠ c) (bno : ℕ) : (takeBlk fs s c bno).1.cg c' = s.cg c' := by
  simp [takeBlk, addCs, modifyCg, Function.update_of_ne hne]

theorem blksfree_takeBlk (bno : ℕ) :
    (takeBlk fs s c bno).1.blksfree c =
      fs.geom.clrblock (s.blksfree c) (fs.geom.fragstoblks bno) := by
  simp [takeBlk, addCs, blksfree, modifyCg]

theorem blksfree_rotated (rotor frotor : ℕ) :
    (s.rotated c rotor frotor).blksfree c = s.blksfree c := by
  simp [Ufsvfs.rotated, blksfree]

theorem cg_rotated_of_ne (hne : c' ≠ c) (rotor frotor : ℕ) :
    (s.rotated c rotor frotor).cg c' = s.cg c' :=
  s.cg_modifyCg_of_ne hne _

/-- Taking a whole block. -/
theorem taken_takeBlk {rotor frotor h : ℕ} (hblock : fs.geom.isblock (s.blksfree c) h = true) :
    Taken fs s (takeBlk fs (s.rotated c rotor frotor) c (h * fs.frag)).1 c (h * fs.frag)
      fs.frag := by
  refine ⟨by rw [Nat.mul_mod_left]; omega, fs.geom.isblock_iff_blockFree.mp hblock, fun i => ?_,
    fun c' hne => ?_⟩
  · rw [blksfree_takeBlk, blksfree_rotated, fs.geom.isset_clrblock, fs.geom.fragstoblks_eq,
      Nat.mul_div_cancel _ fs.geom.frag_pos]
    simp only [div_eq_iff_mem_block fs.geom.frag_pos]
  · rw [cg_takeBlk_of_ne hne, cg_rotated_of_ne hne]

theorem blksfree_hackedUp (bno frags : ℕ) :
    (s.hackedUp fs c bno frags).blksfree c =
      setbits (fs.frag - frags) (bno + frags) (s.blksfree c) := by
  simp [Ufsvfs.hackedUp, addCs, blksfree, modifyCg]

theorem cg_hackedUp_of_ne (hne : c' ≠ c) (bno frags : ℕ) :
    (s.hackedUp fs c bno frags).cg c' = s.cg c' := by
  simp [Ufsvfs.hackedUp, addCs, modifyCg, Function.update_of_ne hne]

/-- Taking the first part of a block. -/
theorem taken_hackedUp {rotor frotor h : ℕ} (hfrags : frags < fs.frag)
    (hblock : fs.geom.isblock (s.blksfree c) h = true) :
    Taken fs s ((takeBlk fs (s.rotated c rotor frotor) c (h * fs.frag)).1.hackedUp fs c
      (h * fs.frag) frags) c (h * fs.frag) frags := by
  have hwhole := @taken_takeBlk fs s c rotor frotor h hblock
  refine ⟨by rw [Nat.mul_mod_left]; omega, fun j hj => hwhole.wasFree j (by omega), fun i => ?_,
    fun c' hne => ?_⟩
  · rw [blksfree_hackedUp, isset_setbits, hwhole.isset_eq]
    by_cases hin : h * fs.frag ≤ i ∧ i < h * fs.frag + fs.frag
    · have hfree : isset (s.blksfree c) i = true := by
        have hbit := hwhole.wasFree (i - h * fs.frag) (by omega)
        rwa [show h * fs.frag + (i - h * fs.frag) = i by omega] at hbit
      rw [hfree, decide_eq_true hin, Bool.not_true, Bool.false_and, Bool.or_false, Bool.and_true,
        ← decide_not, decide_eq_decide]
      omega
    · rw [decide_eq_false hin, decide_eq_false (by omega), decide_eq_false (by omega)]
      rfl
  · rw [cg_hackedUp_of_ne hne, hwhole.others c' hne]

theorem blksfree_takeFrags (bno frags k : ℕ) :
    (takeFrags fs s c bno frags k).1.blksfree c = clrbits frags bno (s.blksfree c) := by
  simp only [takeFrags]
  split_ifs <;> simp [addCs, blksfree, modifyCg, unlock, Cg.addFrsum]

theorem cg_takeFrags_of_ne (hne : c' ≠ c) (bno frags k : ℕ) :
    (takeFrags fs s c bno frags k).1.cg c' = s.cg c' := by
  simp only [takeFrags]
  split_ifs <;> simp [addCs, modifyCg, unlock, Function.update_of_ne hne]

/-- Taking the first part of a run. -/
theorem taken_takeFrags (rotor frotor : ℕ) {h : ℕ} (hfrags : frags ≤ k) (hpos : 1 ≤ frags)
    (hrun : IsRun fs.frag (fs.geom.blockFree (s.blksfree c) h) p k) :
    Taken fs s (takeFrags fs (s.rotated c rotor frotor) c (h * fs.frag + p) frags k).1 c
      (h * fs.frag + p) frags := by
  have hfit := hrun.1
  refine ⟨?_, fun j hj => ?_, fun i => ?_, fun c' hne => ?_⟩
  · rw [Nat.mul_comm, Nat.mul_add_mod, Nat.mod_eq_of_lt (by omega)]
    omega
  · rw [Nat.add_assoc]
    exact hrun.2.1 j (by omega)
  · rw [blksfree_takeFrags, blksfree_rotated, isset_clrbits]
  · rw [cg_takeFrags_of_ne hne, cg_rotated_of_ne hne]

/-- An outcome takes a run that was free, or leaves everything and there was none. -/
theorem Outcome.taken (hl : fs.Layout) (hc : (s.cg c).Consistent fs c)
    (hpos : 1 ≤ frags) {r : Ufsvfs × ℕ} (h : Outcome fs s c frags r) :
    (r = (s, 0) ∧ ((s.cg c).valid = true → ¬fs.HasRun (s.blksfree c) frags)) ∨
    ∃ b, r.2 = c * fs.fpg + b ∧ r.2 ≠ 0 ∧ Taken fs s r.1 c b frags := by
  cases h with
  | none hno => exact .inl ⟨rfl, hno⟩
  | block rotor frotor h hfrags hlt hblock =>
    right
    have hset := fs.geom.isset_of_isblock hblock
    subst hfrags
    exact ⟨_, rfl, hc.addr_ne_zero hl hset, taken_takeBlk hblock⟩
  | split rotor frotor h hfrags hlt hblock =>
    right
    have hset := fs.geom.isset_of_isblock hblock
    exact ⟨_, rfl, hc.addr_ne_zero hl hset, taken_hackedUp hfrags hblock⟩
  | piece frotor h p k hfrags hk hlt hrun =>
    right
    have htaken := taken_takeFrags (s.cg c).rotor frotor hfrags hpos hrun
    have hset := htaken.wasFree 0 (by omega)
    exact ⟨_, rfl, hc.addr_ne_zero hl hset, htaken⟩

end Maps

end Sol26.Ufs
