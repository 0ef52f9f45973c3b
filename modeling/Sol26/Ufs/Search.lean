import Sol26.Ufs.Group

/-!
# `mapsearch`

The search for a maximal run of free fragments of a given length: the table tells whether a byte
of the map has one, and the sift finds it.  Without a log (`TRANS_ISCANCEL` false) the two scans
find a run if and only if the group has one.
-/

namespace Sol26.Ufs

/-! ### One byte -/

/-- The bits of the `s`-th block of a byte. -/
def byteBlk (frag b s : ℕ) : ℕ := b >>> (s * frag) &&& 0xff >>> (8 - frag)

/-- The bit of the table for runs of `k` fragments. -/
def fragbit (frag k : ℕ) : ℕ := 1 <<< (k - 1 + frag % 8)

/-- Some block of the byte has the pattern of `k` fragments. -/
def anyPattern (frag b k : ℕ) : Bool :=
  (List.range (8 / frag)).any fun s =>
    (List.range (frag + 1 - k)).any fun p => patternAt (byteBlk frag b s) k p

theorem fragtbl8_checked : ∀ x ∈ fragtbl8.zipIdx, ∀ k < 9, 1 ≤ k →
    (x.1 &&& fragbit 8 k != 0) = anyPattern 8 x.2 k := by
  decide +kernel

theorem fragtbl124_checked : ∀ x ∈ fragtbl124.zipIdx, ∀ frag ∈ [1, 2, 4], ∀ k < frag + 1, 1 ≤ k →
    (x.1 &&& fragbit frag k != 0) = anyPattern frag x.2 k := by
  decide +kernel

theorem length_fragtbl8 : fragtbl8.length = 256 := by decide +kernel

theorem length_fragtbl124 : fragtbl124.length = 256 := by decide +kernel

theorem mem_zipIdx_getD {l : List ℕ} {b : ℕ} (hb : b < l.length) : (l.getD b 0, b) ∈ l.zipIdx := by
  rw [List.mem_zipIdx_iff_getElem?, List.getD_eq_getElem _ _ hb]
  exact List.getElem?_eq_getElem hb

/-- The tables have a bit exactly for the patterns of the byte. -/
theorem fragtbl_iff {frag : ℕ} (hfrag : frag ∈ [1, 2, 4, 8]) {b : ℕ} (hb : b < 256) {k : ℕ}
    (hk : 1 ≤ k) (hle : k ≤ frag) :
    fragtbl frag b &&& fragbit frag k ≠ 0 ↔ anyPattern frag b k = true := by
  have hcheck : (fragtbl frag b &&& fragbit frag k != 0) = anyPattern frag b k := by
    by_cases h8 : frag = 8
    · subst h8
      exact fragtbl8_checked _ (mem_zipIdx_getD (by rwa [length_fragtbl8])) k (by omega) hk
    · rw [fragtbl, if_neg h8]
      refine fragtbl124_checked _ (mem_zipIdx_getD (by rwa [length_fragtbl124])) frag ?_ k
        (by omega) hk
      simp only [List.mem_cons, List.not_mem_nil, or_false] at hfrag ⊢
      omega
  rw [← hcheck, bne_iff_ne]

/-- The inner loop of the sift finds the first pattern. -/
theorem siftPos_eq (m k n pos : ℕ) :
    siftPos (m <<< 1) n pos (around k <<< pos) (inside k <<< pos) =
      (List.range' pos n).find? (patternAt m k) := by
  induction n generalizing pos with
  | zero => rfl
  | succ n ih =>
    rw [siftPos, List.range'_succ, List.find?_cons, ← Nat.shiftLeft_add, ← Nat.shiftLeft_add, ih]
    by_cases h : m <<< 1 &&& around k <<< pos = inside k <<< pos
    · rw [if_pos h, patternAt, beq_iff_eq.mpr h]
    · rw [if_neg h, patternAt, beq_eq_false_iff_ne.mpr h]

namespace Geometry

variable (g : Geometry)

/-- The free fragments of the block `h`. -/
def blockFree (a : Bytes) (h : ℕ) (j : ℕ) : Bool := isset a (h * g.frag + j)

theorem byteBlk_lt (b s : ℕ) : byteBlk g.frag b s < 2 ^ g.frag := by
  refine lt_of_le_of_lt Nat.and_le_right ?_
  obtain hf | hf | hf | hf := g.frag_cases <;> rw [hf] <;> decide

/-- The blocks of a byte, as `blkmap` extracts them. -/
theorem blkmap_eq_byteBlk (a : Bytes) (byte : ℕ) {s : ℕ} (hs : s < 8 / g.frag) :
    g.blkmap a (byte * 8 + s * g.frag) = byteBlk g.frag (a byte).toNat s := by
  have hlt : s * g.frag < 8 := by
    rw [Nat.lt_div_iff_mul_lt' g.frag_dvd_eight, Nat.mul_comm] at hs
    exact hs
  rw [blkmap, show (byte * 8 + s * g.frag) / 8 = byte by omega,
    show (byte * 8 + s * g.frag) % 8 = s * g.frag by omega, byteBlk]
  simp only [BitVec.toNat_and, BitVec.toNat_ushiftRight]
  rfl

theorem testBit_byteBlk (a : Bytes) (byte : ℕ) {s : ℕ} (hs : s < 8 / g.frag) {j : ℕ}
    (hj : j < g.frag) :
    (byteBlk g.frag (a byte).toNat s).testBit j = isset a (byte * 8 + s * g.frag + j) := by
  have hdvd : g.frag ∣ byte * 8 + s * g.frag :=
    Nat.dvd_add (g.frag_dvd_eight.mul_left byte) (Nat.dvd_mul_left _ _)
  rw [← g.blkmap_eq_byteBlk a byte hs, g.testBit_blkmap a hdvd, decide_eq_true hj, Bool.true_and]

end Geometry

/-- A run depends on the fragments of its block only. -/
theorem IsRun.congr {frag : ℕ} {free free' : ℕ → Bool} (heq : ∀ j < frag, free j = free' j)
    {p k : ℕ} (hk : 1 ≤ k) (h : IsRun frag free p k) : IsRun frag free' p k := by
  obtain ⟨hfit, hrun, hleft, hright⟩ := h
  refine ⟨hfit, fun j hj => ?_, ?_, ?_⟩
  · rw [← heq _ (by omega)]
    exact hrun j hj
  · refine hleft.imp_right fun hclear => ?_
    rw [← heq _ (by omega)]
    exact hclear
  · by_cases hend : p + k = frag
    · exact .inl hend
    · right
      rw [← heq _ (by omega)]
      exact hright.resolve_left hend

namespace Geometry

variable (g : Geometry)

/-- The `s`-th block of a byte has the pattern where the block has a run. -/
theorem patternAt_byteBlk_iff (a : Bytes) (byte : ℕ) {s : ℕ} (hs : s < 8 / g.frag) {k p : ℕ}
    (hk : 1 ≤ k) (hp : p + k ≤ g.frag) :
    patternAt (byteBlk g.frag (a byte).toNat s) k p = true ↔
      IsRun g.frag (g.blockFree a (byte * (8 / g.frag) + s)) p k := by
  have hle := g.frag_le
  have hblock : (byte * (8 / g.frag) + s) * g.frag = byte * 8 + s * g.frag := by
    rw [Nat.add_mul, Nat.mul_assoc, Nat.div_mul_cancel g.frag_dvd_eight]
  have hsame : ∀ j < g.frag, (byteBlk g.frag (a byte).toNat s).testBit j =
      g.blockFree a (byte * (8 / g.frag) + s) j := by
    intro j hj
    rw [g.testBit_byteBlk a byte hs hj, blockFree, hblock]
  rw [patternAt_iff (g.byteBlk_lt _ _) (by omega) hp]
  exact ⟨fun h => h.congr hsame hk, fun h => h.congr (fun j hj => (hsame j hj).symm) hk⟩

/-- `blkmap` has the pattern where the block has a run. -/
theorem patternAt_blkmap_iff (a : Bytes) (h : ℕ) {k p : ℕ} (hk : 1 ≤ k) (hp : p + k ≤ g.frag) :
    patternAt (g.blkmap a (h * g.frag)) k p = true ↔ IsRun g.frag (g.blockFree a h) p k := by
  have hpos : 0 < 8 / g.frag := Nat.div_pos g.frag_le g.frag_pos
  have hs : h % (8 / g.frag) < 8 / g.frag := Nat.mod_lt _ hpos
  have hsplit : h / (8 / g.frag) * (8 / g.frag) + h % (8 / g.frag) = h := by
    rw [Nat.mul_comm]
    exact Nat.div_add_mod _ _
  have hiff := g.patternAt_byteBlk_iff a (h / (8 / g.frag)) hs hk hp
  rw [← g.blkmap_eq_byteBlk a _ hs, hsplit] at hiff
  rw [← hiff, show h / (8 / g.frag) * 8 + h % (8 / g.frag) * g.frag = h * g.frag by
    conv_rhs => rw [← hsplit, Nat.add_mul, Nat.mul_assoc, Nat.div_mul_cancel g.frag_dvd_eight]]

/-- The sift through `n` blocks finds a run if one of them has one. -/
theorem sift_spec (a : Bytes) {k : ℕ} (hk : 1 ≤ k) (hle : k ≤ g.frag) {n h : ℕ}
    (hex : ∃ h' p, h ≤ h' ∧ h' < h + n ∧ IsRun g.frag (g.blockFree a h') p k) :
    ∃ h' p, IsRun g.frag (g.blockFree a h') p k ∧ sift g a k n (h * g.frag) = h' * g.frag + p := by
  induction n generalizing h with
  | zero =>
    obtain ⟨h', p, hlo, hhi, -⟩ := hex
    omega
  | succ n ih =>
    have hpos := siftPos_eq (g.blkmap a (h * g.frag)) k (g.frag - k + 1) 0
    rw [Nat.shiftLeft_zero, Nat.shiftLeft_zero] at hpos
    rw [sift, hpos]
    cases hfind :
      (List.range' 0 (g.frag - k + 1)).find? (patternAt (g.blkmap a (h * g.frag)) k) with
    | some p =>
      have hmem := List.mem_of_find?_eq_some hfind
      rw [List.mem_range'_1] at hmem
      have hpat := List.find?_some hfind
      exact ⟨h, p, (g.patternAt_blkmap_iff a h hk (by omega)).mp hpat, rfl⟩
    | none =>
      simp only
      rw [show h * g.frag + g.frag = (h + 1) * g.frag by ring]
      refine ih ?_
      obtain ⟨h', p, hlo, hhi, hrun⟩ := hex
      refine ⟨h', p, ?_, by omega, hrun⟩
      by_contra hlt
      have heq : h' = h := by omega
      subst heq
      have hfit := hrun.1
      have hpat := (g.patternAt_blkmap_iff a h' hk hfit).mpr hrun
      rw [List.find?_eq_none] at hfind
      exact hfind p (List.mem_range'_1.mpr (by omega)) hpat

/-- The table has the bit for a byte if one of its blocks has a run of `k` fragments. -/
theorem fragtbl_iff_isRun (a : Bytes) (byte : ℕ) {k : ℕ} (hk : 1 ≤ k) (hle : k ≤ g.frag) :
    fragtbl g.frag (a byte).toNat &&& fragbit g.frag k ≠ 0 ↔
      ∃ h p, h / (8 / g.frag) = byte ∧ IsRun g.frag (g.blockFree a h) p k := by
  have hpos : 0 < 8 / g.frag := Nat.div_pos g.frag_le g.frag_pos
  rw [fragtbl_iff (mem_fragSizes g) (a byte).isLt hk hle, anyPattern]
  simp only [List.any_eq_true, List.mem_range]
  constructor
  · intro ⟨s, hs, p, hp, hpat⟩
    refine ⟨byte * (8 / g.frag) + s, p, ?_, ?_⟩
    · rw [Nat.mul_comm, Nat.mul_add_div hpos, Nat.div_eq_of_lt hs, Nat.add_zero]
    · exact (g.patternAt_byteBlk_iff a byte hs hk (by omega)).mp hpat
  · intro ⟨h, p, hbyte, hrun⟩
    have hs : h % (8 / g.frag) < 8 / g.frag := Nat.mod_lt _ hpos
    have hsplit : byte * (8 / g.frag) + h % (8 / g.frag) = h := by
      rw [← hbyte, Nat.mul_comm]
      exact Nat.div_add_mod _ _
    have hfit := hrun.1
    refine ⟨h % (8 / g.frag), hs, p, by omega, ?_⟩
    rw [g.patternAt_byteBlk_iff a byte hs hk hfit, hsplit]
    exact hrun

end Geometry

/-! ### The scans -/

/-- `scanc` stops at the first byte with the bit. -/
theorem scanc_spec (table : ℕ → ℕ) (mask : ℕ) (a : Bytes) (len first : ℕ) :
    (scanc table mask a len first = 0 ∧
      ∀ i < len, table (a (first + i)).toNat &&& mask = 0) ∨
    ∃ i < len, scanc table mask a len first = len - i ∧
      table (a (first + i)).toNat &&& mask ≠ 0 := by
  induction len generalizing first with
  | zero => exact .inl ⟨rfl, fun i hi => by omega⟩
  | succ len ih =>
    rw [scanc]
    by_cases hzero : table (a first).toNat &&& mask = 0
    · rw [if_pos hzero]
      cases ih (first + 1) with
      | inl hnone =>
        refine .inl ⟨hnone.1, fun i hi => ?_⟩
        cases i with
        | zero => exact hzero
        | succ i =>
          rw [show first + (i + 1) = first + 1 + i by omega]
          exact hnone.2 i (by omega)
      | inr hsome =>
        obtain ⟨i, hi, hloc, hbit⟩ := hsome
        refine .inr ⟨i + 1, by omega, by omega, ?_⟩
        rw [show first + (i + 1) = first + 1 + i by omega]
        exact hbit
    · rw [if_neg hzero]
      exact .inr ⟨0, by omega, by omega, hzero⟩

section MapLoop

variable (fs : Fs) (a : Bytes)

/-- The byte has the bit of the table for runs of `k` fragments. -/
def Fs.HasBit (k byte : ℕ) : Prop :=
  fragtbl fs.frag (a byte).toNat &&& fragbit fs.frag k ≠ 0

/-- One scan without a log: it ends at a byte with the bit, or goes on to the second scan. -/
theorem mapLoop_scan (cfrag start k fuel first last : ℕ) (second : Bool) (frotor : ℕ)
    (hlt : first < last) :
    (∃ byte, first ≤ byte ∧ byte < last ∧ fs.HasBit a k byte ∧
      mapLoop fs (fun _ => false) a cfrag start k (fuel + 1) first last second frotor =
        (byte * 8, some (sift fs.geom a k (8 / fs.frag) (byte * 8)))) ∨
    ((∀ byte, first ≤ byte → byte < last → ¬fs.HasBit a k byte) ∧
      mapLoop fs (fun _ => false) a cfrag start k (fuel + 1) first last second frotor =
        if second then (frotor, none)
        else mapLoop fs (fun _ => false) a cfrag start k fuel 0 (start + 1) true frotor) := by
  rw [mapLoop, if_pos hlt]
  cases scanc_spec (fragtbl fs.frag) (1 <<< (k - 1 + fs.frag % 8)) a (last - first) first with
  | inl hnone =>
    right
    refine ⟨fun byte hlo hhi hbit => ?_, ?_⟩
    · have hzero := hnone.2 (byte - first) (by omega)
      rw [show first + (byte - first) = byte by omega] at hzero
      exact hbit hzero
    · simp only [hnone.1, ne_eq, not_true_eq_false, if_false]
  | inr hsome =>
    obtain ⟨i, hi, hloc, hbit⟩ := hsome
    left
    refine ⟨first + i, by omega, by omega, hbit, ?_⟩
    have hne : last - first - i ≠ 0 := by omega
    simp only [hloc, hne, ne_eq, not_false_eq_true, if_true, Bool.not_false,
      show last - (last - first - i) = first + i by omega]

/-- The two scans find a byte with the bit if there is one below `last`. -/
theorem mapLoop_spec (cfrag start k fuel last frotor : ℕ) (hlt : start < last) :
    (∃ byte < last, fs.HasBit a k byte ∧
      mapLoop fs (fun _ => false) a cfrag start k (fuel + 2) start last false frotor =
        (byte * 8, some (sift fs.geom a k (8 / fs.frag) (byte * 8)))) ∨
    ((∀ byte < last, ¬fs.HasBit a k byte) ∧
      mapLoop fs (fun _ => false) a cfrag start k (fuel + 2) start last false frotor =
        (frotor, none)) := by
  cases mapLoop_scan fs a cfrag start k (fuel + 1) start last false frotor hlt with
  | inl hfound =>
    obtain ⟨byte, -, hhi, hbit, heq⟩ := hfound
    exact .inl ⟨byte, hhi, hbit, heq⟩
  | inr hnone =>
    obtain ⟨htop, heq⟩ := hnone
    rw [heq]
    simp only [Bool.false_eq_true, if_false]
    cases mapLoop_scan fs a cfrag start k fuel 0 (start + 1) true frotor (by omega) with
    | inl hfound =>
      obtain ⟨byte, -, hhi, hbit, heq'⟩ := hfound
      exact .inl ⟨byte, by omega, hbit, heq'⟩
    | inr hbottom =>
      refine .inr ⟨fun byte hbyte => ?_, by rw [hbottom.2, if_pos rfl]⟩
      by_cases hle : start ≤ byte
      · exact htop byte hle hbyte
      · exact hbottom.1 byte (Nat.zero_le _) (by omega)

end MapLoop

/-- `mapsearch` without a log: it finds a maximal run of `k` fragments, or there is none. -/
theorem mapsearch_spec (fs : Fs) (cgp : Cg) (bpref : ℕ) {k : ℕ} (hk : 1 ≤ k) (hle : k ≤ fs.frag)
    (hfpg : 0 < fs.fpg) (hfrotor : cgp.frotor < fs.fpg) :
    (∃ frotor h p, frotor < fs.fpg ∧ IsRun fs.frag (fs.geom.blockFree cgp.blksfree h) p k ∧
      mapsearch fs (fun _ => false) cgp bpref k =
        ({ cgp with frotor := frotor }, some (h * fs.frag + p))) ∨
    ((∀ h p, h * fs.frag < fs.fpg →
        ¬IsRun fs.frag (fs.geom.blockFree cgp.blksfree h) p k) ∧
      mapsearch fs (fun _ => false) cgp bpref k = (cgp, none)) := by
  have hlast : ∀ i, i / 8 < howmany fs.fpg 8 ↔ i / 8 * 8 < fs.fpg := fun i =>
    lt_howmany_iff (by decide)
  set start := if bpref ≠ 0 then fs.dtogd bpref / 8 else cgp.frotor / 8 with hstart
  have hlt : start < howmany fs.fpg 8 := by
    rw [hstart]
    split_ifs
    · rw [hlast]
      have hmod : fs.dtogd bpref < fs.fpg := Nat.mod_lt _ hfpg
      omega
    · rw [hlast]
      omega
  have hmap : mapsearch fs (fun _ => false) cgp bpref k =
      ({ cgp with frotor := (mapLoop fs (fun _ => false) cgp.blksfree (cgp.cgx * fs.fpg) start k
          (howmany fs.fpg 8 + start + 1 + 2) start (howmany fs.fpg 8) false cgp.frotor).1 },
        (mapLoop fs (fun _ => false) cgp.blksfree (cgp.cgx * fs.fpg) start k
          (howmany fs.fpg 8 + start + 1 + 2) start (howmany fs.fpg 8) false cgp.frotor).2) := rfl
  rw [hmap]
  cases mapLoop_spec fs cgp.blksfree (cgp.cgx * fs.fpg) start k (howmany fs.fpg 8 + start + 1)
      (howmany fs.fpg 8) cgp.frotor hlt with
  | inl hfound =>
    obtain ⟨byte, hbyte, hbit, heq⟩ := hfound
    obtain ⟨h0, p0, hdiv, hrun0⟩ :=
      (fs.geom.fragtbl_iff_isRun cgp.blksfree byte hk hle).mp hbit
    have hblocks : 0 < 8 / fs.frag := Nat.div_pos fs.geom.frag_le fs.geom.frag_pos
    have hin : byte * (8 / fs.frag) ≤ h0 ∧ h0 < byte * (8 / fs.frag) + 8 / fs.frag := by
      rw [Nat.div_eq_iff hblocks] at hdiv
      omega
    obtain ⟨h, p, hrun, hsift⟩ := fs.geom.sift_spec cgp.blksfree hk hle
      ⟨h0, p0, hin.1, hin.2, hrun0⟩
    rw [Nat.mul_assoc, Nat.div_mul_cancel fs.geom.frag_dvd_eight] at hsift
    rw [lt_howmany_iff (by decide)] at hbyte
    left
    exact ⟨byte * 8, h, p, hbyte, hrun, by rw [heq, hsift]⟩
  | inr hnone =>
    right
    refine ⟨fun h p hin hrun => ?_, by rw [hnone.2]⟩
    refine hnone.1 (h / (8 / fs.frag)) ?_
      ((fs.geom.fragtbl_iff_isRun cgp.blksfree _ hk hle).mpr ⟨h, p, rfl, hrun⟩)
    rw [lt_howmany_iff (by decide)]
    have hdiv : h / (8 / fs.frag) * (8 / fs.frag) ≤ h := Nat.div_mul_le_self _ _
    have hmul := Nat.mul_le_mul_right fs.frag hdiv
    rw [Nat.mul_assoc, Nat.div_mul_cancel fs.geom.frag_dvd_eight] at hmul
    exact lt_of_le_of_lt hmul hin

end Sol26.Ufs
