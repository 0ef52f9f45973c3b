import Sol26.Pack.Tree

/-!
# Packing a file

Model of the second half of `packfile` and of `output`, with the option that forces output. The
levels of the characters are counted before they are compared with the greatest one allowed, so a
tree of more levels is a fault and not an error.
-/
namespace Sol26.Pack

open Function (update update_idem update_of_ne update_self)
open List (range range')
open Buffered

/-- The number of links from a node to the root. -/
def links (parent : ℕ → ℕ) : ℕ → ℕ → Run ℕ
  | 0, _ => .fault
  | fuel + 1, p =>
    if p = 0 then .ok 0
    else if p < 513 then do
      let c ← links parent fuel (parent p)
      .ok (c + 1)
    else .fault

structure Levels where
  levcount : ℕ → ℕ
  length : ℕ → ℕ
  maxlev : ℕ

/-- The levels of the `n` characters from `i` on. -/
def setLevels (parent : ℕ → ℕ) : ℕ → ℕ → Levels → Run Levels
  | 0, _, l => .ok l
  | n + 1, i, l => do
    let c ← links parent 513 (parent i)
    if c < 25 then
      setLevels parent n (i + 1)
        { levcount := update l.levcount c (l.levcount c + 1)
          length := update l.length i c
          maxlev := max l.maxlev c }
    else .fault

/-- The bit patterns of the characters of a level. -/
def assign (length : ℕ → ℕ) (i : ℕ) (inc : BitVec 32) (r : (ℕ → BitVec 32) × BitVec 32) :
    (ℕ → BitVec 32) × BitVec 32 :=
  (range (endChar + 1)).foldl
    (fun r c => if length c = i then (update r.1 c r.2, r.2 + inc) else r) r

/-- The bit patterns of the levels from `i` on upwards. -/
def assignAll (length : ℕ → ℕ) : ℕ → BitVec 32 → (ℕ → BitVec 32) × BitVec 32 → ℕ → BitVec 32
  | 0, _, r => r.1
  | i + 1, inc, r =>
    let r := assign length (i + 1) inc r
    assignAll length i (inc <<< 1) (r.1, r.2 &&& ~~~inc)

/-- The magic number, the size, the levels and the characters of each level. -/
def dictionary (l : Levels) (insize : ℕ) : List ℕ :=
  [0x1f, 0x1e, insize / 2 ^ 24, insize / 2 ^ 16, insize / 2 ^ 8, insize, l.maxlev] ++
    (range' 1 (l.maxlev - 1)).map l.levcount ++ [l.levcount l.maxlev - 2] ++
    (range' 1 l.maxlev).flatMap fun i => (range endChar).filter fun c => l.length c = i

/-- `outbuff`, the place in it and the bits left there, and what has been written. -/
structure Sink where
  outbuff : ℕ → BitVec 8
  outp : ℕ
  bitsleft : ℤ
  written : List (BitVec 8)

/-- `outbuff` has so many bytes. -/
def outsize : ℕ := bufsiz + 4

def maskByte (mask : BitVec 32) (q : ℕ) : BitVec 8 := (mask >>> (24 - 8 * q)).setWidth 8

/-- The bytes of a pattern behind the first one; `left` of its four bytes are left. -/
def spill (mask : BitVec 32) : ℕ → Sink → Run Sink
  | 0, k => if k.bitsleft < 0 then .fault else .ok k
  | left + 1, k =>
    if k.bitsleft < 0 then
      if k.outp + 1 < outsize then
        spill mask left { k with
          outp := k.outp + 1
          outbuff := update k.outbuff (k.outp + 1) (maskByte mask (3 - left))
          bitsleft := k.bitsleft + 8 }
      else .fault
    else .ok k

/-- A full buffer is written, and the four bytes behind it are moved to its start. -/
def Sink.flush (k : Sink) : Sink :=
  if bufsiz ≤ k.outp then
    { k with
      written := k.written ++ (range bufsiz).map k.outbuff
      outbuff := fun i => if i < 4 then k.outbuff (bufsiz + i) else k.outbuff i
      outp := k.outp - bufsiz }
  else k

/-- The pattern of a character. -/
def putCode (bits : ℕ → BitVec 32) (length : ℕ → ℕ) (c : ℕ) (k : Sink) : Run Sink :=
  if c ≤ endChar ∧ k.outp < outsize then do
    let mask := bits c <<< k.bitsleft.toNat
    let first := if k.bitsleft = 8 then maskByte mask 0 else k.outbuff k.outp ||| maskByte mask 0
    let k ← spill mask 3 { k with
      outbuff := update k.outbuff k.outp first
      bitsleft := k.bitsleft - length c }
    .ok k.flush
  else .fault

/-- The characters of the file, and the one behind the last. -/
def putText (bits : ℕ → BitVec 32) (length : ℕ → ℕ) : ℕ → Input → Sink → Run Sink
  | 0, _, _ => .fault
  | fuel + 1, s, k =>
    let s := if s.inleft ≤ 0 then s.read else s
    if s.inleft - 1 < 0 then putCode bits length endChar k
    else do
      let (c, s) ← { s with inleft := s.inleft - 1 : Input }.next
      let k ← putCode bits length c.toNat k
      putText bits length fuel s k

def output (file : List (BitVec 8)) (l : Levels) : Run (List (BitVec 8)) :=
  let dict := dictionary l file.length
  if dict.length ≤ outsize then do
    let bits := assignAll l.length l.maxlev (BitVec.ofNat 32 (2 ^ 24) >>> l.maxlev) (fun _ => 0, 0)
    let k ← putText bits l.length (file.length + 1)
      { infile := file, inbuff := fun _ => 0, inp := 0, inleft := 0 }
      { outbuff := fun i => BitVec.ofNat 8 (dict.getD i 0)
        outp := dict.length
        bitsleft := 8
        written := [] }
    let outp := if k.bitsleft < 8 then k.outp + 1 else k.outp
    if outp ≤ outsize then .ok (k.written ++ (range outp).map k.outbuff) else .fault
  else .fault

def packfile (file : List (BitVec 8)) : Run (List (BitVec 8)) := do
  let parent ← buildTree (counts file)
  let l ← setLevels parent (endChar + 1) 0
    { levcount := fun _ => 0, length := fun _ => 0, maxlev := 0 }
  if 24 < l.maxlev then .goof else output file l

/-! ### The levels -/

variable {parent : ℕ → ℕ}

/-- No character is more than 24 links from the root. -/
def Shallow (parent : ℕ → ℕ) : Prop :=
  ∀ i, i ≤ endChar → ∀ c, links parent 513 (parent i) = .ok c → c ≤ 24

theorem links_yields (h : Grows parent) (fuel p : ℕ) (hp : p ≤ 512)
    (hfuel : p = 0 ∧ 0 < fuel ∨ 513 < fuel + p) : (links parent fuel p).Yields fun _ => True := by
  induction fuel generalizing p with
  | zero => omega
  | succ fuel ih =>
    rw [links]
    by_cases hzero : p = 0
    · rw [if_pos hzero]
      exact ⟨0, rfl, trivial⟩
    · have hup := h p
      rw [if_neg hzero, if_pos (by omega)]
      refine (ih (parent p) (by omega) (by omega)).bind ?_
      intro c _
      exact ⟨c + 1, rfl, trivial⟩

theorem links_parent (h : Grows parent) (i : ℕ) : ∃ c, links parent 513 (parent i) = .ok c := by
  have hle : parent i ≤ 512 := by
    have := h i
    omega
  obtain ⟨c, hc, -⟩ := links_yields h 513 (parent i) hle (by omega)
  exact ⟨c, hc⟩

theorem setLevels_yields (h : Grows parent) (hshallow : Shallow parent) (n i : ℕ)
    (hi : i + n ≤ endChar + 1) {l : Levels} (hl : ∀ c, l.length c ≤ 24) (hmax : l.maxlev ≤ 24) :
    (setLevels parent n i l).Yields fun l' => (∀ c, l'.length c ≤ 24) ∧ l'.maxlev ≤ 24 := by
  induction n generalizing i l with
  | zero => exact ⟨l, rfl, hl, hmax⟩
  | succ n ih =>
    obtain ⟨c, hc⟩ := links_parent h i
    have hle := hshallow i (by omega) c hc
    rw [setLevels, hc, Run.ok_bind, if_pos (by omega)]
    refine ih (i + 1) (by omega) ?_ (max_le hmax hle)
    intro x
    dsimp only
    by_cases hx : x = i
    · rw [hx, update_self]
      exact hle
    · rw [update_of_ne hx]
      exact hl x

/-- A character of a greater level is counted outside the table. -/
theorem setLevels_fault (h : Grows parent) (n i : ℕ) {j c : ℕ} (hij : i ≤ j) (hj : j < i + n)
    (hc : links parent 513 (parent j) = .ok c) (hdeep : 24 < c) (l : Levels) :
    setLevels parent n i l = .fault := by
  induction n generalizing i l with
  | zero => omega
  | succ n ih =>
    obtain ⟨c', hc'⟩ := links_parent h i
    rw [setLevels, hc', Run.ok_bind]
    by_cases hle : c' < 25
    · rw [if_pos hle]
      by_cases hji : j = i
      · simp [hji, hc'] at hc
        omega
      · exact ih (i + 1) (by omega) (by omega) _
    · rw [if_neg hle]

/-! ### The output -/

theorem spill_yields (mask : BitVec 32) (left : ℕ) {k : Sink} (hlow : -8 * left ≤ k.bitsleft)
    (hhigh : k.bitsleft ≤ 8) (hroom : k.outp + left < outsize) :
    (spill mask left k).Yields fun k' => 0 ≤ k'.bitsleft ∧ k'.bitsleft ≤ 8 ∧
      k'.outp ≤ k.outp + left := by
  induction left generalizing k with
  | zero =>
    rw [spill, if_neg (by omega)]
    exact ⟨k, rfl, by omega, hhigh, le_rfl⟩
  | succ left ih =>
    rw [spill]
    by_cases hneg : k.bitsleft < 0
    · rw [if_pos hneg, if_pos (by omega)]
      refine (ih (by dsimp only; omega) (by dsimp only; omega) (by dsimp only; omega)).mono ?_
      rintro k' ⟨h1, h2, h3⟩
      dsimp only at h3
      exact ⟨h1, h2, by omega⟩
    · rw [if_neg hneg]
      exact ⟨k, rfl, by omega, hhigh, by omega⟩

/-- The place is inside the buffer, and has so many bits left. -/
def Sink.Inside (k : Sink) : Prop := k.outp < bufsiz ∧ 0 ≤ k.bitsleft ∧ k.bitsleft ≤ 8

theorem putCode_yields {bits : ℕ → BitVec 32} {length : ℕ → ℕ} (hlen : ∀ c, length c ≤ 24) {c : ℕ}
    (hc : c ≤ endChar) {k : Sink} (hk : k.Inside) :
    (putCode bits length c k).Yields Sink.Inside := by
  obtain ⟨hout, hlow, hhigh⟩ := hk
  have hlength := hlen c
  unfold putCode
  rw [if_pos ⟨hc, by unfold outsize; omega⟩]
  refine (spill_yields _ 3 (by dsimp only; omega) (by dsimp only; omega)
    (by dsimp only [outsize]; omega)).bind ?_
  rintro k' ⟨h1, h2, h3⟩
  dsimp only at h3
  refine ⟨_, rfl, ?_⟩
  unfold Sink.flush
  split_ifs with hfull
  · refine ⟨?_, h1, h2⟩
    unfold bufsiz at hout hfull ⊢
    dsimp only
    omega
  · exact ⟨not_le.1 hfull, h1, h2⟩

theorem putText_yields {bits : ℕ → BitVec 32} {length : ℕ → ℕ} (hlen : ∀ c, length c ≤ 24)
    (fuel : ℕ) {s : Input} (hs : s.Inside) (hfuel : s.rest < fuel) {k : Sink} (hk : k.Inside) :
    (putText bits length fuel s k).Yields Sink.Inside := by
  induction fuel generalizing s k with
  | zero => omega
  | succ fuel ih =>
    rw [putText]
    dsimp only
    obtain ⟨hin, hrest⟩ := hs.refill
    set s1 := if s.inleft ≤ 0 then s.read else s
    by_cases hend : s1.inleft - 1 < 0
    · rw [if_pos hend]
      exact putCode_yields hlen le_rfl hk
    obtain ⟨s2, hnext, hin2, hrest2⟩ := hin.take (by omega)
    rw [if_neg hend, hnext, Run.ok_bind]
    have hbyte : (s1.inbuff s1.inp).toNat ≤ endChar := (s1.inbuff s1.inp).isLt.le
    refine (putCode_yields hlen hbyte hk).bind ?_
    intro k' hk'
    exact ih hin2 (by omega) hk'

theorem countP_levels (length : ℕ → ℕ) (m : ℕ) (l : List ℕ) :
    (l.countP fun c => 1 ≤ length c ∧ length c ≤ m + 1) =
      (l.countP fun c => 1 ≤ length c ∧ length c ≤ m) + l.countP fun c => length c = m + 1 := by
  induction l with
  | nil => rfl
  | cons c l ih =>
    simp only [List.countP_cons, ih, decide_eq_true_eq]
    split_ifs <;> omega

/-- Each character is in the list of one level at most. -/
theorem length_flatMap_levels (length : ℕ → ℕ) (m : ℕ) (l : List ℕ) :
    ((range' 1 m).flatMap fun i => l.filter fun c => length c = i).length =
      l.countP fun c => 1 ≤ length c ∧ length c ≤ m := by
  induction m with
  | zero =>
    symm
    rw [List.range'_zero, List.flatMap_nil, List.length_nil, List.countP_eq_zero]
    intro c _
    simp only [decide_eq_true_eq]
    omega
  | succ m ih =>
    rw [List.range'_1_concat, List.flatMap_append, List.length_append, ih, countP_levels,
      List.flatMap_singleton, ← List.countP_eq_length_filter, Nat.add_comm 1 m]

theorem dictionary_length (l : Levels) (insize : ℕ) (hmax : l.maxlev ≤ 24) :
    (dictionary l insize).length < bufsiz := by
  have hle : ((range endChar).countP fun c => 1 ≤ l.length c ∧ l.length c ≤ l.maxlev) ≤
      endChar := List.countP_le_length.trans_eq List.length_range
  unfold endChar at hle
  simp only [dictionary, List.length_append, length_flatMap_levels, List.length_map,
    List.length_range', List.length_cons, List.length_nil]
  unfold bufsiz endChar
  omega

theorem output_yields (file : List (BitVec 8)) {l : Levels} (hlen : ∀ c, l.length c ≤ 24)
    (hmax : l.maxlev ≤ 24) : (output file l).Yields fun _ => True := by
  have hdict := dictionary_length l file.length hmax
  unfold output
  dsimp only
  rw [if_pos (by unfold outsize; omega)]
  refine (putText_yields hlen (file.length + 1) ?_ ?_ ⟨hdict, by norm_num, le_rfl⟩).bind ?_
  · intro hpos
    exact absurd hpos (lt_irrefl 0)
  · simp [Input.rest]
  · rintro k ⟨hout, -, -⟩
    rw [if_pos (by unfold outsize; split_ifs <;> omega)]
    exact ⟨_, rfl, trivial⟩

/-! ### Files -/

variable {file : List (BitVec 8)}

theorem foldl_counts_pos (l : List (BitVec 8)) (count : ℕ → ℕ) (c : BitVec 8)
    (h : c ∈ l ∨ 0 < count c.toNat) :
    0 < l.foldl (fun count c => update count c.toNat (count c.toNat + 2)) count c.toNat := by
  induction l generalizing count with
  | nil => simpa using h
  | cons x l ih =>
    rw [List.foldl_cons]
    apply ih
    by_cases hx : c = x
    · right
      rw [hx, update_self]
      omega
    · rcases h with h | h
      · exact .inl ((List.mem_cons.1 h).resolve_left hx)
      · right
        by_cases hn : c.toNat = x.toNat
        · rw [hn, update_self]
          omega
        · rwa [update_of_ne hn]

theorem counts_pos {c : BitVec 8} (h : c ∈ file) : 0 < counts file c.toNat := by
  have hne : c.toNat ≠ endChar := c.isLt.ne
  rw [counts, update_of_ne hne]
  exact foldl_counts_pos file _ c (.inl h)

/-- Two characters and the end. -/
theorem three_le_countP {a b : BitVec 8} (ha : a ∈ file) (hb : b ∈ file) (hab : a ≠ b) :
    3 ≤ (range (endChar + 1)).countP fun c => 0 < counts file c := by
  have hsub : ({a.toNat, b.toNat, endChar} : Finset ℕ) ⊆
      (Finset.range (endChar + 1)).filter fun c => 0 < counts file c := by
    intro x hx
    simp only [Finset.mem_insert, Finset.mem_singleton] at hx
    rw [Finset.mem_filter, Finset.mem_range]
    rcases hx with rfl | rfl | rfl
    · exact ⟨a.isLt.trans (Nat.lt_succ_self _), counts_pos ha⟩
    · exact ⟨b.isLt.trans (Nat.lt_succ_self _), counts_pos hb⟩
    · exact ⟨Nat.lt_succ_self _, by simp [counts]⟩
  have hcard : ({a.toNat, b.toNat, endChar} : Finset ℕ).card = 3 := by
    rw [Finset.card_eq_three]
    exact ⟨_, _, _, fun h => hab (BitVec.eq_of_toNat_eq h), a.isLt.ne, b.isLt.ne, rfl⟩
  have hle := Finset.card_le_card hsub
  rw [hcard] at hle
  rw [List.countP_eq_length_filter]
  exact hle

/-- Packing stays inside the arrays, and gives up just the trees of more than 24 levels, if and only
if the tree has no more than 24 levels. -/
theorem packfile_inside_iff {a b : BitVec 8} (ha : a ∈ file) (hb : b ∈ file) (hab : a ≠ b)
    (_ : file.length < 2 ^ 30) :
    ∃ parent, buildTree (counts file) = .ok parent ∧
      ((packfile file ≠ .fault ∧ (packfile file = .goof ↔ ¬ Shallow parent)) ↔
        Shallow parent) := by
  obtain ⟨parent, hparent, hgrows⟩ := buildTree_yields (three_le_countP ha hb hab)
  refine ⟨parent, hparent, ?_⟩
  unfold packfile
  rw [hparent, Run.ok_bind]
  by_cases hshallow : Shallow parent
  · obtain ⟨l, hl, hlen, hmax⟩ := setLevels_yields hgrows hshallow (endChar + 1) 0 (by omega)
      (l := { levcount := fun _ => 0, length := fun _ => 0, maxlev := 0 }) (fun _ => by simp)
      (by simp)
    obtain ⟨out, hout, -⟩ := output_yields file hlen hmax
    rw [hl, Run.ok_bind, if_neg (by omega), hout]
    simp [hshallow]
  · have hdeep := hshallow
    unfold Shallow at hdeep
    push Not at hdeep
    obtain ⟨i, hi, c, hc, hlt⟩ := hdeep
    rw [setLevels_fault hgrows (endChar + 1) 0 (Nat.zero_le i) (by omega) hc hlt, Run.fault_bind]
    simp [hshallow]

/-- As many bytes of each value as the next Fibonacci number says. -/
def fibonacciFile (n : ℕ) : List (BitVec 8) :=
  (range n).flatMap fun k => List.replicate (Nat.fib (k + 1)) (BitVec.ofNat 8 k)

theorem foldl_replicate_counts (n : ℕ) (c : BitVec 8) (count : ℕ → ℕ) :
    (List.replicate n c).foldl (fun count c => update count c.toNat (count c.toNat + 2)) count =
      update count c.toNat (count c.toNat + 2 * n) := by
  induction n generalizing count with
  | zero => simp
  | succ n ih =>
    rw [List.replicate_succ, List.foldl_cons, ih, update_self, update_idem]
    congr 1
    omega

theorem counts_fibonacciFile (n : ℕ) : counts (fibonacciFile n) =
    update ((range n).foldl (fun count k => update count (BitVec.ofNat 8 k).toNat
      (count (BitVec.ofNat 8 k).toNat + 2 * Nat.fib (k + 1))) fun _ => 0) endChar 1 := by
  simp only [counts, fibonacciFile, List.foldl_flatMap, foldl_replicate_counts]

/-- The end is at this level of the tree. -/
def endLevel (count : ℕ → ℕ) : Run ℕ := do
  let parent ← buildTree count
  links parent 513 (parent endChar)

/-- Two bytes of which one occurs twice as often. -/
theorem packfile_inside_iff_three :
    ∃ parent, buildTree (counts [0, 1, 1]) = .ok parent ∧
      ((packfile [0, 1, 1] ≠ .fault ∧ (packfile [0, 1, 1] = .goof ↔ ¬ Shallow parent)) ↔
        Shallow parent) :=
  packfile_inside_iff (a := 0) (b := 1) (by simp) (by simp) (by decide) (by simp)

/-- A file of 196417 bytes with 25 values has a tree of 25 levels, and the count of the last one is
kept outside the table. -/
theorem fibonacciFile_leaves_levcount :
    (fibonacciFile 25).length = 196417 ∧ packfile (fibonacciFile 25) = .fault := by
  constructor
  · simp only [fibonacciFile, List.length_flatMap, List.length_replicate]
    decide +kernel
  have hmem : ∀ k < 25, BitVec.ofNat 8 k ∈ fibonacciFile 25 := by
    intro k hk
    unfold fibonacciFile
    rw [List.mem_flatMap]
    exact ⟨k, List.mem_range.2 hk, List.mem_replicate.2 ⟨(Nat.fib_pos.2 k.succ_pos).ne', rfl⟩⟩
  obtain ⟨parent, hparent, hgrows⟩ :=
    buildTree_yields (three_le_countP (hmem 0 (by norm_num)) (hmem 1 (by norm_num)) (by decide))
  have hlevel : endLevel (counts (fibonacciFile 25)) = .ok 25 := by
    rw [counts_fibonacciFile]
    decide +kernel
  unfold endLevel at hlevel
  rw [hparent, Run.ok_bind] at hlevel
  unfold packfile
  rw [hparent, Run.ok_bind, setLevels_fault hgrows (endChar + 1) 0 (Nat.zero_le endChar)
    (by omega) hlevel (by norm_num), Run.fault_bind]

end Sol26.Pack
