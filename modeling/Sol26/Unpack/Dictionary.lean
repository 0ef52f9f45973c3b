import Sol26.Lib.Buffered

/-!
# Unpacking

Model of `getdict` and `decode` from `cmd/unpack/unpack.c`, with what `expand` shares with them. The
process is a new one, so that its tables are zero. Reads of the packed file fill the buffer as far
as the file goes, and the writes succeed.
-/
namespace Sol26.Unpack

open Function (update update_of_ne update_self)
open Buffered

/-! ### The dictionary -/

structure Dict where
  origsize : BitVec 32
  maxlev : ℕ
  intnodes : ℕ → ℕ
  tree : ℕ → Option ℕ
  characters : ℕ → BitVec 8
  eof : ℕ

/-- The static variables of a new process. -/
def Dict.new : Dict where
  origsize := 0
  maxlev := 0
  intnodes _ := 0
  tree _ := none
  characters _ := 0
  eof := 0

/-- `intnodes[i] = *inp++ & 0377` for the levels from `i` on. -/
def readCounts : ℕ → ℕ → Input → Dict → Run (Input × Dict)
  | 0, _, s, d => .ok (s, d)
  | n + 1, i, s, d => do
    let (c, s) ← s.next
    if i < 25 then readCounts n (i + 1) s { d with intnodes := update d.intnodes i c.toNat }
    else .fault

/-- The characters of a level. -/
def readLeaves : ℕ → Input → Dict → Run (Input × Dict)
  | 0, s, d => .ok (s, d)
  | c + 1, s, d =>
    if 255 ≤ d.eof then .goof
    else do
      let (x, s) ← s.next
      readLeaves c s { d with characters := update d.characters d.eof x, eof := d.eof + 1 }

/-- The characters of the levels from `i` on. -/
def readLevels : ℕ → ℕ → Input → Dict → Run (Input × Dict)
  | 0, _, s, d => .ok (s, d)
  | n + 1, i, s, d =>
    if i < 25 then do
      let (s, d) ← readLeaves (d.intnodes i) s { d with tree := update d.tree i (some d.eof) }
      readLevels n (i + 1) s d
    else .fault

/-- The numbers of leaves turned into numbers of internal nodes, from a level upwards. -/
def convert : ℕ → ℕ → (ℕ → ℕ) → ℕ → ℕ
  | 0, _, f => f
  | i + 1, nchildren, f => convert i (nchildren / 2 + f (i + 1)) (update f (i + 1) (nchildren / 2))

/-- The last character, whose place is known, and the conversion. -/
def finish (s : Input) (d : Dict) : Run (Input × Dict) := do
  let (x, s) ← s.next
  if d.eof < 256 then
    let s := { s with inleft := s.inleft - s.inp }
    if s.inleft < 0 then .goof
    else
      let intnodes := update d.intnodes d.maxlev (d.intnodes d.maxlev + 2)
      .ok (s, { d with
        characters := update d.characters d.eof x
        eof := d.eof + 1
        intnodes := convert d.maxlev 0 intnodes })
  else .fault

/-- The dictionary, from the size of the file on. -/
def readDict (s : Input) : Run (Input × Dict) :=
  let origsize := s.inbuff 2 ++ s.inbuff 3 ++ s.inbuff 4 ++ s.inbuff 5
  let maxlev := (s.inbuff 6).toNat
  let d := { Dict.new with origsize := origsize, maxlev := maxlev }
  if 24 < maxlev then .goof
  else do
    let (s, d) ← readCounts maxlev 1 { s with inp := 7 } d
    let (s, d) ← readLevels maxlev 1 s d
    finish s d

/-! ### Decoding -/

/-- What is in the buffer, up to `outp`, and what has been written before. -/
structure Output where
  outbuff : List (BitVec 8)
  written : List (BitVec 8)

/-- `*outp++ = c`, and the write of a full buffer. -/
def Output.put (o : Output) (c : BitVec 8) : Output :=
  let outbuff := o.outbuff ++ [c]
  if outbuff.length = bufsiz then { outbuff := [], written := o.written ++ outbuff }
  else { o with outbuff := outbuff }

/-- The file after the last write. -/
def Output.all (o : Output) : List (BitVec 8) := o.written ++ o.outbuff

/-- The variables of `decode`: the place in the tree and the output. -/
structure Out extends Output where
  lev : ℕ
  i : ℕ

/-- The value of `decode` and of `expand`, and the file they leave. -/
abbrev Result := Bool × List (BitVec 8)

/-- A bit of the text; the file is at its end when the leaf is the last one. -/
def decodeBit (d : Dict) (bit : Bool) (o : Out) : Run (Out ⊕ Result) :=
  let i := 2 * o.i + bit.toNat
  if o.lev < 25 then
    if d.intnodes o.lev ≤ i then
      match d.tree o.lev with
      | none => .fault
      | some leaves =>
        let p := leaves + (i - d.intnodes o.lev)
        if p = d.eof then
          .ok (.inr (BitVec.ofNat 32 o.all.length = d.origsize, o.all))
        else if p < 256 ∧ o.outbuff.length < bufsiz then
          .ok (.inl { o.put (d.characters p) with lev := 1, i := 0 })
        else .fault
    else .ok (.inl { o with lev := o.lev + 1, i := i })
  else .fault

/-- The bits of a byte from the left. -/
def decodeByte (d : Dict) (c : BitVec 8) : ℕ → Out → Run (Out ⊕ Result)
  | 0, o => .ok (.inl o)
  | bitsleft + 1, o => do
    match ← decodeBit d (c.getLsbD bitsleft) o with
    | .inl o => decodeByte d c bitsleft o
    | .inr done => .ok (.inr done)

def decode (d : Dict) : ℕ → Input → Out → Run Result
  | 0, _, _ => .fault
  | fuel + 1, s, o =>
    let s := if s.inleft ≤ 0 then s.read else s
    if s.inleft - 1 < 0 then .goof
    else do
      let (c, s) ← { s with inleft := s.inleft - 1 : Input }.next
      match ← decodeByte d c 8 o with
      | .inl o => decode d fuel s o
      | .inr done => .ok done

/-! ### Reading the dictionary is safe -/

variable {s : Input} {d : Dict}

theorem readCounts_meets (n i : ℕ) (hi : i + n ≤ 25) (hs : s.inp + n ≤ bufsiz) :
    (readCounts n i s d).Meets fun r => r.1.inp = s.inp + n ∧ r.1.inleft = s.inleft ∧
      r.1.infile = s.infile ∧ r.2.eof = d.eof ∧ r.2.maxlev = d.maxlev := by
  induction n generalizing i s d with
  | zero => exact ⟨rfl, rfl, rfl, rfl, rfl⟩
  | succ n ih =>
    rw [readCounts, Input.next_eq (by omega), Run.ok_bind]
    dsimp only
    rw [if_pos (by omega)]
    refine (ih (i + 1) (by omega) (by dsimp only; omega)).mono ?_
    intro r hr
    dsimp only at hr
    exact ⟨by omega, hr.2⟩

theorem readLeaves_meets (c : ℕ) (heof : d.eof ≤ 255) (hs : s.inp + (255 - d.eof) < bufsiz) :
    (readLeaves c s d).Meets fun r => r.1.inp = s.inp + c ∧ r.1.inleft = s.inleft ∧
      r.1.infile = s.infile ∧ r.2.eof = d.eof + c ∧ r.2.eof ≤ 255 ∧ r.2.maxlev = d.maxlev ∧
      r.2.intnodes = d.intnodes ∧ r.2.tree = d.tree := by
  induction c generalizing s d with
  | zero => exact ⟨rfl, rfl, rfl, rfl, heof, rfl, rfl, rfl⟩
  | succ c ih =>
    rw [readLeaves]
    by_cases hfull : 255 ≤ d.eof
    · rw [if_pos hfull]
      trivial
    · rw [if_neg hfull, Input.next_eq (by omega), Run.ok_bind]
      refine (ih (by dsimp only; omega) (by dsimp only; omega)).mono ?_
      intro r hr
      dsimp only at hr
      exact ⟨by omega, hr.2.1, hr.2.2.1, by omega, hr.2.2.2.2⟩

/-- After the levels from `i` on have been read, the characters of each are inside those read. -/
theorem readLevels_meets (n i : ℕ) (hi : i + n ≤ 25) (heof : d.eof ≤ 255)
    (hs : s.inp + (255 - d.eof) < bufsiz) :
    (readLevels n i s d).Meets fun r => r.1.inp + (255 - r.2.eof) < bufsiz ∧
      r.1.inleft = s.inleft ∧ r.1.infile = s.infile ∧ d.eof ≤ r.2.eof ∧ r.2.eof ≤ 255 ∧
      r.2.maxlev = d.maxlev ∧ r.2.intnodes = d.intnodes ∧ (n = 0 → r.2.eof = d.eof) ∧
      (∀ l, l < i → r.2.tree l = d.tree l) ∧
      ∀ l, i ≤ l → l < i + n → ∃ leaves, r.2.tree l = some leaves ∧
        leaves + d.intnodes l ≤ r.2.eof ∧ (l + 1 = i + n → leaves + d.intnodes l = r.2.eof) ∧
        (l = i → leaves = d.eof) := by
  induction n generalizing i s d with
  | zero =>
    exact ⟨hs, rfl, rfl, le_rfl, heof, rfl, rfl, fun _ => rfl, fun _ _ => rfl,
      fun l _ _ => by omega⟩
  | succ n ih =>
    rw [readLevels, if_pos (by omega)]
    refine Run.Meets.bind (readLeaves_meets (d.intnodes i) heof hs) ?_
    rintro ⟨s1, d1⟩ ⟨hinp, hleft, hfile, heof1, hle, hmax, hint, htree⟩
    dsimp only at hinp hleft hfile heof1 hle hmax hint htree ⊢
    refine (ih (i + 1) (by omega) hle (by omega)).mono ?_
    rintro ⟨s2, d2⟩ ⟨hinp2, hleft2, hfile2, hge, hle2, hmax2, hint2, hnone, hbefore, hlevels⟩
    dsimp only at hinp2 hleft2 hfile2 hge hle2 hmax2 hint2 hnone hbefore hlevels ⊢
    refine ⟨hinp2, hleft2.trans hleft, hfile2.trans hfile, by omega, hle2, hmax2.trans hmax,
      hint2.trans hint, fun h => absurd h n.succ_ne_zero, ?_, ?_⟩
    · intro l hl
      rw [hbefore l (by omega), htree, update_of_ne (by omega)]
    · intro l hil hl
      by_cases heq : l = i
      · refine ⟨d.eof, ?_, ?_, ?_, fun _ => rfl⟩
        · rw [hbefore l (by omega), htree, heq, update_self]
        · rw [heq]
          omega
        · intro hlast
          rw [hnone (by omega), heof1, heq]
      · obtain ⟨leaves, h1, h₂, h3, -⟩ := hlevels l (by omega) (by omega)
        rw [hint] at h₂ h3
        exact ⟨leaves, h1, h₂, fun hlast => h3 (by omega), fun h => absurd h heq⟩

/-! ### The tables -/

/-- The conversion leaves at each level no more nodes than there are parents for on the level above,
counting two children for each. -/
theorem convert_spec (i nchildren : ℕ) (f : ℕ → ℕ) :
    (∀ l, i < l → convert i nchildren f l = f l) ∧
      (0 < i → convert i nchildren f i = nchildren / 2) ∧
      ∀ l, 2 ≤ l → l ≤ i →
        2 * convert i nchildren f (l - 1) ≤ convert i nchildren f l + f l := by
  induction i generalizing nchildren f with
  | zero => exact ⟨fun _ _ => rfl, fun h => absurd h (lt_irrefl 0), fun l _ _ => by omega⟩
  | succ i ih =>
    obtain ⟨habove, htop, hlevels⟩ :=
      ih (nchildren / 2 + f (i + 1)) (update f (i + 1) (nchildren / 2))
    have hhere : convert (i + 1) nchildren f (i + 1) = nchildren / 2 := by
      rw [convert, habove (i + 1) (by omega), update_self]
    refine ⟨?_, fun _ => hhere, ?_⟩
    · intro l hl
      rw [convert, habove l (by omega), update_of_ne (by omega)]
    · intro l h2 hl
      by_cases heq : l = i + 1
      · rw [heq, hhere, Nat.add_sub_cancel, convert, htop (by omega)]
        omega
      · have h := hlevels l h2 (by omega)
        rw [update_of_ne (by omega)] at h
        exact h

/-- What the tables have to satisfy for every text to be decoded inside of them. -/
structure Dict.Sound (d : Dict) : Prop where
  maxlev_pos : 0 < d.maxlev
  maxlev_le : d.maxlev ≤ 24
  eof_le : d.eof ≤ 256
  first : d.tree 1 = some 0
  last : d.intnodes d.maxlev = 0
  level : ∀ l, 2 ≤ l → l ≤ d.maxlev → ∃ leaves, d.tree l = some leaves ∧
    leaves + 2 * d.intnodes (l - 1) ≤ d.intnodes l + d.eof + 1

theorem readDict_meets (hmax : s.inbuff 6 ≠ 0) :
    (readDict s).Meets fun r => r.2.Sound ∧ r.1.infile = s.infile ∧
      0 ≤ r.1.inleft ∧ r.1.inp + r.1.inleft = s.inleft := by
  unfold readDict
  dsimp only
  have hpos : 0 < (s.inbuff 6).toNat := by
    rw [Nat.pos_iff_ne_zero]
    intro hzero
    exact hmax (BitVec.eq_of_toNat_eq hzero)
  by_cases hlarge : 24 < (s.inbuff 6).toNat
  · rw [if_pos hlarge]
    trivial
  rw [if_neg hlarge]
  refine Run.Meets.bind (readCounts_meets _ 1 (by omega) (by unfold bufsiz; dsimp only; omega)) ?_
  rintro ⟨s1, d1⟩ ⟨hinp1, hleft1, hfile1, heof1, hmax1⟩
  dsimp only [Dict.new] at hinp1 hleft1 hfile1 heof1 hmax1 ⊢
  refine Run.Meets.bind (readLevels_meets _ 1 (by omega) (by omega)
    (by unfold bufsiz; omega)) ?_
  rintro ⟨s2, d2⟩ ⟨hinp2, hleft2, hfile2, -, hle2, hmax2, hint2, -, -, hlevels⟩
  dsimp only at hinp2 hleft2 hfile2 hle2 hmax2 hint2 hlevels ⊢
  unfold finish
  rw [Input.next_eq (by omega), Run.ok_bind]
  dsimp only
  rw [if_pos (by omega)]
  by_cases hshort : s2.inleft - ((s2.inp + 1 : ℕ) : ℤ) < 0
  · rw [if_pos hshort]
    trivial
  rw [if_neg hshort]
  have hmaxlev : d2.maxlev = (s.inbuff 6).toNat := hmax2.trans hmax1
  obtain ⟨-, htop, hconv⟩ := convert_spec d2.maxlev 0
    (update d2.intnodes d2.maxlev (d2.intnodes d2.maxlev + 2))
  refine ⟨⟨by dsimp only; omega, by dsimp only; omega, by dsimp only; omega, ?_, ?_, ?_⟩,
    hfile2.trans hfile1, by dsimp only; omega, by dsimp only; omega⟩
  · obtain ⟨leaves, htree, -, -, hfirst⟩ := hlevels 1 le_rfl (by omega)
    rw [htree, hfirst rfl, heof1]
  · exact htop (by omega)
  · intro l h2 hl
    dsimp only at hl ⊢
    obtain ⟨leaves, htree, hin, hlast, -⟩ := hlevels l (by omega) (by omega)
    refine ⟨leaves, htree, ?_⟩
    have hl' := hconv l h2 hl
    rw [← hint2] at hin hlast
    by_cases heq : l = d2.maxlev
    · have hend := hlast (by omega)
      rw [heq, update_self, ← heq] at hl'
      rw [heq] at hl' hend ⊢
      omega
    · rw [update_of_ne heq] at hl'
      omega

/-! ### Decoding is safe -/

variable {o : Out}

/-- The place in the tree is an internal node, and there is room for a byte. -/
structure Out.Inside (o : Out) (d : Dict) : Prop where
  room : o.outbuff.length < bufsiz
  lev_pos : 0 < o.lev
  lev_le : o.lev ≤ d.maxlev
  first : o.lev = 1 → o.i = 0
  node : 1 < o.lev → o.i < d.intnodes (o.lev - 1)

theorem Output.put_room (o : Output) (c : BitVec 8) (h : o.outbuff.length < bufsiz) :
    (o.put c).outbuff.length < bufsiz := by
  unfold Output.put
  dsimp only
  split_ifs with hfull
  · exact Nat.zero_lt_of_lt h
  · simp only [List.length_append, List.length_singleton] at hfull ⊢
    omega

/-- A leaf is not behind the end of the characters. -/
theorem Dict.Sound.leaf (hd : d.Sound) (ho : o.Inside d) (bit : Bool)
    (hi : d.intnodes o.lev ≤ 2 * o.i + bit.toNat) :
    ∃ leaves, d.tree o.lev = some leaves ∧
      (leaves + (2 * o.i + bit.toNat - d.intnodes o.lev) = d.eof ∨
        leaves + (2 * o.i + bit.toNat - d.intnodes o.lev) < 256) := by
  have hbit := bit.toNat_le
  have hpos := ho.lev_pos
  by_cases hfirst : o.lev = 1
  · have hzero := ho.first hfirst
    refine ⟨0, hfirst ▸ hd.first, .inr ?_⟩
    omega
  · obtain ⟨leaves, htree, hle⟩ := hd.level o.lev (by omega) ho.lev_le
    have hnode := ho.node (by omega)
    have heof := hd.eof_le
    refine ⟨leaves, htree, ?_⟩
    omega

theorem decodeBit_meets (hd : d.Sound) (ho : o.Inside d) (bit : Bool) :
    (decodeBit d bit o).Meets fun r => ∀ o', r = .inl o' → o'.Inside d := by
  unfold decodeBit
  dsimp only
  have hlev := ho.lev_le
  have hmax := hd.maxlev_le
  rw [if_pos (by omega)]
  by_cases hi : d.intnodes o.lev ≤ 2 * o.i + bit.toNat
  · rw [if_pos hi]
    obtain ⟨leaves, htree, hp⟩ := hd.leaf ho bit hi
    rw [htree]
    dsimp only
    by_cases heof : leaves + (2 * o.i + bit.toNat - d.intnodes o.lev) = d.eof
    · rw [if_pos heof]
      intro o' ho'
      cases ho'
    · rw [if_neg heof, if_pos ⟨hp.resolve_left heof, ho.room⟩]
      intro o' ho'
      cases ho'
      exact ⟨o.put_room _ ho.room, one_pos, hd.maxlev_pos, fun _ => rfl,
        fun h => absurd h (lt_irrefl 1)⟩
  · rw [if_neg hi]
    intro o' ho'
    cases ho'
    -- the last level has no internal nodes
    have hne : o.lev ≠ d.maxlev := by
      intro heq
      rw [heq, hd.last] at hi
      omega
    have hpos := ho.lev_pos
    exact ⟨ho.room, by dsimp only; omega, by dsimp only; omega, fun h => by dsimp only at h; omega,
      fun _ => by simpa using hi⟩

theorem decodeByte_meets (hd : d.Sound) (c : BitVec 8) (n : ℕ) (ho : o.Inside d) :
    (decodeByte d c n o).Meets fun r => ∀ o', r = .inl o' → o'.Inside d := by
  induction n generalizing o with
  | zero =>
    intro o' ho'
    cases ho'
    exact ho
  | succ n ih =>
    rw [decodeByte]
    refine (decodeBit_meets hd ho _).bind ?_
    rintro (o1 | done) ho1
    · exact ih (ho1 o1 rfl)
    · intro o' ho'
      cases ho'

theorem decode_meets (hd : d.Sound) (fuel : ℕ) (hs : s.Inside) (hfuel : s.rest < fuel)
    (ho : o.Inside d) : (decode d fuel s o).Meets fun _ => True := by
  induction fuel generalizing s o with
  | zero => omega
  | succ fuel ih =>
    rw [decode]
    dsimp only
    obtain ⟨hin, hrest⟩ := hs.refill
    set s1 := if s.inleft ≤ 0 then s.read else s
    by_cases hend : s1.inleft - 1 < 0
    · rw [if_pos hend]
      trivial
    obtain ⟨s2, hnext, hin2, hrest2⟩ := hin.take (by omega)
    rw [if_neg hend, hnext, Run.ok_bind]
    refine (decodeByte_meets hd _ 8 ho).bind ?_
    rintro (o1 | done) ho1
    · exact ih hin2 (by dsimp only; omega) (ho1 o1 rfl)
    · trivial

end Sol26.Unpack
