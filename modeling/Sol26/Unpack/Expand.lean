import Sol26.Unpack.Dictionary

/-!
# Files of the old style

Model of `getch`, `getwdsize` and `expand`, and of the choice that `getdict` makes between the two
styles. A file of the old style holds its tree as a table of offsets, which `expand` follows as they
are; at the end of the file it goes on with the bytes that are left in the buffer.
-/
namespace Sol26.Unpack

open Function (update)
open Buffered

def getch (s : Input) : Run (BitVec 8 × Input) :=
  let s := if s.inleft ≤ 0 then s.read else s
  { s with inleft := s.inleft - 1 : Input }.next

def getwdsize (s : Input) : Run (ℕ × Input) := do
  let (c, s) ← getch s
  let (d, s) ← getch s
  return (256 * d.toNat + c.toNat, s)

/-- An entry of the key: a byte, or a word behind a byte of ones. -/
def readKey (s : Input) : Run (ℕ × Input) := do
  let (i, s) ← getch s
  if i = 0xff then getwdsize s else .ok (i.toNat, s)

/-- The entries of `Tree` from `t` on. -/
def readKeys : ℕ → ℕ → Input → (ℕ → ℕ) → Run (Input × (ℕ → ℕ))
  | 0, _, s, tree => .ok (s, tree)
  | keysize + 1, t, s, tree => do
    let (v, s) ← readKey s
    if t < 1024 then readKeys keysize (t + 1) s (update tree t v) else .fault

/-- The variables of the loop of `expand`. -/
structure Walk extends Output where
  bit : ℕ
  word : BitVec 16
  tp : ℕ
  origsize : BitVec 32

/-- `if (bit <= 0)`: the next word of the file. -/
def fill (bit : ℕ) (word : BitVec 16) (s : Input) : Run (ℕ × BitVec 16 × Input) :=
  if bit = 0 then do
    let (word, s) ← getwdsize s
    return (16, BitVec.ofNat 16 word, s)
  else .ok (bit, word, s)

/-- `tp + Tree[tp + (word < 0)]`: the place that a bit leads to. -/
def child (tree : ℕ → ℕ) (tp : ℕ) (bit : Bool) : ℕ := tp + tree (tp + bit.toNat)

def Walk.move (w : Walk) (tp : ℕ) : Walk :=
  { w with tp := tp, word := w.word <<< 1, bit := w.bit - 1 }

def Walk.emit (w : Walk) (c : ℕ) : Walk :=
  { w with toOutput := w.put (BitVec.ofNat 8 c), tp := 0, origsize := w.origsize - 1 }

/-- A bit of the text: a step in the tree, and the character if it leads to a leaf. -/
def Walk.step (tree : ℕ → ℕ) (w : Walk) : Run (Walk ⊕ Result) :=
  let tp := child tree w.tp w.word.msb
  if w.tp + w.word.msb.toNat < 1024 ∧ tp < 1024 then
    let w := w.move tp
    if tree tp = 0 then
      if tp + 1 < 1024 ∧ w.outbuff.length < bufsiz then
        let w := w.emit (tree (tp + 1))
        if w.origsize = 0 then .ok (.inr (true, w.all)) else .ok (.inl w)
      else .fault
    else .ok (.inl w)
  else .fault

def walk (tree : ℕ → ℕ) : ℕ → Input → Walk → Run Result
  | 0, _, _ => .fault
  | fuel + 1, s, w => do
    let (bit, word, s) ← fill w.bit w.word s
    match ← { w with bit := bit, word := word : Walk }.step tree with
    | .inl w => walk tree fuel s w
    | .inr r => .ok r

/-- The size of the file and that of the key. -/
def readSizes (s : Input) : Run (BitVec 32 × ℕ × Input) := do
  let (high, s) ← getwdsize { s with inp := 2, inleft := s.inleft - 2 }
  let (low, s) ← getwdsize s
  let (keysize, s) ← getwdsize s
  return (BitVec.ofNat 32 (high * 65536 + low), keysize, s)

def expand (fuel : ℕ) (s : Input) : Run Result := do
  let (origsize, keysize, s) ← readSizes s
  let (s, tree) ← readKeys keysize 0 s fun _ => 0
  walk tree fuel s
    { outbuff := [], written := [], bit := 0, word := 0, tp := 0, origsize := origsize }

/-- The buffer after the first read. -/
def firstRead (file : List (BitVec 8)) : Input :=
  { infile := file, inbuff := update (fun _ => 0) 6 25, inp := 0, inleft := 0 : Input }.read

/-- `getdict`, with the loops of `decode` and `expand` run for so many steps. -/
def getdict (fuel : ℕ) (file : List (BitVec 8)) : Run Result :=
  let s := firstRead file
  if s.inbuff 0 ≠ 0x1f then .goof
  else if s.inbuff 1 = 0x1f then expand fuel s
  else if s.inbuff 1 ≠ 0x1e then .goof
  else do
    let (s, d) ← readDict s
    decode d fuel s { outbuff := [], written := [], lev := 1, i := 0 }

/-! ### Following a text -/

variable {s : Input} {tree : ℕ → ℕ} {w : Walk}

theorem getch_yields (hs : s.Inside) : (getch s).Yields fun r => r.2.Inside := by
  have hnext : ∀ s : Input, s.Inside → s.inp < bufsiz →
      (Input.next { s with inleft := s.inleft - 1 }).Yields fun r => r.2.Inside := by
    intro s hs hlt
    refine ⟨_, Input.next_eq hlt, fun hpos => ?_⟩
    have := hs (by dsimp only at hpos; omega)
    dsimp only
    push_cast
    omega
  unfold getch
  dsimp only
  split_ifs with hempty
  · exact hnext _ s.read_inside (show 0 < 1024 by norm_num)
  · have := hs (by omega)
    exact hnext _ hs (by omega)

theorem getwdsize_yields (hs : s.Inside) : (getwdsize s).Yields fun r => r.2.Inside :=
  (getch_yields hs).bind fun _ h1 => (getch_yields h1).bind fun _ h2 => ⟨_, rfl, h2⟩

theorem fill_yields (bit : ℕ) (word : BitVec 16) (hs : s.Inside) :
    (fill bit word s).Yields fun r => r.2.2.Inside := by
  unfold fill
  split_ifs
  · exact (getwdsize_yields hs).bind fun _ hr => ⟨_, rfl, hr⟩
  · exact ⟨_, rfl, hs⟩

theorem readKey_yields (hs : s.Inside) : (readKey s).Yields fun r => r.2.Inside := by
  refine (getch_yields hs).bind fun r hr => ?_
  dsimp only
  split_ifs
  · exact getwdsize_yields hr
  · exact ⟨_, rfl, hr⟩

/-- The bits of the words that the file gives, from the one that is being looked at on. -/
def text : ℕ → ℕ → BitVec 16 → Input → Bool
  | 0, bit, word, s =>
    match fill bit word s with
    | .ok (_, word, _) => word.msb
    | _ => false
  | n + 1, bit, word, s =>
    match fill bit word s with
    | .ok (bit, word, s) => text n (bit - 1) (word <<< 1) s
    | _ => false

/-- From a place the bits lead to so many leaves, and up to the last of them no offset that they
follow leads out of the table. -/
inductive Follows (tree : ℕ → ℕ) : (ℕ → Bool) → ℕ → ℕ → Prop
  | done {bits : ℕ → Bool} {tp : ℕ} : Follows tree bits tp 0
  | node {bits : ℕ → Bool} {tp n : ℕ} (here : tp + (bits 0).toNat < 1024)
      (inside : child tree tp (bits 0) < 1024) (inner : tree (child tree tp (bits 0)) ≠ 0) :
      Follows tree (fun k => bits (k + 1)) (child tree tp (bits 0)) (n + 1) →
        Follows tree bits tp (n + 1)
  | leaf {bits : ℕ → Bool} {tp n : ℕ} (here : tp + (bits 0).toNat < 1024)
      (inside : child tree tp (bits 0) + 1 < 1024) (leaf : tree (child tree tp (bits 0)) = 0) :
      Follows tree (fun k => bits (k + 1)) 0 n → Follows tree bits tp (n + 1)

@[simp] theorem move_outbuff (w : Walk) (tp : ℕ) : (w.move tp).outbuff = w.outbuff := rfl

@[simp] theorem move_origsize (w : Walk) (tp : ℕ) : (w.move tp).origsize = w.origsize := rfl

@[simp] theorem emit_origsize (w : Walk) (c : ℕ) : (w.emit c).origsize = w.origsize - 1 := rfl

/-- What a pass of the loop needs. -/
theorem walk_succ {fuel bit : ℕ} {word : BitVec 16} {s' : Input}
    (hfill : fill w.bit w.word s = .ok (bit, word, s')) (hroom : w.outbuff.length < bufsiz) :
    let w' : Walk := { w with bit := bit, word := word }
    let tp := child tree w.tp word.msb
    walk tree (fuel + 1) s w ≠ .fault ↔ w.tp + word.msb.toNat < 1024 ∧ tp < 1024 ∧
      if tree tp = 0 then tp + 1 < 1024 ∧ (w.origsize - 1 = 0 ∨
        walk tree fuel s' ((w'.move tp).emit (tree (tp + 1))) ≠ .fault)
      else walk tree fuel s' (w'.move tp) ≠ .fault := by
  dsimp only
  rw [walk, hfill, Run.ok_bind]
  unfold Walk.step
  dsimp only
  generalize child tree w.tp word.msb = tp
  by_cases hin : w.tp + word.msb.toNat < 1024 ∧ tp < 1024
  · by_cases hleaf : tree tp = 0
    · by_cases hnext : tp + 1 < 1024
      · by_cases hdone : w.origsize - 1#32 = 0#32 <;> simp [hin, hleaf, hnext, hroom, hdone]
      · simp [hin, hleaf, hnext]
    · simp [hin, hleaf]
  · rw [if_neg hin, Run.fault_bind]
    tauto

theorem fill_text (bit : ℕ) (word : BitVec 16) (hs : s.Inside) :
    ∃ bit' word' s', fill bit word s = .ok (bit', word', s') ∧ s'.Inside ∧
      text 0 bit word s = word'.msb ∧
      ∀ k, text (k + 1) bit word s = text k (bit' - 1) (word' <<< 1) s' := by
  obtain ⟨⟨bit', word', s'⟩, hfill, hs'⟩ := fill_yields bit word hs
  exact ⟨bit', word', s', hfill, hs', by rw [text, hfill], fun k => by rw [text, hfill]⟩

theorem size_sub_one {size : BitVec 32} (h : size - 1 ≠ 0) :
    (size - 1).toNat = (size - 1 - 1).toNat + 1 := by
  have hpos : (size - 1).toNat ≠ 0 := fun hz => h (BitVec.eq_of_toNat_eq hz)
  bv_omega

theorem follows_of_walk {fuel : ℕ} (hs : s.Inside) (hroom : w.outbuff.length < bufsiz)
    (h : walk tree fuel s w ≠ .fault) :
    Follows tree (fun k => text k w.bit w.word s) w.tp ((w.origsize - 1).toNat + 1) := by
  induction fuel generalizing s w with
  | zero => exact absurd rfl h
  | succ fuel ih =>
    obtain ⟨bit, word, s', hfill, hs', hbit, hbits⟩ := fill_text w.bit w.word hs
    obtain ⟨hhere, hinside, hrest⟩ := (walk_succ hfill hroom).1 h
    split_ifs at hrest with hleaf
    · refine .leaf (by rwa [hbit]) (by rw [hbit]; exact hrest.1) (by rwa [hbit]) ?_
      simp only [hbits]
      by_cases hdone : w.origsize - 1 = 0
      · rw [hdone]
        exact .done
      · rw [size_sub_one hdone]
        exact ih hs' (Output.put_room _ _ hroom) (hrest.2.resolve_left hdone)
    · refine .node (by rwa [hbit]) (by rwa [hbit]) (by rwa [hbit]) ?_
      simp only [hbits, hbit]
      exact ih hs' (by exact hroom) hrest

theorem walk_of_follows {bits : ℕ → Bool} {tp n : ℕ} (h : Follows tree bits tp n)
    (hs : s.Inside) (hroom : w.outbuff.length < bufsiz)
    (hbits : ∀ k, bits k = text k w.bit w.word s) (htp : tp = w.tp)
    (hn : n = (w.origsize - 1).toNat + 1) : ∃ fuel, walk tree fuel s w ≠ .fault := by
  induction h generalizing s w with
  | done => omega
  | @node bits tp n hhere hinside hinner _ ih =>
    obtain ⟨bit, word, s', hfill, hs', hbit, hshift⟩ := fill_text w.bit w.word hs
    rw [← hbits] at hbit
    rw [hbit, htp] at hhere hinside hinner
    obtain ⟨fuel, hfuel⟩ :=
      ih (w := Walk.move { w with bit := bit, word := word } (child tree w.tp word.msb)) hs' hroom
        (fun k => (hbits _).trans (hshift k)) (by rw [hbit, htp]; rfl) hn
    exact ⟨fuel + 1, (walk_succ hfill hroom).2 ⟨hhere, hinside, by rwa [if_neg hinner]⟩⟩
  | @leaf bits tp n hhere hinside hleaf _ ih =>
    obtain ⟨bit, word, s', hfill, hs', hbit, hshift⟩ := fill_text w.bit w.word hs
    rw [← hbits] at hbit
    rw [hbit, htp] at hhere hinside hleaf
    by_cases hdone : w.origsize - 1 = 0
    · refine ⟨1, (walk_succ hfill hroom).2 ⟨hhere, by omega, ?_⟩⟩
      rw [if_pos hleaf]
      exact ⟨hinside, .inl hdone⟩
    · obtain ⟨fuel, hfuel⟩ := ih
        (w := Walk.emit (Walk.move { w with bit := bit, word := word } (child tree w.tp word.msb))
          (tree (child tree w.tp word.msb + 1))) hs' (Output.put_room _ _ hroom)
        (fun k => (hbits _).trans (hshift k)) rfl
        (Nat.succ_inj.1 (hn.trans (congrArg (· + 1) (size_sub_one hdone))))
      refine ⟨fuel + 1, (walk_succ hfill hroom).2 ⟨hhere, by omega, ?_⟩⟩
      rw [if_pos hleaf]
      exact ⟨hinside, .inr hfuel⟩

/-! ### All files -/

/-- For some number of steps the run comes to an end without a fault. -/
def Safe (file : List (BitVec 8)) : Prop := ∃ fuel, getdict fuel file ≠ .fault

/-- The file is packed in the old style. -/
def OldStyle (file : List (BitVec 8)) : Prop := file[0]? = some 0x1f ∧ file[1]? = some 0x1f

/-- The file is packed in the new style. -/
def NewStyle (file : List (BitVec 8)) : Prop := file[0]? = some 0x1f ∧ file[1]? = some 0x1e

variable {file : List (BitVec 8)}

theorem firstRead_inside (file : List (BitVec 8)) : (firstRead file).Inside :=
  Input.read_inside _

/-- A byte of the first block, unless it is what was in the buffer before. -/
theorem firstRead_inbuff {k : ℕ} (hk : k < 1024) {x : BitVec 8}
    (hx : update (fun _ => (0 : BitVec 8)) 6 25 k ≠ x) :
    (firstRead file).inbuff k = x ↔ file[k]? = some x := by
  have htake : (file.take bufsiz)[k]? = file[k]? := List.getElem?_take_of_lt hk
  simp only [firstRead, Input.read, List.getD_eq_getElem?_getD, htake]
  cases file[k]? with
  | none => simpa using hx
  | some y => simp

theorem getdict_newStyle (hnew : NewStyle file) (fuel : ℕ) :
    getdict fuel file = (readDict (firstRead file)).bind fun r =>
      decode r.2 fuel r.1 { outbuff := [], written := [], lev := 1, i := 0 } := by
  have h0 := (firstRead_inbuff (k := 0) (by norm_num) (by decide)).2 hnew.1
  have h1 := (firstRead_inbuff (k := 1) (by norm_num) (by decide)).2 hnew.2
  unfold getdict
  dsimp only
  rw [if_neg (not_not.2 h0), if_neg (by rw [h1]; decide), if_neg (not_not.2 h1)]
  rfl

/-- A dictionary with a level is followed by any text. -/
theorem newStyle_safe (hnew : NewStyle file) (hlevels : file[6]? ≠ some 0) : Safe file := by
  have h6 : (firstRead file).inbuff 6 ≠ 0 := fun h =>
    hlevels ((firstRead_inbuff (by norm_num) (by decide)).1 h)
  refine ⟨file.length + 1, Run.meets_true.1 ?_⟩
  rw [getdict_newStyle hnew]
  refine (readDict_meets h6).bind ?_
  rintro ⟨s, d⟩ ⟨hd, hfile, hleft, hinp⟩
  dsimp only at hd hfile hleft hinp ⊢
  have hcount : (firstRead file).inleft = ((file.take bufsiz).length : ℤ) := rfl
  have hrest : (firstRead file).infile = file.drop bufsiz := rfl
  have hlen : (file.take bufsiz).length + (file.drop bufsiz).length = file.length := by
    rw [← List.length_append, List.take_append_drop]
  have hle : (file.take bufsiz).length ≤ bufsiz := List.length_take_le _ _
  refine decode_meets hd _ ?_ ?_
    ⟨by decide, one_pos, hd.maxlev_pos, fun _ => rfl, fun h => absurd h (lt_irrefl 1)⟩
  · intro _
    omega
  · unfold Input.rest
    rw [hfile, hrest]
    omega

/-- A dictionary without levels: the first bit is looked up in a tree that is not there. -/
theorem noLevels_safe_iff (hnew : NewStyle file) (hlevels : file[6]? = some 0) :
    Safe file ↔ file.length < 9 := by
  have h6 : (firstRead file).inbuff 6 = 0 := (firstRead_inbuff (by norm_num) (by decide)).2 hlevels
  have hcount : (firstRead file).inleft = ((file.take bufsiz).length : ℤ) := rfl
  have hrest : (firstRead file).infile = file.drop bufsiz := rfl
  have hread : readDict (firstRead file) =
      if (firstRead file).inleft - 8 < 0 then .goof
      else .ok ({ firstRead file with inp := 8, inleft := (firstRead file).inleft - 8 },
        { Dict.new with
          origsize := (firstRead file).inbuff 2 ++ (firstRead file).inbuff 3 ++
            (firstRead file).inbuff 4 ++ (firstRead file).inbuff 5
          intnodes := update (fun _ => 0) 0 2
          characters := update (fun _ => 0) 0 ((firstRead file).inbuff 7)
          eof := 1 }) := by
    simp [readDict, h6, readCounts, readLevels, finish, Input.next, bufsiz, Dict.new, convert]
  rw [List.length_take] at hcount
  by_cases hshort : file.length < 9
  · simp only [hshort, iff_true]
    refine ⟨1, ?_⟩
    rw [getdict_newStyle hnew, hread]
    have hnil : file.drop bufsiz = [] := List.drop_eq_nil_of_le (by unfold bufsiz; omega)
    split_ifs with hneg
    · simp [Run.bind]
    · have hzero : (firstRead file).inleft - 8 = 0 := by omega
      simp [Run.bind, decode, hzero, Input.read, hrest, hnil]
  · simp only [hshort, iff_false, Safe, not_exists, not_not]
    intro fuel
    rw [getdict_newStyle hnew, hread, if_neg (by unfold bufsiz at hcount; omega)]
    cases fuel with
    | zero => rfl
    | succ fuel =>
      have hpos : ¬ (firstRead file).inleft - 8 ≤ 0 := by
        unfold bufsiz at hcount
        omega
      have hpos' : ¬ (firstRead file).inleft - 8 - 1 < 0 := by omega
      simp [Run.bind, decode, hpos, hpos', Input.next, bufsiz, decodeByte, decodeBit, Dict.new]

theorem readKeys_yields (n t : ℕ) (ht : t + n ≤ 1024) (hs : s.Inside) :
    (readKeys n t s tree).Yields fun r => r.1.Inside := by
  induction n generalizing t s tree with
  | zero => exact ⟨_, rfl, hs⟩
  | succ n ih =>
    refine (readKey_yields hs).bind fun r hr => ?_
    dsimp only
    rw [if_pos (by omega)]
    exact ih (t + 1) (by omega) hr

/-- A key that is too long is written behind the table. -/
theorem readKeys_fault (n t : ℕ) (ht : t ≤ 1024) (hn : 1024 < t + n) (hs : s.Inside) :
    readKeys n t s tree = .fault := by
  induction n generalizing t s tree with
  | zero => omega
  | succ n ih =>
    obtain ⟨r, hr, hin⟩ := readKey_yields hs
    rw [readKeys, hr, Run.ok_bind]
    dsimp only
    split_ifs with hlt
    · exact ih (t + 1) (by omega) (by omega) hin
    · rfl

theorem readSizes_yields (hs : s.Inside) : (readSizes s).Yields fun r => r.2.2.Inside := by
  have hstart : Input.Inside { s with inp := 2, inleft := s.inleft - 2 } := by
    intro hpos
    have := hs (by dsimp only at hpos; omega)
    dsimp only
    push_cast
    omega
  exact (getwdsize_yields hstart).bind fun _ h1 => (getwdsize_yields h1).bind fun _ h2 =>
    (getwdsize_yields h2).bind fun _ h3 => ⟨_, rfl, h3⟩

/-- The key of a file of the old style has room in the table, and the text behind it leads to as many
leaves as the file had bytes, where a size of zero stands for the least one that wraps to it. -/
def KeyFollowed (file : List (BitVec 8)) : Prop :=
  ∃ origsize keysize s s' tree, readSizes (firstRead file) = .ok (origsize, keysize, s) ∧
    keysize ≤ 1024 ∧ readKeys keysize 0 s (fun _ => 0) = .ok (s', tree) ∧
    Follows tree (fun k => text k 0 0 s') 0 ((origsize - 1).toNat + 1)

theorem oldStyle_safe_iff (hold : OldStyle file) : Safe file ↔ KeyFollowed file := by
  have h0 := (firstRead_inbuff (k := 0) (by norm_num) (by decide)).2 hold.1
  have h1 := (firstRead_inbuff (k := 1) (by norm_num) (by decide)).2 hold.2
  have hexpand : ∀ fuel, getdict fuel file = expand fuel (firstRead file) := by
    intro fuel
    unfold getdict
    dsimp only
    rw [if_neg (not_not.2 h0), if_pos h1]
  obtain ⟨⟨origsize, keysize, s⟩, hsizes, hs⟩ := readSizes_yields (firstRead_inside file)
  simp only [Safe, hexpand, expand, hsizes, Run.ok_bind]
  by_cases hlong : 1024 < keysize
  · simp only [readKeys_fault keysize 0 (by norm_num) (by omega) hs, Run.fault_bind, ne_eq,
      not_true_eq_false, exists_false, false_iff]
    rintro ⟨_, _, _, _, _, h, hle, -⟩
    simp [hsizes] at h
    omega
  obtain ⟨⟨s', tree⟩, hkeys, hs'⟩ : (readKeys keysize 0 s fun _ => 0).Yields _ :=
    readKeys_yields keysize 0 (by omega) hs
  simp only [hkeys, Run.ok_bind]
  have hroom : ([] : List (BitVec 8)).length < bufsiz := show 0 < 1024 by norm_num
  constructor
  · rintro ⟨fuel, hfuel⟩
    exact ⟨origsize, keysize, s, s', tree, hsizes, by omega, hkeys, follows_of_walk hs' hroom hfuel⟩
  · rintro ⟨_, _, _, _, _, h, -, h', hfollows⟩
    rw [hsizes] at h
    cases h
    rw [hkeys] at h'
    cases h'
    exact walk_of_follows hfollows hs' hroom (fun _ => rfl) rfl rfl

/-- A file of the old style is unpacked safely just if its key has room in the table and its text
follows no offset out of it. Any other file is just if it has a level in its dictionary, or no text
behind the dictionary. -/
theorem unpack_safe (file : List (BitVec 8)) :
    (OldStyle file → (Safe file ↔ KeyFollowed file)) ∧
      (¬ OldStyle file →
        (Safe file ↔ ¬ (NewStyle file ∧ file[6]? = some 0 ∧ 9 ≤ file.length))) := by
  refine ⟨oldStyle_safe_iff, ?_⟩
  intro hold
  by_cases hnew : NewStyle file
  · by_cases hlevels : file[6]? = some 0
    · rw [noLevels_safe_iff hnew hlevels]
      simp [hnew, hlevels]
    · exact iff_of_true (newStyle_safe hnew hlevels) fun h => hlevels h.2.1
  · simp only [hnew, false_and, not_false_eq_true, iff_true]
    have hsafe : getdict 0 file = .goof := by
      unfold getdict
      dsimp only
      by_cases h0 : (firstRead file).inbuff 0 = 0x1f
      · have hfile := (firstRead_inbuff (by norm_num) (by decide)).1 h0
        have h1 : (firstRead file).inbuff 1 ≠ 0x1f := fun h =>
          hold ⟨hfile, (firstRead_inbuff (by norm_num) (by decide)).1 h⟩
        have h2 : (firstRead file).inbuff 1 ≠ 0x1e := fun h =>
          hnew ⟨hfile, (firstRead_inbuff (by norm_num) (by decide)).1 h⟩
        rw [if_neg (not_not.2 h0), if_neg h1, if_pos h2]
      · rw [if_pos h0]
    exact ⟨0, by simp [hsafe]⟩

/-- A letter in the new style, and one in the old style, where the offset of the other bit leads out
of the table. -/
def letterNew : List (BitVec 8) := [0x1f, 0x1e, 0, 0, 0, 1, 1, 0, 0x61, 0x40]

def letterOld : List (BitVec 8) :=
  [0x1f, 0x1f, 0, 0, 1, 0, 4, 0, 2, 0xff, 0xff, 0xff, 0, 0x61, 0, 0]

theorem unpack_safe_letter : Safe letterNew ∧ Safe letterOld := by
  refine ⟨((unpack_safe letterNew).2 ?_).2 ?_, ((unpack_safe letterOld).1 ?_).2 ?_⟩
  · simp [OldStyle, letterNew]
  · simp [letterNew]
  · simp [OldStyle, letterOld]
  · exact ⟨1, 4, _, _, _, rfl, by norm_num, rfl, .leaf (by decide) (by decide) (by decide) .done⟩

/-- A dictionary without levels and one byte of text, and an offset that leads out of the table. -/
theorem unpack_leaves_arrays :
    ¬ Safe [0x1f, 0x1e, 0, 0, 0, 0, 0, 0, 0] ∧
      ¬ Safe [0x1f, 0x1f, 0, 0, 1, 0, 1, 0, 0xff, 0xff, 0xff, 0, 0] := by
  constructor
  all_goals
    rintro ⟨fuel, hsafe⟩
    cases fuel <;> exact hsafe rfl

end Sol26.Unpack
