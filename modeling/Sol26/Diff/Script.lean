import Mathlib.Tactic

/-!
# The script of an edit

Model of the `D_EDIT` branch of `output` from `cmd/diff/diff.c` with `change`, `range` and `fetch`,
of `check`, and of an editor that executes the numbered commands `a`, `c` and `d`. The vector `J` is
what the passes before have left: for each line of the first file the line of the second one that it
is matched with, or zero. Lines are counted from one.
-/
namespace Sol26.Diff

open Function (update update_of_ne update_self)
open List (append_nil foldl_append foldl_cons length_append length_cons length_nil length_take_of_le)
open Char (isDigit)
open Nat (add_sub_cancel count toDigits)
open scoped List

abbrev Line := List Char

/-- `.` -/
def period : Line := ['.']

/-! ### Writing the script -/

/-- `range` -/
def range (a b : ℕ) (separator : Line) : Line :=
  toDigits 10 (if b < a then b else a) ++
    if a < b then separator ++ toDigits 10 b else []

/-- The lines `a` to `b` of a file. -/
def fetch (file : List Line) (a b : ℕ) : List Line := (file.drop (a - 1)).take (b + 1 - a)

/-- The lines `a` to `b` become the lines `c` to `d` of the new file. -/
def change (file2 : List Line) (a b c d : ℕ) : List Line :=
  if b < a ∧ d < c then []
  else
    (range a b [','] ++ [if b < a then 'a' else if d < c then 'd' else 'c']) ::
      (fetch file2 c d ++ if c ≤ d then [period] else [])

/-- `while (i0 >= 1 && J[i0] == J[i0+1] - 1 && J[i0] != 0)` -/
def skipMatched (J : ℕ → ℕ) : ℕ → ℕ
  | 0 => 0
  | i + 1 => if J (i + 1) = J (i + 2) - 1 ∧ J (i + 1) ≠ 0 then skipMatched J i else i + 1

/-- `while (i1 > 1 && J[i1-1] == 0)` -/
def skipDeleted (J : ℕ → ℕ) : ℕ → ℕ
  | 0 => 0
  | 1 => 1
  | i + 2 => if J (i + 1) = 0 then skipDeleted J (i + 1) else i + 2

/-- The loop from the end of the file backwards. -/
def editLoop (file2 : List Line) : ℕ → ℕ → (ℕ → ℕ) → Option (List Line)
  | 0, _, _ => none
  | fuel + 1, i, J =>
    if i = 0 then some []
    else do
      let i0 := skipMatched J i
      let j0 := J (i0 + 1) - 1
      let i1 := skipDeleted J (i0 + 1)
      let j1 := J (i1 - 1) + 1
      let rest ← editLoop file2 fuel (i1 - 1) (update J i1 j1)
      return change file2 i1 i0 j1 j0 ++ rest

/-- The output for `-e`. -/
def outputEdit (fuel : ℕ) (file1 file2 : List Line) (J : ℕ → ℕ) : Option (List Line) := do
  let m := file1.length
  let script ← editLoop file2 fuel m (update (update J 0 0) (m + 1) (file2.length + 1))
  return script ++ if m = 0 then change file2 1 0 1 file2.length else []

/-! ### The editor -/

structure Command where
  first : ℕ
  last : ℕ
  letter : Char

/-- A number, or two with a comma between them, and a letter. -/
def readCommand (line : Line) : Option Command :=
  let a := Nat.ofDigitChars 10 (line.takeWhile isDigit) 0
  if line.takeWhile isDigit = [] then none
  else
    match line.dropWhile isDigit with
    | [letter] => some ⟨a, a, letter⟩
    | ',' :: more =>
      match more.dropWhile isDigit with
      | [letter] => some ⟨a, Nat.ofDigitChars 10 (more.takeWhile isDigit) 0, letter⟩
      | _ => none
    | _ => none

/-- The buffer, and the line behind which text is put while it is being read. -/
structure Ed where
  buffer : List Line
  input : Option ℕ

/-- A line of the script. What is no command, or has no such lines, is passed over. -/
def Ed.feed (e : Ed) (line : Line) : Ed :=
  match e.input with
  | some n =>
    if line = period then { e with input := none }
    else { buffer := e.buffer.take n ++ line :: e.buffer.drop n, input := some (n + 1) }
  | none =>
    match readCommand line with
    | none => e
    | some ⟨a, b, letter⟩ =>
      if letter = 'a' then if b ≤ e.buffer.length then { e with input := some b } else e
      else if 1 ≤ a ∧ a ≤ b ∧ b ≤ e.buffer.length then
        let buffer := e.buffer.take (a - 1) ++ e.buffer.drop b
        if letter = 'c' then { buffer := buffer, input := some (a - 1) }
        else if letter = 'd' then { buffer := buffer, input := none }
        else e
      else e

def edit (script file : List Line) : List Line :=
  (script.foldl Ed.feed { buffer := file, input := none }).buffer

/-! ### Commands are read back -/

theorem takeWhile_toDigits (n : ℕ) {c : Char} (hc : c.isDigit = false) (rest : Line) :
    (toDigits 10 n ++ c :: rest).takeWhile isDigit = toDigits 10 n ∧
      (toDigits 10 n ++ c :: rest).dropWhile isDigit = c :: rest := by
  have hdigit : ∀ x ∈ toDigits 10 n, x.isDigit = true := fun x hx =>
    Nat.isDigit_of_mem_toDigits (by norm_num) le_rfl hx
  constructor
  · rw [List.takeWhile_append_of_pos hdigit, List.takeWhile_cons_of_neg (by simp [hc]),
      append_nil]
  · rw [List.dropWhile_append_of_pos hdigit, List.dropWhile_cons_of_neg (by simp [hc])]

theorem readCommand_one (n : ℕ) {c : Char} (hc : c.isDigit = false) :
    readCommand (toDigits 10 n ++ [c]) = some ⟨n, n, c⟩ := by
  obtain ⟨htake, hdrop⟩ := takeWhile_toDigits n hc []
  simp only [readCommand, htake, hdrop, Nat.toDigits_ne_nil, if_false,
    Nat.ofDigitChars_ten_toDigits]

theorem readCommand_two (a b : ℕ) {c : Char} (hc : c.isDigit = false) :
    readCommand (toDigits 10 a ++ ',' :: (toDigits 10 b ++ [c])) = some ⟨a, b, c⟩ := by
  obtain ⟨htake, hdrop⟩ :=
    takeWhile_toDigits a (c := ',') (by decide) (toDigits 10 b ++ [c])
  obtain ⟨htake', hdrop'⟩ := takeWhile_toDigits b hc []
  have hne : toDigits 10 b ++ [c] ≠ [] := by simp
  simp only [readCommand, htake, hdrop, htake', hdrop', Nat.toDigits_ne_nil, if_false,
    Nat.ofDigitChars_ten_toDigits]

/-- What the editor reads from the head of a change. -/
theorem readCommand_range (a b : ℕ) {c : Char} (hc : c.isDigit = false) :
    readCommand (range a b [','] ++ [c]) = some ⟨min a b, b, c⟩ := by
  unfold range
  by_cases hlt : a < b
  · rw [if_neg (by omega), if_pos hlt, min_eq_left hlt.le]
    simpa using readCommand_two a b hc
  · rw [if_neg hlt, append_nil, min_eq_right (by omega)]
    by_cases hgt : b < a
    · rw [if_pos hgt]
      exact readCommand_one b hc
    · rw [if_neg hgt, show a = b by omega]
      exact readCommand_one b hc

/-! ### A change is carried out -/

variable {file1 file2 buffer : List Line} {J : ℕ → ℕ} {i : ℕ}

/-- Text without a period is put behind a line. -/
theorem feed_text (text : List Line) (ht : period ∉ text) {n : ℕ} (hn : n ≤ buffer.length) :
    text.foldl Ed.feed ⟨buffer, some n⟩ =
      ⟨buffer.take n ++ text ++ buffer.drop n, some (n + text.length)⟩ := by
  induction text generalizing buffer n with
  | nil => simp
  | cons line text ih =>
    have hline : line ≠ period := fun h => ht (h ▸ List.mem_cons_self)
    have hlen : (buffer.take n).length = n := length_take_of_le hn
    have hstep : Ed.feed ⟨buffer, some n⟩ line =
        ⟨buffer.take n ++ line :: buffer.drop n, some (n + 1)⟩ := by
      simp [Ed.feed, hline]
    rw [foldl_cons, hstep, ih (fun h => ht (List.mem_cons_of_mem _ h)) (by simp; omega)]
    have htake : (buffer.take n ++ line :: buffer.drop n).take (n + 1) =
        buffer.take n ++ [line] := by
      rw [List.take_append, hlen, Nat.add_sub_cancel_left, List.take_of_length_le (by omega)]
      rfl
    have hdrop : (buffer.take n ++ line :: buffer.drop n).drop (n + 1) = buffer.drop n := by
      rw [List.drop_append, hlen, Nat.add_sub_cancel_left, List.drop_of_length_le (by omega)]
      rfl
    rw [htake, hdrop]
    simp [Nat.add_assoc, Nat.add_comm 1]

theorem feed_change {a b c d : ℕ} (hfetch : period ∉ fetch file2 c d) (ha : 1 ≤ a)
    (hab : a ≤ b + 1) (hb : b ≤ buffer.length) (hcd : c ≤ d + 1) :
    (change file2 a b c d).foldl Ed.feed ⟨buffer, none⟩ =
      ⟨buffer.take (a - 1) ++ fetch file2 c d ++ buffer.drop b, none⟩ := by
  have hnone : d < c → fetch file2 c d = [] := by
    intro h
    simp [fetch, show d + 1 - c = 0 by omega]
  unfold change
  by_cases hempty : b < a ∧ d < c
  · rw [if_pos hempty, hnone hempty.2, show a - 1 = b by omega]
    simp
  rw [if_neg hempty, foldl_cons, foldl_append]
  by_cases hins : b < a
  · have hcd' : c ≤ d := by omega
    have hstep : Ed.feed ⟨buffer, none⟩ (range a b [','] ++ ['a']) = ⟨buffer, some b⟩ := by
      simp [Ed.feed, readCommand_range a b (show isDigit 'a' = false by decide), hb]
    rw [if_pos hins, hstep, feed_text _ hfetch hb, if_pos hcd', show a - 1 = b by omega]
    simp [Ed.feed]
  rw [if_neg hins]
  have hvalid : 1 ≤ a ∧ a ≤ b ∧ b ≤ buffer.length := ⟨ha, by omega, hb⟩
  by_cases hdel : d < c
  · have hstep : Ed.feed ⟨buffer, none⟩ (range a b [','] ++ ['d']) =
        ⟨buffer.take (a - 1) ++ buffer.drop b, none⟩ := by
      simp [Ed.feed, readCommand_range a b (show isDigit 'd' = false by decide), hvalid]
    rw [if_pos hdel, hstep, hnone hdel, if_neg (by omega)]
    simp
  · have hstep : Ed.feed ⟨buffer, none⟩ (range a b [','] ++ ['c']) =
        ⟨buffer.take (a - 1) ++ buffer.drop b, some (a - 1)⟩ := by
      simp [Ed.feed, readCommand_range a b (show isDigit 'c' = false by decide), hvalid]
    have hlen : (buffer.take (a - 1)).length = a - 1 := length_take_of_le (by omega)
    rw [if_neg hdel, hstep, feed_text _ hfetch (by simp; omega), if_pos (by omega)]
    simp [Ed.feed, hlen]

/-! ### What the editor can hold -/

/-- Lines of the first file in their order, and at most `n` others. -/
def Ed.Made (file1 : List Line) (n : ℕ) (e : Ed) : Prop :=
  ∃ kept, kept <+ file1 ∧ kept <+ e.buffer ∧ e.buffer.length ≤ kept.length + n

theorem made_delete {n a b : ℕ} {x y : Option ℕ} (h : Ed.Made file1 n ⟨buffer, x⟩) (hab : a ≤ b) :
    Ed.Made file1 n ⟨buffer.take a ++ buffer.drop b, y⟩ := by
  obtain ⟨kept, hfile, hkept, hlen⟩ := h
  have hsplit : buffer = buffer.take a ++ ((buffer.take b).drop a ++ buffer.drop b) := by
    rw [← List.append_assoc, List.drop_take, ← List.take_add, Nat.add_sub_cancel' hab,
      List.take_append_drop]
  dsimp only at hkept hlen
  rw [hsplit] at hkept hlen
  obtain ⟨k1, k23, rfl, h1, h23⟩ := List.sublist_append_iff.1 hkept
  obtain ⟨k2, k3, rfl, h2, h3⟩ := List.sublist_append_iff.1 h23
  refine ⟨k1 ++ k3, ?_, h1.append h3, ?_⟩
  · exact ((List.sublist_append_right k2 k3).append_left k1).trans hfile
  · have := h2.length_le
    simp only [length_append] at hlen ⊢
    omega

theorem made_insert {n k : ℕ} {x y : Option ℕ} (h : Ed.Made file1 n ⟨buffer, x⟩) (line : Line) :
    Ed.Made file1 (n + 1) ⟨buffer.take k ++ line :: buffer.drop k, y⟩ := by
  obtain ⟨kept, hfile, hkept, hlen⟩ := h
  have hsub : buffer <+ buffer.take k ++ line :: buffer.drop k := by
    conv_lhs => rw [← List.take_append_drop k buffer]
    exact (List.sublist_cons_self ..).append_left _
  refine ⟨kept, hfile, hkept.trans hsub, ?_⟩
  dsimp only at hlen
  simp only [length_append, length_cons, List.length_take, List.length_drop]
  omega

/-- Only a line of text that is no period is put in. -/
theorem Ed.Made.feed {e : Ed} {n : ℕ} (h : e.Made file1 n) (line : Line) :
    (e.feed line).Made file1 (if e.input = none ∨ line = period then n else n + 1) := by
  obtain ⟨buffer, input⟩ := e
  cases input with
  | some k =>
    simp only [Ed.feed]
    by_cases hline : line = period
    · simp only [hline, or_true, if_true]
      exact h
    · simpa [hline] using made_insert h line
  | none =>
    simp only [Ed.feed, true_or, if_true]
    cases readCommand line with
    | none => exact h
    | some c =>
      dsimp only
      split_ifs
      any_goals exact h
      all_goals exact made_delete h (by omega)

/-- The lines of a text that are no period. -/
def lasting (text : List Line) : ℕ := text.countP (· ≠ period)

theorem Ed.Made.feed_text (text : List Line) {e : Ed} {n : ℕ} (h : e.Made file1 n) :
    (text.foldl Ed.feed e).Made file1 (n + lasting text) := by
  induction text generalizing e n with
  | nil => exact h
  | cons line text ih =>
    obtain ⟨kept, hfile, hkept, hlen⟩ := ih (h.feed line)
    refine ⟨kept, hfile, hkept, hlen.trans ?_⟩
    simp only [lasting, List.countP_cons, decide_eq_true_eq]
    by_cases hline : line = period
    · simp [hline]
    · simp only [hline, or_false]
      split_ifs <;> omega

/-- A change leaves the editor waiting for a command, whatever its text has made it do. -/
theorem Ed.Made.change {a b c d n : ℕ} {e : Ed} (h : e.Made file1 n) (he : e.input = none) :
    ((change file2 a b c d).foldl Ed.feed e).Made file1 (n + lasting (fetch file2 c d)) ∧
      ((change file2 a b c d).foldl Ed.feed e).input = none := by
  unfold Diff.change
  by_cases hempty : b < a ∧ d < c
  · rw [if_pos hempty]
    have hnone : fetch file2 c d = [] := by simp [fetch, show d + 1 - c = 0 by omega]
    rw [hnone]
    exact ⟨h, he⟩
  rw [if_neg hempty, foldl_cons, foldl_append]
  set head := range a b [','] ++ [if b < a then 'a' else if d < c then 'd' else 'c'] with hhead
  have hfirst : (e.feed head).Made file1 n := by
    have := h.feed head
    rwa [if_pos (.inl he)] at this
  have htext := hfirst.feed_text (fetch file2 c d)
  by_cases hcd : c ≤ d
  · rw [if_pos hcd]
    set e' := (fetch file2 c d).foldl Ed.feed (e.feed head)
    have hlast := htext.feed period
    rw [if_pos (.inr rfl)] at hlast
    refine ⟨hlast, ?_⟩
    obtain ⟨buffer, input⟩ := e'
    cases input <;> rfl
  · have hnone : fetch file2 c d = [] := by simp [fetch, show d + 1 - c = 0 by omega]
    rw [if_neg hcd]
    refine ⟨htext, ?_⟩
    rw [hnone]
    obtain ⟨buffer, input⟩ := e
    obtain rfl : input = none := he
    have hread := readCommand_range a b (show isDigit 'd' = false by decide)
    simp only [hhead, if_neg (show ¬ b < a by omega), if_pos (show d < c by omega), List.foldl_nil,
      Ed.feed, hread, show ('d' = 'a') = False by decide, show ('d' = 'c') = False by decide,
      if_false, if_true]
    split_ifs <;> rfl

/-! ### The loop -/

/-- As `unravel` leaves it, `J` matches lines in order. -/
def Ascends (n : ℕ) (J : ℕ → ℕ) : Prop :=
  ∀ k l, 1 ≤ k → k < l → l ≤ n → J k ≠ 0 → J l ≠ 0 → J k < J l

/-- The lines that `J` matches are equal, and in the same order in both files. -/
structure IsMatching (file1 file2 : List Line) (J : ℕ → ℕ) : Prop where
  lines : ∀ k, 1 ≤ k → k ≤ file1.length → J k ≠ 0 →
    ∃ line, file1[k - 1]? = some line ∧ file2[J k - 1]? = some line
  mono : Ascends file1.length J

theorem IsMatching.le (hJ : IsMatching file1 file2 J) {k : ℕ} (h1 : 1 ≤ k)
    (h2 : k ≤ file1.length) : J k ≤ file2.length := by
  by_cases hk : J k = 0
  · omega
  · obtain ⟨line, -, hline⟩ := hJ.lines k h1 h2 hk
    have := (List.getElem?_eq_some_iff.1 hline).1
    omega

/-- `check`: lines that differ are not matched. -/
def check (file1 file2 : List Line) (J : ℕ → ℕ) (k : ℕ) : ℕ :=
  if file1[k - 1]? = file2[J k - 1]? then J k else 0

theorem check_of_ne {k : ℕ} (h : check file1 file2 J k ≠ 0) :
    file1[k - 1]? = file2[J k - 1]? ∧ check file1 file2 J k = J k := by
  unfold check at *
  split_ifs at * with he
  · exact ⟨he, rfl⟩
  · exact absurd rfl h

theorem check_isMatching (hJ : Ascends file1.length J) :
    IsMatching file1 file2 (check file1 file2 J) := by
  constructor
  · intro k h1 h2 h3
    obtain ⟨he, hk⟩ := check_of_ne h3
    have hline := List.getElem?_eq_getElem (show k - 1 < file1.length by omega)
    exact ⟨_, hline, by rw [hk, ← he, hline]⟩
  · intro k l h1 h2 h3 h4 h5
    have hk := (check_of_ne h4).2
    have hl := (check_of_ne h5).2
    rw [hk, hl]
    exact hJ k l h1 h2 h3 (hk ▸ h4) (hl ▸ h5)

/-- No lines that the files have in common in one order are more than those `J` matches. -/
def IsLongest (file1 file2 : List Line) (J : ℕ → ℕ) : Prop :=
  ∀ common, common <+ file1 → common <+ file2 →
    common.length ≤ count (fun k => J (k + 1) ≠ 0) file1.length

/-- The lines of the second file up to `j` that no line of the first one up to `i` is matched
with. -/
def inserted (file2 : List Line) (J : ℕ → ℕ) : ℕ → ℕ → List Line
  | 0, j => file2.take j
  | i + 1, j =>
    if J (i + 1) = 0 then inserted file2 J i j
    else inserted file2 J i (J (i + 1) - 1) ++ (file2.take j).drop (J (i + 1))

theorem inserted_congr {J' : ℕ → ℕ} (h : ∀ k, 1 ≤ k → k ≤ i → J' k = J k) (j : ℕ) :
    inserted file2 J' i j = inserted file2 J i j := by
  induction i generalizing j with
  | zero => rfl
  | succ i ih =>
    have ih := ih fun k h1 h2 => h k h1 (by omega)
    simp only [inserted, h (i + 1) (by omega) le_rfl, ih]

theorem inserted_unmatched {l : ℕ} (hl : l ≤ i) (h : ∀ k, l < k → k ≤ i → J k = 0) (j : ℕ) :
    inserted file2 J i j = inserted file2 J l j := by
  induction i, hl using Nat.le_induction with
  | base => rfl
  | succ i hl ih =>
    rw [inserted, if_pos (h (i + 1) (by omega) le_rfl), ih fun k h1 h2 => h k h1 (by omega)]

theorem inserted_matched (h0 : J 0 = 0) (hi : i = 0 ∨ J i ≠ 0) (j : ℕ) :
    inserted file2 J i j = inserted file2 J i (J i) ++ fetch file2 (J i + 1) j := by
  have hfetch : fetch file2 (J i + 1) j = (file2.take j).drop (J i) := by
    rw [fetch, List.drop_take, add_sub_cancel, Nat.add_sub_add_right]
  rw [hfetch]
  cases i with
  | zero => simp [inserted, h0]
  | succ i => simp [inserted, hi.resolve_left (by omega)]

theorem length_inserted {j : ℕ} (hj : j ≤ file2.length) (hle : ∀ k, 1 ≤ k → k ≤ i → J k ≤ j)
    (hmono : Ascends i J) :
    (inserted file2 J i j).length + count (fun k => J (k + 1) ≠ 0) i = j := by
  induction i generalizing j with
  | zero => simp [inserted, hj]
  | succ i ih =>
    have hmono' := fun k l hk hkl (hl : l ≤ i) => hmono k l hk hkl (by omega)
    rw [inserted, Nat.count_succ]
    by_cases hz : J (i + 1) = 0
    · rw [if_pos hz, if_neg (not_not.2 hz), Nat.add_zero,
        ih hj (fun k h1 h2 => hle k h1 (by omega)) hmono']
    · have hlast := hle (i + 1) (by omega) le_rfl
      have hbelow : ∀ k, 1 ≤ k → k ≤ i → J k ≤ J (i + 1) - 1 := by
        intro k h1 h2
        by_cases hk : J k = 0
        · omega
        · have := hmono k (i + 1) h1 (by omega) le_rfl hk hz
          omega
      have := ih (by omega) hbelow hmono'
      rw [if_neg hz, if_pos hz, length_append, List.length_drop, length_take_of_le hj]
      omega

/-- Before the line `i + 1`, the lines of the first file up to `i` are still to be changed. -/
structure Reached (file1 file2 : List Line) (i : ℕ) (J : ℕ → ℕ) : Prop where
  le : i ≤ file1.length
  zero : J 0 = 0
  next : 1 ≤ J (i + 1)
  lines : ∀ k, 1 ≤ k → k ≤ i → J k ≠ 0 →
    ∃ line, file1[k - 1]? = some line ∧ file2[J k - 1]? = some line
  mono : Ascends (i + 1) J

/-- The text that has been reached. -/
def reachedText (file1 file2 : List Line) (i : ℕ) (J : ℕ → ℕ) : List Line :=
  file1.take i ++ file2.drop (J (i + 1) - 1)

/-- The lines that are still to be put in. -/
def ahead (file2 : List Line) (i : ℕ) (J : ℕ → ℕ) : List Line := inserted file2 J i (J (i + 1) - 1)

theorem skipMatched_spec (h : Reached file1 file2 i J) :
    Reached file1 file2 (skipMatched J i) J ∧
      reachedText file1 file2 (skipMatched J i) J = reachedText file1 file2 i J ∧
      ahead file2 (skipMatched J i) J = ahead file2 i J := by
  induction i with
  | zero => exact ⟨h, rfl, rfl⟩
  | succ i ih =>
    rw [skipMatched]
    by_cases hm : J (i + 1) = J (i + 2) - 1 ∧ J (i + 1) ≠ 0
    · rw [if_pos hm]
      have hbelow : Reached file1 file2 i J := by
        refine ⟨Nat.le_of_succ_le h.le, h.zero, Nat.pos_of_ne_zero hm.2, ?_, ?_⟩
        · intro k hk hki
          exact h.lines k hk (by omega)
        · intro k l hk hkl hl
          exact h.mono k l hk hkl (by omega)
      obtain ⟨hreached, htext, hahead⟩ := ih hbelow
      refine ⟨hreached, htext.trans ?_, hahead.trans ?_⟩
      rotate_left
      · simp [ahead, inserted, ← hm.1, hm.2]
      obtain ⟨line, h1, h2⟩ := h.lines (i + 1) (by omega) le_rfl hm.2
      rw [add_sub_cancel] at h1
      have hdrop : file2.drop (J (i + 1) - 1) = line :: file2.drop (J (i + 2) - 1) := by
        obtain ⟨hlt, hget⟩ := List.getElem?_eq_some_iff.1 h2
        rw [List.drop_eq_getElem_cons hlt, hget, ← hm.1,
          show J (i + 1) - 1 + 1 = J (i + 1) by omega]
      rw [reachedText, reachedText, hdrop, List.take_add_one, h1]
      simp
    · rw [if_neg hm]
      exact ⟨h, rfl, rfl⟩

theorem skipMatched_le (J : ℕ → ℕ) (i : ℕ) : skipMatched J i ≤ i := by
  induction i with
  | zero => exact le_rfl
  | succ i ih =>
    rw [skipMatched]
    split_ifs <;> omega

theorem skipDeleted_spec (J : ℕ → ℕ) (i : ℕ) :
    1 ≤ skipDeleted J (i + 1) ∧ skipDeleted J (i + 1) ≤ i + 1 ∧
      (skipDeleted J (i + 1) = 1 ∨ J (skipDeleted J (i + 1) - 1) ≠ 0) ∧
      ∀ k, skipDeleted J (i + 1) ≤ k → k ≤ i → J k = 0 := by
  induction i with
  | zero => exact ⟨le_rfl, le_rfl, .inl rfl, fun k (h : 1 ≤ k) _ => by omega⟩
  | succ i ih =>
    rw [skipDeleted]
    by_cases hzero : J (i + 1) = 0
    · rw [if_pos hzero]
      refine ⟨ih.1, by omega, ih.2.2.1, fun k h1 h2 => ?_⟩
      obtain rfl | hk := h2.eq_or_lt
      · exact hzero
      · exact ih.2.2.2 k h1 (by omega)
    · rw [if_neg hzero]
      exact ⟨by omega, le_rfl, .inr hzero, fun k _ _ => by omega⟩

/-- One pass of the loop. -/
theorem reached_step {i0 : ℕ} (h : Reached file1 file2 i0 J) :
    let i1 := skipDeleted J (i0 + 1)
    let j1 := J (i1 - 1) + 1
    Reached file1 file2 (i1 - 1) (update J i1 j1) ∧
      ahead file2 i0 J =
        ahead file2 (i1 - 1) (update J i1 j1) ++ fetch file2 j1 (J (i0 + 1) - 1) ∧
      (period ∉ fetch file2 j1 (J (i0 + 1) - 1) → (change file2 i1 i0 j1 (J (i0 + 1) - 1)).foldl Ed.feed
        ⟨reachedText file1 file2 i0 J, none⟩ =
        ⟨reachedText file1 file2 (i1 - 1) (update J i1 j1), none⟩) := by
  obtain ⟨hpos, hle, hstop, hzeros⟩ := skipDeleted_spec J i0
  dsimp only
  set i1 := skipDeleted J (i0 + 1)
  have hle0 := h.le
  have hnext := h.next
  have hlt : J (i1 - 1) < J (i0 + 1) := by
    rcases hstop with hone | hne
    · rw [hone, h.zero]
      omega
    · by_cases hz : i1 - 1 = 0
      · exact absurd h.zero (hz ▸ hne)
      · exact h.mono (i1 - 1) (i0 + 1) (by omega) (by omega) le_rfl hne (by omega)
  have hi1 : i1 - 1 + 1 = i1 := by omega
  refine ⟨?_, ?_, fun hp => ?_⟩
  · refine ⟨by omega, ?_, by rw [hi1, update_self]; omega, ?_, ?_⟩
    · rw [update_of_ne (by omega), h.zero]
    · intro k hk hki
      rw [update_of_ne (by omega)]
      exact h.lines k hk (by omega)
    · intro k l hk hkl hl
      rw [update_of_ne (by omega)]
      by_cases hl1 : l = i1
      · rw [hl1, update_self]
        intro hk0 _
        by_cases hk1 : k = i1 - 1
        · rw [hk1]
          omega
        · have := h.mono k (i1 - 1) hk (by omega) (by omega) hk0
            (hstop.resolve_left (by omega))
          omega
      · rw [update_of_ne hl1]
        exact h.mono k l hk hkl (by omega)
  · have hsame : ∀ k, 1 ≤ k → k ≤ i1 - 1 → update J i1 (J (i1 - 1) + 1) k = J k :=
      fun k _ h2 => update_of_ne (by omega) ..
    unfold ahead
    rw [hi1, update_self, add_sub_cancel, inserted_congr hsame,
      ← inserted_matched h.zero (hstop.imp_left (by omega))]
    exact inserted_unmatched (by omega) (fun k h1 h2 => hzeros k (by omega) h2) _
  · have hlen : (file1.take i0).length = i0 := length_take_of_le hle0
    rw [feed_change hp hpos hle (by rw [reachedText, length_append]; omega) (by omega)]
    unfold reachedText
    rw [hi1, update_self, List.take_append, List.drop_append, hlen,
      show i1 - 1 - i0 = 0 by omega, Nat.sub_self, List.take_take, min_eq_left (by omega),
      List.drop_of_length_le hlen.le, List.take_zero, append_nil, List.nil_append,
      List.drop_zero, add_sub_cancel, List.append_assoc]
    congr 2
    unfold fetch
    rw [add_sub_cancel]
    have hsplit : file2.drop (J (i0 + 1) - 1) =
        (file2.drop (J (i1 - 1))).drop (J (i0 + 1) - 1 + 1 - (J (i1 - 1) + 1)) := by
      rw [List.drop_drop]
      congr 1
      omega
    rw [hsplit, List.take_append_drop]

/-- The passes that may still follow: two for each line, but one for a line that is matched with the
one before the next. -/
def passes (J : ℕ → ℕ) (i : ℕ) : ℕ := 2 * i + if J i = J (i + 1) - 1 ∧ J i ≠ 0 then 0 else 1

/-- The script does its work when no period is put in; in any case it puts in no more than the other
lines. -/
theorem editLoop_spec (fuel : ℕ) (h : Reached file1 file2 i J) (hend : i = 0 → J 1 = 1)
    (hfuel : passes J i < fuel) :
    ∃ script, editLoop file2 fuel i J = some script ∧
      (period ∉ ahead file2 i J →
        script.foldl Ed.feed ⟨reachedText file1 file2 i J, none⟩ = ⟨file2, none⟩) ∧
      ∀ (e : Ed) (n : ℕ), e.Made file1 n → e.input = none →
        (script.foldl Ed.feed e).Made file1 (n + lasting (ahead file2 i J)) := by
  induction fuel generalizing i J with
  | zero => omega
  | succ fuel ih =>
    rw [editLoop]
    by_cases hzero : i = 0
    · rw [if_pos hzero]
      subst hzero
      refine ⟨[], rfl, fun _ => ?_, fun e n hmade _ => ?_⟩
      · simp [reachedText, hend rfl]
      · simpa [ahead, inserted, hend rfl, lasting] using hmade
    rw [if_neg hzero]
    have hle := skipMatched_le J i
    obtain ⟨hreached, htext, hahead⟩ := skipMatched_spec h
    obtain ⟨hpos, hle1, hstop, -⟩ := skipDeleted_spec J (skipMatched J i)
    obtain ⟨hnext, hsplit, hfeed⟩ := reached_step hreached
    set i0 := skipMatched J i with hi0
    set i1 := skipDeleted J (i0 + 1)
    have hi1 : i1 - 1 + 1 = i1 := by omega
    have hsame : update J i1 (J (i1 - 1) + 1) (i1 - 1) = J (i1 - 1) :=
      update_of_ne (by omega) ..
    -- a pass that leaves the line where it is has made its next line follow
    have hless : passes (update J i1 (J (i1 - 1) + 1)) (i1 - 1) < fuel := by
      have hdown : J i = J (i + 1) - 1 ∧ J i ≠ 0 → i0 < i := by
        intro hm
        obtain ⟨n, rfl⟩ : ∃ n, i = n + 1 := ⟨i - 1, by omega⟩
        rw [hi0, skipMatched, if_pos hm]
        exact Nat.lt_succ_of_le (skipMatched_le J n)
      unfold passes at hfuel ⊢
      rw [hi1, update_self, hsame]
      by_cases hone : i1 = 1
      · split_ifs at hfuel ⊢ <;> omega
      rw [if_pos ⟨by omega, hstop.resolve_left hone⟩]
      split_ifs at hfuel with hm
      · have := hdown hm
        omega
      · omega
    have hlast : i1 - 1 = 0 → update J i1 (J (i1 - 1) + 1) 1 = 1 := by
      intro hz
      rw [show i1 = 1 by omega, update_self, h.zero]
    obtain ⟨rest, hrest, hfed, hmade⟩ := ih hnext hlast hless
    rw [← hahead, hsplit]
    refine ⟨change file2 i1 i0 (J (i1 - 1) + 1) (J (i0 + 1) - 1) ++ rest, ?_, fun hp => ?_,
      fun e n he hin => ?_⟩
    · change (editLoop file2 fuel (i1 - 1) (update J i1 (J (i1 - 1) + 1))).bind _ = _
      rw [hrest]
      rfl
    · rw [List.mem_append, not_or] at hp
      rw [foldl_append, ← htext, hfeed hp.2, hfed hp.1]
    · obtain ⟨hthis, hwaits⟩ := he.change hin
      have hall := hmade _ _ hthis hwaits
      rw [foldl_append]
      rwa [lasting, List.countP_append, ← lasting, ← lasting, Nat.add_comm (lasting _),
        ← Nat.add_assoc]

theorem outputEdit_spec (hJ : IsMatching file1 file2 J) :
    ∃ script, outputEdit (2 * file1.length + 2) file1 file2 J = some script ∧
      (period ∉ inserted file2 J file1.length file2.length → edit script file1 = file2) ∧
      (script.foldl Ed.feed ⟨file1, none⟩).Made file1
        (lasting (inserted file2 J file1.length file2.length)) := by
  have hmade : Ed.Made file1 0 ⟨file1, none⟩ := ⟨file1, .refl _, .refl _, le_rfl⟩
  unfold outputEdit edit
  by_cases hm : file1.length = 0
  · obtain rfl := List.length_eq_zero_iff.1 hm
    have hall : inserted file2 J 0 file2.length = fetch file2 1 file2.length := by
      simp [inserted, fetch]
    refine ⟨change file2 1 0 1 file2.length, by simp [editLoop], fun hp => ?_, ?_⟩
    · rw [feed_change (hall ▸ hp) le_rfl le_rfl (Nat.zero_le _) (by omega)]
      simp [fetch]
    · rw [length_nil, hall, ← Nat.zero_add (lasting _)]
      exact (hmade.change rfl).1
  set J' := update (update J 0 0) (file1.length + 1) (file2.length + 1) with hJ'
  have hkeep : ∀ k, 1 ≤ k → k ≤ file1.length → J' k = J k := by
    intro k h1 h2
    rw [hJ', update_of_ne (by omega), update_of_ne (by omega)]
  have hnext : J' (file1.length + 1) = file2.length + 1 := update_self ..
  have hreached : Reached file1 file2 file1.length J' := by
    refine ⟨le_rfl, ?_, by omega, ?_, ?_⟩
    · rw [hJ', update_of_ne (by omega), update_self]
    · intro k h1 h2
      rw [hkeep k h1 h2]
      exact hJ.lines k h1 h2
    · intro k l hk hkl hl
      rw [hkeep k hk (by omega)]
      intro hk0
      by_cases hend : l = file1.length + 1
      · intro _
        have := hJ.le hk (by omega)
        rw [hend, hnext]
        omega
      · rw [hkeep l (by omega) (by omega)]
        exact hJ.mono k l hk hkl (by omega) hk0
  have hpasses : passes J' file1.length < 2 * file1.length + 2 := by
    unfold passes
    split_ifs <;> omega
  obtain ⟨script, hscript, hfed, hheld⟩ :=
    editLoop_spec _ hreached (fun h => absurd h hm) hpasses
  have hahead : ahead file2 file1.length J' = inserted file2 J file1.length file2.length := by
    rw [ahead, hnext, add_sub_cancel, inserted_congr hkeep]
  have hstart : reachedText file1 file2 file1.length J' = file1 := by
    simp [reachedText, hnext]
  rw [hahead, hstart] at hfed
  refine ⟨script, by dsimp only; rw [← hJ', hscript]; simp [hm], fun hp => by rw [hfed hp], ?_⟩
  have := hheld _ _ hmade rfl
  rwa [hahead, Nat.zero_add] at this

/-- For a longest matching, an editor that has reached the second file has put in all lines that were
to be put in, since what it has kept of the first file are lines in common. -/
theorem period_not_inserted (hJ : IsMatching file1 file2 J) (hlong : IsLongest file1 file2 J)
    {e : Ed} (he : e.buffer = file2)
    (hmade : e.Made file1 (lasting (inserted file2 J file1.length file2.length))) :
    period ∉ inserted file2 J file1.length file2.length := by
  obtain ⟨kept, hfile1, hfile2, hlen⟩ := hmade
  rw [he] at hfile2 hlen
  have hcount : (inserted file2 J file1.length file2.length).length + _ = _ :=
    length_inserted le_rfl (fun _ h1 h2 => hJ.le h1 h2) hJ.mono
  have hcommon := hlong kept hfile1 hfile2
  have hall : lasting (inserted file2 J file1.length file2.length) =
      (inserted file2 J file1.length file2.length).length :=
    le_antisymm List.countP_le_length (by omega)
  intro hp
  simpa using List.countP_eq_length.1 hall period hp

/-- Whatever lines have been matched in order, the script turns the first file into the second one if
no line that is put in is a single period, and with a longest matching only then. -/
theorem edit_outputEdit (hJ : Ascends file1.length J) :
    ∃ script, outputEdit (2 * file1.length + 2) file1 file2 (check file1 file2 J) = some script ∧
      (period ∉ inserted file2 (check file1 file2 J) file1.length file2.length →
        edit script file1 = file2) ∧
      (IsLongest file1 file2 (check file1 file2 J) → (edit script file1 = file2 ↔
        period ∉ inserted file2 (check file1 file2 J) file1.length file2.length)) := by
  have hmatch : IsMatching file1 file2 _ := check_isMatching hJ
  obtain ⟨script, hscript, hdone, hmade⟩ := outputEdit_spec hmatch
  exact ⟨script, hscript, hdone, fun hlong =>
    ⟨fun he => period_not_inserted hmatch hlong he hmade, hdone⟩⟩

/-- A line with a period stays where it is, the one before it is changed, and one is put behind
it. -/
theorem edit_outputEdit_two :
    ∃ script, outputEdit 6 [['x'], period] [['z'], period, ['w']]
        (check [['x'], period] [['z'], period, ['w']] id) = some script ∧
      edit script [['x'], period] = [['z'], period, ['w']] := by
  obtain ⟨script, hscript, hdone, -⟩ :=
    @edit_outputEdit [['x'], period] [['z'], period, ['w']] id fun _ _ _ h _ _ _ => h
  exact ⟨script, hscript, hdone (by decide)⟩

/-- A line with a period is lost from the text, and the line behind it is taken for a command. -/
theorem edit_loses_period :
    outputEdit 2 [] [['x'], period, ['y']] (fun _ => 0) =
        some [['0', 'a'], ['x'], period, ['y'], period] ∧
      edit [['0', 'a'], ['x'], period, ['y'], period] [] = [['x']] := by
  decide

end Sol26.Diff
