import Sol26.Tmpfs.Readdir

/-!
# Scans of a tmpfs directory

A scan is a sequence of `tmp_readdir` calls, each at the offset the previous one left, with
other entries added and removed in between.
-/

namespace Sol26.Tmpfs.Reading

inductive Event
  | readdir (len : ℕ)
  | add (name : Name) (nodeid : ℕ)
  | remove (name : Name)
  | rmdir

/-- The directory and the offset of the reader. -/
structure Scan where
  tp : Directory
  off : ℕ
deriving DecidableEq

/-- The directory that an operation leaves; a failed one leaves it as it was. -/
def Directory.orSame (tp : Directory) : Except Errno Directory → Directory
  | .ok tp' => tp'
  | .error _ => tp

namespace Scan

def call (s : Scan) (len : ℕ) : Read := s.tp.call s.off len

def step (s : Scan) : Event → Scan
  | .readdir len => { s with off := (s.call len).offset }
  | .add name nodeid => { s with tp := s.tp.orSame (tdiraddentry s.tp name nodeid true) }
  | .remove name => { s with tp := s.tp.orSame (unlinkEntry s.tp name) }
  | .rmdir => { s with tp := ⟨[], 0⟩ }

/-- A buffer is large enough for one more entry.  A name is added only if it is not there, and
while there is memory. -/
def Enabled (s : Scan) : Event → Prop
  | .readdir len => ∀ e rest, s.tp.from s.off = e :: rest → dirent64Reclen e.name ≤ len
  | .add name _ => name ∉ s.tp.dir.map DirEntry.name ∧ s.tp.dir.length < maxEntries
  | .remove _ => True
  | .rmdir => True

def run (s : Scan) (events : List Event) : Scan := events.foldl step s

def Legal : Scan → List Event → Prop
  | _, [] => True
  | s, ev :: events => s.Enabled ev ∧ (s.step ev).Legal events

instance (s : Scan) (ev : Event) : Decidable (s.Enabled ev) :=
  match ev with
  | .readdir len =>
    match h : s.tp.from s.off with
    | [] => .isTrue fun e rest hcons => by rw [h] at hcons; cases hcons
    | e :: rest =>
      if hle : dirent64Reclen e.name ≤ len then
        .isTrue fun e' rest' hcons => by rw [h] at hcons; cases hcons; exact hle
      else .isFalse fun hall => hle (hall e rest h)
  | .add name _ => inferInstanceAs
      (Decidable (name ∉ s.tp.dir.map DirEntry.name ∧ s.tp.dir.length < maxEntries))
  | .remove _ => .isTrue trivial
  | .rmdir => .isTrue trivial

instance decidableLegal : (s : Scan) → (events : List Event) → Decidable (s.Legal events)
  | _, [] => .isTrue trivial
  | s, ev :: events =>
    have := decidableLegal (s.step ev) events
    inferInstanceAs (Decidable (s.Enabled ev ∧ (s.step ev).Legal events))

/-- The names that an event returns to the reader. -/
def names (s : Scan) : Event → List Name
  | .readdir len => (s.call len).entries.map Dirent64.name
  | _ => []

def returned : Scan → List Event → List Name
  | _, [] => []
  | s, ev :: events => s.names ev ++ (s.step ev).returned events

end Scan

/-- The event takes the name out of the directory. -/
def Event.Removes (name : Name) : Event → Prop
  | .remove name' => name' = name
  | .rmdir => True
  | _ => False

def Event.isCall : Event → Bool
  | .readdir _ => true
  | _ => false

/-- The reader has come to the end: the last call said so, or returned nothing. -/
def Scan.Over (s : Scan) (events : List Event) : Prop :=
  ∃ before len, events = before ++ [.readdir len] ∧
    (((s.run before).call len).eof = some true ∨ ((s.run before).call len).entries = [])

/-- A complete scan. -/
structure ScanOk (s : Scan) (events : List Event) : Prop where
  /-- An entry that is there throughout is returned exactly once, when the reader has come to
  the end and at the latest by one call more than the entry's offset. -/
  once : ∀ e ∈ s.tp.dir, (∀ ev ∈ events, ¬ev.Removes e.name) →
    (s.Over events ∨ e.offset < events.countP Event.isCall) →
    (s.returned events).count e.name = 1
  /-- A call returns no name twice. -/
  distinct : ∀ before len after, events = before ++ .readdir len :: after →
    ((s.run before).names (.readdir len)).Nodup
  /-- Two calls return one name only if it was removed between them. -/
  again : ∀ before len between len' after name,
    events = before ++ .readdir len :: (between ++ .readdir len' :: after) →
    name ∈ (s.run before).names (.readdir len) →
    name ∈ (s.run (before ++ .readdir len :: between)).names (.readdir len') →
    ∃ ev ∈ between, ev.Removes name
  /-- `*eofp` is 1 only if nothing is left at or above the new offset. -/
  eof : ∀ before len after, events = before ++ .readdir len :: after →
    ((s.run before).call len).eof = some true →
    ∀ e ∈ (s.run before).tp.dir, e.offset < ((s.run before).call len).offset

namespace Scan

variable {s : Scan} {events : List Event}

@[simp] theorem run_nil (s : Scan) : s.run [] = s := rfl

@[simp] theorem run_cons (s : Scan) (ev : Event) (events : List Event) :
    s.run (ev :: events) = (s.step ev).run events := rfl

theorem run_append (s : Scan) (xs ys : List Event) : s.run (xs ++ ys) = (s.run xs).run ys :=
  List.foldl_append

theorem legal_append (xs ys : List Event) :
    s.Legal (xs ++ ys) ↔ s.Legal xs ∧ (s.run xs).Legal ys := by
  induction xs generalizing s with
  | nil => simp [Legal]
  | cons ev xs ih => simp [Legal, ih, and_assoc]

/-- The state of every scan: a well-formed directory and an offset within it. -/
structure Inv (s : Scan) : Prop where
  wellFormed : s.tp.WellFormed
  off_le : s.off ≤ maxEntries

theorem Inv.call_spec (h : s.Inv) (len : ℕ) : s.tp.CallSpec s.off len (s.call len) :=
  h.wellFormed.call_spec h.off_le len

variable {e : DirEntry} {ev : Event}

theorem Inv.step (h : s.Inv) (hen : s.Enabled ev) : (s.step ev).Inv := by
  cases ev with
  | readdir len => exact ⟨h.wellFormed, (h.call_spec len).small⟩
  | add name nodeid =>
    refine ⟨?_, h.off_le⟩
    simp only [Scan.step]
    cases hadd : tdiraddentry s.tp name nodeid true with
    | error e => exact h.wellFormed
    | ok tp' => exact (h.wellFormed.added hen.1 hen.2 hadd).1
  | remove name =>
    refine ⟨?_, h.off_le⟩
    simp only [Scan.step]
    cases hdel : unlinkEntry s.tp name with
    | error e => exact h.wellFormed
    | ok tp' => exact (h.wellFormed.unlinked hdel).1
  | rmdir => exact ⟨Directory.wellFormed_nil, h.off_le⟩

theorem Inv.run (h : s.Inv) (hlegal : s.Legal events) : (s.run events).Inv := by
  induction events generalizing s with
  | nil => exact h
  | cons ev events ih => exact ih (h.step hlegal.1) hlegal.2

/-- An entry whose name is not removed stays, with its offset. -/
theorem Inv.stays (h : s.Inv) (hen : s.Enabled ev)
    (he : e ∈ s.tp.dir) (hev : ¬ev.Removes e.name) : e ∈ (s.step ev).tp.dir := by
  cases ev with
  | readdir len => exact he
  | add name nodeid =>
    simp only [Scan.step]
    cases hadd : tdiraddentry s.tp name nodeid true with
    | error => exact he
    | ok tp' => exact (h.wellFormed.added hen.1 hen.2 hadd).2 e he
  | remove name =>
    simp only [Scan.step]
    cases hdel : unlinkEntry s.tp name with
    | error => exact he
    | ok tp' => exact (h.wellFormed.unlinked hdel).2 e he (Ne.symm hev)
  | rmdir => exact absurd trivial hev

theorem names_readdir (s : Scan) (len : ℕ) :
    s.names (.readdir len) = (s.call len).entries.map Dirent64.name := rfl

/-- The names of a call: those of the entries between the offsets. -/
theorem Inv.names_eq (h : s.Inv) (len : ℕ) :
    s.names (.readdir len) = (s.tp.dir.filter fun e =>
      s.off ≤ e.offset ∧ e.offset < (s.call len).offset).map DirEntry.name := by
  rw [names_readdir, (h.call_spec len).entries_eq, List.map_map]
  rfl

theorem Inv.names_nodup (h : s.Inv) (len : ℕ) : (s.names (.readdir len)).Nodup := by
  rw [h.names_eq]
  exact h.wellFormed.nodup.sublist (List.filter_sublist.map _)

/-- A call returns the name of an entry if the entry is between the offsets. -/
theorem Inv.mem_names_iff (h : s.Inv) (len : ℕ) (he : e ∈ s.tp.dir) :
    e.name ∈ s.names (.readdir len) ↔ s.off ≤ e.offset ∧ e.offset < (s.call len).offset := by
  rw [h.names_eq, List.mem_map]
  constructor
  · intro ⟨e', hmem, hname⟩
    rw [List.mem_filter] at hmem
    have heq : e' = e := List.inj_on_of_nodup_map h.wellFormed.nodup hmem.1 he hname
    rw [heq] at hmem
    simpa using hmem.2
  · intro hoff
    exact ⟨e, List.mem_filter.mpr ⟨he, by simpa using hoff⟩, rfl⟩

/-- A call does not lose sight of what it has passed. -/
theorem Inv.passed (h : s.Inv) (len : ℕ) (he : e ∈ s.tp.dir)
    (hoff : e.offset < s.off) : e.offset < (s.call len).offset := by
  cases (h.call_spec len).forward with
  | inl hle => exact lt_of_lt_of_le hoff hle
  | inr hall => exact hall e he

/-- A call that leaves something returns something and moves on. -/
theorem Inv.progress (h : s.Inv) {len : ℕ} (hen : s.Enabled (.readdir len))
    (he : e ∈ s.tp.dir) (hleft : (s.call len).offset ≤ e.offset) :
    (s.call len).entries ≠ [] ∧ s.off < (s.call len).offset := by
  obtain ⟨f, hstops, hf⟩ := (h.call_spec len).stops e he hleft
  obtain ⟨out, rest, hout, hle, hlt⟩ := hstops
  cases out with
  | nil =>
    -- the first entry fits
    have hfit := hen f rest hout
    simp only [reclens, List.map_nil, List.sum_nil] at hlt
    omega
  | cons p out =>
    have hp : p ∈ s.tp.dir ∧ s.off ≤ p.offset := by
      rw [← Directory.mem_from, hout]
      exact List.mem_cons_self
    have hlt : p.offset < f.offset := by
      have hsorted : (s.tp.from s.off).Pairwise (·.offset < ·.offset) :=
        h.wellFormed.sorted.sublist List.filter_sublist
      rw [hout, List.cons_append, List.pairwise_cons] at hsorted
      exact hsorted.1 f (by simp)
    have hmem := (h.mem_names_iff len hp.1).mpr ⟨hp.2, by omega⟩
    refine ⟨fun hnil => ?_, by omega⟩
    rw [names_readdir, hnil] at hmem
    simp at hmem

/-- How often an entry that stays was returned: once if the offset has passed it. -/
def Counted (s : Scan) (e : DirEntry) (log : List Name) : Prop :=
  e ∈ s.tp.dir ∧ log.count e.name = if e.offset < s.off then 1 else 0

theorem Counted.step (h : s.Inv) (hen : s.Enabled ev)
    {log : List Name} (hc : s.Counted e log) (hev : ¬ev.Removes e.name) :
    (s.step ev).Counted e (log ++ s.names ev) := by
  refine ⟨h.stays hen hc.1 hev, ?_⟩
  rw [List.count_append, hc.2]
  cases ev with
  | readdir len =>
    have hmem := h.mem_names_iff len hc.1
    have hcount : (s.names (.readdir len)).count e.name =
        if s.off ≤ e.offset ∧ e.offset < (s.call len).offset then 1 else 0 := by
      split_ifs with hif
      · exact List.count_eq_one_of_mem (h.names_nodup len) (hmem.mpr hif)
      · exact List.count_eq_zero_of_not_mem fun hin => hif (hmem.mp hin)
    rw [hcount]
    show _ = if e.offset < (s.call len).offset then 1 else 0
    by_cases hoff : e.offset < s.off
    · rw [if_pos hoff, if_neg (by omega), if_pos (h.passed len hc.1 hoff)]
    · simp only [if_neg hoff, not_lt.mp hoff, true_and, Nat.zero_add]
  | add name nodeid | remove name => exact Nat.add_zero _
  | rmdir => exact absurd trivial hev

theorem Counted.run (h : s.Inv) (hlegal : s.Legal events) {log : List Name}
    (hc : s.Counted e log) (hev : ∀ ev ∈ events, ¬ev.Removes e.name) :
    (s.run events).Counted e (log ++ s.returned events) := by
  induction events generalizing s log with
  | nil => simpa [returned] using hc
  | cons ev events ih =>
    have hstep := hc.step h hlegal.1 (hev ev List.mem_cons_self)
    have hrun := ih (h.step hlegal.1) hlegal.2 hstep fun ev' hmem =>
      hev ev' (List.mem_cons_of_mem _ hmem)
    rwa [List.append_assoc] at hrun

/-- Until an entry is passed, each call raises the offset. -/
theorem Inv.calls_le (h : s.Inv) (hlegal : s.Legal events) (he : e ∈ s.tp.dir)
    (hev : ∀ ev ∈ events, ¬ev.Removes e.name) (hleft : (s.run events).off ≤ e.offset) :
    s.off + events.countP Event.isCall ≤ (s.run events).off := by
  induction events generalizing s with
  | nil => exact le_refl _
  | cons ev events ih =>
    have hev1 := hev ev List.mem_cons_self
    have hev2 : ∀ ev' ∈ events, ¬ev'.Removes e.name := fun ev' hmem =>
      hev ev' (List.mem_cons_of_mem _ hmem)
    have hstay := h.stays hlegal.1 he hev1
    have hrest := ih (h.step hlegal.1) hlegal.2 hstay hev2 hleft
    rw [run_cons, List.countP_cons]
    cases ev with
    | readdir len =>
      have hnot : (s.call len).offset ≤ e.offset := by
        have hle : (s.step (.readdir len)).off ≤ ((s.step (.readdir len)).run events).off := by
          omega
        exact hle.trans hleft
      have hmove := (h.progress hlegal.1 he hnot).2
      simp only [Scan.step, Event.isCall, if_true] at hrest ⊢
      omega
    | add name nodeid | remove name => simpa [Event.isCall, Scan.step] using hrest
    | rmdir => exact absurd trivial hev1

/-- What was passed stays passed while it is not removed. -/
theorem Inv.passed_run (h : s.Inv) (hlegal : s.Legal events) (he : e ∈ s.tp.dir)
    (hoff : e.offset < s.off) (hev : ∀ ev ∈ events, ¬ev.Removes e.name) :
    e ∈ (s.run events).tp.dir ∧ e.offset < (s.run events).off := by
  induction events generalizing s with
  | nil => exact ⟨he, hoff⟩
  | cons ev events ih =>
    have hev1 := hev ev List.mem_cons_self
    refine ih (h.step hlegal.1) hlegal.2 (h.stays hlegal.1 he hev1) ?_ fun ev' hmem =>
      hev ev' (List.mem_cons_of_mem _ hmem)
    cases ev with
    | readdir len => exact h.passed len he hoff
    | add name nodeid | remove name => exact hoff
    | rmdir => exact absurd trivial hev1

/-- In this run every call that stops at an entry stops below `tn_size`. -/
def StopsBelowSize (s : Scan) (events : List Event) : Prop :=
  ∀ before len after, events = before ++ .readdir len :: after →
    ∀ e, (s.run before).tp.Stops (s.run before).off len e → e.offset < (s.run before).tp.size

/-- The answer `*eofp = 1` is right for calls that do not stop at or above `tn_size`. -/
theorem Inv.eof_iff (h : s.Inv) (len : ℕ) :
    ((s.call len).eof = some true → ∀ e ∈ s.tp.dir, e.offset < (s.call len).offset) ↔
      ∀ f, s.tp.Stops s.off len f → f.offset < s.tp.size := by
  have hspec := h.call_spec len
  constructor
  · intro heof f hf
    obtain ⟨hmem, hoff⟩ := hspec.left f hf
    by_contra hge
    have htrue : (s.call len).eof = some true := by
      rw [hspec.eof_eq, if_neg (List.ne_nil_of_mem hmem), hoff]
      simpa using not_lt.mp hge
    have hlt := heof htrue f hmem
    omega
  · intro hstop heof e he
    by_contra hleft
    obtain ⟨f, hf, hoff⟩ := hspec.stops e he (not_lt.mp hleft)
    have hlt := hstop f hf
    rw [hspec.eof_eq, if_neg (List.ne_nil_of_mem he), hoff] at heof
    simp only [Option.some.injEq, decide_eq_true_eq] at heof
    omega

theorem Legal.before (hlegal : s.Legal events) {before after : List Event}
    (hsplit : events = before ++ ev :: after) :
    s.Legal before ∧ (s.run before).Enabled ev ∧ ((s.run before).step ev).Legal after := by
  rw [hsplit, legal_append] at hlegal
  exact hlegal

/-- When the reader has come to the end, it has passed every entry that was there throughout. -/
theorem Inv.passed_of_over (h : s.Inv) (hlegal : s.Legal events) (hstop : s.StopsBelowSize events)
    (hover : s.Over events) (he : e ∈ (s.run events).tp.dir) : e.offset < (s.run events).off := by
  obtain ⟨before, len, hsplit, hend⟩ := hover
  obtain ⟨hbefore, hen, -⟩ := hlegal.before hsplit
  have hinv := h.run hbefore
  have hrun : s.run events = (s.run before).step (.readdir len) := by
    rw [hsplit, run_append]
    rfl
  rw [hrun] at he ⊢
  cases hend with
  | inl heof => exact (hinv.eof_iff len).mpr (hstop before len [] hsplit) heof e he
  | inr hnil =>
    by_contra hleft
    exact (hinv.progress hen he (not_lt.mp hleft)).1 hnil

theorem Inv.once (h : s.Inv) (hoff : s.off = 0) (hlegal : s.Legal events)
    (hstop : s.StopsBelowSize events) (he : e ∈ s.tp.dir)
    (hev : ∀ ev ∈ events, ¬ev.Removes e.name)
    (hend : s.Over events ∨ e.offset < events.countP Event.isCall) :
    (s.returned events).count e.name = 1 := by
  have hstart : s.Counted e [] := ⟨he, by simp [hoff]⟩
  obtain ⟨hmem, hcount⟩ := hstart.run h hlegal hev
  rw [List.nil_append] at hcount
  rw [hcount, if_pos]
  cases hend with
  | inl hover => exact h.passed_of_over hlegal hstop hover hmem
  | inr hcalls =>
    by_contra hleft
    have hle := h.calls_le hlegal he hev (not_lt.mp hleft)
    omega

theorem Inv.again (h : s.Inv) (hlegal : s.Legal events) {before between after : List Event}
    {len len' : ℕ} {name : Name}
    (hsplit : events = before ++ .readdir len :: (between ++ .readdir len' :: after))
    (hfirst : name ∈ (s.run before).names (.readdir len))
    (hsecond : name ∈ (s.run (before ++ .readdir len :: between)).names (.readdir len')) :
    ∃ ev ∈ between, ev.Removes name := by
  by_contra hnone
  push Not at hnone
  obtain ⟨hbefore, hen, hrest⟩ := hlegal.before hsplit
  obtain ⟨hbetween, -, -⟩ := Legal.before hrest rfl
  have hinv := h.run hbefore
  have hfirst' := hfirst
  rw [hinv.names_eq, List.mem_map] at hfirst'
  obtain ⟨e, hmem, rfl⟩ := hfirst'
  have he : e ∈ (s.run before).tp.dir := (List.mem_filter.mp hmem).1
  have hoff := ((hinv.mem_names_iff len he).mp hfirst).2
  obtain ⟨hstay, hpassed⟩ := (hinv.step hen).passed_run hbetween he hoff hnone
  rw [run_append, run_cons] at hsecond
  have hback := ((hinv.step hen).run hbetween).mem_names_iff len' hstay
  have hge := (hback.mp hsecond).1
  omega

end Scan

/-- A scan of a directory from offset 0 is complete, and `*eofp` is right, if and only if no call
stops at an entry whose offset is `tn_size` or more. -/
theorem scanOk_iff {tp : Directory} (h : tp.WellFormed) {events : List Event}
    (hlegal : Scan.Legal ⟨tp, 0⟩ events) :
    ScanOk ⟨tp, 0⟩ events ↔ Scan.StopsBelowSize ⟨tp, 0⟩ events := by
  have hinv : Scan.Inv ⟨tp, 0⟩ := ⟨h, Nat.zero_le _⟩
  constructor
  · intro hok before len after hsplit
    have hbefore := hinv.run (hlegal.before hsplit).1
    exact (hbefore.eof_iff len).mp (hok.eof before len after hsplit)
  · intro hstop
    constructor
    case once =>
      intro e he hev hend
      exact hinv.once rfl hlegal hstop he hev hend
    case distinct =>
      intro before len after hsplit
      exact (hinv.run (hlegal.before hsplit).1).names_nodup len
    case again =>
      intro before len between len' after name hsplit hfirst hsecond
      exact hinv.again hlegal hsplit hfirst hsecond
    case eof =>
      intro before len after hsplit
      have hbefore := hinv.run (hlegal.before hsplit).1
      exact (hbefore.eof_iff len).mpr (hstop before len after hsplit)

/-- A directory as `tdirinit` makes it. -/
def newDirectory : Directory := ⟨[⟨dot, 2, 0⟩, ⟨dotdot, 1, 1⟩], 2 * 32 + 5⟩

theorem newDirectory_wellFormed : newDirectory.WellFormed := by
  refine ⟨by decide, by decide, by decide, .inr ⟨2, 1, [], rfl⟩, ?_⟩
  intro e he
  fin_cases he
  · decide
  · decide

/-- Two calls with room for one entry each read a new directory. -/
theorem scanOk_newDirectory :
    Scan.Legal ⟨newDirectory, 0⟩ [.readdir 24, .readdir 24] ∧
      ScanOk ⟨newDirectory, 0⟩ [.readdir 24, .readdir 24] := by
  have hlegal : Scan.Legal ⟨newDirectory, 0⟩ [.readdir 24, .readdir 24] := by decide
  refine ⟨hlegal, (scanOk_iff newDirectory_wellFormed hlegal).mpr ?_⟩
  intro before len after hsplit e hstop
  have hsame : (Scan.run ⟨newDirectory, 0⟩ before).tp = newDirectory := by
    match before, hsplit with
    | [], _ => rfl
    | [ev], hsplit =>
      cases hsplit
      rfl
    | ev :: ev' :: before, hsplit => simp at hsplit
  have hmem := hstop.mem.1
  rw [hsame] at hmem ⊢
  fin_cases hmem
  · decide
  · decide

/-- The names `aa`, `ab`, .. , eleven for each first letter. -/
def nthName (n : ℕ) : Name := [Char.ofNat (97 + n / 11), Char.ofNat (97 + n % 11)]

/-- 103 names are added, and all but the last are removed. -/
def addedAndRemoved : List Event :=
  (List.range 103).map (fun n => .add (nthName n) n) ++
    (List.range 102).map (fun n => .remove (nthName n))

/-- The entry that is left has the offset 104 in a directory of 104 bytes: a call that returns
`.` and `..` says that this was the end. -/
theorem not_scanOk_addedAndRemoved :
    Scan.Legal ⟨newDirectory, 0⟩ (addedAndRemoved ++ [.readdir 48]) ∧
      ¬ScanOk ⟨newDirectory, 0⟩ (addedAndRemoved ++ [.readdir 48]) := by
  have hrun : (Scan.run ⟨newDirectory, 0⟩ addedAndRemoved) =
      ⟨⟨[⟨dot, 2, 0⟩, ⟨dotdot, 1, 1⟩, ⟨nthName 102, 102, 104⟩], 104⟩, 0⟩ := by
    decide +kernel
  refine ⟨by decide +kernel, fun hok => ?_⟩
  have heof := hok.eof addedAndRemoved 48 [] rfl
  rw [hrun] at heof
  exact absurd (heof (by decide) ⟨nthName 102, 102, 104⟩ (by decide)) (by decide)

end Sol26.Tmpfs.Reading
