import Mathlib

/-!
# Reading a tmpfs directory

The entries of a directory are a list in the order of their offsets.  The offsets are made up:
a new entry takes the first free number after an entry that is there.  `tmp_readdir` returns
the entries from an offset on, as many as the buffer holds.
-/

namespace Sol26.Tmpfs

/-- A directory, or a file of another type. -/
inductive Vtype
  | vdir | other
deriving DecidableEq

/-- The errors of the functions below, and that of `uiomove`. -/
inductive Errno
  | enoent | eexist | enotdir | einval | enospc | efault
deriving DecidableEq

/-- A path component; C strings without the terminating NUL. -/
abbrev Name := List Char

def dot : Name := ['.']
def dotdot : Name := ['.', '.']

end Sol26.Tmpfs

namespace Sol26.Tmpfs.Reading

/-- `struct tdirent`, as far as a reader of the directory sees it. -/
structure DirEntry where
  name : Name
  nodeid : ℕ
  offset : ℕ
deriving DecidableEq

/-- A directory tmpnode: its list of entries and `tn_size`. -/
structure Directory where
  dir : List DirEntry
  size : ℕ
deriving DecidableEq

/-- What `tdiraddentry` allocates: `sizeof (struct tdirent)` and the name with its NUL. -/
def allocSize (name : Name) : ℕ := name.length + 1 + 32

def fakedirsiz : ℕ := 1

/-- "Install at first empty slot in directory list." -/
def install (name : Name) (nodeid : ℕ) : List DirEntry → List DirEntry
  | [] => []
  | [p] => [p, ⟨name, nodeid, p.offset + fakedirsiz⟩]
  | p :: q :: rest =>
    if q.offset - p.offset ≤ fakedirsiz then p :: install name nodeid (q :: rest)
    else p :: ⟨name, nodeid, p.offset + fakedirsiz⟩ :: q :: rest

/-- `tdiraddentry` of a name that is not in the directory. -/
def tdiraddentry (tp : Directory) (name : Name) (nodeid : ℕ) (alloc : Bool) :
    Except Errno Directory :=
  if tp.dir = [] then .error .enoent
  else if !alloc then .error .enospc
  else .ok ⟨install name nodeid tp.dir, tp.size + allocSize name⟩

/-- The part of `tdirdelete` that takes a name out of the list. -/
def unlinkEntry (tp : Directory) (name : Name) : Except Errno Directory :=
  if name = dot then .error .einval
  else if name = dotdot then .error .eexist
  else if (tp.dir.find? (·.name = name)).isNone then .error .enoent
  else .ok ⟨tp.dir.eraseP (·.name = name), tp.size - allocSize name⟩

/-- `struct uio`: the number of buffers, the length of the only one, and the offset. -/
structure Uio where
  iovcnt : ℕ
  iovLen : ℕ
  loffset : ℕ

structure Dirent64 where
  name : Name
  ino : ℕ
  off : ℕ
  reclen : ℕ
deriving DecidableEq

/-- `DIRENT64_RECLEN` of a name with its NUL; the name starts at byte 18 of a `dirent64`. -/
def dirent64Reclen (name : Name) : ℕ := (18 + 1 + (name.length + 1) + 7) / 8 * 8

def DirEntry.toDirent64 (tdp : DirEntry) : Dirent64 :=
  ⟨tdp.name, tdp.nodeid, tdp.offset + 1, dirent64Reclen tdp.name % 2 ^ 16⟩

/-- The loop over the list: the entries returned, the last value of `offset`, and whether the
end of the list was reached. -/
def readLoop (uioOffset wanted : ℕ) : List DirEntry → ℕ → ℕ → List DirEntry × ℕ × Bool
  | [], offset, _ => ([], offset, true)
  | tdp :: rest, _, outcount =>
    if uioOffset ≤ tdp.offset then
      if wanted < outcount + dirent64Reclen tdp.name then ([], tdp.offset, false)
      else
        let (out, last) :=
          readLoop uioOffset wanted rest tdp.offset (outcount + dirent64Reclen tdp.name)
        (tdp :: out, last)
    else readLoop uioOffset wanted rest tdp.offset outcount

/-- What a call returns: the entries, the new `uio_offset`, and `*eofp` if it was set. -/
structure Read where
  entries : List Dirent64
  offset : ℕ
  eof : Option Bool

def maxoffT : ℕ := 0x7fffffff

/-- `tmp_readdir`, with the result of `uiomove`.  A directory without entries has been removed;
its link count is 0. -/
def tmpReaddir (type : Vtype) (tp : Directory) (uio : Uio) (uiomove : Option Errno) :
    Except Errno Read :=
  if maxoffT ≤ uio.loffset then .ok ⟨[], uio.loffset, some true⟩
  else if uio.iovcnt ≠ 1 then .error .einval
  else if type ≠ .vdir then .error .enotdir
  else if tp.dir = [] then .ok ⟨[], uio.loffset, none⟩
  else
    let (out, offset, atEnd) := readLoop uio.loffset uio.iovLen tp.dir 0 0
    match uiomove with
    | some e => .error e
    | none =>
      let offset := if atEnd then offset + 1 else offset
      -- The end of the list sets *eofp first; this assignment overwrites it.
      .ok ⟨out.map DirEntry.toDirent64, offset, some (decide (tp.size ≤ offset))⟩

/-! ### The list of a directory -/

/-- The largest number of entries for which a 32-bit kernel has memory. -/
def maxEntries : ℕ := 2 ^ 27

/-- The list of a directory: ordered by offset, without equal names, `.` and `..` first (until
the directory is removed). -/
structure Directory.WellFormed (tp : Directory) : Prop where
  sorted : tp.dir.Pairwise (·.offset < ·.offset)
  nodup : (tp.dir.map DirEntry.name).Nodup
  size_eq : tp.size = (tp.dir.map fun e => allocSize e.name).sum
  first : tp.dir = [] ∨ ∃ i j rest, tp.dir = ⟨dot, i, 0⟩ :: ⟨dotdot, j, 1⟩ :: rest
  small : ∀ e ∈ tp.dir, e.offset < maxEntries

/-- The new entry stands right behind an entry `p` and before the next offset in use. -/
theorem install_spec (name : Name) (nodeid : ℕ) (p : DirEntry) (rest : List DirEntry)
    (h : (p :: rest).Pairwise (·.offset < ·.offset)) :
    ∃ pre q post, p :: rest = pre ++ q :: post ∧
      install name nodeid (p :: rest) = pre ++ q :: ⟨name, nodeid, q.offset + 1⟩ :: post ∧
      q.offset ≤ p.offset + pre.length ∧ ∀ e ∈ post, q.offset + 1 < e.offset := by
  induction rest generalizing p with
  | nil => exact ⟨[], p, [], rfl, rfl, by simp, by simp⟩
  | cons q rest ih =>
    rw [List.pairwise_cons] at h
    rw [install]
    by_cases hgap : q.offset - p.offset ≤ fakedirsiz
    · obtain ⟨pre, r, post, hsplit, hinstall, hle, hpost⟩ := ih q h.2
      rw [if_pos hgap]
      refine ⟨p :: pre, r, post, by rw [hsplit]; rfl, by rw [hinstall]; rfl, ?_, hpost⟩
      rw [fakedirsiz] at hgap
      rw [List.length_cons]
      omega
    · rw [if_neg hgap]
      refine ⟨[], p, q :: rest, rfl, rfl, by simp, ?_⟩
      rw [fakedirsiz] at hgap
      intro e he
      cases List.mem_cons.mp he with
      | inl he =>
        rw [he]
        omega
      | inr he =>
        have hlt := (List.pairwise_cons.mp h.2).1 e he
        omega

section Changes

variable {tp tp' : Directory}

/-- An added entry comes with an unused offset; the entries that were there stay. -/
theorem Directory.WellFormed.added (h : tp.WellFormed) {name : Name} {nodeid : ℕ}
    (hname : name ∉ tp.dir.map DirEntry.name) (hlen : tp.dir.length < maxEntries)
    (hadd : tdiraddentry tp name nodeid true = .ok tp') :
    tp'.WellFormed ∧ ∀ e ∈ tp.dir, e ∈ tp'.dir := by
  rw [tdiraddentry] at hadd
  split_ifs at hadd with hempty hno
  obtain ⟨i, j, rest, hdir⟩ := h.first.resolve_left hempty
  have hsorted := h.sorted
  rw [hdir] at hsorted
  obtain ⟨pre, q, post, hsplit, hinstall, hle, hpost⟩ := install_spec name nodeid _ _ hsorted
  rw [← hdir] at hsplit hinstall
  rw [hinstall] at hadd
  cases hadd
  have hperm : (pre ++ q :: ⟨name, nodeid, q.offset + 1⟩ :: post).Perm
      (⟨name, nodeid, q.offset + 1⟩ :: tp.dir) := by
    rw [hsplit, List.append_cons, List.append_cons pre q post]
    exact List.perm_middle
  have hq : pre.length + 1 ≤ tp.dir.length := by
    rw [hsplit, List.length_append, List.length_cons]
    omega
  refine ⟨⟨?_, ?_, ?_, ?_, ?_⟩, fun e he => hperm.symm.subset (List.mem_cons_of_mem _ he)⟩
  · have hold := h.sorted
    rw [hsplit] at hold
    rw [List.pairwise_append, List.pairwise_cons] at hold ⊢
    refine ⟨hold.1, ⟨?_, List.pairwise_cons.mpr ⟨hpost, hold.2.1.2⟩⟩, ?_⟩
    · intro e he
      cases List.mem_cons.mp he with
      | inl he => rw [he]; exact Nat.lt_succ_self _
      | inr he => exact hold.2.1.1 e he
    · intro e he e' he'
      have hlt := hold.2.2 e he q List.mem_cons_self
      cases List.mem_cons.mp he' with
      | inl he' => rw [he']; exact hlt
      | inr he' =>
        cases List.mem_cons.mp he' with
        | inl he' => rw [he']; exact hlt.trans (Nat.lt_succ_self _)
        | inr he' => exact hold.2.2 e he e' (List.mem_cons_of_mem _ he')
  · exact ((hperm.map DirEntry.name).nodup_iff).mpr (List.nodup_cons.mpr ⟨hname, h.nodup⟩)
  · rw [(hperm.map fun e => allocSize e.name).sum_eq, List.map_cons, List.sum_cons, h.size_eq]
    exact Nat.add_comm _ _
  · right
    cases pre with
    | nil =>
      -- the slot behind `.` is taken by `..`
      rw [hdir, List.nil_append, List.cons.injEq] at hsplit
      have hdd := hpost ⟨dotdot, j, 1⟩ (by rw [← hsplit.2]; exact List.mem_cons_self)
      rw [← hsplit.1] at hdd
      exact absurd hdd (Nat.lt_irrefl 1)
    | cons p pre =>
      cases pre with
      | nil =>
        rw [hdir, List.singleton_append, List.cons.injEq, List.cons.injEq] at hsplit
        obtain ⟨hp, hq, -⟩ := hsplit
        rw [← hp, ← hq]
        exact ⟨i, j, _, rfl⟩
      | cons r pre =>
        rw [hdir, List.cons_append, List.cons_append, List.cons.injEq, List.cons.injEq] at hsplit
        obtain ⟨hp, hr, -⟩ := hsplit
        rw [← hp, ← hr]
        exact ⟨i, j, _, rfl⟩
  · intro e he
    cases List.mem_cons.mp (hperm.subset he) with
    | inl he =>
      rw [he]
      dsimp only at hle ⊢
      omega
    | inr he => exact h.small e he

/-- Taking a name out leaves every other entry with its offset. -/
theorem Directory.WellFormed.unlinked (h : tp.WellFormed) {name : Name}
    (hdel : unlinkEntry tp name = .ok tp') :
    tp'.WellFormed ∧ ∀ e ∈ tp.dir, e.name ≠ name → e ∈ tp'.dir := by
  rw [unlinkEntry] at hdel
  split_ifs at hdel with hdot hdotdot hnone
  cases hdel
  have hsub := List.eraseP_sublist (p := fun e : DirEntry => decide (e.name = name)) (l := tp.dir)
  refine ⟨⟨h.sorted.sublist hsub, h.nodup.sublist (hsub.map _), ?_, ?_,
    fun e he => h.small e (hsub.subset he)⟩, fun e he hne => ?_⟩
  · obtain ⟨e, he⟩ := Option.isSome_iff_exists.mp (by simpa using hnone :
      (tp.dir.find? fun e => decide (e.name = name)).isSome)
    have hfound : decide (e.name = name) = true :=
      List.find?_some (p := fun e : DirEntry => decide (e.name = name)) he
    obtain ⟨a, l1, l2, -, ha, hl, herase⟩ := List.exists_of_eraseP
      (p := fun e : DirEntry => decide (e.name = name)) (List.mem_of_find?_eq_some he) hfound
    dsimp only
    rw [h.size_eq, herase, hl, ← of_decide_eq_true ha]
    simp only [List.map_append, List.map_cons, List.sum_append, List.sum_cons]
    omega
  · cases h.first with
    | inl hnil => left; simp [hnil]
    | inr hfirst =>
      obtain ⟨i, j, rest, hdir⟩ := hfirst
      right
      refine ⟨i, j, rest.eraseP fun e => decide (e.name = name), ?_⟩
      dsimp only
      rw [hdir, List.eraseP_cons_of_neg (by simpa using Ne.symm hdot),
        List.eraseP_cons_of_neg (by simpa using Ne.symm hdotdot)]
  · exact (List.mem_eraseP_of_neg (by simpa using hne)).mpr he

theorem Directory.wellFormed_nil : (⟨[], 0⟩ : Directory).WellFormed :=
  ⟨List.Pairwise.nil, List.nodup_nil, rfl, .inl rfl, by simp⟩

end Changes

/-! ### One call -/

/-- The bytes that entries take in the buffer. -/
def reclens (out : List DirEntry) : ℕ := (out.map fun e => dirent64Reclen e.name).sum

/-- The entries that the call has to return: those from the offset on. -/
def Directory.from (tp : Directory) (off : ℕ) : List DirEntry :=
  tp.dir.filter (off ≤ ·.offset)

/-- `e` is the first entry from `off` on that does not fit into `len` bytes. -/
def Directory.Stops (tp : Directory) (off len : ℕ) (e : DirEntry) : Prop :=
  ∃ out rest, tp.from off = out ++ e :: rest ∧ reclens out ≤ len ∧
    len < reclens out + dirent64Reclen e.name

/-- The loop returns the entries from `off` on up to the first that does not fit; `offset` ends
as that entry's, or as the last one of the list. -/
theorem readLoop_spec (off len : ℕ) (l : List DirEntry) (offset outcount : ℕ)
    (hcount : outcount ≤ len) :
    (∃ out, l.filter (off ≤ ·.offset) = out ∧
      readLoop off len l offset outcount = (out, (l.getLast?.map (·.offset)).getD offset, true) ∧
      outcount + reclens out ≤ len) ∨
    (∃ out e rest, l.filter (off ≤ ·.offset) = out ++ e :: rest ∧
      readLoop off len l offset outcount = (out, e.offset, false) ∧
      outcount + reclens out ≤ len ∧ len < outcount + reclens out + dirent64Reclen e.name) := by
  induction l generalizing offset outcount with
  | nil => exact .inl ⟨[], rfl, rfl, by simpa [reclens] using hcount⟩
  | cons tdp rest ih =>
    have hlast : ((tdp :: rest).getLast?.map (·.offset)).getD offset =
        (rest.getLast?.map (·.offset)).getD tdp.offset := by
      cases rest with
      | nil => rfl
      | cons q rest => simp [List.getLast?_eq_some_getLast]
    rw [readLoop, hlast]
    by_cases hoff : off ≤ tdp.offset
    · rw [if_pos hoff, List.filter_cons_of_pos (by simpa using hoff)]
      by_cases hfit : len < outcount + dirent64Reclen tdp.name
      · rw [if_pos hfit]
        exact .inr ⟨[], tdp, _, rfl, rfl, by simpa [reclens] using hcount,
          by simpa [reclens] using hfit⟩
      · rw [if_neg hfit]
        cases ih tdp.offset (outcount + dirent64Reclen tdp.name) (not_lt.mp hfit) with
        | inl hend =>
          obtain ⟨out, hout, hloop, hle⟩ := hend
          refine .inl ⟨tdp :: out, by rw [hout], by rw [hloop], ?_⟩
          simp only [reclens, List.map_cons, List.sum_cons] at hle ⊢
          omega
        | inr hstop =>
          obtain ⟨out, e, tail, hout, hloop, hle, hlt⟩ := hstop
          refine .inr ⟨tdp :: out, e, tail, by rw [hout]; rfl, by rw [hloop], ?_, ?_⟩
          · simp only [reclens, List.map_cons, List.sum_cons] at hle ⊢
            omega
          · simp only [reclens, List.map_cons, List.sum_cons] at hlt ⊢
            omega
    · rw [if_neg hoff, List.filter_cons_of_neg (by simpa using hoff)]
      exact ih tdp.offset outcount hcount

/-- A call of a scan: one buffer, and `uiomove` succeeds. -/
def Directory.call (tp : Directory) (off len : ℕ) : Read :=
  match tmpReaddir .vdir tp ⟨1, len, off⟩ none with
  | .ok r => r
  | .error _ => ⟨[], off, none⟩

/-- What one call does.  `out` are the entries between the old and the new offset. -/
structure Directory.CallSpec (tp : Directory) (off len : ℕ) (r : Read) : Prop where
  entries_eq : r.entries =
    (tp.dir.filter fun e => off ≤ e.offset ∧ e.offset < r.offset).map DirEntry.toDirent64
  /-- The offset moves back only if nothing is left. -/
  forward : off ≤ r.offset ∨ ∀ e ∈ tp.dir, e.offset < r.offset
  /-- While something is left, the call stopped at an entry that does not fit. -/
  stops : ∀ e ∈ tp.dir, r.offset ≤ e.offset →
    ∃ f, tp.Stops off len f ∧ r.offset = f.offset
  /-- The entry at which a call stops is left for the next one. -/
  left : ∀ f, tp.Stops off len f → f ∈ tp.dir ∧ r.offset = f.offset
  eof_eq : r.eof = if tp.dir = [] then none else some (decide (tp.size ≤ r.offset))
  small : r.offset ≤ maxEntries

theorem reclens_append_cons (out : List DirEntry) (e : DirEntry) (rest : List DirEntry) :
    reclens out + dirent64Reclen e.name ≤ reclens (out ++ e :: rest) := by
  simp only [reclens, List.map_append, List.map_cons, List.sum_append, List.sum_cons]
  omega

/-- Two entries that do not fit first are one. -/
theorem Directory.Stops.unique {tp : Directory} {off len : ℕ} {e f : DirEntry}
    (he : tp.Stops off len e) (hf : tp.Stops off len f) : e = f := by
  obtain ⟨out, rest, hout, hle, hlt⟩ := he
  obtain ⟨out', rest', hout', hle', hlt'⟩ := hf
  rw [hout, List.append_eq_append_iff] at hout'
  obtain ⟨mid, hmid, htail⟩ | ⟨mid, hmid, htail⟩ := hout'
  · cases mid with
    | nil => exact (List.cons.inj htail).1
    | cons x mid =>
      have hx : e = x := (List.cons.inj htail).1
      have hmore := reclens_append_cons out x mid
      rw [← hmid, ← hx] at hmore
      omega
  · cases mid with
    | nil => exact (List.cons.inj htail).1.symm
    | cons x mid =>
      have hx : f = x := (List.cons.inj htail).1
      have hmore := reclens_append_cons out' x mid
      rw [← hmid, ← hx] at hmore
      omega

theorem Directory.mem_from {tp : Directory} {off : ℕ} {e : DirEntry} :
    e ∈ tp.from off ↔ e ∈ tp.dir ∧ off ≤ e.offset := by
  simp [Directory.from]

theorem Directory.Stops.mem {tp : Directory} {off len : ℕ} {e : DirEntry}
    (he : tp.Stops off len e) : e ∈ tp.dir ∧ off ≤ e.offset := by
  obtain ⟨out, rest, hout, -, -⟩ := he
  rw [← Directory.mem_from, hout]
  simp

/-- In a sorted list the entries before `f` are those with smaller offsets. -/
theorem Directory.WellFormed.filter_lt {tp : Directory} (h : tp.WellFormed) {off : ℕ}
    {out rest : List DirEntry} {f : DirEntry} (hout : tp.from off = out ++ f :: rest) :
    (tp.dir.filter fun e => off ≤ e.offset ∧ e.offset < f.offset) = out := by
  have hsorted : (out ++ f :: rest).Pairwise (·.offset < ·.offset) := by
    rw [← hout]
    exact h.sorted.sublist List.filter_sublist
  rw [List.pairwise_append, List.pairwise_cons] at hsorted
  have hsplit : (tp.dir.filter fun e => off ≤ e.offset ∧ e.offset < f.offset) =
      (tp.from off).filter fun e => e.offset < f.offset := by
    rw [Directory.from, List.filter_filter]
    exact List.filter_congr fun e _ => by simp [Bool.and_comm]
  rw [hsplit, hout, List.filter_append, List.filter_cons_of_neg (by simp)]
  rw [List.filter_eq_self.mpr fun e he => by
    simpa using hsorted.2.2 e he f List.mem_cons_self]
  rw [List.filter_eq_nil_iff.mpr fun e he => by
    simpa using (hsorted.2.1.1 e he).le, List.append_nil]

/-- No entry has a larger offset than the last. -/
theorem Directory.WellFormed.le_last {tp : Directory} (h : tp.WellFormed) {e : DirEntry}
    (he : e ∈ tp.dir) : e.offset ≤ (tp.dir.getLast?.map (·.offset)).getD 0 := by
  obtain ⟨init, last, hdir⟩ := (List.eq_nil_or_concat tp.dir).resolve_left (List.ne_nil_of_mem he)
  have hsorted := h.sorted
  rw [hdir, List.concat_eq_append] at he hsorted ⊢
  rw [List.getLast?_concat, Option.map_some, Option.getD_some]
  rw [List.pairwise_append] at hsorted
  cases List.mem_append.mp he with
  | inl he => exact (hsorted.2.2 e he last (List.mem_singleton_self _)).le
  | inr he => rw [List.mem_singleton.mp he]

theorem Directory.WellFormed.call_spec {tp : Directory} (h : tp.WellFormed) {off : ℕ}
    (hoff : off ≤ maxEntries) (len : ℕ) : tp.CallSpec off len (tp.call off len) := by
  have hmax : ¬maxoffT ≤ off := by
    rw [maxoffT]
    rw [maxEntries] at hoff
    omega
  by_cases hempty : tp.dir = []
  · have hcall : tp.call off len = ⟨[], off, none⟩ := by
      simp [Directory.call, tmpReaddir, hmax, hempty]
    rw [hcall]
    refine ⟨by simp [hempty], .inl (le_refl _), by simp [hempty], fun f hf => ?_,
      by rw [if_pos hempty], hoff⟩
    have hmem := hf.mem.1
    simp [hempty] at hmem
  cases readLoop_spec off len tp.dir 0 0 (Nat.zero_le _) with
  | inl hend =>
    obtain ⟨out, hout, hloop, hle⟩ := hend
    set last := (tp.dir.getLast?.map (·.offset)).getD 0 with hlast
    have hcall : tp.call off len =
        ⟨out.map DirEntry.toDirent64, last + 1, some (decide (tp.size ≤ last + 1))⟩ := by
      simp [Directory.call, tmpReaddir, hmax, hempty, hloop]
    have hbelow : ∀ e ∈ tp.dir, e.offset < last + 1 := fun e he =>
      Nat.lt_succ_of_le (h.le_last he)
    rw [hcall]
    refine ⟨?_, .inr hbelow, fun e he hge => ?_, fun f hf => ?_, by rw [if_neg hempty], ?_⟩
    · rw [← hout]
      refine congrArg _ (List.filter_congr fun e he => ?_)
      simp [hbelow e he]
    · exact absurd (hbelow e he) (not_lt.mpr hge)
    · obtain ⟨out', rest, hout', -, hlt⟩ := hf
      have hmore := reclens_append_cons out' f rest
      rw [← hout', Directory.from, hout] at hmore
      omega
    · obtain ⟨init, e, hconcat⟩ := (List.eq_nil_or_concat tp.dir).resolve_left hempty
      have hsmall := h.small e (by rw [hconcat]; simp)
      rw [hlast, hconcat, List.concat_eq_append, List.getLast?_concat]
      exact hsmall
  | inr hstop =>
    obtain ⟨out, f, rest, hout, hloop, hle, hlt⟩ := hstop
    rw [Nat.zero_add] at hle hlt
    have hstops : tp.Stops off len f := ⟨out, rest, hout, hle, hlt⟩
    have hcall : tp.call off len =
        ⟨out.map DirEntry.toDirent64, f.offset, some (decide (tp.size ≤ f.offset))⟩ := by
      simp [Directory.call, tmpReaddir, hmax, hempty, hloop]
    rw [hcall]
    refine ⟨?_, .inl hstops.mem.2, fun e he hge => ⟨f, hstops, rfl⟩, fun f' hf' => ?_,
      by rw [if_neg hempty], (h.small f hstops.mem.1).le⟩
    · rw [h.filter_lt hout]
    · rw [hf'.unique hstops]
      exact ⟨hstops.mem.1, rfl⟩

end Sol26.Tmpfs.Reading
