import Mathlib.Tactic.Ring
import Sol26.Tmpfs.Write

/-!
# What a tmpfs write stores

`wrtmp` stores what it reports, but for two kinds of copies that fail half way: one that has
gone beyond the end of the file, which is then cut back, and one of a whole page, of which
the part not copied is cleared.
-/
namespace Sol26.Tmpfs

open Nat (add_mul div_add_mod mod_lt mul_comm one_mul)
open File (byte setPage)

variable {env : Wenv} {f : File} {start stop total : ℕ}

/-- Bytes beyond the size are zero in the last page, and there are no pages after it. -/
structure Clean (pageSize : ℕ) (f : File) : Prop where
  last : ∀ x, f.size ≤ x → x < roundup f.size pageSize → f.byte pageSize x = 0
  beyond : ∀ p, roundup f.size pageSize ≤ p * pageSize → f.anon p = none

/-- What a write of `n` bytes at `off` is to leave behind. -/
structure Stores (pageSize : ℕ) (f f' : File) (off n : ℕ) (data : ℕ → UInt8) : Prop where
  stored : ∀ i < n, f'.byte pageSize (off + i) = data i
  size : f.size ≤ f'.size
  covers : 0 < n → off + n ≤ f'.size
  kept : ∀ x < f.size, x < off ∨ off + n ≤ x → f'.byte pageSize x = f.byte pageSize x
  zero : ∀ x, f.size ≤ x → x < off → f'.byte pageSize x = 0

/-! ### The copies of a write -/

/-- The length of the copy that starts at `o`. -/
def span (env : Wenv) (stop o : ℕ) : ℕ := min (env.pageSize - o % env.pageSize) (stop - o)

/-- The size of the file when the copy at `o` starts. -/
def sizeAt (f : File) (start o : ℕ) : ℕ := if o = start then f.size else max f.size o

/-- Space for the copy at `o` is there or can be reserved. -/
def HasSpace (env : Wenv) (f : File) (start stop o : ℕ) : Prop :=
  ¬ (roundup (sizeAt f start o) env.pageSize < o + span env stop o ∧ env.resv o = false)

/-- The offsets of the copies that a write makes one after the other. -/
inductive Copies (env : Wenv) (f : File) (start stop : ℕ) : ℕ → Prop
  | first (h : start < stop) : Copies env f start stop start
  | next {o : ℕ} (h : Copies env f start stop o) (hspace : HasSpace env f start stop o)
      (hfault : env.fault o = none) (hmore : o + span env stop o < stop) :
      Copies env f start stop (o + span env stop o)

/-- The copy at `o` fails after `m` bytes. -/
def Fails (env : Wenv) (f : File) (start stop o m : ℕ) : Prop :=
  Copies env f start stop o ∧ HasSpace env f start stop o ∧
    ∃ k, env.fault o = some k ∧ m = min k (span env stop o)

/-- A copy that fails after `m` bytes, in a write that stored something, spoils the file when
it is beyond the old size, or when it was to replace a whole page of which bytes remain. -/
def Spoils (env : Wenv) (f : File) (start stop o m : ℕ) : Prop :=
  0 < o - start + m ∧
    ((0 < m ∧ f.size < o + m) ∨
      (span env stop o = env.pageSize ∧ ∃ x, o + m ≤ x ∧ x < o + env.pageSize ∧ x < f.size ∧
        f.byte env.pageSize x ≠ 0))

/-! ### Pages -/

variable {g : File} {w : Wstate} {P i len m o o' x : ℕ}

theorem le_roundup {y : ℕ} (hy : 0 < y) : x ≤ roundup x y := by
  have h := div_add_mod (x + (y - 1)) y
  have hm := mod_lt (x + (y - 1)) hy
  rw [roundup, mul_comm]
  omega

theorem byte_setPage (g : File) (p : ℕ) (page : Page) (x : ℕ) :
    (g.setPage p (some page)).byte P x = if x / P = p then page (x % P) else g.byte P x := by
  simp only [byte, setPage]
  by_cases h : x / P = p
  · rw [if_pos h, if_pos h]
  · rw [if_neg h, if_neg h]

theorem clean_byte (hP : 0 < P) (h : Clean P f) (hx : f.size ≤ x) : f.byte P x = 0 := by
  by_cases hl : x < roundup f.size P
  · exact h.last x hx hl
  · have hr : roundup f.size P ≤ x / P * P := by
      have hle : roundup f.size P / P ≤ x / P := Nat.div_le_div_right (not_lt.1 hl)
      calc roundup f.size P = roundup f.size P / P * P := by
            rw [roundup, Nat.mul_div_cancel _ hP]
        _ ≤ x / P * P := Nat.mul_le_mul_right P hle
    rw [byte, h.beyond _ hr]

theorem tmpnodeTrunc_shrink (hP : 0 < P) {n : ℕ} (hn : n < g.size) (resv : Bool) :
    (tmpnodeTrunc P resv g n).1.size = n ∧
      ∀ x < n, (tmpnodeTrunc P resv g n).1.byte P x = g.byte P x := by
  have h1 : n ≠ g.size := ne_of_lt hn
  have h2 : ¬ g.size < n := by omega
  have hdiv : roundup n P / P = (n + (P - 1)) / P := by
    rw [roundup, Nat.mul_div_cancel _ hP]
  have hpage : ∀ x < n, ¬ roundup n P / P ≤ x / P := by
    intro x hx hle
    rw [hdiv] at hle
    have hmul := Nat.div_mul_le_self x P
    have hlt : n ≤ (n + (P - 1)) / P * P := le_roundup hP
    have := Nat.mul_le_mul_right P hle
    omega
  simp only [tmpnodeTrunc, if_neg h1, if_neg h2]
  split
  · rename_i page hpg
    refine ⟨rfl, ?_⟩
    intro x hx
    rw [byte_setPage]
    have hkeep := hpage x hx
    split
    · rename_i hxp
      have hmod : ¬ (n % P ≤ x % P ∧ x % P < P) := by
        have hx' := div_add_mod x P
        have hn' := div_add_mod n P
        rw [hxp] at hx'
        omega
      rw [← hxp, if_neg hkeep] at hpg
      rw [kzero, if_neg hmod, byte, hpg]
    · simp only [byte, if_neg hkeep]
  · refine ⟨rfl, ?_⟩
    intro x hx
    simp only [byte, if_neg (hpage x hx)]

/-! ### One copy -/

/-- The bytes of the write up to `o`, over those of the old file. -/
def overlay (env : Wenv) (f : File) (start o x : ℕ) : UInt8 :=
  if start ≤ x ∧ x < o then env.data (x - start) else f.byte env.pageSize x

/-- The state when the copy at `w.offset` starts: everything before it is written. -/
structure Written (env : Wenv) (f : File) (start : ℕ) (w : Wstate) : Prop where
  start_le : start ≤ w.offset
  size : w.file.size = sizeAt f start w.offset
  bytes : ∀ x, w.file.byte env.pageSize x = overlay env f start w.offset x
  grown : w.oldSize ≠ none → w.file.size = w.offset

/-- A copy ends in the page it starts in. -/
theorem roundup_copy (hP : 0 < P) (hpos : 0 < len) (hlen : len ≤ P - o % P) :
    roundup (o + len) P = P * (o / P) + P := by
  have ho := div_add_mod o P
  have hm := mod_lt o hP
  have hsum : o + len + (P - 1) = (len - 1 + o % P) + P * (o / P + 1) := by
    rw [Nat.mul_add]
    omega
  have hdiv : (o + len + (P - 1)) / P = o / P + 1 := by
    rw [hsum, Nat.add_mul_div_left _ _ hP, Nat.div_eq_of_lt (by omega), Nat.zero_add]
  rw [roundup, hdiv, add_mul, one_mul, mul_comm]

theorem copiedPage_moved (hi : o % env.pageSize ≤ i) (him : i < o % env.pageSize + m) :
    copiedPage env g start o len m i = env.data (o - start + (i - o % env.pageSize)) := by
  have hz : ¬ (o % env.pageSize + m ≤ i ∧ i < env.pageSize) := by omega
  simp only [copiedPage]
  split
  · rw [kzero, if_neg hz, uiomove, if_pos ⟨hi, him⟩]
  · rw [uiomove, if_pos ⟨hi, him⟩]

/-- A page that was created is zero outside the bytes moved. -/
theorem copiedPage_created (hP : 0 < env.pageSize) (hpos : 0 < len)
    (hlen : len ≤ env.pageSize - o % env.pageSize) (hlt : i < env.pageSize)
    (hc : basePage env g (o / env.pageSize) (o % env.pageSize) (len = env.pageSize) =
      (kzero (env.junk (o / env.pageSize)) 0 (o % env.pageSize), true))
    (hi : ¬ (o % env.pageSize ≤ i ∧ i < o % env.pageSize + m)) :
    copiedPage env g start o len m i = 0 := by
  have ho := div_add_mod o env.pageSize
  simp only [copiedPage, hc, true_and, roundup_copy hP hpos hlen]
  by_cases hfront : i < o % env.pageSize
  · have hz : ¬ (o % env.pageSize + m ≤ i ∧ i < env.pageSize) := by omega
    have hk : kzero (env.junk (o / env.pageSize)) 0 (o % env.pageSize) i = 0 := by
      rw [kzero, if_pos ⟨Nat.zero_le i, hfront⟩]
    split
    · rw [kzero, if_neg hz, uiomove, if_neg hi, hk]
    · rw [uiomove, if_neg hi, hk]
  · rw [if_pos (by omega), kzero, if_pos (by omega)]

theorem copiedPage_kept {page : Page}
    (hc : basePage env g (o / env.pageSize) (o % env.pageSize) (len = env.pageSize) = (page, false))
    (hi : ¬ (o % env.pageSize ≤ i ∧ i < o % env.pageSize + m)) :
    copiedPage env g start o len m i = page i := by
  simp only [copiedPage, hc]
  rw [if_neg (by simp), uiomove, if_neg hi]

/-- What a copy of `len` bytes, of which `m` are moved, leaves in the file. -/
theorem copied_byte (hP : 0 < env.pageSize) (g : File) (hso : start ≤ o)
    (hpos : 0 < len) (hlen : len ≤ env.pageSize - o % env.pageSize) (hm : m ≤ len) (x : ℕ) :
    (g.setPage (o / env.pageSize) (some (copiedPage env g start o len m))).byte env.pageSize x =
      if o ≤ x ∧ x < o + m then env.data (x - start)
      else if len = env.pageSize ∧ x / env.pageSize = o / env.pageSize then 0
      else g.byte env.pageSize x := by
  have ho := div_add_mod o env.pageSize
  have hx := div_add_mod x env.pageSize
  have hom := mod_lt o hP
  have hxm := mod_lt x hP
  rw [byte_setPage]
  by_cases hxp : x / env.pageSize = o / env.pageSize
  · rw [if_pos hxp]
    rw [hxp] at hx
    by_cases hin : o ≤ x ∧ x < o + m
    · rw [if_pos hin, copiedPage_moved (by omega) (by omega)]
      congr 1
      omega
    · have hin' : ¬ (o % env.pageSize ≤ x % env.pageSize ∧
          x % env.pageSize < o % env.pageSize + m) := by omega
      rw [if_neg hin]
      cases hanon : g.anon (o / env.pageSize) with
      | none =>
        rw [copiedPage_created hP hpos hlen hxm (by simp [basePage, hanon]) hin']
        split
        · rfl
        · rw [byte, hxp, hanon]
      | some page =>
        by_cases hwhole : len = env.pageSize
        · rw [copiedPage_created hP hpos hlen hxm (by simp [basePage, hanon, hwhole]) hin',
            if_pos ⟨hwhole, hxp⟩]
        · rw [copiedPage_kept (by simp [basePage, hanon, hwhole]; rfl) hin',
            if_neg fun h => hwhole h.1, byte, hxp, hanon]
  · have hout : ¬ (o ≤ x ∧ x < o + m) := by
      intro h
      apply hxp
      have h1 : o / env.pageSize ≤ x / env.pageSize := Nat.div_le_div_right h.1
      have h2 : x / env.pageSize < o / env.pageSize + 1 := by
        rw [Nat.div_lt_iff_lt_mul hP, add_mul, one_mul, mul_comm]
        omega
      omega
    rw [if_neg hxp, if_neg hout, if_neg fun h => hxp h.2]

/-! ### Successful and failed copies -/

theorem Wstate.grow_size (w : Wstate) (n : ℕ) : (w.grow n).file.size = max w.file.size n := by
  simp only [Wstate.grow]
  split
  · simp only
    omega
  · omega

theorem Wstate.grow_anon (w : Wstate) (n : ℕ) : (w.grow n).file.anon = w.file.anon := by
  simp only [Wstate.grow]
  split <;> rfl

theorem Wstate.grow_resid (w : Wstate) (n : ℕ) : (w.grow n).resid = w.resid := by
  simp only [Wstate.grow]
  split <;> rfl

theorem Wstate.grow_byte (w : Wstate) (n P x : ℕ) : (w.grow n).file.byte P x = w.file.byte P x := by
  simp only [byte, Wstate.grow_anon]

theorem le_sizeAt (o : ℕ) : f.size ≤ sizeAt f start o := by
  simp only [sizeAt]
  split <;> omega

/-- A copy of a whole page covers the page. -/
theorem whole_page (hP : 0 < P) (hlen : len ≤ P - o % P) (hw : len = P) :
    x / P = o / P ↔ o ≤ x ∧ x < o + P := by
  have hm := mod_lt o hP
  have hzero : o % P = 0 := by omega
  have ho := div_add_mod o P
  have hx := div_add_mod x P
  have hxm := mod_lt x hP
  constructor
  · intro h
    rw [h] at hx
    omega
  · rintro ⟨h1, h2⟩
    have h3 : o / P ≤ x / P := Nat.div_le_div_right h1
    have h4 : x / P < o / P + 1 := by
      rw [Nat.div_lt_iff_lt_mul hP, add_mul, one_mul, mul_comm]
      omega
    omega

/-- A file that grew grows again at the next copy. -/
theorem Written.grow_oldSize (hw : Written env f start w) {n : ℕ} (hn : w.offset < n) :
    (w.grow n).oldSize = if w.file.size < n then some w.file.size else none := by
  simp only [Wstate.grow]
  split
  · rfl
  · by_contra hne
    have := hw.grown hne
    omega

/-- A copy that succeeds. -/
theorem copyPage_ok (hP : 0 < env.pageSize) (hw : Written env f start w) (hpos : 0 < len)
    (hlen : len ≤ env.pageSize - w.offset % env.pageSize) (hfault : env.fault w.offset = none) :
    ∃ w', copyPage env start w len = (w', none) ∧ Written env f start w' ∧
      w'.offset = w.offset + len ∧ w'.resid = w.resid - len := by
  have hso := hw.start_le
  simp only [copyPage, hfault]
  refine ⟨_, rfl, ⟨?_, ?_, ?_, ?_⟩, rfl, ?_⟩
  · simp only
    omega
  · simp only [setPage, Wstate.grow_size, hw.size, sizeAt]
    split_ifs <;> omega
  · intro x
    simp only [copied_byte hP _ hso hpos hlen le_rfl, Wstate.grow_byte, hw.bytes, overlay]
    by_cases hin : w.offset ≤ x ∧ x < w.offset + len
    · rw [if_pos hin, if_pos (by omega)]
    · have hpage : ¬ (len = env.pageSize ∧ x / env.pageSize = w.offset / env.pageSize) := by
        rintro ⟨hwhole, hx⟩
        rw [whole_page hP hlen hwhole] at hx
        omega
      rw [if_neg hin, if_neg hpage]
      by_cases hb : start ≤ x ∧ x < w.offset
      · rw [if_pos hb, if_pos (by omega)]
      · rw [if_neg hb, if_neg (by omega)]
  · intro hgrown
    simp only [hw.grow_oldSize (Nat.lt_add_of_pos_right hpos)] at hgrown
    simp only [setPage, Wstate.grow_size]
    split at hgrown
    · omega
    · exact absurd rfl hgrown
  · simp only [Wstate.grow_resid]

/-- A copy that fails after `m` bytes: the size is as before the copy, and of a whole page the
bytes not moved are cleared. -/
theorem copyPage_failed (hP : 0 < env.pageSize) (hw : Written env f start w)
    {k : ℕ} (hpos : 0 < len) (hlen : len ≤ env.pageSize - w.offset % env.pageSize)
    (hfault : env.fault w.offset = some k) :
    ∃ w', copyPage env start w len = (w', some .efault) ∧
      w'.resid = w.resid - min k len ∧ w'.file.size = sizeAt f start w.offset ∧
      ∀ x < sizeAt f start w.offset, w'.file.byte env.pageSize x =
        if len = env.pageSize ∧ w.offset + min k len ≤ x ∧ x < w.offset + env.pageSize then 0
        else overlay env f start (w.offset + min k len) x := by
  have hso := hw.start_le
  have hbyte : ∀ x, ((w.grow (w.offset + len)).file.setPage (w.offset / env.pageSize)
      (some (copiedPage env (w.grow (w.offset + len)).file start w.offset len
        (min k len)))).byte env.pageSize x =
        if len = env.pageSize ∧ w.offset + min k len ≤ x ∧ x < w.offset + env.pageSize then 0
        else overlay env f start (w.offset + min k len) x := by
    intro x
    simp only [copied_byte hP _ hso hpos hlen (min_le_right k len), Wstate.grow_byte, hw.bytes, overlay]
    have hpage : (len = env.pageSize ∧ x / env.pageSize = w.offset / env.pageSize) ↔
        (len = env.pageSize ∧ w.offset ≤ x ∧ x < w.offset + env.pageSize) :=
      and_congr_right fun hwhole => whole_page hP hlen hwhole
    simp only [hpage]
    split_ifs <;> first | rfl | (exfalso; omega)
  simp only [copyPage, hfault, hw.grow_oldSize (Nat.lt_add_of_pos_right hpos)]
  by_cases hg : w.file.size < w.offset + len
  · have hlt : w.file.size < ((w.grow (w.offset + len)).file.setPage (w.offset / env.pageSize)
        (some (copiedPage env (w.grow (w.offset + len)).file start w.offset len
          (min k len)))).size := by
      simp only [setPage, Wstate.grow_size]
      omega
    have htrunc := tmpnodeTrunc_shrink hP hlt true
    simp only [if_pos hg]
    refine ⟨_, rfl, ?_, ?_, ?_⟩
    · simp only [Wstate.grow_resid]
    · rw [← hw.size]
      exact htrunc.1
    · intro x hx
      rw [← hw.size] at hx
      exact (htrunc.2 x hx).trans (hbyte x)
  · simp only [if_neg hg]
    refine ⟨_, rfl, ?_, ?_, ?_⟩
    · simp only [Wstate.grow_resid]
    · simp only [setPage, Wstate.grow_size, ← hw.size]
      omega
    · exact fun x _ => hbyte x

/-! ### The loop -/

/-- The copy at `o` is the last one, and it did not fail: there is no space for it, or it
reached the end. -/
def Done (env : Wenv) (f : File) (start stop o : ℕ) : Prop :=
  Copies env f start stop o ∧
    (¬ HasSpace env f start stop o ∨ (env.fault o = none ∧ stop ≤ o + span env stop o))

/-- What is left after a copy at `o` that failed after `m` bytes. -/
structure Failed (env : Wenv) (f : File) (start stop o m : ℕ) (f' : File) : Prop where
  size : f'.size = sizeAt f start o
  bytes : ∀ x < sizeAt f start o, f'.byte env.pageSize x =
    if span env stop o = env.pageSize ∧ o + m ≤ x ∧ x < o + env.pageSize then 0
    else overlay env f start (o + m) x

/-- The copy after the one at `o`. -/
def Next (env : Wenv) (f : File) (start stop o o' : ℕ) : Prop :=
  HasSpace env f start stop o ∧ env.fault o = none ∧ o + span env stop o < stop ∧
    o' = o + span env stop o

theorem Copies.reach (h : Copies env f start stop o) :
    Relation.ReflTransGen (Next env f start stop) start o := by
  induction h with
  | first h => exact Relation.ReflTransGen.refl
  | next h hspace hfault hmore ih => exact ih.tail ⟨hspace, hfault, hmore, rfl⟩

/-- The copies follow one another, so that there is only one after which none follows. -/
theorem Copies.last_unique (h : Copies env f start stop o)
    (h' : Copies env f start stop o') (hlast : ∀ x, ¬ Next env f start stop o x)
    (hlast' : ∀ x, ¬ Next env f start stop o' x) : o = o' := by
  have hfun : Relator.RightUnique (Next env f start stop) :=
    fun _ _ _ h₁ h₂ => h₁.2.2.2.trans h₂.2.2.2.symm
  cases Relation.ReflTransGen.total_of_right_unique hfun h.reach h'.reach with
  | inl hreach =>
    cases Relation.ReflTransGen.cases_head hreach with
    | inl heq => exact heq
    | inr hstep => exact absurd hstep.choose_spec.1 (hlast _)
  | inr hreach =>
    cases Relation.ReflTransGen.cases_head hreach with
    | inl heq => exact heq.symm
    | inr hstep => exact absurd hstep.choose_spec.1 (hlast' _)

theorem Fails.last (h : Fails env f start stop o m) (x : ℕ) : ¬ Next env f start stop o x := by
  obtain ⟨_, _, k, hk, _⟩ := h
  intro hnext
  have hnone := hnext.2.1
  simp [hk] at hnone

theorem Done.last (h : Done env f start stop o) (x : ℕ) : ¬ Next env f start stop o x := by
  intro hnext
  cases h.2 with
  | inl hno => exact hno hnext.1
  | inr hend => exact absurd hnext.2.2.1 (not_lt.2 hend.2)

theorem Done.not_fails (h : Done env f start stop o) : ¬ Fails env f start stop o' m := by
  intro hf
  have heq := h.1.last_unique hf.1 h.last hf.last
  subst heq
  obtain ⟨_, hspace, k, hk, _⟩ := hf
  cases h.2 with
  | inl hno => exact hno hspace
  | inr hend =>
    rw [hk] at hend
    cases hend.1

theorem Fails.unique {m' : ℕ} (h : Fails env f start stop o m)
    (h' : Fails env f start stop o' m') : o = o' ∧ m = m' := by
  have heq := h.1.last_unique h'.1 h.last h'.last
  subst heq
  obtain ⟨_, _, k, hk, rfl⟩ := h
  obtain ⟨_, _, k', hk', rfl⟩ := h'
  rw [hk] at hk'
  cases hk'
  exact ⟨rfl, rfl⟩

theorem Copies.lt (h : Copies env f start stop o) : o < stop := by
  cases h with
  | first h => exact h
  | next h hspace hfault hmore => exact hmore

theorem Copies.start_lt (h : Copies env f start stop o) : start < stop := by
  induction h with
  | first h => exact h
  | next h hspace hfault hmore ih => exact ih

theorem span_pos (hP : 0 < env.pageSize) (h : o < stop) : 0 < span env stop o := by
  have hm := mod_lt o hP
  simp only [span]
  omega

/-- A pass below the limit copies the bytes up to the end of the page or of the write. -/
theorem wrtmpPage_below {limit : ℕ} (hw : Written env f start w) (hlim : w.offset < limit) :
    wrtmpPage env start limit w =
      if roundup (sizeAt f start w.offset) env.pageSize <
          w.offset + span env (min (w.offset + w.resid) limit) w.offset ∧
          env.resv w.offset = false then (w, some .enospc)
      else copyPage env start w (span env (min (w.offset + w.resid) limit) w.offset) := by
  have hbytes : (if limit ≤ w.offset + min (env.pageSize - w.offset % env.pageSize) w.resid
      then limit - w.offset else min (env.pageSize - w.offset % env.pageSize) w.resid) =
      span env (min (w.offset + w.resid) limit) w.offset := by
    simp only [span]
    split_ifs <;> omega
  simp only [wrtmpPage, hbytes, ← hw.size]
  rw [if_neg (by omega)]

/-- The loop ends after its last copy, which did what it should or failed. -/
theorem wrtmpLoop_spec (hP : 0 < env.pageSize) {total limit : ℕ} (fuel : ℕ)
    (hw : Written env f start w) (hsum : w.offset + w.resid = total) (hpos : 0 < w.resid)
    (hfuel : w.resid ≤ fuel) (hstop : min total limit = stop)
    (hat : Copies env f start stop w.offset ∨
      (w.offset = stop ∧ ∃ o, Done env f start stop o)) :
    ∃ w' error, wrtmpLoop env start limit fuel w = (w', error) ∧
      ((∃ o, Done env f start stop o ∧ Written env f start w' ∧ w'.offset + w'.resid = total) ∨
        ∃ o m, Fails env f start stop o m ∧ start ≤ o ∧ error = some .efault ∧
          o + m + w'.resid = total ∧ Failed env f start stop o m w'.file) := by
  induction fuel generalizing w with
  | zero => omega
  | succ fuel ih =>
    cases hat with
    | inr hend =>
      obtain ⟨hoff, o, hdone⟩ := hend
      have hpage : wrtmpPage env start limit w = (w, some .efbig) := by
        simp only [wrtmpPage]
        rw [if_pos (by omega)]
      simp only [wrtmpLoop, hpage]
      exact ⟨w, _, rfl, .inl ⟨o, hdone, hw, hsum⟩⟩
    | inl hcopy =>
      have hlt := hcopy.lt
      have hpage := wrtmpPage_below hw (show w.offset < limit by omega)
      rw [hsum, hstop] at hpage
      have hsp := span_pos hP hlt
      have hlen : span env stop w.offset ≤
          env.pageSize - w.offset % env.pageSize := min_le_left _ _
      have hle : w.offset + span env stop w.offset ≤ stop := by
        simp only [span]
        omega
      by_cases hspace : HasSpace env f start stop w.offset
      · rw [if_neg hspace] at hpage
        cases hfault : env.fault w.offset with
        | none =>
          obtain ⟨w', hcp, hw', hoff, hres⟩ := copyPage_ok hP hw hsp hlen hfault
          rw [hcp] at hpage
          have hsum' : w'.offset + w'.resid = total := by omega
          have hat' : Copies env f start stop w'.offset ∨
              (w'.offset = stop ∧ ∃ o, Done env f start stop o) := by
            rw [hoff]
            by_cases hmore : w.offset + span env stop w.offset < stop
            · exact .inl (hcopy.next hspace hfault hmore)
            · exact .inr ⟨by omega, w.offset, hcopy, .inr ⟨hfault, by omega⟩⟩
          by_cases hmore : 0 < w'.resid
          · simp only [wrtmpLoop, hpage, if_pos hmore]
            exact ih hw' hsum' hmore (by omega) hat'
          · simp only [wrtmpLoop, hpage, if_neg hmore]
            exact ⟨w', _, rfl, .inl ⟨w.offset, ⟨hcopy, .inr ⟨hfault, by omega⟩⟩, hw', hsum'⟩⟩
        | some k =>
          obtain ⟨w', hcp, hres, hsize, hbytes⟩ := copyPage_failed hP hw hsp hlen hfault
          rw [hcp] at hpage
          simp only [wrtmpLoop, hpage]
          exact ⟨w', _, rfl, .inr ⟨w.offset, _, ⟨hcopy, hspace, k, hfault, rfl⟩, hw.start_le, rfl,
            by omega, hsize, hbytes⟩⟩
      · rw [if_pos (not_not.1 hspace)] at hpage
        simp only [wrtmpLoop, hpage]
        exact ⟨w, _, rfl, .inl ⟨w.offset, ⟨hcopy, .inl hspace⟩, hw, hsum⟩⟩

/-! ### The whole write -/

/-- Everything up to the offset is stored. -/
theorem Written.stores (hP : 0 < env.pageSize) (hclean : Clean env.pageSize f)
    (hw : Written env f start w) :
    Stores env.pageSize f w.file start (w.offset - start) env.data := by
  have hso := hw.start_le
  constructor
  · intro i hi
    rw [hw.bytes, overlay, if_pos (by omega), Nat.add_sub_cancel_left]
  · rw [hw.size]
    exact le_sizeAt _
  · intro hn
    rw [hw.size, sizeAt, if_neg (by omega)]
    omega
  · intro x _ hout
    rw [hw.bytes, overlay, if_neg (by omega)]
  · intro x hsize hx
    rw [hw.bytes, overlay, if_neg (by omega)]
    exact clean_byte hP hclean hsize

/-- After a copy that failed the file is what it should be just when the copy does not spoil
it. -/
theorem Failed.stores_iff (hP : 0 < env.pageSize) (hclean : Clean env.pageSize f) {f' : File}
    (h : Failed env f start stop o m f') (hso : start ≤ o) (hn : 0 < o - start + m) :
    Stores env.pageSize f f' start (o - start + m) env.data ↔ ¬ Spoils env f start stop o m := by
  have hbelow : ¬ Spoils env f start stop o m → o + m ≤ sizeAt f start o := by
    intro hs
    have hgrown : ¬ (0 < m ∧ f.size < o + m) := fun hv => hs ⟨hn, .inl hv⟩
    simp only [sizeAt]
    split_ifs <;> omega
  constructor
  · rintro hstores ⟨_, hgrown | ⟨hwhole, x, hx, hxp, hxs, hbyte⟩⟩
    · have hcov := hstores.covers hn
      rw [h.size, sizeAt] at hcov
      split_ifs at hcov <;> omega
    · have hkept := hstores.kept x hxs (.inr (by omega))
      rw [h.bytes x (hxs.trans_le (le_sizeAt o)), if_pos ⟨hwhole, hx, hxp⟩] at hkept
      exact hbyte hkept.symm
  · intro hs
    have hle := hbelow hs
    constructor
    · intro i hi
      rw [h.bytes _ (by omega), if_neg (by omega), overlay, if_pos (by omega),
        Nat.add_sub_cancel_left]
    · rw [h.size]
      exact le_sizeAt o
    · intro _
      rw [h.size]
      omega
    · intro x hxs hout
      rw [h.bytes x (hxs.trans_le (le_sizeAt o)), overlay]
      split_ifs with hzero hin
      · by_contra hne
        exact hs ⟨hn, .inr ⟨hzero.1, x, hzero.2.1, hzero.2.2, hxs, Ne.symm hne⟩⟩
      · omega
      · rfl
    · intro x hxs hx
      rw [h.bytes x (by omega), if_neg (by omega), overlay, if_neg (by omega)]
      exact clean_byte hP hclean hxs

theorem written_start : Written env f start ⟨f, start, total, none⟩ := by
  constructor
  · exact le_rfl
  · simp only [sizeAt, if_true]
  · intro x
    rw [overlay, if_neg (by simp only; omega)]
  · intro h
    exact absurd rfl h

/-- A write that reports success has stored what it reports just when none of its copies failed
in a way that spoils the file. -/
theorem wrtmp_stores_iff (hP : 0 < env.pageSize) (hclean : Clean env.pageSize f)
    (off resid limit : ℕ) :
    ((wrtmp env f off resid limit).2.2 = none →
      Stores env.pageSize f (wrtmp env f off resid limit).1 off
        (resid - (wrtmp env f off resid limit).2.1) env.data) ↔
    ¬ ∃ o m, Fails env f off (min (off + resid) (min limit maxOff)) o m ∧
      Spoils env f off (min (off + resid) (min limit maxOff)) o m := by
  generalize hstop : min (off + resid) (min limit maxOff) = stop
  by_cases hstart : off < stop
  · have hlim : ¬ min limit maxOff ≤ off := by omega
    have hmax : ¬ maxOff ≤ off := by omega
    have hres : ¬ resid = 0 := by omega
    simp only [wrtmp, if_neg hlim, if_neg hmax, if_neg hres]
    have hw : Written env f off ⟨f, off, resid, none⟩ := written_start
    obtain ⟨w', error, hr, hspec⟩ := wrtmpLoop_spec hP resid hw (Eq.refl (off + resid))
      (Nat.pos_of_ne_zero hres) le_rfl hstop (.inl (Copies.first hstart))
    rw [hr]
    dsimp only
    cases hspec with
    | inl hdone =>
      obtain ⟨o, hdone, hw, hsum⟩ := hdone
      have hn : resid - w'.resid = w'.offset - off := by
        have := hw.start_le
        omega
      constructor
      · rintro _ ⟨o', m, hf, _⟩
        exact hdone.not_fails hf
      · intro _ _
        rw [hn]
        exact hw.stores hP hclean
    | inr hfail =>
      obtain ⟨o, m, hfails, hso, herr, hsum, hfailed⟩ := hfail
      have hspoils : (∃ o m, Fails env f off stop o m ∧ Spoils env f off stop o m) ↔
          Spoils env f off stop o m := by
        constructor
        · rintro ⟨o', m', hf, hs⟩
          obtain ⟨rfl, rfl⟩ := hfails.unique hf
          exact hs
        · exact fun hs => ⟨o, m, hfails, hs⟩
      rw [hspoils, herr]
      by_cases hn : 0 < o - off + m
      · have hcount : resid - w'.resid = o - off + m := by omega
        rw [hcount, if_pos (by omega), ← hfailed.stores_iff hP hclean hso hn]
        exact ⟨fun h => h rfl, fun h _ => h⟩
      · rw [if_neg (by omega)]
        constructor
        · exact fun _ hs => hn hs.1
        · exact fun _ h => absurd h (by simp)
  · -- nothing is copied
    have hnone : (wrtmp env f off resid limit).2.2 = none →
        wrtmp env f off resid limit = (f, resid, none) := by
      simp only [wrtmp]
      split_ifs with h1 h2 h3
      · simp
      · simp
      · simp
      · omega
      · omega
    constructor
    · rintro _ ⟨o, m, hf, _⟩
      exact hstart hf.1.start_lt
    · intro _ h
      rw [hnone h, Nat.sub_self]
      constructor
      · intro i hi
        omega
      · exact le_rfl
      · intro hn
        omega
      · intro x _ _
        rfl
      · intro x hx _
        exact clean_byte hP hclean hx

/-- The bytes of a caller who writes ones; the copy at the start fails after one byte. -/
def tornWrite : Wenv where
  pageSize := 4096
  data := fun _ => 1
  fault := fun o => if o = 0 then some 1 else none
  resv := fun _ => true
  junk := fun _ _ => 0

def emptyFile : File := ⟨fun _ => none, 0⟩

def pageOfTwos : File := ⟨fun p => if p = 0 then some fun _ => 2 else none, 4096⟩

/-- A write of two bytes to an empty file reports one byte and leaves the file empty. A write of
a page over a page reports one byte and clears the others. -/
theorem torn_writes :
    ((wrtmp tornWrite emptyFile 0 2 maxOff).2 = (1, none) ∧
      ¬ Stores 4096 emptyFile (wrtmp tornWrite emptyFile 0 2 maxOff).1 0 1 tornWrite.data) ∧
    ((wrtmp tornWrite pageOfTwos 0 4096 maxOff).2 = (4095, none) ∧
      ¬ Stores 4096 pageOfTwos (wrtmp tornWrite pageOfTwos 0 4096 maxOff).1 0 1
        tornWrite.data) := by
  refine ⟨⟨by decide +kernel, ?_⟩, by decide +kernel, ?_⟩
  · intro h
    have hcov := h.covers one_pos
    have hsize : (wrtmp tornWrite emptyFile 0 2 maxOff).1.size = 0 := by decide +kernel
    omega
  · intro h
    have hkept := h.kept 1 (by decide) (.inr le_rfl)
    have hzero : (wrtmp tornWrite pageOfTwos 0 4096 maxOff).1.byte 4096 1 = 0 := by
      decide +kernel
    rw [hzero] at hkept
    exact absurd hkept (by decide)

theorem clean_emptyFile : Clean 4096 emptyFile := by
  constructor
  · intro x _ _
    rfl
  · intro p _
    rfl

theorem wrtmp_stores_iff_torn :
    ∃ o m, Fails tornWrite emptyFile 0 (min (0 + 2) (min maxOff maxOff)) o m ∧
      Spoils tornWrite emptyFile 0 (min (0 + 2) (min maxOff maxOff)) o m := by
  by_contra hnone
  have hstores := (wrtmp_stores_iff (by decide) clean_emptyFile 0 2 maxOff).2 hnone
    (by decide +kernel)
  have hcov := hstores.covers (by decide +kernel)
  revert hcov
  decide +kernel

end Sol26.Tmpfs
