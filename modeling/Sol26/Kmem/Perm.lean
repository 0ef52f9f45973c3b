import Mathlib.Tactic

/-!
# Permanent kernel memory

Model of `kmem_perm_alloc` from `uts/common/os/kmem.c`. Addresses and sizes are words of 32 bits, and
`perm_avail` is a signed number. The list of chunks is a list; each chunk is known by the address of
its page run, where its header lies.
-/
namespace Sol26.Kmem

open List (map_append map_cons mem_cons nodup_cons)

/-- The page size of the machine, a power of two and at least `KMEM_ALIGN`. -/
structure Pages where
  shift : ℕ
  ge : 3 ≤ shift
  le : shift ≤ 26

def Pages.size (pg : Pages) : ℕ := 2 ^ pg.shift

def Pages.btopr (pg : Pages) (x : ℕ) : ℕ := (x + (pg.size - 1)) / pg.size

def kmemAlign : ℕ := 8

def kmemPermMinfree : ℤ := 32

/-- `sizeof (kmem_perm_t)` -/
def permSize : ℕ := 12

/-- `kmem_perm_t`, which lies at `base`. -/
structure Perm where
  base : ℕ
  current : ℕ
  avail : ℤ

/-- `x & -align` -/
def maskAlign (x align : ℕ) : ℕ := x % 2 ^ 32 &&& (2 ^ 32 - align)

/-- `-(int)pp->perm_current & (align - 1)` -/
def Perm.padding (pp : Perm) (align : ℕ) : ℕ := (2 ^ 32 - pp.current) &&& (align - 1)

/-- The difference is compared with the unsigned `size`. -/
def Perm.fits (pp : Perm) (size align : ℕ) : Prop :=
  (size : ℤ) ≤ (pp.avail - pp.padding align) % 2 ^ 32

instance (pp : Perm) (size align : ℕ) : Decidable (pp.fits size align) :=
  inferInstanceAs (Decidable (_ ≤ _))

/-- The loop over the chunks for the smallest one that fits, from the chunk number `i` on. -/
def bestFit (size align : ℕ) : List Perm → ℕ → Option ℕ × ℤ → Option ℕ × ℤ
  | [], _, best => best
  | pp :: l, i, best =>
    bestFit size align l (i + 1)
      (if pp.fits size align ∧ pp.avail < best.2 then (some i, pp.avail) else best)

/-- The chunks, the buffer, and the page run that was obtained for it. -/
structure Result where
  freelist : List Perm
  buf : Option ℕ
  run : Option (ℕ × ℕ)

/-- The buffer is taken from the chunk number `i`. -/
def carve (freelist : List Perm) (i size align : ℕ) (run : Option (ℕ × ℕ)) : Option Result := do
  let pp ← freelist[i]?
  let buf := maskAlign (pp.current + align - 1) align
  let avail := pp.avail - (buf + size - pp.current)
  let pp := { pp with current := buf + size, avail := avail }
  if avail < kmemPermMinfree then return ⟨freelist.eraseIdx i, some buf, run⟩
  else return ⟨freelist.set i pp, some buf, run⟩

/-- `kmem_perm_alloc`, with `kmem_page_alloc` as `pages`. The result is `none` for a panic. -/
def permAlloc (pg : Pages) (freelist : List Perm) (pages : ℕ → Option ℕ) (size align : ℕ) :
    Option Result :=
  let align := if align < kmemAlign then kmemAlign else align
  if align &&& (align - 1) ≠ 0 ∨ pg.size < align then none
  else
    let size := maskAlign (size + align - 1) align
    match (bestFit size align freelist 0 (none, 2 ^ 31 - 1)).1 with
    | some i => carve freelist i size align none
    | none =>
      let npages := pg.btopr (size + permSize)
      match pages npages with
      | none => some ⟨freelist, none, none⟩
      | some buf =>
        carve (⟨buf, buf + permSize, npages * pg.size - permSize⟩ :: freelist) 0 size align
          (some (buf, npages))

/-! ### Alignment -/

/-- Clearing the low bits of a word. -/
theorem maskAlign_two_pow {x k : ℕ} (hx : x < 2 ^ 32) (hk : k ≤ 32) :
    maskAlign x (2 ^ k) = x / 2 ^ k * 2 ^ k := by
  have hmask : 2 ^ 32 - 2 ^ k = (2 ^ (32 - k) - 1) * 2 ^ k := by
    rw [Nat.sub_mul, ← pow_add, Nat.sub_add_cancel hk, one_mul]
  rw [maskAlign, Nat.mod_eq_of_lt hx, hmask]
  apply Nat.eq_of_testBit_eq
  intro i
  rw [Nat.testBit_and, Nat.testBit_mul_two_pow, Nat.testBit_mul_two_pow, Nat.testBit_two_pow_sub_one,
    Nat.testBit_div_two_pow]
  by_cases hki : k ≤ i
  · by_cases hi : i < 32
    · simp [hki, show i - k < 32 - k by omega]
    · have hbit : x.testBit i = false :=
        Nat.testBit_lt_two_pow (hx.trans_le (Nat.pow_le_pow_right (by decide) (by omega)))
      simp [hki, hbit]
  · simp [hki]

theorem padding_two_pow (pp : Perm) (k : ℕ) : pp.padding (2 ^ k) = (2 ^ 32 - pp.current) % 2 ^ k :=
  Nat.and_two_pow_sub_one_eq_mod _ _

/-- The next multiple of the alignment, and how far away it is. -/
theorem align_up {x k : ℕ} (hk : k ≤ 32) (hx : x + 2 ^ k ≤ 2 ^ 32) :
    2 ^ k ∣ maskAlign (x + 2 ^ k - 1) (2 ^ k) ∧ x ≤ maskAlign (x + 2 ^ k - 1) (2 ^ k) ∧
      (∀ y, 2 ^ k ∣ y → x ≤ y → maskAlign (x + 2 ^ k - 1) (2 ^ k) ≤ y) ∧
      maskAlign (x + 2 ^ k - 1) (2 ^ k) = x + (2 ^ 32 - x) % 2 ^ k := by
  have hpos := Nat.two_pow_pos k
  have hdvd : 2 ^ k ∣ 2 ^ 32 := Nat.pow_dvd_pow 2 hk
  rw [maskAlign_two_pow (by omega) hk]
  generalize 2 ^ k = a at *
  have hdiv := Nat.div_add_mod (x + a - 1) a
  have hmod := Nat.mod_lt (x + a - 1) hpos
  rw [mul_comm] at hdiv
  have hup : a ∣ (x + a - 1) / a * a := Nat.dvd_mul_left _ _
  have hle : x ≤ (x + a - 1) / a * a := by omega
  refine ⟨hup, hle, ?_, ?_⟩
  · intro y hy hxy
    obtain ⟨n, rfl⟩ := hy
    rw [mul_comm a n]
    apply Nat.mul_le_mul_right
    rw [← Nat.lt_succ_iff, Nat.div_lt_iff_lt_mul hpos, Nat.succ_mul]
    rw [mul_comm] at hxy
    omega
  · have hsplit : 2 ^ 32 - x = (2 ^ 32 - (x + a - 1) / a * a) + ((x + a - 1) / a * a - x) := by omega
    have hzero : (2 ^ 32 - (x + a - 1) / a * a) % a = 0 :=
      Nat.mod_eq_zero_of_dvd (Nat.dvd_sub hdvd hup)
    rw [hsplit, Nat.add_mod, hzero, zero_add, Nat.mod_mod, Nat.mod_eq_of_lt (by omega)]
    omega

/-! ### Chunks -/

variable {pg : Pages}

/-- What is left of a page run: everything from `perm_current` to its end. -/
structure Chunk (pg : Pages) (run : ℕ × ℕ) (pp : Perm) : Prop where
  base : pp.base = run.1
  start : run.1 + permSize ≤ pp.current
  stop : (pp.current : ℤ) + pp.avail = run.1 + run.2 * pg.size
  avail : 0 ≤ pp.avail

/-- A run of whole pages. -/
structure Whole (pg : Pages) (run : ℕ × ℕ) : Prop where
  aligned : pg.size ∣ run.1
  below : run.1 + run.2 * pg.size < 2 ^ 32

variable {run : ℕ × ℕ} {pp : Perm} {size k : ℕ}

/-- The room in a chunk from the next multiple of the alignment on. -/
theorem Chunk.room (h : Chunk pg run pp) (hw : Whole pg run) (hk : k ≤ pg.shift) :
    pp.current ≤ maskAlign (pp.current + 2 ^ k - 1) (2 ^ k) ∧
      2 ^ k ∣ maskAlign (pp.current + 2 ^ k - 1) (2 ^ k) ∧
      maskAlign (pp.current + 2 ^ k - 1) (2 ^ k) ≤ run.1 + run.2 * pg.size ∧
      pp.avail - pp.padding (2 ^ k) =
        (run.1 + run.2 * pg.size : ℕ) - maskAlign (pp.current + 2 ^ k - 1) (2 ^ k) := by
  have hle := pg.le
  have hstop := h.stop
  have havail := h.avail
  have hend : 2 ^ k ∣ run.1 + run.2 * pg.size :=
    (Nat.pow_dvd_pow 2 hk).trans (Nat.dvd_add hw.aligned (Nat.dvd_mul_left _ _))
  have hlast : run.1 + run.2 * pg.size + 2 ^ k ≤ 2 ^ 32 := by
    have hdvd : 2 ^ k ∣ 2 ^ 32 - (run.1 + run.2 * pg.size) :=
      Nat.dvd_sub (Nat.pow_dvd_pow 2 (by omega)) hend
    have hbelow := hw.below
    have := Nat.le_of_dvd (by omega) hdvd
    omega
  have hcurrent : pp.current ≤ run.1 + run.2 * pg.size := by
    zify
    omega
  obtain ⟨hdvd, hge, hleast, hpad⟩ := @align_up pp.current k (by omega) (by omega)
  refine ⟨hge, hdvd, hleast _ hend hcurrent, ?_⟩
  rw [padding_two_pow, hpad]
  push_cast
  omega

/-- The comparison of the fit test is exact, because a chunk ends at a page. -/
theorem Chunk.fits_iff (h : Chunk pg run pp) (hw : Whole pg run) (hk : k ≤ pg.shift) :
    pp.fits size (2 ^ k) ↔
      maskAlign (pp.current + 2 ^ k - 1) (2 ^ k) + size ≤ run.1 + run.2 * pg.size := by
  obtain ⟨hge, -, hle, hroom⟩ := h.room hw hk
  have hbelow := hw.below
  rw [Perm.fits, hroom, Int.emod_eq_of_lt (by omega) (by omega)]
  omega

/-- A chunk after a buffer has been taken from it. -/
theorem Chunk.carve (h : Chunk pg run pp) (hw : Whole pg run) (hk : k ≤ pg.shift)
    (hfits : pp.fits size (2 ^ k)) :
    Chunk pg run
      { pp with
        current := maskAlign (pp.current + 2 ^ k - 1) (2 ^ k) + size
        avail := pp.avail - ((maskAlign (pp.current + 2 ^ k - 1) (2 ^ k) : ℕ) + size - pp.current) }
    where
  base := h.base
  start := by
    have hstart := h.start
    have hge := (h.room hw hk).1
    dsimp only
    omega
  stop := by
    have hstop := h.stop
    push_cast
    omega
  avail := by
    have hstop := h.stop
    have hfits' := (h.fits_iff hw hk).mp hfits
    zify at hfits'
    push_cast at hfits' ⊢
    omega

/-- A new run of pages has room for its header and the buffer. -/
theorem chunk_new {buf : ℕ} (hw : Whole pg (buf, pg.btopr (size + permSize)))
    (hk : k ≤ pg.shift) (hdvd : 2 ^ k ∣ size) :
    Chunk pg (buf, pg.btopr (size + permSize))
        ⟨buf, buf + permSize, pg.btopr (size + permSize) * pg.size - permSize⟩ ∧
      Perm.fits ⟨buf, buf + permSize, pg.btopr (size + permSize) * pg.size - permSize⟩ size
        (2 ^ k) := by
  have hpos : 0 < pg.size := Nat.two_pow_pos _
  have hpages : size + permSize ≤ pg.btopr (size + permSize) * pg.size := by
    have hdiv := Nat.div_add_mod (size + permSize + (pg.size - 1)) pg.size
    have hmod := Nat.mod_lt (size + permSize + (pg.size - 1)) hpos
    rw [Pages.btopr, mul_comm]
    omega
  have hchunk : Chunk pg (buf, pg.btopr (size + permSize))
      ⟨buf, buf + permSize, pg.btopr (size + permSize) * pg.size - permSize⟩ := by
    constructor
    · rfl
    · exact le_refl _
    · push_cast
      ring
    · zify at hpages
      dsimp only
      omega
  refine ⟨hchunk, (hchunk.fits_iff hw hk).mpr ?_⟩
  -- the end of the run, the run and the size are all multiples of the alignment
  have hunit : 2 ^ k ∣ pg.size := Nat.pow_dvd_pow 2 hk
  have hplace : 2 ^ k ∣ buf + pg.btopr (size + permSize) * pg.size - size :=
    Nat.dvd_sub (Nat.dvd_add (hunit.trans hw.aligned) (hunit.trans (Nat.dvd_mul_left _ _))) hdvd
  have hroom := hchunk.room hw hk
  dsimp only at hroom ⊢
  have hle := pg.le
  have hbelow := hw.below
  have hend : 2 ^ k ∣ 2 ^ 32 - (buf + pg.btopr (size + permSize) * pg.size) :=
    Nat.dvd_sub (Nat.pow_dvd_pow 2 (by omega))
      (Nat.dvd_add (hunit.trans hw.aligned) (hunit.trans (Nat.dvd_mul_left _ _)))
  have hlast := Nat.le_of_dvd (by dsimp only at hbelow; omega) hend
  dsimp only at hbelow
  obtain ⟨-, -, hleast, -⟩ := @align_up (buf + permSize) k (by omega) (by omega)
  have := hleast _ hplace (by omega)
  omega

/-! ### The search -/

/-- The chunk that is found fits. -/
theorem bestFit_spec {align : ℕ} {l : List Perm} {i : ℕ} {best : Option ℕ × ℤ} {j : ℕ}
    (h : (bestFit size align l i best).1 = some j) :
    best.1 = some j ∨ ∃ n pp, j = i + n ∧ l[n]? = some pp ∧ pp.fits size align := by
  induction l generalizing i best with
  | nil => exact .inl h
  | cons pp l ih =>
    rw [bestFit] at h
    rcases ih h with hbest | ⟨n, pp', rfl, hn, hfits⟩
    · by_cases hfit : pp.fits size align ∧ pp.avail < best.2
      · rw [if_pos hfit] at hbest
        cases hbest
        exact .inr ⟨0, pp, rfl, rfl, hfit.1⟩
      · rw [if_neg hfit] at hbest
        exact .inl hbest
    · exact .inr ⟨n + 1, pp', by omega, hn, hfits⟩

/-- The chunk that a buffer is taken from stays in its place or goes. -/
theorem carve_spec {freelist : List Perm} {i align : ℕ} (hpp : freelist[i]? = some pp)
    (run : Option (ℕ × ℕ)) :
    ∃ l1 l2 rest, freelist = l1 ++ pp :: l2 ∧
      carve freelist i size align run =
        some ⟨l1 ++ rest ++ l2, some (maskAlign (pp.current + align - 1) align), run⟩ ∧
      (rest = [] ∨ rest =
        [{ pp with
          current := maskAlign (pp.current + align - 1) align + size
          avail := pp.avail - ((maskAlign (pp.current + align - 1) align : ℕ) + size -
            pp.current) }]) := by
  obtain ⟨hi, rfl⟩ := List.getElem?_eq_some_iff.mp hpp
  have hsplit : freelist = freelist.take i ++ freelist[i] :: freelist.drop (i + 1) := by
    rw [← List.drop_eq_getElem_cons hi, List.take_append_drop]
  unfold carve
  rw [hpp, Option.bind_eq_bind, Option.bind_some]
  dsimp only
  by_cases hsmall : freelist[i].avail - ((maskAlign (freelist[i].current + align - 1) align : ℕ) +
      size - freelist[i].current) < kmemPermMinfree
  · rw [if_pos hsmall]
    refine ⟨freelist.take i, freelist.drop (i + 1), [], hsplit, ?_, .inl rfl⟩
    rw [List.eraseIdx_eq_take_drop_succ, List.append_nil]
    rfl
  · rw [if_neg hsmall]
    refine ⟨freelist.take i, freelist.drop (i + 1), [_], hsplit, ?_, .inr rfl⟩
    rw [List.set_eq_take_append_cons_drop, if_pos hi, List.append_assoc, List.singleton_append]
    rfl

/-! ### Sequences of calls -/

/-- A buffer that was returned for a size and an alignment. -/
structure Buf where
  start : ℕ
  size : ℕ
  align : ℕ

/-- The chunks, the page runs obtained so far, and the buffers. -/
structure Sys where
  freelist : List Perm
  runs : List (ℕ × ℕ)
  bufs : List Buf

/-- Two ranges of `n` and `n'` bytes. -/
def Apart (a n a' n' : ℕ) : Prop := a + n ≤ a' ∨ a' + n' ≤ a

/-- `kmem_page_alloc` returns whole pages that are not in use. -/
def Supplies (pg : Pages) (s : Sys) (pages : ℕ → Option ℕ) : Prop :=
  ∀ n buf, pages n = some buf → Whole pg (buf, n) ∧
    ∀ run ∈ s.runs, Apart buf (n * pg.size) run.1 (run.2 * pg.size)

/-- The state after a call for `size` bytes. -/
def Sys.record (s : Sys) (r : Result) (size align : ℕ) : Sys :=
  { freelist := r.freelist
    runs := r.run.toList ++ s.runs
    bufs := (r.buf.map fun buf => ⟨buf, size, align⟩).toList ++ s.bufs }

/-- The states that calls with positive sizes and powers of two lead to. -/
inductive Run (pg : Pages) : Sys → Prop
  | start : Run pg ⟨[], [], []⟩
  | call {s : Sys} {pages : ℕ → Option ℕ} {size k : ℕ} {r : Result} (h : Run pg s)
      (hpages : Supplies pg s pages) (hpos : 0 < size) (hsize : size < 2 ^ 30)
      (halign : 2 ^ k ≤ pg.size) (hr : permAlloc pg s.freelist pages size (2 ^ k) = some r) :
      Run pg (s.record r size (2 ^ k))

structure Inv (pg : Pages) (s : Sys) : Prop where
  whole : ∀ run ∈ s.runs, Whole pg run
  apart : s.runs.Pairwise fun run run' => Apart run.1 (run.2 * pg.size) run'.1 (run'.2 * pg.size)
  chunk : ∀ pp ∈ s.freelist, ∃ run ∈ s.runs, Chunk pg run pp
  nodup : (s.freelist.map Perm.base).Nodup
  aligned : ∀ b ∈ s.bufs, b.align ∣ b.start
  inside : ∀ b ∈ s.bufs, ∃ run ∈ s.runs,
    run.1 + permSize ≤ b.start ∧ b.start + b.size ≤ run.1 + run.2 * pg.size
  free : ∀ b ∈ s.bufs, ∀ pp ∈ s.freelist,
    b.start + b.size ≤ pp.current ∨ (pp.current : ℤ) + pp.avail ≤ b.start
  disjoint : s.bufs.Pairwise fun b b' => Apart b.start b.size b'.start b'.size

variable {s : Sys}

theorem Apart.symm {a n a' n' : ℕ} (h : Apart a n a' n') : Apart a' n' a n := h.elim .inr .inl

/-- Two different runs are apart. -/
theorem Inv.runs_apart (h : Inv pg s) {run run' : ℕ × ℕ} (hrun : run ∈ s.runs)
    (hrun' : run' ∈ s.runs) (hne : run ≠ run') :
    Apart run.1 (run.2 * pg.size) run'.1 (run'.2 * pg.size) :=
  have : Std.Symm fun run run' : ℕ × ℕ =>
    Apart run.1 (run.2 * pg.size) run'.1 (run'.2 * pg.size) := ⟨fun _ _ => Apart.symm⟩
  h.apart.forall hrun hrun' hne

/-- A new page run with its chunk. -/
theorem Inv.grow (h : Inv pg s) {buf n : ℕ} {pp : Perm} (hw : Whole pg (buf, n))
    (hapart : ∀ run ∈ s.runs, Apart buf (n * pg.size) run.1 (run.2 * pg.size))
    (hpp : Chunk pg (buf, n) pp) : Inv pg ⟨pp :: s.freelist, (buf, n) :: s.runs, s.bufs⟩ where
  whole := by
    intro run hrun
    rcases mem_cons.mp hrun with rfl | hrun
    · exact hw
    · exact h.whole run hrun
  apart := List.pairwise_cons.mpr ⟨hapart, h.apart⟩
  chunk := by
    intro pp' hpp'
    rcases mem_cons.mp hpp' with rfl | hpp'
    · exact ⟨_, List.mem_cons_self, hpp⟩
    · obtain ⟨run, hrun, hchunk⟩ := h.chunk pp' hpp'
      exact ⟨run, List.mem_cons_of_mem _ hrun, hchunk⟩
  nodup := by
    refine nodup_cons.mpr ⟨fun hmem => ?_, h.nodup⟩
    obtain ⟨pp', hpp', hbase⟩ := List.mem_map.mp hmem
    obtain ⟨run, hrun, hchunk⟩ := h.chunk pp' hpp'
    -- the new run would begin where an old one does
    have hsame : run.1 = buf := by rw [← hchunk.base, hbase, hpp.base]
    have hold : permSize ≤ run.2 * pg.size := by
      have := hchunk.start
      have := hchunk.stop
      have := hchunk.avail
      zify
      omega
    have hnew : permSize ≤ n * pg.size := by
      have hstart := hpp.start
      have hstop := hpp.stop
      have := hpp.avail
      dsimp only at hstart hstop
      zify
      omega
    have hpos : 0 < permSize := by decide
    rcases hapart run hrun with hle | hle <;> omega
  aligned := h.aligned
  inside := by
    intro b hb
    obtain ⟨run, hrun, hin⟩ := h.inside b hb
    exact ⟨run, List.mem_cons_of_mem _ hrun, hin⟩
  free := by
    intro b hb pp' hpp'
    rcases mem_cons.mp hpp' with rfl | hpp'
    · obtain ⟨run, hrun, hlow, hhigh⟩ := h.inside b hb
      have hstart := hpp.start
      have hstop := hpp.stop
      dsimp only at hstart hstop
      rcases hapart run hrun with hle | hle
      · right
        zify at hle
        omega
      · left
        omega
    · exact h.free b hb pp' hpp'
  disjoint := h.disjoint

/-- A buffer is taken from a chunk. -/
theorem Inv.take (h : Inv pg s) {l1 l2 rest : List Perm} {req align : ℕ}
    (hlist : s.freelist = l1 ++ pp :: l2) (hk : k ≤ pg.shift) (hfits : pp.fits size (2 ^ k))
    (hreq : req ≤ size) (halign : align ∣ 2 ^ k)
    (hrest : rest = [] ∨ rest =
      [{ pp with
        current := maskAlign (pp.current + 2 ^ k - 1) (2 ^ k) + size
        avail := pp.avail - ((maskAlign (pp.current + 2 ^ k - 1) (2 ^ k) : ℕ) + size -
          pp.current) }]) :
    Inv pg ⟨l1 ++ rest ++ l2, s.runs,
      ⟨maskAlign (pp.current + 2 ^ k - 1) (2 ^ k), req, align⟩ :: s.bufs⟩ := by
  have hmem : pp ∈ s.freelist := by
    rw [hlist]
    simp
  obtain ⟨run, hrun, hchunk⟩ := h.chunk pp hmem
  have hw := h.whole run hrun
  obtain ⟨hge, hdvd, -, -⟩ := hchunk.room hw hk
  have hroom := (hchunk.fits_iff hw hk).mp hfits
  have hstart := hchunk.start
  have hstop := hchunk.stop
  have hnew := hchunk.carve hw hk hfits
  generalize hbuf : maskAlign (pp.current + 2 ^ k - 1) (2 ^ k) = buf at *
  generalize hpp : ({ pp with
    current := buf + size
    avail := pp.avail - ((buf : ℤ) + size - pp.current) } : Perm) = new at *
  have hnd := h.nodup
  rw [hlist, map_append, map_cons] at hnd
  have hothers : ∀ pp' ∈ l1 ++ l2, pp' ∈ s.freelist ∧ pp'.base ≠ pp.base := by
    intro pp' hpp'
    have hbase : pp'.base ∈ l1.map Perm.base ++ l2.map Perm.base := by
      rw [← map_append]
      exact List.mem_map_of_mem hpp'
    have hout := (List.nodup_middle.mp hnd)
    refine ⟨?_, fun heq => (nodup_cons.mp hout).1 (heq ▸ hbase)⟩
    rw [hlist]
    rcases List.mem_append.mp hpp' with hpp' | hpp' <;> simp [hpp']
  have hcases : ∀ pp' ∈ l1 ++ rest ++ l2, pp' ∈ l1 ++ l2 ∨ pp' = new := by
    intro pp' hpp'
    rcases hrest with rfl | rfl <;> simp at hpp' ⊢ <;> tauto
  constructor
  · exact h.whole
  · exact h.apart
  · intro pp' hpp'
    rcases hcases pp' hpp' with hold | rfl
    · exact h.chunk pp' (hothers pp' hold).1
    · exact ⟨run, hrun, hnew⟩
  · have hnewbase : new.base = pp.base := by rw [← hpp]
    rcases hrest with rfl | rfl
    · rw [List.append_nil, map_append]
      exact (nodup_cons.mp (List.nodup_middle.mp hnd)).2
    · rw [List.append_assoc, List.singleton_append, map_append, map_cons, hnewbase]
      exact hnd
  · intro b hb
    rcases mem_cons.mp hb with rfl | hb
    · exact halign.trans hdvd
    · exact h.aligned b hb
  · intro b hb
    rcases mem_cons.mp hb with rfl | hb
    · exact ⟨run, hrun, by dsimp only; omega, by dsimp only; omega⟩
    · exact h.inside b hb
  · intro b hb pp' hpp'
    rcases mem_cons.mp hb with rfl | hb
    · rcases hcases pp' hpp' with hold | rfl
      · -- the other chunk belongs to another run
        obtain ⟨hmem', hne⟩ := hothers pp' hold
        obtain ⟨run', hrun', hchunk'⟩ := h.chunk pp' hmem'
        have hdiff : run ≠ run' := by
          intro heq
          exact hne (by rw [hchunk'.base, hchunk.base, heq])
        have hstart' := hchunk'.start
        have hstop' := hchunk'.stop
        dsimp only
        rcases h.runs_apart hrun hrun' hdiff with hle | hle
        · left
          omega
        · right
          zify at hle
          omega
      · left
        rw [← hpp]
        dsimp only
        omega
    · rcases hcases pp' hpp' with hold | rfl
      · exact h.free b hb pp' (hothers pp' hold).1
      · rw [← hpp]
        dsimp only
        have hfree := h.free b hb pp hmem
        omega
  · refine List.pairwise_cons.mpr ⟨fun b hb => ?_, h.disjoint⟩
    dsimp only
    rcases h.free b hb pp hmem with hle | hle
    · exact .inr (by omega)
    · refine .inl ?_
      zify at hroom hreq ⊢
      omega

/-- A buffer from the chunk number `i`. -/
theorem Inv.carve (h : Inv pg s) {i req align : ℕ} (hpp : s.freelist[i]? = some pp)
    (hk : k ≤ pg.shift) (hfits : pp.fits size (2 ^ k)) (hreq : req ≤ size) (halign : align ∣ 2 ^ k)
    (run : Option (ℕ × ℕ)) :
    ∃ fl buf, Kmem.carve s.freelist i size (2 ^ k) run = some ⟨fl, some buf, run⟩ ∧
      Inv pg ⟨fl, s.runs, ⟨buf, req, align⟩ :: s.bufs⟩ := by
  obtain ⟨l1, l2, rest, hlist, hcarve, hrest⟩ := carve_spec hpp run
  exact ⟨_, _, hcarve, h.take hlist hk hfits hreq halign hrest⟩

/-- A call with a power of two does not panic and keeps everything in order. -/
theorem Inv.permAlloc (h : Inv pg s) {pages : ℕ → Option ℕ} {req : ℕ}
    (hpages : Supplies pg s pages) (hsize : req < 2 ^ 30) (halign : 2 ^ k ≤ pg.size) :
    ∃ r, Kmem.permAlloc pg s.freelist pages req (2 ^ k) = some r ∧
      Inv pg (s.record r req (2 ^ k)) := by
  have hge := pg.ge
  have hle := pg.le
  have hshift : max k 3 ≤ pg.shift :=
    max_le ((Nat.pow_le_pow_iff_right (by decide)).mp halign) pg.ge
  have hmax : (if 2 ^ k < kmemAlign then kmemAlign else 2 ^ k) = 2 ^ max k 3 := by
    rw [show kmemAlign = 2 ^ 3 by rfl]
    by_cases hk3 : k < 3
    · have hlt : 2 ^ k < 2 ^ 3 := Nat.pow_lt_pow_right (by decide) hk3
      rw [if_pos hlt, max_eq_right hk3.le]
    · have hge3 : 2 ^ 3 ≤ 2 ^ k := Nat.pow_le_pow_right (by decide) (not_lt.mp hk3)
      rw [if_neg (not_lt.mpr hge3), max_eq_left (not_lt.mp hk3)]
  have hdvd : 2 ^ k ∣ 2 ^ max k 3 := Nat.pow_dvd_pow 2 (le_max_left _ _)
  have hsmall : 2 ^ max k 3 ≤ 2 ^ 26 := Nat.pow_le_pow_right (by decide) (hshift.trans hle)
  have hpanic : ¬ (2 ^ max k 3 &&& (2 ^ max k 3 - 1) ≠ 0 ∨ pg.size < 2 ^ max k 3) := by
    rw [Nat.and_two_pow_sub_one_eq_mod, Nat.mod_self, not_or, not_lt]
    exact ⟨fun hne => hne rfl, Nat.pow_le_pow_right (by decide) hshift⟩
  obtain ⟨hmul, hreq, -, -⟩ := @align_up req (max k 3) (by omega) (by omega)
  unfold Kmem.permAlloc
  dsimp only
  rw [hmax, if_neg hpanic]
  generalize maskAlign (req + 2 ^ max k 3 - 1) (2 ^ max k 3) = size at *
  cases hbest : (bestFit size (2 ^ max k 3) s.freelist 0 (none, 2 ^ 31 - 1)).1 with
  | some i =>
    rcases bestFit_spec hbest with hnone | ⟨n, pp, rfl, hpp, hfits⟩
    · exact absurd hnone (by simp)
    · rw [← Nat.zero_add n] at hpp
      obtain ⟨fl, buf, hcarve, hinv⟩ := h.carve hpp hshift hfits hreq hdvd none
      exact ⟨_, hcarve, hinv⟩
  | none =>
    dsimp only
    cases hrun : pages (pg.btopr (size + permSize)) with
    | none => exact ⟨_, rfl, h⟩
    | some buf =>
      obtain ⟨hw, hapart⟩ := hpages _ _ hrun
      obtain ⟨hchunk, hfits⟩ := chunk_new hw hshift hmul
      obtain ⟨fl, buf', hcarve, hinv⟩ := (h.grow hw hapart hchunk).carve (i := 0) rfl hshift hfits
        hreq hdvd (some (buf, pg.btopr (size + permSize)))
      exact ⟨_, hcarve, hinv⟩

theorem Run.inv (h : Run pg s) : Inv pg s := by
  induction h with
  | start => constructor <;> simp
  | call h hpages hpos hsize halign hr ih =>
    obtain ⟨r, hr', hinv⟩ := ih.permAlloc hpages hsize halign
    obtain rfl := Option.some_inj.mp (hr.symm.trans hr')
    exact hinv

/-- The buffers that have been returned are aligned, apart from one another and from the headers of
the chunks, and inside of the page runs. Every chunk reaches to the end of its run, and a further
call does not panic. -/
theorem perm_buffers_safe (h : Run pg s) :
    (∀ b ∈ s.bufs, b.align ∣ b.start) ∧
    (s.bufs.Pairwise fun b b' => Apart b.start b.size b'.start b'.size) ∧
    (∀ b ∈ s.bufs, ∃ run ∈ s.runs, run.1 ≤ b.start ∧ b.start + b.size ≤ run.1 + run.2 * pg.size) ∧
    (∀ b ∈ s.bufs, ∀ pp ∈ s.freelist, Apart b.start b.size pp.base permSize) ∧
    (∀ pp ∈ s.freelist, ∃ run ∈ s.runs, pp.base = run.1 ∧
      (pp.current : ℤ) + pp.avail = run.1 + run.2 * pg.size) ∧
    ∀ pages size k, Supplies pg s pages → size < 2 ^ 30 → 2 ^ k ≤ pg.size →
      permAlloc pg s.freelist pages size (2 ^ k) ≠ none := by
  have hinv := h.inv
  refine ⟨hinv.aligned, hinv.disjoint, ?_, ?_, ?_, ?_⟩
  · intro b hb
    obtain ⟨run, hrun, hlow, hhigh⟩ := hinv.inside b hb
    exact ⟨run, hrun, by omega, hhigh⟩
  · intro b hb pp hpp
    obtain ⟨run, hrun, hlow, hhigh⟩ := hinv.inside b hb
    obtain ⟨run', hrun', hchunk⟩ := hinv.chunk pp hpp
    have hbase := hchunk.base
    by_cases hsame : run = run'
    · subst hsame
      exact .inr (by omega)
    · have hsize : permSize ≤ run'.2 * pg.size := by
        have := hchunk.start
        have := hchunk.stop
        have := hchunk.avail
        zify
        omega
      rcases hinv.runs_apart hrun hrun' hsame with hle | hle
      · exact .inl (by omega)
      · exact .inr (by omega)
  · intro pp hpp
    obtain ⟨run, hrun, hchunk⟩ := hinv.chunk pp hpp
    exact ⟨run, hrun, hchunk.base, hchunk.stop⟩
  · intro pages size k hpages hsize halign hnone
    obtain ⟨r, hr, -⟩ := hinv.permAlloc hpages hsize halign
    exact absurd (hnone.symm.trans hr) (by simp)

/-- Pages of 4096 bytes. -/
def pages4k : Pages := ⟨12, by decide, by decide⟩

/-- A page is there, and no more. -/
theorem supplies_page {s : Sys} (buf : ℕ) (hbuf : Whole pages4k (buf, 1))
    (hruns : ∀ run ∈ s.runs, Apart buf (1 * pages4k.size) run.1 (run.2 * pages4k.size)) :
    Supplies pages4k s fun n => if n = 1 then some buf else none := by
  intro n b hb
  dsimp only at hb
  split_ifs at hb with hn
  cases hb
  subst hn
  exact ⟨hbuf, hruns⟩

/-- The second buffer is put at a higher alignment, and the third one needs a second chunk. -/
theorem perm_buffers_safe_threeCalls : ∃ s, Run pages4k s ∧
    s.bufs = [⟨16448, 3800, 64⟩, ⟨4352, 40, 256⟩, ⟨4160, 100, 64⟩] ∧
    (∀ b ∈ s.bufs, b.align ∣ b.start) ∧
    s.bufs.Pairwise fun b b' => Apart b.start b.size b'.start b'.size := by
  have h1 := @Run.call pages4k _ _ 100 6 _ .start
    (supplies_page 4096 ⟨by decide, by decide⟩ (by simp)) (by decide) (by decide)
    (by decide) rfl
  have h2 := @Run.call pages4k _ (fun _ => none) 40 8 _ h1 nofun (by decide) (by decide)
    (by decide) rfl
  have h3 := @Run.call pages4k _ _ 3800 6 _ h2
    (supplies_page 16384 ⟨by decide, by decide⟩ (List.forall_mem_singleton.2 (.inr (by decide))))
    (by decide) (by decide) (by decide) rfl
  have h := perm_buffers_safe h3
  exact ⟨_, h3, rfl, h.1, h.2.1⟩

end Sol26.Kmem
