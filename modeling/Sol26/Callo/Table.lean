import Mathlib.Data.BitVec
import Mathlib.Tactic

/-!
# The ids of the callout table

Model of `callout_setup` and `callout_insert` from `uts/common/os/callout.c`, as far as the ids of
callouts go. An id has the bucket in its low bits, a counter of 19 bits above, and the bits for the
term and the table on top. Times are words, compared by the sign of their difference.
-/
namespace Sol26.Callo

open Function (update update_of_ne update_self)

def CALLOUT_EXECUTING : BitVec 32 := 0x80000000#32
def CALLOUT_UNSAFE_DRIVER : BitVec 32 := 0x40000000#32
def CALLOUT_REALTIME : BitVec 32 := 0x20000000#32
def CALLOUT_NORMAL : BitVec 32 := 0x10000000#32
def CALLOUT_LONGTERM : BitVec 32 := 0x08000000#32
def CALLOUT_LONGTERM_TICKS : BitVec 32 := 0x4000#32
def CALLOUT_BUCKETS : ℕ := 256
def CALLOUT_BUCKET_MASK : BitVec 32 := 0xff#32

inductive TableId
  | normal
  | realtime

def TableId.bits : TableId → BitVec 32
  | .normal => CALLOUT_NORMAL
  | .realtime => CALLOUT_REALTIME

/-- `callout_bucket_t` -/
structure Bucket where
  shortId : BitVec 32
  longId : BitVec 32

/-- `callout_setup` -/
def calloutSetup (table : TableId) (i : ℕ) : Bucket where
  shortId := BitVec.ofNat 32 i ||| table.bits
  longId := BitVec.ofNat 32 i ||| table.bits ||| CALLOUT_LONGTERM

/-- What `callout_insert` reads: the time of the table, `lbolt`, and its argument. -/
structure Insert where
  curtime : BitVec 32
  lbolt : BitVec 32
  delta : BitVec 32

/-- The callout runs at least one tick in the future. -/
def Insert.runtime (c : Insert) : BitVec 32 :=
  if (c.lbolt + c.delta - c.curtime).sle 0 then c.curtime + 1 else c.lbolt + c.delta

def Insert.bucket (c : Insert) : ℕ := (c.runtime &&& CALLOUT_BUCKET_MASK).toNat

def Insert.isLong (c : Insert) : Bool := CALLOUT_LONGTERM_TICKS.slt (c.runtime - c.curtime)

/-- `callout_insert`: the bucket heads afterwards, and the id. -/
def calloutInsert (cs : ℕ → Bucket) (c : Insert) : (ℕ → Bucket) × BitVec 32 :=
  let bucket := cs c.bucket
  if c.isLong then
    let id := (bucket.longId - CALLOUT_LONGTERM + BitVec.ofNat 32 CALLOUT_BUCKETS) |||
      CALLOUT_LONGTERM
    (update cs c.bucket { bucket with longId := id }, id)
  else
    let id := (bucket.shortId + BitVec.ofNat 32 CALLOUT_BUCKETS) &&& ~~~CALLOUT_LONGTERM
    (update cs c.bucket { bucket with shortId := id }, id)

/-- The ids of a sequence of insertions. -/
def calloutIds (cs : ℕ → Bucket) : List Insert → List (BitVec 32)
  | [] => []
  | c :: rest => (calloutInsert cs c).2 :: calloutIds (calloutInsert cs c).1 rest

/-- The ids of one term and one bucket among them. -/
def idsOf (cs : ℕ → Bucket) (calls : List Insert) (long : Bool) (b : ℕ) : List (BitVec 32) :=
  ((calls.zip (calloutIds cs calls)).filter fun p => p.1.isLong = long && p.1.bucket = b).map (·.2)

/-! ### The counter -/

theorem bucket_lt (c : Insert) : c.bucket < 256 := by
  have h : c.runtime.toNat &&& 255 ≤ 255 := Nat.and_le_right
  unfold Insert.bucket CALLOUT_BUCKET_MASK
  rw [BitVec.toNat_and]
  exact Nat.lt_succ_of_le h

/-- The bits of the counter and the bucket. -/
def low (n b : ℕ) : BitVec 32 := BitVec.ofNat 32 (256 * (n % 2 ^ 19) + b)

/-- The id after `n` insertions. -/
def idAt (table : TableId) (long : Bool) (n b : ℕ) : BitVec 32 :=
  (if long then table.bits ||| CALLOUT_LONGTERM else table.bits) ||| low n b

variable {m : BitVec 32} {count : Bool → ℕ → ℕ} {table : TableId} {b : ℕ} {cs : ℕ → Bucket}

theorem toNat_low {n : ℕ} (hb : b < 256) : (low n b).toNat = 256 * (n % 2 ^ 19) + b := by
  unfold low
  rw [BitVec.toNat_ofNat]
  have hlt := Nat.mod_lt n (show 0 < 2 ^ 19 by norm_num)
  exact Nat.mod_eq_of_lt (by omega)

/-- The counter and the bucket are below the bit of the term. -/
theorem low_and (n : ℕ) (hb : b < 256) (m : BitVec 32) :
    low n b &&& m = low n b &&& (0x07ffffff#32 &&& m) := by
  have hself : low n b &&& 0x07ffffff#32 = low n b := by
    refine BitVec.eq_of_toNat_eq ?_
    rw [BitVec.toNat_and]
    refine Nat.and_two_pow_sub_one_of_lt_two_pow (n := 27) ?_
    rw [toNat_low hb]
    have hlt := Nat.mod_lt n (show 0 < 2 ^ 19 by norm_num)
    omega
  rw [← BitVec.and_assoc, hself]

theorem low_and_of_disjoint (n : ℕ) (hb : b < 256)
    (hm : 0x07ffffff#32 &&& m = 0#32) : low n b &&& m = 0#32 := by
  rw [low_and n hb, hm, BitVec.and_zero]

theorem low_and_of_subset (n : ℕ) (hb : b < 256)
    (hm : 0x07ffffff#32 &&& m = 0x07ffffff#32 &&& BitVec.allOnes 32) :
    low n b &&& m = low n b := by
  rw [low_and n hb, hm, ← low_and n hb, BitVec.and_allOnes]

/-- The counter goes on, or wraps with a carry into the bit of the term. -/
theorem low_add (n : ℕ) (hb : b < 256) :
    low n b + BitVec.ofNat 32 CALLOUT_BUCKETS = low (n + 1) b ∨
      low n b + BitVec.ofNat 32 CALLOUT_BUCKETS = CALLOUT_LONGTERM + low (n + 1) b := by
  have hlt := Nat.mod_lt n (show 0 < 2 ^ 19 by norm_num)
  have hsucc : (n + 1) % 2 ^ 19 = n % 2 ^ 19 + 1 ∨
      n % 2 ^ 19 = 2 ^ 19 - 1 ∧ (n + 1) % 2 ^ 19 = 0 := by omega
  have h0 := toNat_low (n := n) hb
  have h1 := toNat_low (n := n + 1) hb
  rcases hsucc with hs | ⟨hs, hz⟩
  · left
    refine BitVec.eq_of_toNat_eq ?_
    rw [BitVec.toNat_add, h0, h1, hs]
    unfold CALLOUT_BUCKETS
    rw [BitVec.toNat_ofNat]
    omega
  · right
    refine BitVec.eq_of_toNat_eq ?_
    rw [BitVec.toNat_add, BitVec.toNat_add, h0, h1, hs, hz]
    unfold CALLOUT_BUCKETS CALLOUT_LONGTERM
    rw [BitVec.toNat_ofNat, BitVec.toNat_ofNat]
    omega

/-- Bits on top are added. -/
theorem add_low (n : ℕ) (hb : b < 256)
    (hm : 0x07ffffff#32 &&& m = 0#32) : m + low n b = m ||| low n b := by
  rw [BitVec.add_comm, BitVec.or_comm]
  exact BitVec.add_eq_or_of_and_eq_zero _ _ (low_and_of_disjoint n hb hm)

theorem bits_disjoint (table : TableId) : 0x07ffffff#32 &&& table.bits = 0#32 ∧
    0x07ffffff#32 &&& (table.bits ||| CALLOUT_LONGTERM) = 0#32 := by
  cases table <;> decide

/-- The next id without the bit of the term, or with it. -/
theorem bits_low_add (table : TableId) (n : ℕ) (hb : b < 256) :
    (table.bits ||| low n b) + BitVec.ofNat 32 CALLOUT_BUCKETS = table.bits ||| low (n + 1) b ∨
      (table.bits ||| low n b) + BitVec.ofNat 32 CALLOUT_BUCKETS =
        table.bits ||| CALLOUT_LONGTERM ||| low (n + 1) b := by
  obtain ⟨hbits, hlong⟩ := bits_disjoint table
  have hcarry : table.bits + CALLOUT_LONGTERM = table.bits ||| CALLOUT_LONGTERM := by
    cases table <;> decide
  rw [← add_low n hb hbits, BitVec.add_assoc]
  rcases low_add n hb with h | h
  · left
    rw [h, add_low (n + 1) hb hbits]
  · right
    rw [h, ← BitVec.add_assoc, hcarry, add_low (n + 1) hb hlong]

theorem short_next (table : TableId) (n : ℕ) (hb : b < 256) :
    (idAt table false n b + BitVec.ofNat 32 CALLOUT_BUCKETS) &&& ~~~CALLOUT_LONGTERM =
      idAt table false (n + 1) b := by
  have hlow : low (n + 1) b &&& ~~~CALLOUT_LONGTERM = low (n + 1) b :=
    low_and_of_subset (n + 1) hb (by decide)
  have hbits : table.bits &&& ~~~CALLOUT_LONGTERM = table.bits ∧
      (table.bits ||| CALLOUT_LONGTERM) &&& ~~~CALLOUT_LONGTERM = table.bits := by
    cases table <;> decide
  simp only [idAt, Bool.false_eq_true, if_false]
  rcases bits_low_add table n hb with h | h
  · rw [h, BitVec.and_comm, BitVec.and_or_distrib_left, BitVec.and_comm, hbits.1, BitVec.and_comm,
      hlow]
  · rw [h, BitVec.and_comm, BitVec.and_or_distrib_left, BitVec.and_comm, hbits.2, BitVec.and_comm,
      hlow]

theorem long_next (table : TableId) (n : ℕ) (hb : b < 256) :
    (idAt table true n b - CALLOUT_LONGTERM + BitVec.ofNat 32 CALLOUT_BUCKETS) |||
      CALLOUT_LONGTERM = idAt table true (n + 1) b := by
  obtain ⟨hbits, hlong⟩ := bits_disjoint table
  have hcarry : table.bits ||| CALLOUT_LONGTERM = table.bits + CALLOUT_LONGTERM := by
    cases table <;> decide
  have hsub : idAt table true n b - CALLOUT_LONGTERM = table.bits ||| low n b := by
    rw [idAt, if_pos rfl, ← add_low n hb hlong, hcarry, ← add_low n hb hbits]
    ring
  rw [hsub, idAt, if_pos rfl]
  rcases bits_low_add table n hb with h | h
  · rw [h, BitVec.or_assoc, BitVec.or_comm (low _ _), ← BitVec.or_assoc]
  · rw [h, BitVec.or_assoc, BitVec.or_comm (low _ _), ← BitVec.or_assoc,
      BitVec.or_assoc table.bits, BitVec.or_self]

/-! ### Runs -/

/-- How often each counter of a table has been used. -/
def Counts (table : TableId) (count : Bool → ℕ → ℕ) (cs : ℕ → Bucket) : Prop :=
  ∀ b < 256, (cs b).shortId = idAt table false (count false b) b ∧
    (cs b).longId = idAt table true (count true b) b

theorem calloutSetup_counts (table : TableId) :
    Counts table (fun _ _ => 0) (calloutSetup table) := by
  intro b _
  have hlow : low 0 b = BitVec.ofNat 32 b := by
    unfold low
    rw [Nat.zero_mod, Nat.mul_zero, Nat.zero_add]
  constructor
  · simp only [calloutSetup, idAt, hlow, Bool.false_eq_true, if_false]
    exact BitVec.or_comm _ _
  · simp only [calloutSetup, idAt, hlow, if_true]
    rw [BitVec.or_assoc]
    exact BitVec.or_comm _ _

/-- The counts after one more insertion. -/
def bump (count : Bool → ℕ → ℕ) (c : Insert) : Bool → ℕ → ℕ :=
  update count c.isLong (update (count c.isLong) c.bucket (count c.isLong c.bucket + 1))

theorem calloutInsert_counts (h : Counts table count cs) (c : Insert) :
    Counts table (bump count c) (calloutInsert cs c).1 ∧
      (calloutInsert cs c).2 = idAt table c.isLong (count c.isLong c.bucket + 1) c.bucket := by
  obtain ⟨hshort, hlong⟩ := h c.bucket (bucket_lt c)
  unfold calloutInsert
  cases hl : c.isLong with
  | true =>
    simp only [if_true, hlong, long_next table _ (bucket_lt c), and_true]
    intro b hb
    by_cases hbc : b = c.bucket
    · subst hbc
      simp [bump, hl, hshort]
    · simpa [bump, hl, hbc] using h b hb
  | false =>
    simp only [Bool.false_eq_true, if_false, hshort, short_next table _ (bucket_lt c), and_true]
    intro b hb
    by_cases hbc : b = c.bucket
    · subst hbc
      simp [bump, hl, hlong]
    · simpa [bump, hl, hbc] using h b hb

/-- The ids of one term and one bucket are numbered through. -/
theorem idsOf_eq (h : Counts table count cs) (calls : List Insert) (long : Bool) (b : ℕ) :
    idsOf cs calls long b = (List.range' (count long b + 1) (idsOf cs calls long b).length).map
      fun n => idAt table long n b := by
  induction calls generalizing cs count with
  | nil => rfl
  | cons c rest ih =>
    obtain ⟨hcounts, hid⟩ := calloutInsert_counts h c
    have hrest := ih hcounts
    by_cases hc : c.isLong = long ∧ c.bucket = b
    · obtain ⟨rfl, rfl⟩ := hc
      have hcons : idsOf cs (c :: rest) c.isLong c.bucket =
          (calloutInsert cs c).2 :: idsOf (calloutInsert cs c).1 rest c.isLong c.bucket := by
        simp [idsOf, calloutIds]
      have hbump : bump count c c.isLong c.bucket = count c.isLong c.bucket + 1 := by simp [bump]
      rw [hbump] at hrest
      rw [hcons, List.length_cons, List.range'_succ, List.map_cons, hid, ← hrest]
    · have hskip : idsOf cs (c :: rest) long b = idsOf (calloutInsert cs c).1 rest long b := by
        simp only [idsOf, calloutIds, List.zip_cons_cons]
        rw [List.filter_cons_of_neg (by simpa using hc)]
      have hbump : bump count c long b = count long b := by
        unfold bump
        by_cases hl : c.isLong = long
        · subst hl
          have hb : b ≠ c.bucket := fun hb => hc ⟨rfl, hb.symm⟩
          rw [update_self, update_of_ne hb]
        · rw [update_of_ne (Ne.symm hl)]
      rw [hskip, ← hbump]
      exact hrest

/-- Each id is one of its term and bucket. -/
theorem exists_idAt (h : Counts table count cs) (calls : List Insert) :
    ∀ p ∈ calls.zip (calloutIds cs calls), ∃ n, p.2 = idAt table p.1.isLong n p.1.bucket := by
  induction calls generalizing cs count with
  | nil => simp
  | cons c rest ih =>
    obtain ⟨hcounts, hid⟩ := calloutInsert_counts h c
    intro p hp
    rcases List.mem_cons.1 hp with rfl | hp
    · exact ⟨_, hid⟩
    · exact ih hcounts p hp

/-- The fields of an id. -/
structure Fields (table : TableId) (long : Bool) (b : ℕ) (id : BitVec 32) : Prop where
  bits : id &&& (CALLOUT_EXECUTING ||| CALLOUT_UNSAFE_DRIVER ||| CALLOUT_REALTIME |||
    CALLOUT_NORMAL) = table.bits
  term : id &&& CALLOUT_LONGTERM ≠ 0#32 ↔ long = true
  place : (id &&& CALLOUT_BUCKET_MASK).toNat = b
  ne_zero : id ≠ 0#32

theorem idAt_fields (table : TableId) (long : Bool) (n : ℕ) (hb : b < 256) :
    Fields table long b (idAt table long n b) := by
  have hand : ∀ m, idAt table long n b &&& m =
      ((if long then table.bits ||| CALLOUT_LONGTERM else table.bits) &&& m) |||
        (low n b &&& m) := by
    intro m
    rw [idAt, BitVec.and_comm, BitVec.and_or_distrib_left, BitVec.and_comm, BitVec.and_comm m]
  have htable : idAt table long n b &&& (CALLOUT_EXECUTING ||| CALLOUT_UNSAFE_DRIVER |||
      CALLOUT_REALTIME ||| CALLOUT_NORMAL) = table.bits := by
    rw [hand, low_and_of_disjoint n hb (by decide), BitVec.or_zero]
    cases table <;> cases long <;> decide
  refine ⟨htable, ?_, ?_, fun hz => ?_⟩
  · rw [hand, low_and_of_disjoint n hb (by decide), BitVec.or_zero]
    cases table <;> cases long <;> decide
  · have hbits : (if long then table.bits ||| CALLOUT_LONGTERM else table.bits) &&&
        CALLOUT_BUCKET_MASK = 0#32 := by
      cases table <;> cases long <;> decide
    rw [hand, hbits, BitVec.zero_or, BitVec.toNat_and, toNat_low hb]
    refine (Nat.and_two_pow_sub_one_eq_mod _ 8).trans ?_
    omega
  · rw [hz] at htable
    cases table <;> cases htable

theorem idAt_inj {long : Bool} {n n' : ℕ} (hb : b < 256)
    (h : idAt table long n b = idAt table long n' b) : n % 2 ^ 19 = n' % 2 ^ 19 := by
  have hlow : ∀ k, idAt table long k b &&& 0x07ffffff#32 = low k b := by
    intro k
    rw [idAt, BitVec.and_comm, BitVec.and_or_distrib_left, BitVec.and_comm _ (low k b),
      low_and_of_subset k hb (by decide)]
    have hbits : 0x07ffffff#32 &&& (if long then table.bits ||| CALLOUT_LONGTERM else
        table.bits) = 0#32 := by
      cases table <;> cases long <;> decide
    rw [hbits, BitVec.zero_or]
  have heq : (low n b).toNat = (low n' b).toNat := by rw [← hlow n, ← hlow n', h]
  rw [toNat_low hb, toNat_low hb] at heq
  omega

/-- Every id has the fields of its insertion, and any `2 ^ 19` ids in a row of one term in one bucket
are different. -/
theorem calloutIds_fields_distinct (table : TableId) (calls : List Insert) :
    (∀ p ∈ calls.zip (calloutIds (calloutSetup table) calls),
        Fields table p.1.isLong p.1.bucket p.2) ∧
      ∀ long b k, (((idsOf (calloutSetup table) calls long b).drop k).take (2 ^ 19)).Nodup := by
  have hcounts := calloutSetup_counts table
  refine ⟨fun p hp => ?_, fun long b k => ?_⟩
  · obtain ⟨n, hn⟩ := exists_idAt hcounts calls p hp
    rw [hn]
    exact idAt_fields table _ n (bucket_lt p.1)
  · by_cases hb : b < 256
    · rw [idsOf_eq hcounts calls long b, ← List.map_drop, ← List.map_take]
      refine List.Nodup.map_on (fun n hn n' hn' he => ?_) ?_
      · rw [List.drop_range', List.mem_take_iff_getElem] at hn hn'
        obtain ⟨i, hi, rfl⟩ := hn
        obtain ⟨j, hj, rfl⟩ := hn'
        rw [List.getElem_range', List.getElem_range'] at he ⊢
        have hmod := idAt_inj hb he
        omega
      · exact ((List.nodup_range' ..).sublist (List.drop_sublist _ _)).sublist
          (List.take_sublist _ _)
    · have hnil : idsOf (calloutSetup table) calls long b = [] := by
        refine List.map_eq_nil_iff.2 (List.filter_eq_nil_iff.2 fun p _ => ?_)
        have hlt := bucket_lt p.1
        simp only [Bool.and_eq_true, decide_eq_true_eq, not_and]
        omega
      rw [hnil, List.drop_nil, List.take_nil]
      exact List.nodup_nil

end Sol26.Callo
