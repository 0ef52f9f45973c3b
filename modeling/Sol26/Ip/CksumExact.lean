import Sol26.Ip.CksumSum

/-!
# When the checksum is that of the bytes

However a message is stored, `ip_old_cksum` returns the sum of its words. So does `ip_cksum`, except
on two ways through its part for a single block with uio data: one forgets the sum that it was
given, and one adds the prefix twice.
-/
namespace Sol26.Cksum

open Ones
open Option (map_some some_inj)

variable {ocsum : Ocsum} {w sum : ℕ} {mp : Mblk} {dp : Struio} {next : List Mblk}

theorem slow_computes (hoc : Sums ocsum) (h : mp.Good w) (hnext : ∀ mp ∈ next, mp.Good mp.rptr)
    (hlim : sum + 65535 * (mp.wptr - w + (tail next).length) < 2 ^ 32) :
    Computes sum (wordSum (mp.bytes w (mp.wptr - w) ++ tail next)) (slow ocsum mp next w sum) := by
  have hwptr := h.wptr
  obtain ⟨s, hs, hle, hcast⟩ := @block_adds ocsum w sum mp hoc h false (by omega)
  have hlen : (mp.bytes w (mp.wptr - w)).length = mp.wptr - w :=
    Mblk.bytes_length h.rptr (by omega)
  obtain ⟨v, hv, hvcast⟩ := rest_computes hoc hnext (false ^^ decide ((mp.wptr - w) % 2 = 1))
    (show s + 65535 * (tail next).length < 2 ^ 32 by omega)
  unfold slow
  rw [hs, Option.bind_eq_bind, Option.bind_some]
  refine ⟨v, hv, ?_⟩
  rw [hvcast, hcast, wordSum_append, hlen, half_xor]
  simp only [half, Bool.false_eq_true, if_false]
  ring

/-- A single block, by the loop. -/
theorem slow_single (hoc : Sums ocsum) (h : mp.Good w)
    (hlim : sum + 65535 * (mp.wptr - w) < 2 ^ 32) :
    Computes sum (wordSum (mp.bytes w (mp.wptr - w))) (slow ocsum mp [] w sum) := by
  have hslow := @slow_computes ocsum w sum mp [] hoc h (by simp) hlim
  rwa [show tail [] = [] by rfl, List.append_nil] at hslow

/-- An aligned run of whole words. -/
theorem ocsum_computes {n : ℕ} (hoc : Sums ocsum) (hw : w % 2 = 0) (hn : n % 2 = 0)
    (hrptr : mp.rptr ≤ w) (hend : w + n ≤ mp.wptr) (s : ℕ) :
    (ocsum w (mp.bytes w n) s : ZMod 65535) = s + wordSum (mp.bytes w n) ∧
      ocsum w (mp.bytes w n) s < 65536 := by
  have hlen := Mblk.bytes_length hrptr hend
  have hf := hoc w (mp.bytes w n) s hw (by rw [hlen]; exact hn)
  exact ⟨hf.cast, hf.lt⟩

theorem norm_computes (hoc : Sums ocsum) (h : mp.Good w) (hw : w % 2 = 0)
    (hlim : sum + 65535 * (mp.wptr - w) < 2 ^ 32) :
    Computes sum (wordSum (mp.bytes w (mp.wptr - w))) (norm ocsum mp w sum) := by
  unfold norm
  dsimp only
  by_cases hodd : (mp.wptr - w) % 2 = 1
  · rw [if_pos hodd]
    exact slow_single hoc h hlim
  · rw [if_neg hodd]
    have hwptr := h.wptr
    exact ⟨_, rfl, (ocsum_computes hoc hw (by omega) h.rptr (by omega) sum).1⟩

/-- The parts of a block with uio data: the prefix, what has been copied and what has not. -/
theorem wordSum_parts (h : dp.Good mp) (hrptr : mp.rptr ≤ w) (hw : w ≤ dp.base) :
    (wordSum (mp.bytes w (mp.wptr - w)) : ZMod 65535) =
      wordSum (mp.bytes w (dp.base - w)) + 256 ^ (dp.base - w) *
        (dp.data + 256 ^ (dp.ptr - dp.base) * wordSum (mp.bytes dp.ptr (dp.lim - dp.ptr))) := by
  have hbase := h.base
  have hptr := h.ptr
  have hlim := h.lim
  have hdata : (dp.data : ZMod 65535) = wordSum (mp.bytes dp.base (dp.ptr - dp.base)) :=
    (ZMod.natCast_eq_natCast_iff _ _ _).mpr h.cksum
  have hlen : (mp.bytes w (dp.base - w)).length = dp.base - w :=
    Mblk.bytes_length hrptr (by omega)
  have hlen' : (mp.bytes dp.base (dp.ptr - dp.base)).length = dp.ptr - dp.base :=
    Mblk.bytes_length (by omega) (by omega)
  have h1 := Mblk.bytes_append (a := dp.base - w) (b := mp.wptr - dp.base) hrptr
  have h2 := Mblk.bytes_append (w := dp.base) (a := dp.ptr - dp.base) (b := dp.lim - dp.ptr)
    (hrptr.trans hw)
  rw [show w + (dp.base - w) = dp.base by omega,
    show dp.base - w + (mp.wptr - dp.base) = mp.wptr - w by omega] at h1
  rw [show dp.base + (dp.ptr - dp.base) = dp.ptr by omega,
    show dp.ptr - dp.base + (dp.lim - dp.ptr) = mp.wptr - dp.base by omega] at h2
  rw [← h1, wordSum_append, hlen, ← h2, wordSum_append, hlen', hdata]

/-- A single block whose uio data has all been copied, without a prefix. -/
def Copied (dp : Struio) (w : ℕ) : Prop := dp.base = w ∧ dp.lim = dp.ptr

instance (dp : Struio) (w : ℕ) : Decidable (Copied dp w) :=
  inferInstanceAs (Decidable (_ ∧ _))

/-- A single block with whole words of prefix, some data copied, and an odd number of bytes to do
from an even address on. -/
def Twice (dp : Struio) (w : ℕ) : Prop :=
  w < dp.base ∧ (dp.base - w) % 2 = 0 ∧ dp.base < dp.ptr ∧ dp.ptr % 2 = 0 ∧
    (dp.lim - dp.ptr) % 2 = 1

instance (dp : Struio) (w : ℕ) : Decidable (Twice dp w) :=
  inferInstanceAs (Decidable (_ ∧ _))

/-- The result for a single block with uio data. -/
def UioSum (mp : Mblk) (dp : Struio) (w sum : ℕ) (r : Option ℕ) : Prop :=
  ∃ v, r = some v ∧ (v : ZMod 65535) + (if Copied dp w then sum else 0 : ℕ) =
    sum + wordSum (mp.bytes w (mp.wptr - w)) +
      (if Twice dp w then wordSum (mp.bytes w (dp.base - w)) else 0 : ℕ)

/-- A result that is right, on a way that is none of the two. -/
theorem Computes.exact {r : Option ℕ} (h : Computes sum (wordSum (mp.bytes w (mp.wptr - w))) r)
    (hc : ¬ (dp.base = w ∧ dp.lim = dp.ptr))
    (ht : ¬ (w < dp.base ∧ (dp.base - w) % 2 = 0 ∧ dp.base < dp.ptr ∧ dp.ptr % 2 = 0 ∧
      (dp.lim - dp.ptr) % 2 = 1)) : UioSum mp dp w sum r := by
  obtain ⟨v, hv, hcast⟩ := h
  refine ⟨v, hv, ?_⟩
  rw [if_neg (show ¬ Copied dp w from hc), if_neg (show ¬ Twice dp w from ht), hcast,
    Nat.cast_zero, add_zero]

/-- Whole words after a sum and the data that has been copied. -/
theorem words_computes {p n s : ℕ} {x : ZMod 65535} (hoc : Sums ocsum) (hp : p % 2 = 0)
    (hn : n % 2 = 0) (hrptr : mp.rptr ≤ p) (hend : p + n ≤ mp.wptr) (hlt : s + dp.data < 2 ^ 32)
    (hx : (s : ZMod 65535) + dp.data + wordSum (mp.bytes p n) = sum + x) :
    Computes sum x ((add32 s dp.data).map (ocsum p (mp.bytes p n))) := by
  rw [add32_of_lt hlt, map_some]
  refine ⟨_, rfl, ?_⟩
  rw [(ocsum_computes hoc hp hn hrptr hend _).1, Nat.cast_add, hx]

/-- After the prefix, the block from the uio data on. -/
theorem slow1_computes {s : ℕ} {x : ZMod 65535} (hoc : Sums ocsum) (h : dp.Good mp)
    (hrptr : mp.rptr ≤ dp.base) (hlim : s + 65535 * (mp.wptr - dp.base) < 2 ^ 32)
    (hx : (s : ZMod 65535) + wordSum (mp.bytes dp.base (mp.wptr - dp.base)) = sum + x) :
    Computes sum x (slow1 ocsum mp dp w s) := by
  have hbase := h.base
  have hptr := h.ptr
  have hend := h.lim
  obtain ⟨s', hs, -, hcast⟩ := @douio_adds ocsum w s mp dp hoc h (by omega) false (by omega)
  unfold slow1
  rw [hs]
  refine ⟨_, rfl, ?_⟩
  rw [cast_fold, cast_fold, hcast, ← hx, hend]
  simp [half]

theorem fastUio_computes (hoc : Sums ocsum) (h : mp.Good w) (huio : mp.uio w = some dp)
    (hweven : w % 2 = 0) (hsum : sum < 65536) (hlim : 65535 + 65535 * (mp.wptr - w) < 2 ^ 32) :
    UioSum mp dp w sum (fastUio ocsum mp dp w sum) := by
  have hgood := h.uio dp huio
  have hrptr := h.rptr
  have hw := Mblk.uio_base huio
  have hbase := hgood.base
  have hptr := hgood.ptr
  have hend := hgood.lim
  have hdata := hgood.lt
  have hparts := wordSum_parts hgood hrptr hw
  have hslow : Computes sum (wordSum (mp.bytes w (mp.wptr - w))) (slow ocsum mp [] w sum) :=
    slow_single hoc h (by omega)
  have hzero : ∀ p, wordSum (mp.bytes p 0) = 0 := fun _ => rfl
  unfold fastUio
  dsimp only
  by_cases hodd : (dp.base - w) % 2 = 1
  · rw [if_pos hodd]
    exact hslow.exact (by omega) (by omega)
  have heven : (dp.base - w) % 2 = 0 := by omega
  rw [if_neg hodd]
  rw [pow_256_even heven, one_mul] at hparts
  obtain ⟨hpre, hprelt⟩ := ocsum_computes hoc hweven heven hrptr (by omega) sum
  split_ifs with hboth hpodd hlodd hmore hbefore htodd hpodd hlodd hbefore
  · refine Computes.exact (slow1_computes hoc hgood (by omega) (by omega) ?_) (by omega) (by omega)
    have hparts' := wordSum_parts hgood (hrptr.trans hw) (le_refl dp.base)
    rw [Nat.sub_self, pow_zero, one_mul, hzero, Nat.cast_zero, zero_add] at hparts'
    rw [hpre, hparts', hparts, add_assoc]
  · -- the loop begins anew with the prefix
    obtain ⟨v, hv, hcast⟩ : Computes _ (wordSum (mp.bytes w (mp.wptr - w)))
        (slow ocsum mp [] w (ocsum w (mp.bytes w (dp.base - w)) sum)) :=
      slow_single hoc h (by omega)
    have ht : Twice dp w := ⟨by omega, by omega, by omega, by omega, hlodd⟩
    refine ⟨v, hv, ?_⟩
    rw [if_neg fun hc : Copied dp w => hboth.2.2 hc.2, if_pos ht, hcast, hpre]
    push_cast
    ring
  · refine Computes.exact (words_computes hoc (by omega) (by omega) (by omega) (by omega) (by omega)
      ?_) (by omega) (by omega)
    rw [hparts, hpre, pow_256_even (show (dp.ptr - dp.base) % 2 = 0 by omega)]
    ring
  · exact hslow.exact (by omega) (by omega)
  · -- nothing has been copied
    refine Computes.exact (words_computes hoc hweven (by omega) hrptr (by omega) (by omega) ?_)
      (by omega) (by omega)
    rw [hgood.empty (by omega), show dp.base - w + (dp.lim - dp.ptr) = mp.wptr - w by omega,
      Nat.cast_zero, add_zero]
  · exact hslow.exact (by omega) (by omega)
  · exact hslow.exact (by omega) (by omega)
  · refine Computes.exact (words_computes hoc (by omega) (by omega) (by omega) (by omega) (by omega)
      ?_) (by omega) (by omega)
    rw [hparts, show dp.base - w = 0 by omega, hzero,
      pow_256_even (show (dp.ptr - dp.base) % 2 = 0 by omega)]
    push_cast
    ring
  · -- the sum that was given is not added
    have hc : Copied dp w := ⟨by omega, by omega⟩
    refine ⟨dp.data, rfl, ?_⟩
    rw [if_pos hc, if_neg fun ht : Twice dp w => by have := ht.1; omega, hparts, hbefore,
      show dp.lim - dp.ptr = 0 by omega, hzero, hzero]
    push_cast
    ring
  · refine Computes.exact (words_computes hoc hweven heven hrptr (by omega) (by omega) ?_)
      (by omega) (by omega)
    rw [hparts, show dp.lim - dp.ptr = 0 by omega, hzero]
    push_cast
    ring

/-! ### Messages without uio data -/

/-- A block as `ip_old_cksum` sees it. -/
def Mblk.plain (mp : Mblk) : Mblk := { mp with struio := none }

theorem Mblk.plain_good (hrptr : mp.rptr ≤ w) (hwptr : w ≤ mp.wptr) : mp.plain.Good w where
  rptr := hrptr
  wptr := hwptr
  uio := fun dp hdp => by simp [uio, plain] at hdp

theorem block_plain (hw : mp.rptr ≤ w) (left : Bool) :
    block ocsum mp.plain w left sum = trip ocsum w (mp.data.drop (w - mp.rptr)) left sum := by
  have hbytes := @Mblk.bytes_all w mp.plain hw
  rw [block, show mp.plain.uio w = none by rfl]
  dsimp only
  rw [hbytes]
  rfl

/-- The old loop is the new one without uio data. -/
theorem oldLoop_eq_rest (next : List Mblk) (left : Bool) :
    oldLoop ocsum next left sum = rest ocsum (next.map Mblk.plain) left sum := by
  induction next generalizing left sum with
  | nil => rfl
  | cons mp next ih =>
    rw [List.map_cons, oldLoop, rest]
    have hblock := @block_plain ocsum mp.rptr sum mp (le_refl _) left
    rw [Nat.sub_self, List.drop_zero] at hblock
    rw [show mp.plain.data.length = mp.data.length by rfl,
      show mp.plain.rptr = mp.rptr by rfl, hblock]
    simp only [ih]

theorem tail_plain (next : List Mblk) : tail (next.map Mblk.plain) = tail next := by
  rw [tail, tail, List.map_map]
  rfl

/-- The bytes of the message `mp`, `next` from the offset on. -/
def stream (mp : Mblk) (next : List Mblk) (offset : ℕ) : List UInt8 :=
  mp.data.drop offset ++ tail next

theorem stream_length {offset : ℕ} :
    (stream mp next offset).length = mp.wptr - (mp.rptr + offset) + (tail next).length := by
  rw [stream, List.length_append, List.length_drop, Mblk.wptr]
  omega

theorem bytes_eq_drop {offset : ℕ} :
    mp.bytes (mp.rptr + offset) (mp.wptr - (mp.rptr + offset)) = mp.data.drop offset := by
  rw [Mblk.bytes_all (Nat.le_add_right _ _), Nat.add_sub_cancel_left]

theorem ipOldCksum_computes {offset : ℕ} (hoc : Sums ocsum) (hw : (mp.rptr + offset) % 2 = 0)
    (hwptr : mp.rptr + offset ≤ mp.wptr) (hsum : sum < 65536)
    (hlen : (stream mp next offset).length ≤ 65535) :
    Computes sum (wordSum (stream mp next offset)) (ipOldCksum ocsum mp next offset sum) := by
  rw [stream_length] at hlen
  unfold ipOldCksum
  dsimp only
  by_cases hfast : next.isEmpty = true ∧ mp.wptr % 2 = 0
  · rw [if_pos hfast]
    obtain rfl := List.isEmpty_iff.mp hfast.1
    have heven : (mp.wptr - (mp.rptr + offset)) / 2 * 2 = mp.wptr - (mp.rptr + offset) := by omega
    have hall := ocsum_computes hoc hw
      (show (mp.wptr - (mp.rptr + offset)) % 2 = 0 by omega) (Nat.le_add_right _ _) (by omega) sum
    rw [heven]
    refine ⟨_, rfl, ?_⟩
    rw [hall.1, bytes_eq_drop, stream, show tail [] = [] by rfl, List.append_nil]
  · rw [if_neg hfast]
    have hgood : mp.plain.Good (mp.rptr + offset) :=
      Mblk.plain_good (Nat.le_add_right _ _) hwptr
    have hnext : ∀ mp' ∈ next.map Mblk.plain, mp'.Good mp'.rptr := by
      intro mp' hmp'
      obtain ⟨m, -, rfl⟩ := List.mem_map.mp hmp'
      exact Mblk.plain_good (le_refl _) (Nat.le_add_right _ _)
    have hslow := @slow_computes ocsum (mp.rptr + offset) sum mp.plain (next.map Mblk.plain) hoc
      hgood hnext (by rw [tail_plain, show mp.plain.wptr = mp.wptr by rfl]; omega)
    have hrun : trip ocsum (mp.rptr + offset) (mp.data.drop offset) false sum =
        run ocsum (mp.rptr + offset) (mp.data.drop offset) sum := by
      cases mp.data.drop offset with
      | nil => rfl
      | cons a l => rfl
    have hbytes : mp.plain.bytes (mp.rptr + offset) (mp.plain.wptr - (mp.rptr + offset)) =
        mp.data.drop offset := @bytes_eq_drop mp.plain offset
    rw [tail_plain, hbytes, slow,
      block_plain (Nat.le_add_right _ _), Nat.add_sub_cancel_left, hrun] at hslow
    simp only [oldLoop_eq_rest]
    exact hslow

/-- The result of `ip_cksum`, with what it leaves out and what it adds twice. -/
theorem ipCksum_computes {offset : ℕ} (hoc : Sums ocsum) (hw : (mp.rptr + offset) % 2 = 0)
    (h : mp.Good (mp.rptr + offset)) (hnext : ∀ mp ∈ next, mp.Good mp.rptr) (hsum : sum < 65536)
    (hlen : (stream mp next offset).length ≤ 65535) :
    ((∀ dp, next = [] → mp.uio (mp.rptr + offset) ≠ some dp) ∧
        Computes sum (wordSum (stream mp next offset)) (ipCksum ocsum mp next offset sum)) ∨
      next = [] ∧ ∃ dp, mp.uio (mp.rptr + offset) = some dp ∧
        UioSum mp dp (mp.rptr + offset) sum (ipCksum ocsum mp next offset sum) := by
  rw [stream_length] at hlen
  have hbytes := @bytes_eq_drop mp offset
  unfold ipCksum
  dsimp only
  cases next with
  | nil =>
    have hstream : stream mp [] offset =
        mp.bytes (mp.rptr + offset) (mp.wptr - (mp.rptr + offset)) := by
      rw [hbytes, stream, show tail [] = [] by rfl, List.append_nil]
    rw [hstream]
    cases huio : mp.uio (mp.rptr + offset) with
    | none =>
      refine .inl ⟨fun dp _ hdp => Option.some_ne_none dp hdp.symm, ?_⟩
      exact norm_computes hoc h hw (by omega)
    | some dp => exact .inr ⟨rfl, dp, rfl, fastUio_computes hoc h huio hw hsum (by omega)⟩
  | cons mp' next' =>
    refine .inl ⟨fun dp hnil => absurd hnil (List.cons_ne_nil _ _), ?_⟩
    have hslow : Computes sum _ (slow ocsum mp (mp' :: next') _ sum) :=
      slow_computes hoc h hnext (by omega)
    rw [hbytes] at hslow
    exact hslow

/-- `ip_old_cksum` returns the sum of the words of a message, however it is stored, and so does
`ip_cksum` unless the message is a single block with uio data and either all of the data has been
copied and the sum that was given counts, or the prefix is added twice and counts. -/
theorem cksum_of_stream_iff {offset : ℕ} (hoc : Sums ocsum) (hw : (mp.rptr + offset) % 2 = 0)
    (h : mp.Good (mp.rptr + offset)) (hnext : ∀ mp ∈ next, mp.Good mp.rptr) (hsum : sum < 65536)
    (hlen : (stream mp next offset).length ≤ 65535) :
    (∃ v, ipOldCksum ocsum mp next offset sum = some v ∧
      v ≡ sum + wordSum (stream mp next offset) [MOD 65535]) ∧
    ∃ v, ipCksum ocsum mp next offset sum = some v ∧
      (v ≡ sum + wordSum (stream mp next offset) [MOD 65535] ↔
        (next = [] → ∀ dp, mp.uio (mp.rptr + offset) = some dp →
          (Copied dp (mp.rptr + offset) → sum ≡ 0 [MOD 65535]) ∧
          (Twice dp (mp.rptr + offset) →
            wordSum (mp.bytes (mp.rptr + offset) (dp.base - (mp.rptr + offset))) ≡
              0 [MOD 65535]))) := by
  simp only [← ZMod.natCast_eq_natCast_iff, Nat.cast_add, Nat.cast_zero]
  refine ⟨ipOldCksum_computes hoc hw h.wptr hsum hlen, ?_⟩
  rcases ipCksum_computes hoc hw h hnext hsum hlen with
    ⟨hnone, v, hv, hcast⟩ | ⟨rfl, dp, hdp, v, hv, hcast⟩
  · exact ⟨v, hv, iff_of_true hcast fun hnil dp hdp => absurd hdp (hnone dp hnil)⟩
  · refine ⟨v, hv, ?_⟩
    rw [stream, show tail [] = [] by rfl, List.append_nil, ← bytes_eq_drop]
    simp only [hdp, some_inj, forall_const, forall_eq']
    have hexcl : Copied dp (mp.rptr + offset) → ¬ Twice dp (mp.rptr + offset) :=
      fun hc ht => absurd hc.1 ht.1.ne'
    by_cases hc : Copied dp (mp.rptr + offset)
    · rw [if_pos hc, if_neg (hexcl hc), Nat.cast_zero, add_zero] at hcast
      simp only [← hcast, left_eq_add, hc, hexcl hc, forall_const, IsEmpty.forall_iff, and_true]
    · rw [if_neg hc, Nat.cast_zero, add_zero] at hcast
      by_cases ht : Twice dp (mp.rptr + offset)
      · rw [if_pos ht] at hcast
        simp only [hcast, add_eq_left, hc, ht, forall_const, IsEmpty.forall_iff, true_and]
      · rw [if_neg ht, Nat.cast_zero, add_zero] at hcast
        exact iff_of_true hcast ⟨fun hc' => absurd hc' hc, fun ht' => absurd ht' ht⟩

/-- A routine that adds all of the carries in. -/
def carryOcsum : Ocsum := fun _ l sum => carried (sum + wordSum l)

theorem carryOcsum_sums : Sums carryOcsum := fun _ l sum _ _ => folded_carried sum l

/-- A block of which two bytes have been copied and two have not. -/
def halfCopied : Mblk where
  rptr := 0
  data := [0, 1, 0, 2]
  struio := some { base := 0, ptr := 2, lim := 4, data := 1 }

/-- A block of which all bytes have been copied. -/
def allCopied : Mblk where
  rptr := 0
  data := [0, 1]
  struio := some { base := 0, ptr := 2, lim := 2, data := 1 }

/-- A block with two bytes before the uio data, of which two have been copied and one has not. -/
def prefixed : Mblk where
  rptr := 0
  data := [0, 1, 0, 2, 3]
  struio := some { base := 2, ptr := 4, lim := 5, data := 2 }

theorem halfCopied_good : halfCopied.Good (halfCopied.rptr + 0) where
  rptr := by decide
  wptr := by decide
  uio := by
    intro dp hdp
    cases hdp
    constructor <;> decide

theorem allCopied_good : allCopied.Good (allCopied.rptr + 0) where
  rptr := by decide
  wptr := by decide
  uio := by
    intro dp hdp
    cases hdp
    constructor <;> decide

theorem prefixed_good : prefixed.Good (prefixed.rptr + 0) where
  rptr := by decide
  wptr := by decide
  uio := by
    intro dp hdp
    cases hdp
    constructor <;> decide

theorem cksum_of_stream_iff_halfCopied :
    ipCksum carryOcsum halfCopied [] 0 5 = some 8 ∧
    (∃ v, ipOldCksum carryOcsum halfCopied [] 0 5 = some v ∧
      v ≡ 5 + wordSum (stream halfCopied [] 0) [MOD 65535]) ∧
    ∃ v, ipCksum carryOcsum halfCopied [] 0 5 = some v ∧
      (v ≡ 5 + wordSum (stream halfCopied [] 0) [MOD 65535] ↔
        (([] : List Mblk) = [] → ∀ dp, halfCopied.uio (halfCopied.rptr + 0) = some dp →
          (Copied dp (halfCopied.rptr + 0) → 5 ≡ 0 [MOD 65535]) ∧
          (Twice dp (halfCopied.rptr + 0) →
            wordSum (halfCopied.bytes (halfCopied.rptr + 0) (dp.base - (halfCopied.rptr + 0))) ≡
              0 [MOD 65535]))) :=
  ⟨by decide, cksum_of_stream_iff carryOcsum_sums (by decide) halfCopied_good
    (fun _ hmp => absurd hmp List.not_mem_nil) (by decide) (by decide)⟩

/-- The sum 5 is lost, and the two bytes before the uio data are added twice. -/
theorem cksum_of_stream_fails :
    (Sums carryOcsum ∧ allCopied.Good (allCopied.rptr + 0) ∧ prefixed.Good (prefixed.rptr + 0)) ∧
    (ipCksum carryOcsum allCopied [] 0 5 = some 1 ∧
      ¬ 1 ≡ 5 + wordSum (stream allCopied [] 0) [MOD 65535]) ∧
    ipCksum carryOcsum prefixed [] 0 0 = some 772 ∧
      ¬ 772 ≡ 0 + wordSum (stream prefixed [] 0) [MOD 65535] := by
  refine ⟨⟨carryOcsum_sums, allCopied_good, prefixed_good⟩, ⟨by decide, ?_⟩, by decide, ?_⟩
  · rw [show wordSum (stream allCopied [] 0) = 1 by decide]
    decide
  · rw [show wordSum (stream prefixed [] 0) = 771 by decide]
    decide

end Sol26.Cksum
