import Sol26.Ip.Cksum

/-!
# What the checksum routines add up

Every trip of the loop adds the words of its bytes, exchanged if a byte was left before, and leaves
a byte if their number is odd. The sum grows by at most 65535 for a byte, so that it stays within 32
bits for a whole message.
-/
namespace Sol26.Cksum

open Ones
open Option (bind_eq_bind bind_some)

variable {ocsum : Ocsum} {w sum : ℕ} {l : List UInt8} {left : Bool} {mp : Mblk} {dp : Struio}

/-- `ip_ocsum` folds the sum of an aligned run of whole words. -/
def Sums (ocsum : Ocsum) : Prop :=
  ∀ w l sum, w % 2 = 0 → l.length % 2 = 0 → Folded sum l (ocsum w l sum)

/-- The weight of a run that begins at a word, or at its second byte. -/
def half (left : Bool) : ZMod 65535 := if left then 256 else 1

/-- The sum after `n` bytes that count `x`, and whether a byte is left. -/
def Adds (sum n : ℕ) (x : ZMod 65535) (left : Bool) (r : Option (ℕ × Bool)) : Prop :=
  ∃ s, r = some (s, left) ∧ s ≤ sum + 65535 * n ∧ (s : ZMod 65535) = sum + x

theorem add32_of_lt {a b : ℕ} (h : a + b < 2 ^ 32) : add32 a b = some (a + b) := if_pos h

theorem half_xor (left : Bool) (n : ℕ) :
    half (left ^^ decide (n % 2 = 1)) = half left * 256 ^ n := by
  by_cases hn : n % 2 = 1
  · rw [pow_256_odd hn, decide_eq_true hn]
    cases left
    · simp [half]
    · simp only [half, Bool.xor_true, Bool.not_true, Bool.false_eq_true, if_false, if_true]
      exact sq_256.symm
  · rw [pow_256_even (by omega), decide_eq_false hn]
    simp

theorem decide_odd_add (a b : ℕ) :
    decide ((a + b) % 2 = 1) = (decide (a % 2 = 1) ^^ decide (b % 2 = 1)) := by
  by_cases ha : a % 2 = 1 <;> by_cases hb : b % 2 = 1 <;> simp [ha, hb] <;> omega

/-- The words of a run and the byte that is left of it. -/
theorem split_even (l : List UInt8) :
    (l.take (l.length / 2 * 2)).length % 2 = 0 ∧
      (l.length % 2 = 0 ∧ l.drop (l.length / 2 * 2) = [] ∨
        l.length % 2 = 1 ∧ ∃ b, l.drop (l.length / 2 * 2) = [b]) := by
  constructor
  · rw [List.length_take]
    omega
  · by_cases heven : l.length % 2 = 0
    · exact .inl ⟨heven, List.drop_eq_nil_of_le (by omega)⟩
    · refine .inr ⟨by omega, List.length_eq_one_iff.mp ?_⟩
      rw [List.length_drop]
      omega

theorem aligned_adds (hoc : Sums ocsum) (hw : w % 2 = 0) (hlim : sum + 65535 * l.length < 2 ^ 32) :
    Adds sum l.length (wordSum l) (l.length % 2 = 1) (aligned ocsum w l sum) := by
  obtain ⟨hlen, hsplit⟩ := split_even l
  have hf := hoc w (l.take (l.length / 2 * 2)) sum hw hlen
  have hbound := wordSum_le (l.take (l.length / 2 * 2))
  have hcast := wordSum_append (l.take (l.length / 2 * 2)) (l.drop (l.length / 2 * 2))
  rw [List.take_append_drop, pow_256_even hlen, one_mul] at hcast
  rw [List.length_take] at hbound
  have hle := hf.le
  unfold aligned
  dsimp only
  rcases hsplit with ⟨heven, hdrop⟩ | ⟨hodd, b, hdrop⟩
  · rw [hdrop] at hcast ⊢
    refine ⟨_, by rw [decide_eq_false (by omega)]; rfl, by omega, ?_⟩
    rw [hf.cast, hcast]
    simp [wordSum]
  · have hb := b.toNat_lt
    rw [hdrop] at hcast ⊢
    dsimp only
    rw [Nat.shiftLeft_eq, add32_of_lt (by omega)]
    refine ⟨_, by rw [decide_eq_true hodd]; rfl, by omega, ?_⟩
    rw [hcast]
    push_cast
    rw [hf.cast]
    simp only [wordSum]
    push_cast
    ring

theorem unaligned_adds {a : UInt8} (hoc : Sums ocsum) (hw : w % 2 = 1)
    (hlim : sum + 65535 * (l.length + 1) < 2 ^ 32) :
    Adds sum (l.length + 1) (wordSum (a :: l)) ((l.length + 1) % 2 = 1)
      (unaligned ocsum w a l sum) := by
  obtain ⟨hlen, hsplit⟩ := split_even l
  have hf := hoc (w + 1) (l.take (l.length / 2 * 2)) 0 (by omega) hlen
  have hbound := wordSum_le (l.take (l.length / 2 * 2))
  have hcast := wordSum_append (l.take (l.length / 2 * 2)) (l.drop (l.length / 2 * 2))
  rw [List.take_append_drop, pow_256_even hlen, one_mul] at hcast
  rw [List.length_take] at hbound
  have ha := a.toNat_lt
  have hle := hf.le
  have hswap := swap_lt hf.lt
  have hswap' := cast_swap hf.lt
  rw [hf.cast, Nat.cast_zero, zero_add] at hswap'
  unfold unaligned
  dsimp only
  rw [Nat.mod_eq_of_lt hf.lt, Nat.shiftLeft_eq, add32_of_lt (by omega)]
  -- with less than two bytes after the first there are no words to exchange
  have hsmall : l.length < 2 → swap (ocsum (w + 1) (l.take (l.length / 2 * 2)) 0) = 0 := by
    intro hl
    have hzero : ocsum (w + 1) (l.take (l.length / 2 * 2)) 0 = 0 := by omega
    rw [hzero]
    rfl
  revert hswap hswap' hsmall
  generalize swap (ocsum (w + 1) (l.take (l.length / 2 * 2)) 0) = x
  intro hswap hswap' hsmall
  have hx : x ≤ 65535 * l.length := by
    by_cases hl : l.length < 2
    · rw [hsmall hl]
      omega
    · omega
  have hx' : l.length % 2 = 1 → x + 255 ≤ 65535 * l.length := by
    intro hodd
    by_cases hl : l.length < 2
    · rw [hsmall hl]
      omega
    · omega
  rw [bind_eq_bind, bind_some, add32_of_lt (by omega), bind_some]
  rcases hsplit with ⟨heven, hdrop⟩ | ⟨hodd, b, hdrop⟩
  · rw [hdrop] at hcast ⊢
    refine ⟨_, by rw [decide_eq_true (by omega)]; rfl, by omega, ?_⟩
    rw [wordSum_cons, hcast]
    push_cast
    rw [hswap']
    simp only [wordSum]
    push_cast
    ring
  · have hb := b.toNat_lt
    rw [hdrop] at hcast ⊢
    dsimp only
    have := hx' hodd
    rw [add32_of_lt (by omega)]
    refine ⟨_, by rw [decide_eq_false (by omega)]; rfl, by omega, ?_⟩
    rw [wordSum_cons, hcast]
    push_cast
    rw [hswap']
    simp only [wordSum]
    push_cast
    linear_combination (-(b.toNat : ZMod 65535)) * sq_256

theorem run_adds (hoc : Sums ocsum) (hlim : sum + 65535 * l.length < 2 ^ 32) :
    Adds sum l.length (wordSum l) (l.length % 2 = 1) (run ocsum w l sum) := by
  cases l with
  | nil => exact ⟨sum, rfl, by simp, by simp [wordSum]⟩
  | cons a l =>
    unfold run
    dsimp only
    by_cases hw : w % 2 = 0
    · rw [if_pos hw]
      exact aligned_adds hoc hw hlim
    · rw [if_neg hw]
      exact unaligned_adds hoc (by omega) hlim

theorem trip_adds (hoc : Sums ocsum) (left : Bool) (hlim : sum + 65535 * l.length < 2 ^ 32) :
    Adds sum l.length (half left * wordSum l) (left ^^ decide (l.length % 2 = 1))
      (trip ocsum w l left sum) := by
  cases l with
  | nil => exact ⟨sum, by simp [trip], by simp, by simp [wordSum]⟩
  | cons a l =>
    cases left with
    | false =>
      have h := run_adds (w := w) hoc hlim
      simpa [trip, half] using h
    | true =>
      have ha := a.toNat_lt
      rw [List.length_cons] at hlim
      obtain ⟨s, hs, hle, hcast⟩ := @run_adds ocsum (w + 1) (sum + a.toNat) l hoc (by omega)
      unfold trip
      dsimp only
      rw [add32_of_lt (by omega), bind_eq_bind, bind_some, hs, List.length_cons]
      refine ⟨s, ?_, by omega, ?_⟩
      · rw [decide_odd_add]
        simp
      · rw [hcast, wordSum_cons]
        simp only [half, if_true]
        push_cast
        linear_combination (-(a.toNat + wordSum l : ZMod 65535)) * sq_256

/-- One sum after the other. -/
theorem Adds.bind {n n' : ℕ} {x x' : ZMod 65535} {left' : Bool} {r : Option (ℕ × Bool)}
    {f : ℕ × Bool → Option (ℕ × Bool)} (h : Adds sum n x left r)
    (hf : ∀ s, s ≤ sum + 65535 * n → Adds s n' x' left' (f (s, left))) :
    Adds sum (n + n') (x + x') left' (r.bind f) := by
  obtain ⟨s, rfl, hle, hcast⟩ := h
  obtain ⟨s', hs', hle', hcast'⟩ := hf s hle
  refine ⟨s', by rw [bind_some, hs'], by omega, ?_⟩
  rw [hcast', hcast]
  ring

theorem Adds.after {a n n' : ℕ} {x x' : ZMod 65535} {r : Option (ℕ × Bool)} (ha : a ≤ 65535 * n)
    (hx : (a : ZMod 65535) = x) (h : Adds (sum + a) n' x' left r) :
    Adds sum (n + n') (x + x') left r := by
  obtain ⟨s, hs, hle, hcast⟩ := h
  refine ⟨s, hs, by omega, ?_⟩
  rw [hcast, Nat.cast_add, hx, add_assoc]

/-! ### Blocks -/

/-- The uio data of a block: `data` is the checksum of what has been copied, 0 if nothing has. The
block ends where the uio data does. -/
structure Struio.Good (mp : Mblk) (dp : Struio) : Prop where
  base : dp.base ≤ dp.ptr
  ptr : dp.ptr ≤ dp.lim
  lim : dp.lim = mp.wptr
  lt : dp.data < 65536
  cksum : dp.data ≡ wordSum (mp.bytes dp.base (dp.ptr - dp.base)) [MOD 65535]
  empty : dp.base = dp.ptr → dp.data = 0

/-- A block from the address `w` on. -/
structure Mblk.Good (mp : Mblk) (w : ℕ) : Prop where
  rptr : mp.rptr ≤ w
  wptr : w ≤ mp.wptr
  uio : ∀ dp, mp.uio w = some dp → dp.Good mp

theorem Mblk.uio_base (h : mp.uio w = some dp) : w ≤ dp.base := by
  rw [uio, Option.filter_eq_some_iff] at h
  have := h.2
  simp only [decide_eq_true_eq, not_or, not_lt] at this
  exact this.1

theorem Mblk.bytes_append {a b : ℕ} (hw : mp.rptr ≤ w) :
    mp.bytes w a ++ mp.bytes (w + a) b = mp.bytes w (a + b) := by
  rw [bytes, bytes, bytes, List.take_add, List.drop_drop, show w + a - mp.rptr = w - mp.rptr + a by
    omega]

theorem Mblk.bytes_length {n : ℕ} (hw : mp.rptr ≤ w) (hn : w + n ≤ mp.wptr) :
    (mp.bytes w n).length = n := by
  rw [wptr] at hn
  rw [bytes, List.length_take, List.length_drop]
  omega

theorem Mblk.bytes_all (hw : mp.rptr ≤ w) :
    mp.bytes w (mp.wptr - w) = mp.data.drop (w - mp.rptr) := by
  rw [bytes, wptr]
  apply List.take_of_length_le
  rw [List.length_drop]
  omega

/-- The partial checksum counts as the bytes that it is for. -/
theorem Struio.Good.psum (h : dp.Good mp) (left : Bool) :
    (if left then swap dp.data else dp.data) ≤ 65535 * (dp.ptr - dp.base) ∧
      ((if left then swap dp.data else dp.data : ℕ) : ZMod 65535) =
        half left * wordSum (mp.bytes dp.base (dp.ptr - dp.base)) := by
  have hcast : (dp.data : ZMod 65535) = wordSum (mp.bytes dp.base (dp.ptr - dp.base)) :=
    (ZMod.natCast_eq_natCast_iff _ _ _).mpr h.cksum
  have hlt := h.lt
  have hswap := swap_lt h.lt
  rw [← hcast]
  constructor
  · by_cases hempty : dp.base = dp.ptr
    · have hzero : swap 0 = 0 := rfl
      rw [h.empty hempty, hzero, ite_self]
      exact Nat.zero_le _
    · have hbase := h.base
      split_ifs <;> omega
  · cases left
    · simp [half]
    · rw [if_pos rfl, cast_swap h.lt]
      rfl

/-- The copied data and the rest of the uio data. -/
theorem douio_adds (hoc : Sums ocsum) (h : dp.Good mp) (hrptr : mp.rptr ≤ dp.base) (left : Bool)
    (hlim : sum + 65535 * (dp.lim - dp.base) < 2 ^ 32) :
    Adds sum (dp.lim - dp.base) (half left * wordSum (mp.bytes dp.base (dp.lim - dp.base)))
      (left ^^ decide ((dp.lim - dp.base) % 2 = 1)) (douio ocsum mp dp w 0 left sum) := by
  have hbase := h.base
  have hptr := h.ptr
  have hlim' := h.lim
  obtain ⟨hle, hcast⟩ := h.psum left
  have hlen : (mp.bytes dp.base (dp.ptr - dp.base)).length = dp.ptr - dp.base :=
    Mblk.bytes_length hrptr (by omega)
  have hlen' : (mp.bytes dp.ptr (dp.lim - dp.ptr)).length = dp.lim - dp.ptr :=
    Mblk.bytes_length (by omega) (by omega)
  have hleft : (if decide ((dp.ptr - dp.base) % 2 = 1) = true then !left else left) =
      (left ^^ decide ((dp.ptr - dp.base) % 2 = 1)) := by
    cases left <;> cases decide ((dp.ptr - dp.base) % 2 = 1) <;> rfl
  unfold douio
  dsimp only
  rw [hleft, add32_of_lt (by omega), bind_eq_bind, bind_some,
    show dp.lim - dp.base = dp.ptr - dp.base + (dp.lim - dp.ptr) by omega,
    ← Mblk.bytes_append hrptr, show dp.base + (dp.ptr - dp.base) = dp.ptr by omega, wordSum_append,
    hlen, mul_add, ← mul_assoc, ← half_xor, decide_odd_add, ← Bool.xor_assoc]
  refine Adds.after hle hcast ?_
  -- the rest is one trip from `db_struioptr` on, or nothing
  by_cases hend : dp.lim = dp.ptr
  · rw [if_neg (not_not.mpr hend), hend, Nat.sub_self]
    exact trip_adds (l := []) hoc _ (by rw [List.length_nil]; omega)
  · rw [if_pos hend, if_neg fun h0 : (0 : ℕ) ≠ 0 => h0 rfl]
    have ht := @trip_adds ocsum dp.ptr (sum + if left then swap dp.data else dp.data)
      (mp.bytes dp.ptr (dp.lim - dp.ptr)) hoc (left ^^ decide ((dp.ptr - dp.base) % 2 = 1))
      (by rw [hlen']; omega)
    rwa [hlen'] at ht

/-- All of a block from `w` on. -/
theorem block_adds (hoc : Sums ocsum) (h : mp.Good w) (left : Bool)
    (hlim : sum + 65535 * (mp.wptr - w) < 2 ^ 32) :
    Adds sum (mp.wptr - w) (half left * wordSum (mp.bytes w (mp.wptr - w)))
      (left ^^ decide ((mp.wptr - w) % 2 = 1)) (block ocsum mp w left sum) := by
  have hrptr := h.rptr
  have hwptr := h.wptr
  have hlen : (mp.bytes w (mp.wptr - w)).length = mp.wptr - w := Mblk.bytes_length hrptr (by omega)
  have htrip := @trip_adds ocsum w sum (mp.bytes w (mp.wptr - w)) hoc left (by rw [hlen]; omega)
  rw [hlen] at htrip
  unfold block
  cases huio : mp.uio w with
  | none => exact htrip
  | some dp =>
    have hgood := h.uio dp huio
    have hw := Mblk.uio_base huio
    have hbase := hgood.base
    have hptr := hgood.ptr
    have hend := hgood.lim
    dsimp only
    by_cases htwo : dp.base - w ≠ 0 ∧ dp.base ≠ dp.ptr
    · rw [if_pos htwo]
      have hlen' : (mp.bytes w (dp.base - w)).length = dp.base - w :=
        Mblk.bytes_length hrptr (by omega)
      have hfirst := @trip_adds ocsum w sum (mp.bytes w (dp.base - w)) hoc left
        (by rw [hlen']; omega)
      rw [hlen'] at hfirst
      have hboth := hfirst.bind (f := fun r => douio ocsum mp dp w 0 r.2 r.1) fun s hs =>
        @douio_adds ocsum w s mp dp hoc hgood (by omega) (left ^^ decide ((dp.base - w) % 2 = 1))
          (by omega)
      have hbytes := Mblk.bytes_append (a := dp.base - w) (b := dp.lim - dp.base) hrptr
      rw [show w + (dp.base - w) = dp.base by omega,
        show dp.base - w + (dp.lim - dp.base) = mp.wptr - w by omega] at hbytes
      rw [Bool.xor_assoc, ← decide_odd_add,
        show dp.base - w + (dp.lim - dp.base) = mp.wptr - w by omega, half_xor, mul_assoc,
        ← mul_add] at hboth
      rw [← hbytes, wordSum_append, hlen']
      exact hboth
    · rw [if_neg htwo]
      by_cases hbefore : dp.base - w = 0
      · obtain rfl : dp.base = w := by omega
        rw [Nat.sub_self, ← hend]
        exact douio_adds hoc hgood hrptr left (by omega)
      · -- nothing has been copied, so that the prefix and the uio data are one run
        have hsame : dp.base = dp.ptr := by
          by_contra hne
          exact htwo ⟨hbefore, hne⟩
        have hzero : swap 0 = 0 := rfl
        have hodd : decide ((dp.ptr - dp.base) % 2 = 1) = false := decide_eq_false (by omega)
        unfold douio
        dsimp only
        rw [hgood.empty hsame, hzero, ite_self, add32_of_lt (by omega), bind_eq_bind,
          bind_some, hodd, if_neg Bool.false_ne_true, Nat.add_zero]
        by_cases hdone : dp.lim = dp.ptr
        · rw [if_neg (not_not.mpr hdone), show dp.base - w = mp.wptr - w by omega]
          exact htrip
        · rw [if_pos hdone, if_pos hbefore,
            show dp.base - w + (dp.lim - dp.ptr) = mp.wptr - w by omega]
          exact htrip

/-! ### Messages -/

/-- The result is the sum of the words modulo 65535. -/
def Computes (sum : ℕ) (x : ZMod 65535) (r : Option ℕ) : Prop :=
  ∃ v, r = some v ∧ (v : ZMod 65535) = sum + x

/-- The data of the blocks after the first one. -/
def tail (next : List Mblk) : List UInt8 := (next.map Mblk.data).flatten

theorem tail_cons (mp : Mblk) (next : List Mblk) : tail (mp :: next) = mp.data ++ tail next := rfl

theorem rest_computes (hoc : Sums ocsum) {next : List Mblk} (h : ∀ mp ∈ next, mp.Good mp.rptr)
    (left : Bool) (hlim : sum + 65535 * (tail next).length < 2 ^ 32) :
    Computes sum (half left * wordSum (tail next)) (rest ocsum next left sum) := by
  induction next generalizing left sum with
  | nil =>
    refine ⟨_, rfl, ?_⟩
    rw [cast_fold, cast_fold]
    simp [tail, wordSum]
  | cons mp next ih =>
    have hnext : ∀ mp ∈ next, mp.Good mp.rptr := fun mp' hmp => h mp' (List.mem_cons_of_mem mp hmp)
    rw [tail_cons, List.length_append] at hlim
    rw [tail_cons]
    unfold rest
    by_cases hempty : mp.data.length = 0
    · rw [if_pos hempty, List.length_eq_zero_iff.mp hempty, List.nil_append]
      exact ih hnext left (by omega)
    · rw [if_neg hempty]
      have hlen : mp.wptr - mp.rptr = mp.data.length := by
        rw [Mblk.wptr]
        omega
      have hbytes : mp.bytes mp.rptr (mp.wptr - mp.rptr) = mp.data := by
        rw [Mblk.bytes_all (le_refl _), Nat.sub_self]
        rfl
      have hblock := @block_adds ocsum mp.rptr sum mp hoc (h mp List.mem_cons_self) left
        (by rw [hlen]; omega)
      rw [hbytes, hlen] at hblock
      obtain ⟨s, hs, hle, hcast⟩ := hblock
      rw [hs, bind_eq_bind, bind_some]
      obtain ⟨v, hv, hvcast⟩ := ih hnext (left ^^ decide (mp.data.length % 2 = 1))
        (show s + 65535 * (tail next).length < 2 ^ 32 by omega)
      refine ⟨v, hv, ?_⟩
      rw [hvcast, hcast, wordSum_append, half_xor]
      ring

end Sol26.Cksum
