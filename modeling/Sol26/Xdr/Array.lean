import Mathlib.Data.BitVec
import Mathlib.Tactic

/-!
# Arrays of XDR

`xdr_array` reads the number of elements from the stream, allocates their memory if the caller has
none, and handles one element after the other.  The size of the memory is a product of two words.
-/

namespace Sol26.Xdr

/-- `x_op`. -/
inductive Op
  | encode | decode | free
deriving DecidableEq

/-- The stream and the allocator behind `xdr_array`.  `mem_alloc` sleeps until it has memory. -/
structure Kernel (σ : Type*) where
  getlong : σ → σ × Option (BitVec 32)
  putlong : σ → BitVec 32 → σ × Bool
  memAlloc : σ → BitVec 32 → σ × BitVec 32
  memFree : σ → BitVec 32 → BitVec 32 → σ
  fits : ∀ s size, (memAlloc s size).2.toNat + size.toNat ≤ 2 ^ 32
  nonnull : ∀ s size, size ≠ 0 → (memAlloc s size).2 ≠ 0

/-- The procedure for one element, called with its address. -/
abbrev Elproc (σ : Type*) := Op → σ → BitVec 32 → σ × Bool

/-- What a call of `xdr_array` leaves: the new state, `*addrp`, `*sizep` and the result, and what
it did: the memory it allocated, the addresses of the elements, and the memory it released. -/
structure Done (σ : Type*) where
  state : σ
  addr : BitVec 32
  size : BitVec 32
  stat : Bool
  allocated : Option (BitVec 32 × BitVec 32)
  targets : List (BitVec 32)
  released : Option (BitVec 32 × BitVec 32)

variable {σ : Type*}

/-- `xdr_u_int`, by way of `xdr_u_long`. -/
def xdrUInt (K : Kernel σ) (op : Op) (s : σ) (up : BitVec 32) : σ × BitVec 32 × Bool :=
  match op with
  | .decode =>
    match K.getlong s with
    | (s, some c) => (s, c, true)
    | (s, none) => (s, up, false)
  | .encode =>
    let (s, ok) := K.putlong s up
    (s, up, ok)
  | .free => (s, up, true)

/-- "now we xdr each element of array" -/
def elements (elproc : Elproc σ) (op : Op) (elsize : BitVec 32) :
    ℕ → σ → BitVec 32 → σ × Bool × List (BitVec 32)
  | 0, s, _ => (s, true, [])
  | n + 1, s, target =>
    match elproc op s target with
    | (s, false) => (s, false, [target])
    | (s, true) =>
      let (s, stat, targets) := elements elproc op elsize n s (target + elsize)
      (s, stat, target :: targets)

/-- XDR an array of arbitrary elements. -/
def xdrArray (K : Kernel σ) (elproc : Elproc σ) (op : Op) (s : σ)
    (addr size maxsize elsize : BitVec 32) : Done σ :=
  match xdrUInt K op s size with
  | (s, size, false) => ⟨s, addr, size, false, none, [], none⟩
  | (s, c, true) =>
    if maxsize < c ∧ op ≠ .free then ⟨s, addr, c, false, none, [], none⟩
    else
      let nodesize := c * elsize
      if addr = 0 ∧ op = .decode ∧ c = 0 then ⟨s, addr, c, true, none, [], none⟩
      else if addr = 0 ∧ op = .free then ⟨s, addr, c, true, none, [], none⟩
      else
        let (s, addr, allocated) :=
          if addr = 0 ∧ op = .decode then
            let (s, target) := K.memAlloc s nodesize
            (s, target, some (target, nodesize))
          else (s, addr, none)
        let (s, stat, targets) := elements elproc op elsize c.toNat s addr
        -- the array may need freeing
        if op = .free then
          ⟨K.memFree s addr nodesize, 0, c, stat, allocated, targets, some (addr, nodesize)⟩
        else ⟨s, addr, c, stat, allocated, targets, none⟩

/-! ### The elements -/

theorem length_elements (elproc : Elproc σ) (op : Op) (elsize : BitVec 32) (n : ℕ) (s : σ)
    (target : BitVec 32) :
    (elements elproc op elsize n s target).2.2.length ≤ n ∧
      ((elements elproc op elsize n s target).2.1 = true →
        (elements elproc op elsize n s target).2.2.length = n) := by
  induction n generalizing s target with
  | zero => simp [elements]
  | succ n ih =>
    rw [elements]
    rcases elproc op s target with ⟨s', _ | _⟩
    · simp
    · obtain ⟨hle, hall⟩ := ih s' (target + elsize)
      refine ⟨by simpa using hle, fun hstat => ?_⟩
      simpa using hall hstat

/-- The addresses go up by the size of an element. -/
theorem getElem_elements (elproc : Elproc σ) (op : Op) (elsize : BitVec 32) (n : ℕ) (s : σ)
    (target : BitVec 32) (i : ℕ) (a : BitVec 32)
    (ha : (elements elproc op elsize n s target).2.2[i]? = some a) :
    a = target + BitVec.ofNat 32 i * elsize := by
  induction n generalizing s target i with
  | zero => simp [elements] at ha
  | succ n ih =>
    rw [elements] at ha
    have hfirst : i = 0 → target = a → a = target + BitVec.ofNat 32 i * elsize := by
      intro hi heq
      simp [hi, heq]
    rcases hel : elproc op s target with ⟨s', _ | _⟩
    · rw [hel] at ha
      cases i with
      | zero => exact hfirst rfl (by simpa using ha)
      | succ i => simp at ha
    · rw [hel] at ha
      cases i with
      | zero => exact hfirst rfl (by simpa using ha)
      | succ i =>
        have hrest := ih s' (target + elsize) i (by simpa using ha)
        rw [hrest, BitVec.ofNat_add, add_mul, BitVec.one_mul, add_assoc, add_comm elsize]

/-- Elements of an array that fits into memory: no sum wraps. -/
theorem toNat_target {base elsize : BitVec 32} {c i : ℕ} (hi : i < c)
    (hfits : base.toNat + c * elsize.toNat ≤ 2 ^ 32) (hpos : elsize ≠ 0) :
    (base + BitVec.ofNat 32 i * elsize).toNat = base.toNat + i * elsize.toNat := by
  have helt : 0 < elsize.toNat := by
    rw [Nat.pos_iff_ne_zero]
    intro hzero
    exact hpos (BitVec.eq_of_toNat_eq (by simpa using hzero))
  have hstep : i * elsize.toNat + elsize.toNat ≤ c * elsize.toNat := by
    rw [← Nat.succ_mul]
    exact Nat.mul_le_mul_right _ hi
  have hsmall : i < 2 ^ 32 := by nlinarith
  rw [BitVec.toNat_add, BitVec.toNat_mul, BitVec.toNat_ofNat, Nat.mod_eq_of_lt hsmall,
    Nat.mod_eq_of_lt (by omega : i * elsize.toNat < 2 ^ 32), Nat.mod_eq_of_lt (by omega)]

/-! ### Safety -/

/-- The call allocated exactly the elements' memory, kept to it, and `XDR_FREE` releases it. -/
structure ArraySafe (K : Kernel σ) (elproc : Elproc σ) (maxsize elsize c : BitVec 32)
    (r : Done σ) : Prop where
  exact : ∃ size, r.allocated = some (r.addr, size) ∧ size.toNat = c.toNat * elsize.toNat
  decoded : r.targets.length ≤ c.toNat ∧ (r.stat = true → r.targets.length = c.toNat)
  inside : ∀ i a, r.targets[i]? = some a → a.toNat = r.addr.toNat + i * elsize.toNat ∧
    a.toNat + elsize.toNat ≤ r.addr.toNat + c.toNat * elsize.toNat
  freed : ∀ s, (xdrArray K elproc .free s r.addr r.size maxsize elsize).released = r.allocated ∨
    (r.allocated = some (0, 0) ∧
      (xdrArray K elproc .free s r.addr r.size maxsize elsize).released = none)

/-- Decoding an array for which the caller has no memory. -/
theorem xdrArray_decode (K : Kernel σ) (elproc : Elproc σ) {s s' : σ}
    {size maxsize elsize c : BitVec 32} (hget : K.getlong s = (s', some c)) (hle : c ≤ maxsize)
    (hc : c ≠ 0) :
    xdrArray K elproc .decode s 0 size maxsize elsize =
      let m := K.memAlloc s' (c * elsize)
      let e := elements elproc .decode elsize c.toNat m.1 m.2
      ⟨e.1, m.2, c, e.2.1, some (m.2, c * elsize), e.2.2, none⟩ := by
  have hmax : ¬maxsize < c := BitVec.not_lt.mpr hle
  have hzero : ¬c = 0#32 := hc
  simp [xdrArray, xdrUInt, hget, hmax, hzero]

/-- `XDR_FREE` computes the same product. -/
theorem xdrArray_free (K : Kernel σ) (elproc : Elproc σ) (s : σ)
    (addr c maxsize elsize : BitVec 32) :
    (xdrArray K elproc .free s addr c maxsize elsize).released =
      if addr = 0 then none else some (addr, c * elsize) := by
  by_cases haddr : addr = 0#32 <;> simp [xdrArray, xdrUInt, haddr]

/-- An array is allocated, decoded and released within its memory if and only if the number of
its bytes is a word. -/
theorem arraySafe_iff (K : Kernel σ) (elproc : Elproc σ) {s s' : σ}
    {size maxsize elsize c : BitVec 32} (hget : K.getlong s = (s', some c)) (hle : c ≤ maxsize)
    (hc : c ≠ 0) :
    ArraySafe K elproc maxsize elsize c (xdrArray K elproc .decode s 0 size maxsize elsize) ↔
      c.toNat * elsize.toNat < 2 ^ 32 := by
  rw [xdrArray_decode K elproc hget hle hc]
  constructor
  · intro h
    obtain ⟨n, -, hn⟩ := h.exact
    rw [← hn]
    exact n.isLt
  · intro hlt
    have hprod : (c * elsize).toNat = c.toNat * elsize.toNat := by
      rw [BitVec.toNat_mul, Nat.mod_eq_of_lt hlt]
    have hfits := K.fits s' (c * elsize)
    rw [hprod] at hfits
    refine ⟨⟨c * elsize, rfl, hprod⟩, length_elements elproc .decode elsize c.toNat _ _,
      fun i a ha => ?_, fun t => ?_⟩
    · have heq := getElem_elements elproc .decode elsize c.toNat _ _ i a ha
      have hi : i < c.toNat := by
        have hlen := (length_elements elproc .decode elsize c.toNat
          (K.memAlloc s' (c * elsize)).1 (K.memAlloc s' (c * elsize)).2).1
        have hlt := (List.getElem?_eq_some_iff.mp ha).1
        exact lt_of_lt_of_le hlt hlen
      by_cases helt : elsize = 0
      · subst helt
        simp [heq]
      · dsimp only
        rw [heq, toNat_target hi hfits helt]
        have hstep : i * elsize.toNat + elsize.toNat ≤ c.toNat * elsize.toNat := by
          rw [← Nat.succ_mul]
          exact Nat.mul_le_mul_right _ hi
        exact ⟨rfl, by omega⟩
    · dsimp only
      rw [xdrArray_free]
      by_cases haddr : (K.memAlloc s' (c * elsize)).2 = 0
      · right
        have hzero : c * elsize = 0 := by
          by_contra hne
          exact K.nonnull s' _ hne haddr
        rw [haddr, hzero]
        simp
      · left
        rw [if_neg haddr]

/-- A stream with a count and then `s` elements, and memory from the address 1 on. -/
def counted (c : BitVec 32) : Kernel ℕ where
  getlong s := (s, some c)
  putlong s _ := (s, true)
  memAlloc s _ := (s, 1)
  memFree s _ _ := s
  fits := fun _ size => by
    have hsize := size.isLt
    have hone : (1 : BitVec 32).toNat = 1 := rfl
    dsimp only
    omega
  nonnull := fun _ _ _ => show (1 : BitVec 32) ≠ 0 by decide

def takeElement : Elproc ℕ := fun _ s _ => (s - 1, decide (0 < s))

/-- Three elements of eight bytes. -/
theorem arraySafe_counted :
    ArraySafe (counted 3) takeElement 100 8 3
      (xdrArray (counted 3) takeElement .decode 3 0 0 100 8) :=
  (arraySafe_iff (counted 3) takeElement (s := 3) rfl (by decide) (by decide)).mpr (by decide)

/-- For 2²⁹ + 1 elements of eight bytes, eight bytes are allocated.  The second element, the last
one on the stream, is already behind them. -/
theorem not_arraySafe_counted :
    let r := xdrArray (counted 0x20000001) takeElement .decode 2 0 0 0xffffffff 8
    r.allocated = some (1, 8) ∧ r.targets = [1, 9, 17] ∧
      ¬ArraySafe (counted 0x20000001) takeElement 0xffffffff 8 0x20000001 r := by
  have hrun : xdrArray (counted 0x20000001) takeElement .decode 2 0 0 0xffffffff 8 =
      ⟨0, 1, 0x20000001, false, some (1, 8), [1, 9, 17], none⟩ := by
    rw [xdrArray_decode (counted 0x20000001) takeElement (s := 2) rfl (by decide) (by decide)]
    rfl
  rw [hrun]
  refine ⟨rfl, rfl, fun h => ?_⟩
  obtain ⟨size, hsize, heq⟩ := h.exact
  have hbad : size = 8 := by simpa using hsize.symm
  subst hbad
  exact absurd heq (by decide)

end Sol26.Xdr
