import Mathlib.Data.Int.Notation
import Mathlib.Data.Nat.Notation
import Mathlib.Logic.Function.Basic

/-!
# Multiple-precision integers

The objects of libmp. A `MINT` is a length, with the sign of the number, and a pointer to an
allocation of shorts, 15 bits of the number in each. The cells of an allocation are not
initialised, and a freed one has none; every access outside of it, and every access to a cell
that has not been written, makes the model fail, and so does a sum or product of longs that
does not fit. A `Store` holds the objects by their addresses; the locals of a call are the
objects from `sp` on.
-/
namespace Sol26.Mp

open Function (update)

structure Buf where
  size : ℕ
  cell : ℕ → Option ℤ

/-- The short that an integer is converted to. -/
def short (x : ℤ) : ℤ := (x + 0o100000) % 0o200000 - 0o100000

/-- The result of arithmetic in a signed long. -/
def long (x : ℤ) : Option ℤ := if -0x80000000 ≤ x ∧ x < 0x80000000 then some x else none

/-- `x & 0100000`. -/
def bit15 (x : ℤ) : Bool := x / 0o100000 % 2 = 1

/-- `x & 077777`. -/
def low15 (x : ℤ) : ℤ := x % 0o100000

/-- `x >> 15`, the sign being shifted in. -/
def shift15 (x : ℤ) : ℤ := x / 0o100000

def Buf.read (v : Buf) (i : ℕ) : Option ℤ := if i < v.size then v.cell i else none

def Buf.write (v : Buf) (i : ℕ) (x : ℤ) : Option Buf :=
  if i < v.size then some { v with cell := update v.cell i (some (short x)) } else none

/-- `_mp_xalloc`: there is room for two more digits than asked for. -/
def xalloc (nint : ℕ) : Buf := ⟨nint + 2, fun _ => none⟩

def freed : Buf := ⟨0, fun _ => none⟩

structure Mint where
  len : ℤ
  val : Buf

abbrev Store := ℕ → Mint

def setLen (σ : Store) (a : ℕ) (len : ℤ) : Store := update σ a { σ a with len := len }

def setVal (σ : Store) (a : ℕ) (val : Buf) : Store := update σ a { σ a with val := val }

def xfree (σ : Store) (c : ℕ) : Store :=
  if (σ c).len ≠ 0 then setLen (setVal σ c freed) c 0 else σ

/-- The loop of `_mp_move`. -/
def copyDigits (src : Buf) : ℕ → ℕ → Buf → Option Buf
  | 0, _, dst => some dst
  | n + 1, j, dst => do
    let x ← src.read j
    let dst ← dst.write j x
    copyDigits src n (j + 1) dst

/-- `_mp_move`. -/
def move (σ : Store) (a b : ℕ) : Option Store :=
  let σ := xfree σ b
  let σ := setLen σ b (σ a).len
  let i := (σ a).len.natAbs
  if i = 0 then some σ
  else do
    let v ← copyDigits (σ a).val i 0 (xalloc i)
    some (setVal σ b v)

/-- The loop of `_mp_mcan`: the number of digits without leading zeros. -/
def significant (v : Buf) : ℕ → Option ℕ
  | 0 => some 0
  | j + 1 => do
    let x ← v.read j
    if x = 0 then significant v j else some (j + 1)

/-- `_mp_mcan`. -/
def mcan (σ : Store) (a : ℕ) : Option Store :=
  if (σ a).len = 0 then some σ
  else do
    let i := (σ a).len.natAbs
    let j ← significant (σ a).val i
    if j = i then some σ
    else if j = 0 then some (xfree σ a)
    else if 0 < (σ a).len then some (setLen σ a j)
    else some (setLen σ a (-j))

end Sol26.Mp
