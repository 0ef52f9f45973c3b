import Sol26.Mp.Madd

/-!
# Multiplication

`m_mult`, row by row, and `mp_mult`.
-/
namespace Sol26.Mp

open Function (update)

/-- What a product is added to: the rows after the first one add to what is there. -/
def addend (add : Bool) (c : Buf) (cptr : ℕ) : Option ℤ := if add then c.read cptr else some 0

/-- The loop over the digits of `a` with one digit of `b`. -/
def mulRow (add : Bool) (a : Buf) (bcache : ℤ) : ℕ → ℕ → ℕ → ℤ → Buf → Option (ℤ × Buf)
  | 0, _, _, sum, c => some (sum, c)
  | n + 1, aptr, cptr, sum, c => do
    let u ← a.read aptr
    let w ← addend add c cptr
    let prod ← long (u * bcache)
    let sum ← long (sum + (prod + w))
    let c ← c.write cptr (low15 sum)
    mulRow add a bcache n (aptr + 1) (cptr + 1) (shift15 sum) c

/-- A row and the digit at its top. -/
def mulRowTop (add : Bool) (a b : Buf) (alen j : ℕ) (c : Buf) : Option Buf := do
  let bcache ← b.read j
  let r ← mulRow add a bcache alen 0 j 0 c
  r.2.write (j + alen) r.1

/-- The rows after the first one. -/
def mulRows (a b : Buf) (alen : ℕ) : ℕ → ℕ → Buf → Option Buf
  | 0, _, c => some c
  | n + 1, j, c => do
    let c ← mulRowTop true a b alen j c
    mulRows a b alen n (j + 1) c

/-- `m_mult` of two values: what `c` becomes. -/
def multMint (a b : Mint) : Option Mint := do
  let alen := a.len.toNat
  let blen := b.len.toNat
  let c ← mulRowTop false a.val b.val alen 0 (xalloc (alen + blen))
  let c ← mulRows a.val b.val alen (blen - 1) 1 c
  let top ← c.read (alen + blen - 1)
  some ⟨if top = 0 then a.len + b.len - 1 else a.len + b.len, c⟩

/-- The end of `mp_mult`: the sign of the product. -/
def multSign (sp c : ℕ) (sign : ℤ) (σ : Store) (r : Mint) : Store :=
  let σ := update σ c r
  let σ := if sign < 0 then negLen σ c else σ
  let σ := if (σ c).len = 0 then xfree σ c else σ
  xfree (xfree σ sp) (sp + 1)

/-- `mp_mult`. -/
def mpMult (sp : ℕ) (σ : Store) (a b c : ℕ) : Option Store := do
  let σ ← mcan σ a
  let σ ← mcan σ b
  if (σ a).len = 0 ∨ (σ b).len = 0 then some (xfree σ c)
  else do
    let x := sp
    let y := sp + 1
    let σ ← copies sp σ a b
    let signA : ℤ := if (σ a).len < 0 then -1 else 1
    let signB : ℤ := if (σ b).len < 0 then -1 else 1
    let σ := if signA < 0 then negLen σ x else σ
    let σ := if signB < 0 then negLen σ y else σ
    let σ := xfree σ c
    if (σ x).len < (σ y).len then
      (multMint (σ x) (σ y)).map (multSign sp c (signA * signB) σ)
    else (multMint (σ y) (σ x)).map (multSign sp c (signA * signB) σ)

end Sol26.Mp
