import Sol26.Mp.Mult

/-!
# Division

`mp_mdiv` with its long division `m_div`, the trial quotient `m_trq`, the multiplication and
subtraction `m_dsb`, and the division `s_div` by a single digit.
-/
namespace Sol26.Mp

open Function (update)

/-- The loop of `s_div`, from the top digit down. -/
def sDivLoop (aval : Buf) (n : ℤ) : ℕ → ℤ → Buf → Option (ℤ × Buf)
  | 0, x, qval => some (x, qval)
  | i + 1, x, qval => do
    let u ← aval.read i
    let x ← long (x * 0o100000 + u)
    let qval ← qval.write i (x.tdiv n)
    sDivLoop aval n i (x.tmod n) qval

/-- `s_div`: the quotient and the remainder. -/
def sDiv (a : Mint) (n : ℤ) : Option (Mint × ℤ) := do
  let qlen := a.len.toNat
  let r ← sDivLoop a.val n qlen 0 (xalloc qlen)
  if qlen = 0 then some (⟨0, freed⟩, short r.1)
  else do
    let top ← r.2.read (qlen - 1)
    let qlen := if top = 0 then qlen - 1 else qlen
    some (⟨qlen, if qlen = 0 then freed else r.2⟩, short r.1)

/-- `mp_sdiv`: what becomes of `q` and of `*r`. -/
def mpSdiv (a : Mint) (n : ℤ) : Option (Mint × ℤ) := do
  let signN : ℤ := if n < 0 then -1 else 1
  let signA : ℤ := if a.len < 0 then -1 else 1
  let r ← sDiv ⟨signA * a.len, a.val⟩ (signN * n)
  some (⟨signN * signA * r.1.len, r.1.val⟩, short (r.2 * (signN * signA)))

/-- The first loop of `m_dsb`: `qx` times `a` is taken from `b`. -/
def dsbLoop (qx : ℤ) (a : Buf) : ℕ → ℕ → ℕ → ℤ → Buf → Option (ℤ × Buf)
  | 0, _, _, borrow, b => some (borrow, b)
  | n + 1, aptr, bptr, borrow, b => do
    let u ← a.read aptr
    let w ← b.read bptr
    let prod ← long (u * qx)
    let borrow ← long (borrow - (prod - w))
    let b ← b.write bptr (low15 borrow)
    dsbLoop qx a n (aptr + 1) (bptr + 1) (shift15 borrow) b

/-- The second loop of `m_dsb`: `a` is added back. -/
def addBack (a : Buf) : ℕ → ℕ → ℕ → ℤ → Buf → Option (ℤ × Buf)
  | 0, _, _, borrow, b => some (borrow, b)
  | n + 1, aptr, bptr, borrow, b => do
    let u ← a.read aptr
    let w ← b.read bptr
    let borrow ← long (borrow + (u + w))
    let b ← b.write bptr (low15 borrow)
    addBack a n (aptr + 1) (bptr + 1) (shift15 borrow) b

/-- `m_dsb` at position `j` of `b`: whether `a` was added back. -/
def mDsb (qx : ℤ) (n : ℕ) (a b : Buf) (j : ℕ) : Option (ℤ × Buf) := do
  let r ← dsbLoop qx a n 0 j 0 b
  let w ← r.2.read (j + n)
  let borrow ← long (r.1 + w)
  let b ← r.2.write (j + n) (low15 borrow)
  if shift15 borrow = 0 then some (0, b)
  else do
    -- the digit at the top is not restored
    let r ← addBack a n 0 j 0 b
    some (1, r.2)

/-- The loop of `m_trq`; `d` goes down by one in every pass. -/
def mTrqLoop (v1 v2 u3 c1 : ℤ) : ℕ → ℤ → Option ℤ
  | 0, _ => none
  | fuel + 1, d => do
    let p ← long (v1 * d)
    let x1 ← long (c1 - p)
    let s ← long (x1 * 0o100000)
    let t ← long (s + u3)
    let p ← long (v2 * d)
    let x1 ← long (t - p)
    if x1 < 0 then mTrqLoop v1 v2 u3 c1 fuel (short (d - 1)) else some d

/-- `m_trq`. -/
def mTrq (v1 v2 u1 u2 u3 : ℤ) : Option ℤ := do
  let p ← long (u1 * 0o100000)
  let c1 ← long (p + u2)
  let d := if u1 = v1 then 0o77777 else short (c1.tdiv v1)
  mTrqLoop v1 v2 u3 c1 (d.toNat + 1) d

/-- The trial digit of the pass `j`. -/
def trialDigit (n : ℕ) (v1 v2 : ℤ) (uval : Buf) (j : ℕ) : Option ℤ := do
  let u1 ← uval.read (j + n)
  let u2 ← uval.read (j + n - 1)
  let u3 ← uval.read (j + n - 2)
  mTrq v1 v2 u1 u2 u3

/-- The loop of `m_div`; the first argument is one more than `j`. -/
def divLoop (v : Buf) (n : ℕ) (v1 v2 : ℤ) : ℕ → Buf → Buf → Option (Buf × Buf)
  | 0, qval, uval => some (qval, uval)
  | j + 1, qval, uval => do
    let qq ← trialDigit n v1 v2 uval j
    let r ← mDsb qq n v uval j
    let qval ← qval.write j (qq - r.1)
    divLoop v n v1 v2 j qval r.2

/-- A `MINT` of one digit on the stack. -/
def oneDigit (d : ℤ) : Mint := ⟨1, ⟨1, fun i => if i = 0 then some d else none⟩⟩

/-- The normalisation of `m_div`: the factor `d`, with the multiples of `a` and `b` in the
locals `u` and `v`. -/
def normalise (sp : ℕ) (σ : Store) (a b : ℕ) : Option (ℤ × Store) := do
  let n := (σ b).len.toNat
  let top ← (σ b).val.read (n - 1)
  let d := short ((0o100000 : ℤ).tdiv (top + 1))
  let σ := update (update (update σ sp ⟨0, freed⟩) (sp + 1) ⟨0, freed⟩) (sp + 2) (oneDigit d)
  let σ ← mpMult (sp + 3) σ a (sp + 2) sp
  let σ ← mpMult (sp + 3) σ b (sp + 2) (sp + 1)
  some (d, σ)

/-- The end of the long division: the remainder is divided by `d`. -/
def divEnd (σ : Store) (d : ℤ) (n m : ℕ) (qval uval : Buf) (q r : ℕ) : Option Store := do
  let j ← significant uval n
  let w ← mpSdiv ⟨j, if j = 0 then freed else uval⟩ d
  let σ := update σ r w.1
  let top ← qval.read (m - 1)
  let qq := if top = 0 then m - 1 else m
  some (update σ q ⟨qq, if qq = 0 then freed else qval⟩)

/-- The long division of `m_div`. -/
def longDiv (sp : ℕ) (σ : Store) (a b q r : ℕ) : Option Store := do
  let n := (σ b).len.toNat
  let m := (σ a).len.toNat - n + 1
  let s ← normalise sp σ a b
  let u := (s.2 sp).val
  let v := (s.2 (sp + 1)).val
  let v1 ← v.read (n - 1)
  let v2 ← v.read (n - 2)
  let t ← divLoop v n v1 v2 m (xalloc m) u
  divEnd s.2 s.1 n m t.1 t.2 q r

/-- `m_div` of numbers without sign; a division by zero ends the process. -/
def mDiv (sp : ℕ) (σ : Store) (a b q r : ℕ) : Option Store :=
  if (σ b).len = 0 then none
  else if (σ b).len = 1 then do
    let d ← (σ b).val.read 0
    let t ← mpSdiv (σ a) d
    let σ := update σ q t.1
    let rval ← (xalloc 1).write 0 t.2
    some (update σ r (if t.2 = 0 then ⟨0, freed⟩ else ⟨1, rval⟩))
  else if (σ a).len < (σ b).len then do
    let σ := setLen σ q 0
    let rval ← copyDigits (σ a).val (σ a).len.toNat 0 (xalloc (σ a).len.toNat)
    some (update σ r ⟨(σ a).len, rval⟩)
  else longDiv sp σ a b q r

/-- The signs of quotient and remainder. -/
def divSign (sign : ℤ) (σ : Store) (q r : ℕ) : Store :=
  if sign = -1 then negLen (negLen σ q) r else σ

/-- `mp_mdiv`. -/
def mpMdiv (sp : ℕ) (σ : Store) (a b q r : ℕ) : Option Store := do
  let x := sp
  let y := sp + 1
  let σ ← copies sp σ a b
  let signX : ℤ := if (σ x).len < 0 then -1 else 1
  let signY : ℤ := if (σ y).len < 0 then -1 else 1
  let σ := if signX < 0 then negLen σ x else σ
  let σ := if signY < 0 then negLen σ y else σ
  let σ := xfree (xfree σ q) r
  let σ ← mDiv (sp + 2) σ x y q r
  let σ := divSign (signX * signY) σ q r
  some (xfree (xfree σ x) y)

end Sol26.Mp
