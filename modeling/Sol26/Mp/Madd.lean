import Sol26.Mp.Mint

/-!
# Addition and subtraction

`m_add` and `m_sub` of numbers without sign, and `mp_madd`, `mp_msub` and `mp_mcmp`, which
call them and each other. The calls are nested to a bounded depth, which is an argument of
the model.
-/
namespace Sol26.Mp

open Function (update)

/-- The first loop of `m_add`: the digits that both numbers have. -/
def addBoth (a b : Buf) : ℕ → ℕ → ℤ → Buf → Option (ℤ × Buf)
  | 0, _, carry, cval => some (carry, cval)
  | n + 1, i, carry, cval => do
    let u ← a.read i
    let v ← b.read i
    let x := carry + u + v
    if bit15 x then do
      let cval ← cval.write i (low15 x)
      addBoth a b n (i + 1) 1 cval
    else do
      let cval ← cval.write i x
      addBoth a b n (i + 1) 0 cval

/-- The second loop of `m_add`. -/
def addRest (a : Buf) : ℕ → ℕ → ℤ → Buf → Option (ℤ × Buf)
  | 0, _, carry, cval => some (carry, cval)
  | n + 1, i, carry, cval => do
    let u ← a.read i
    let x := carry + u
    if bit15 x then do
      let cval ← cval.write i (low15 x)
      addRest a n (i + 1) carry cval
    else do
      let cval ← cval.write i x
      addRest a n (i + 1) 0 cval

/-- `m_add` of two values: what `c` becomes. -/
def addMint (a b : Mint) : Option Mint := do
  let cval := xalloc (a.len + 1).toNat
  let r ← addBoth a.val b.val b.len.toNat 0 0 cval
  let r ← addRest a.val (a.len - b.len).toNat b.len.toNat r.1 r.2
  let i := max a.len b.len
  if r.1 = 1 then do
    let cval ← r.2.write i.toNat 1
    some ⟨i + 1, cval⟩
  else if a.len = 0 then some ⟨0, freed⟩
  else some ⟨a.len, r.2⟩

/-- `m_add`. -/
def mAdd (σ : Store) (a b c : ℕ) : Option Store := do
  let r ← addMint (σ a) (σ b)
  some (update σ c r)

/-- The first loop of `m_sub`. -/
def subBoth (a b : Buf) : ℕ → ℕ → ℤ → Buf → Option (ℤ × Buf)
  | 0, _, borrow, cval => some (borrow, cval)
  | n + 1, i, borrow, cval => do
    let u ← a.read i
    let v ← b.read i
    let x := borrow + u - v
    if bit15 x then do
      let cval ← cval.write i (low15 x)
      subBoth a b n (i + 1) (-1) cval
    else do
      let cval ← cval.write i x
      subBoth a b n (i + 1) 0 cval

/-- The second loop of `m_sub`. -/
def subRest (a : Buf) : ℕ → ℕ → ℤ → Buf → Option (ℤ × Buf)
  | 0, _, borrow, cval => some (borrow, cval)
  | n + 1, i, borrow, cval => do
    let u ← a.read i
    let x := borrow + u
    if bit15 x then do
      let cval ← cval.write i (low15 x)
      subRest a n (i + 1) borrow cval
    else do
      let cval ← cval.write i x
      subRest a n (i + 1) 0 cval

/-- `x ^ 077777`. -/
def flip15 (x : ℤ) : ℤ := x - low15 x + (0o77777 - low15 x)

/-- The loop that complements the digits of a difference below zero. -/
def complement : ℕ → ℕ → Buf → Option Buf
  | 0, _, cval => some cval
  | n + 1, i, cval => do
    let x ← cval.read i
    let cval ← cval.write i (flip15 x)
    complement n (i + 1) cval

/-- The last loop of `m_sub`: one more than the position of the highest digit above zero. -/
def highest (cval : Buf) : ℕ → Option ℕ
  | 0 => some 0
  | i + 1 => do
    let x ← cval.read i
    if 0 < x then some (i + 1) else highest cval i

/-- The number one that `m_sub` makes on its stack. -/
def mone : Mint := ⟨1, ⟨1, fun i => if i = 0 then some 1 else none⟩⟩

/-- The end of `m_sub`. -/
def subLen (σ : Store) (alen : ℕ) (borrow : ℤ) (c : ℕ) : Option Store := do
  let i ← highest (σ c).val alen
  if i = 0 then some (setVal σ c freed)
  else if borrow = 0 then some (setLen σ c i)
  else some (setLen σ c (-i))

/-- `m_sub`; the sum in it is the addition `madd`. -/
def mSub (madd : Store → ℕ → ℕ → ℕ → Option Store) (sp : ℕ) (σ : Store) (a b c : ℕ) :
    Option Store := do
  let alen := (σ a).len.toNat
  let r ← subBoth (σ a).val (σ b).val (σ b).len.toNat 0 0 (xalloc alen)
  let r ← subRest (σ a).val ((σ a).len - (σ b).len).toNat (σ b).len.toNat r.1 r.2
  if r.1 < 0 then do
    let cval ← complement alen 0 r.2
    let σ := update σ sp mone
    let σ := update σ c ⟨alen, cval⟩
    let σ ← madd σ c sp c
    subLen σ alen r.1 c
  else subLen (setVal σ c r.2) alen r.1 c

/-- The copies `x` of `a` and `y` of `b` with which an operation starts. -/
def copies (sp : ℕ) (σ : Store) (a b : ℕ) : Option Store := do
  let σ := update (update σ sp ⟨0, freed⟩) (sp + 1) ⟨0, freed⟩
  let σ ← move σ a sp
  move σ b (sp + 1)

/-- The end of an operation: the sign of the result, and the copies are freed. -/
def finish (sp : ℕ) (c : ℕ) (sign : ℤ) (σ : Store) : Store :=
  xfree (xfree (setLen σ c (sign * (σ c).len)) sp) (sp + 1)

def negLen (σ : Store) (x : ℕ) : Store := setLen σ x (-(σ x).len)

mutual

/-- `mp_madd`. -/
def mpMadd : ℕ → ℕ → Store → ℕ → ℕ → ℕ → Option Store
  | 0, _, _, _, _, _ => none
  | depth + 1, sp, σ, a, b, c => do
    let x := sp
    let y := sp + 1
    let σ ← copies sp σ a b
    let σ := xfree σ c
    if 0 ≤ (σ x).len then
      if 0 ≤ (σ y).len then
        if (σ y).len ≤ (σ x).len then (mAdd σ x y c).map (finish sp c 1)
        else (mAdd σ y x c).map (finish sp c 1)
      else (mpMsub depth (sp + 2) (negLen σ y) x y c).map (finish sp c 1)
    else if (σ y).len ≤ 0 then
      (mpMadd depth (sp + 2) (negLen (negLen σ x) y) x y c).map (finish sp c (-1))
    else (mpMsub depth (sp + 2) (negLen σ x) y x c).map (finish sp c 1)

/-- `mp_msub`. -/
def mpMsub : ℕ → ℕ → Store → ℕ → ℕ → ℕ → Option Store
  | 0, _, _, _, _, _ => none
  | depth + 1, sp, σ, a, b, c => do
    let x := sp
    let y := sp + 1
    let σ ← copies sp σ a b
    let σ := xfree σ c
    if 0 ≤ (σ x).len then
      if 0 ≤ (σ y).len then
        if (σ y).len ≤ (σ x).len then
          (mSub (mpMadd depth (sp + 3)) (sp + 2) σ x y c).map (finish sp c 1)
        else (mpMsub depth (sp + 2) σ y x c).map (finish sp c (-1))
      else (mpMadd depth (sp + 2) (negLen σ y) x y c).map (finish sp c 1)
    else if (σ y).len ≤ 0 then
      (mpMsub depth (sp + 2) (negLen (negLen σ x) y) y x c).map (finish sp c 1)
    else (mpMadd depth (sp + 2) (negLen σ x) x y c).map (finish sp c (-1))

end

/-- `mp_mcmp`: the number that is returned, and the numbers without leading zeros. -/
def mpMcmp (depth sp : ℕ) (σ : Store) (a b : ℕ) : Option (ℤ × Store) := do
  let σ ← mcan σ a
  let σ ← mcan σ b
  if (σ a).len ≠ (σ b).len then some ((σ a).len - (σ b).len, σ)
  else do
    let σ := update σ sp ⟨0, freed⟩
    let σ ← mpMsub depth (sp + 1) σ a b sp
    some ((σ sp).len, xfree σ sp)

end Sol26.Mp
