import Mathlib.Data.BitVec

/-!
# `qsort` of the C library

Quicksort with an explicit stack down to parts of fewer than `THRESH` elements, and an insertion
sort without a check of the bounds. The memory is an array of bytes, of which the first
`n * qsz` are the elements; pointers to elements are indices of elements. Every access outside of
the elements fails, and so does a push onto the full stack.
-/
namespace Sol26.Qsort

open Function (update)

variable {β : Type}

/-- What does not change during a call: the number and the size of the elements, the comparison,
and whether `base` is aligned to words. -/
structure Args (β : Type) where
  n : ℕ
  qsz : ℕ
  qcmp : List β → List β → ℤ
  aligned : Bool

def int (x : ℤ) : ℤ := (x + 2 ^ 31) % 2 ^ 32 - 2 ^ 31

def THRESH : ℕ := 14

def MTHRESH : ℕ := 20

def Args.thresh (A : Args β) : ℤ := int (A.qsz * THRESH)

def Args.mthresh (A : Args β) : ℤ := int (A.qsz * MTHRESH)

/-- Elements may be copied by words. -/
def Args.words (A : Args β) : Bool := A.aligned && A.qsz % 4 = 0

/-! ### Memory -/

def Args.load (A : Args β) (m : ℕ → β) (a : ℕ) : Option β :=
  if a < A.n * A.qsz then some (m a) else none

def Args.store (A : Args β) (m : ℕ → β) (a : ℕ) (c : β) : Option (ℕ → β) :=
  if a < A.n * A.qsz then some (update m a c) else none

def Args.loadWord (A : Args β) (m : ℕ → β) (a : ℕ) : Option (ℕ → β) :=
  if a + 4 ≤ A.n * A.qsz then some fun k => m (a + k) else none

def Args.storeWord (A : Args β) (m : ℕ → β) (a : ℕ) (w : ℕ → β) : Option (ℕ → β) :=
  if a + 4 ≤ A.n * A.qsz then some fun x => if a ≤ x ∧ x < a + 4 then w (x - a) else m x
  else none

/-- The bytes of an element. -/
def elem (qsz : ℕ) (m : ℕ → β) (i : ℕ) : List β := (List.range qsz).map fun b => m (i * qsz + b)

/-- The comparison of two elements. -/
def Args.cmp (A : Args β) (m : ℕ → β) (i j : ℕ) : Option ℤ :=
  if i < A.n ∧ j < A.n then some (A.qcmp (elem A.qsz m i) (elem A.qsz m j)) else none

/-- The exchange of `ii` bytes, one at a time. -/
def Args.swapChars (A : Args β) : ℕ → ℕ → ℕ → (ℕ → β) → Option (ℕ → β)
  | 0, _, _, m => some m
  | ii + 1, i, j, m => do
    let c ← A.load m i
    let d ← A.load m j
    let m ← A.store m i d
    let m ← A.store m j c
    A.swapChars ii (i + 1) (j + 1) m

/-- The exchange of `cnt` words. -/
def Args.swapWords (A : Args β) : ℕ → ℕ → ℕ → (ℕ → β) → Option (ℕ → β)
  | 0, _, _, m => some m
  | cnt + 1, t1, t2, m => do
    let temp ← A.loadWord m t1
    let w ← A.loadWord m t2
    let m ← A.storeWord m t1 w
    let m ← A.storeWord m t2 temp
    A.swapWords cnt (t1 + 4) (t2 + 4) m

/-- The exchange of two elements. -/
def Args.swap (A : Args β) (i j : ℕ) (m : ℕ → β) : Option (ℕ → β) :=
  if A.words then A.swapWords (A.qsz / 4) (i * A.qsz) (j * A.qsz) m
  else A.swapChars A.qsz (i * A.qsz) (j * A.qsz) m

/-! ### One partition -/

/-- The index that the median of the first, the middle and the last element has. -/
def Args.median (A : Args β) (m : ℕ → β) (base mid max : ℕ) : Option ℕ := do
  let c ← A.cmp m base mid
  let j := if 0 < c then base else mid
  let tmp := max - 1
  let c ← A.cmp m j tmp
  if 0 < c then
    -- switch to first loser
    let j := if j = base then mid else base
    let c ← A.cmp m j tmp
    some (if c < 0 then tmp else j)
  else some j

/-- The median is put into the middle, unless there are too few elements. -/
def Args.middle (A : Args β) (base mid max : ℕ) (lo : ℤ) (m : ℕ → β) : Option (ℕ → β) := do
  if A.mthresh ≤ lo then
    let j ← A.median m base mid max
    if j ≠ mid then A.swap mid j m else some m
  else some m

/-- `while (i < mid && qcmp(i, mid) <= 0) i += qsz`; the count is `mid - i`. -/
def Args.scanUp (A : Args β) (m : ℕ → β) (mid : ℕ) : ℕ → ℕ → Option ℕ
  | 0, i => some i
  | k + 1, i => do
    let c ← A.cmp m i mid
    if c ≤ 0 then A.scanUp m mid k (i + 1) else some i

/-- The loop `while (j > mid)` up to an element that is to be swapped; the count is `j - mid`. -/
def Args.scanDown (A : Args β) (m : ℕ → β) (mid : ℕ) : ℕ → ℕ → Option (ℕ × Bool)
  | 0, j => some (j, false)
  | k + 1, j => do
    let c ← A.cmp m mid j
    if c ≤ 0 then A.scanDown m mid k (j - 1) else some (j, true)

/-- The partitioning loop; the result is the index of the pivot. -/
def Args.partition (A : Args β) : ℕ → ℕ → ℕ → ℕ → (ℕ → β) → Option (ℕ × (ℕ → β))
  | 0, _, _, _, _ => none
  | fuel + 1, i, mid, j, m => do
    let i ← A.scanUp m mid (mid - i) i
    let (j, found) ← A.scanDown m mid (j - mid) j
    if found then
      let m ← A.swap i j m
      if i = mid then A.partition fuel (i + 1) j j m
      else A.partition fuel (i + 1) mid (j - 1) m
    else if i = mid then some (mid, m)
    else
      let m ← A.swap i mid m
      A.partition fuel i i (j - 1) m

/-! ### The loop with its stack -/

structure Frame where
  base : ℕ
  max : ℕ
  lo : ℤ
  hi : ℤ
  i : ℕ
  j : ℕ

/-- The part at the start of the loop body, with its length in bytes. -/
structure Part where
  base : ℕ
  max : ℕ
  lo : ℤ

structure Stack where
  stack : ℕ → Frame
  resume : BitVec 32
  stackp : ℕ

/-- A frame is pushed; only `resume0` needs the saved `i`. -/
def Stack.push (st : Stack) (f : Frame) (resume1 : Bool) : Option Stack :=
  if 31 ≤ st.stackp then none
  else
    let bit := 1#32 <<< st.stackp
    let f := if resume1 then { f with i := (st.stack st.stackp).i } else f
    some ⟨update st.stack st.stackp f,
      if resume1 then st.resume ||| bit else st.resume &&& ~~~bit, st.stackp + 1⟩

/-- What is done after the labels `resume0` and `resume1`. -/
def Frame.resume (f : Frame) (resume1 : Bool) : Part :=
  if resume1 then ⟨f.base, f.j, f.lo⟩ else ⟨f.i, f.max, f.hi⟩

/-- The end of the loop body: the same part again, a part from the stack, or the end. -/
def Args.next (A : Args β) (st : Stack) (p : Part) : ℕ → Option (Part × ℕ)
  | 0 => if A.thresh ≤ p.lo then some (p, 0) else none
  | sp + 1 =>
    if A.thresh ≤ p.lo then some (p, sp + 1)
    else A.next st ((st.stack sp).resume (st.resume &&& (1#32 <<< sp) ≠ 0)) sp

/-- The parts on both sides of the pivot: the smaller one is done first if it is large enough,
and the other one is left on the stack. -/
def Args.split (A : Args β) (st : Stack) (base max mid : ℕ) : Option (Option Part × Stack) :=
  let i := mid + 1
  let j := mid
  let lo : ℤ := (j - base : ℕ) * A.qsz
  let hi : ℤ := (max - i : ℕ) * A.qsz
  let f : Frame := ⟨base, max, lo, hi, i, j⟩
  if lo ≤ hi then
    if A.thresh ≤ lo then do
      let st ← st.push f false
      some (some ⟨base, j, (j - base : ℕ) * A.qsz⟩, st)
    else some ((A.next st ⟨i, max, hi⟩ st.stackp).elim (none, st) fun (p, sp) =>
      (some p, { st with stackp := sp }))
  else
    if A.thresh ≤ hi then do
      let st ← st.push f true
      some (some ⟨i, max, (max - i : ℕ) * A.qsz⟩, st)
    else some ((A.next st ⟨base, j, lo⟩ st.stackp).elim (none, st) fun (p, sp) =>
      (some p, { st with stackp := sp }))

/-- The body of the loop, over and over. -/
def Args.qstLoop (A : Args β) : ℕ → Part → Stack → (ℕ → β) → Option (ℕ → β)
  | 0, _, _, _ => none
  | fuel + 1, p, st, m => do
    let mid := p.base + (p.lo.toNat / A.qsz) / 2
    let m ← A.middle p.base mid p.max p.lo m
    let (mid, m) ← A.partition (p.max - p.base + 1) p.base mid (p.max - 1) m
    let (next, st) ← A.split st p.base p.max mid
    match next with
    | none => some m
    | some p => A.qstLoop fuel p st m

def Args.qst (A : Args β) (m : ℕ → β) : Option (ℕ → β) :=
  A.qstLoop (A.n + 1) ⟨0, A.n, A.n * A.qsz⟩ ⟨fun _ => ⟨0, 0, 0, 0, 0, 0⟩, 0, 0⟩ m

/-! ### The insertion sort -/

/-- The least of the first elements: `j` so far, `lo` to `lo + k - 1` still to be looked at. -/
def Args.least (A : Args β) (m : ℕ → β) : ℕ → ℕ → ℕ → Option ℕ
  | 0, _, j => some j
  | k + 1, lo, j => do
    let c ← A.cmp m j lo
    A.least m k (lo + 1) (if 0 < c then lo else j)

/-- `while (qcmp(hi -= qsz, min) > 0)`, with no check of the bounds. -/
def Args.place (A : Args β) (m : ℕ → β) (min : ℕ) : ℕ → Option ℕ
  | 0 => none
  | hi + 1 => do
    let c ← A.cmp m hi min
    if 0 < c then A.place m min hi else some hi

/-- `for (i = j = lo; (j -= qsz) >= hi; i = j) *i = *j`; the result is the last `i`. -/
def Args.shift (A : Args β) (hi : ℕ) : ℕ → ℕ → (ℕ → β) → Option (ℕ × (ℕ → β))
  | 0, _, _ => none
  | fuel + 1, i, m =>
    if hi + A.qsz ≤ i then do
      let c ← A.load m (i - A.qsz)
      let m ← A.store m i c
      A.shift hi fuel (i - A.qsz) m
    else some (i, m)

/-- The bytes of an element from the last one to the first are put at their place, `k` of them. -/
def Args.insert (A : Args β) (hi min : ℕ) : ℕ → (ℕ → β) → Option (ℕ → β)
  | 0, m => some m
  | k + 1, m => do
    let lo := min * A.qsz + k
    let c ← A.load m lo
    let (i, m) ← A.shift (hi * A.qsz) (min + 1) lo m
    let m ← A.store m i c
    A.insert hi min k m

/-- The loop over the elements `min`, of which `k` are left. -/
def Args.insertionSort (A : Args β) : ℕ → ℕ → (ℕ → β) → Option (ℕ → β)
  | 0, _, m => some m
  | k + 1, min, m => do
    let hi ← A.place m min min
    if hi + 1 ≠ min then
      let m ← A.insert (hi + 1) min A.qsz m
      A.insertionSort k (min + 1) m
    else A.insertionSort k (min + 1) m

/-- `qsort` after the quicksort: the first `hi` elements have the least one. -/
def Args.finish (A : Args β) (hi : ℕ) (m : ℕ → β) : Option (ℕ → β) := do
  let j ← A.least m (hi - 1) 1 0
  if j ≠ 0 then
    let m ← A.swapChars A.qsz (j * A.qsz) 0 m
    A.insertionSort (A.n - 1) 1 m
  else A.insertionSort (A.n - 1) 1 m

def Args.qsort (A : Args β) (m : ℕ → β) : Option (ℕ → β) :=
  if A.n < 2 then some m
  else if THRESH ≤ A.n then do
    let m ← A.qst m
    A.finish THRESH m
  else A.finish A.n m

end Sol26.Qsort
