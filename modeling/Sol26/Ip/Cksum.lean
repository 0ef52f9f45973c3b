import Sol26.Lib.Ones

/-!
# The Internet checksum of a message

Model of `ip_cksum` and `ip_old_cksum` from `uts/common/inet/ip_cksum.c` on a big-endian machine. An
address is a number, for its alignment. The routine `ip_ocsum`, which adds the words of an aligned
run, is a parameter. Sums are 32-bit words, and a result of `none` is an addition that overflows.
-/
namespace Sol26.Cksum

open Ones

/-- The `STRUIO_IP` part of a data block: of the uio data from `db_struiobase` to `db_struiolim`,
the bytes up to `db_struioptr` have been copied, and `data` is their checksum. -/
structure Struio where
  base : ℕ
  ptr : ℕ
  lim : ℕ
  data : ℕ

/-- A block: the bytes from `b_rptr` to `b_wptr`, and `STRUIO_IP` if the flag is set. -/
structure Mblk where
  rptr : ℕ
  data : List UInt8
  struio : Option Struio

def Mblk.wptr (mp : Mblk) : ℕ := mp.rptr + mp.data.length

/-- The bytes of a block from the address `w` on, `n` of them. -/
def Mblk.bytes (mp : Mblk) (w n : ℕ) : List UInt8 := (mp.data.drop (w - mp.rptr)).take n

/-- The uio data, unless the data pointers of the block leave some of it out. -/
def Mblk.uio (mp : Mblk) (w : ℕ) : Option Struio :=
  mp.struio.filter fun dp => ¬ (dp.base < w ∨ mp.wptr < dp.lim)

/-- Addition of 32-bit words. -/
def add32 (a b : ℕ) : Option ℕ := if a + b < 2 ^ 32 then some (a + b) else none

/-- `unsigned int ip_ocsum(u_short *address, int halfword_count, unsigned int sum)`, with the words
of the run. -/
abbrev Ocsum := ℕ → List UInt8 → ℕ → ℕ

variable (ocsum : Ocsum)

/-- The words of a run that begins with a whole word at the address `w`; the result tells whether a
byte is left, which has gone to the upper half. -/
def aligned (w : ℕ) (l : List UInt8) (sum : ℕ) : Option (ℕ × Bool) := do
  let n := l.length / 2 * 2
  let sum := ocsum w (l.take n) sum
  match l.drop n with
  | [] => return (sum, false)
  | b :: _ => return (← add32 sum (b.toNat <<< 8), true)

/-- The words of a run at an odd address, which begins with `a`: the rest is summed with its bytes
exchanged. -/
def unaligned (w : ℕ) (a : UInt8) (l : List UInt8) (sum : ℕ) : Option (ℕ × Bool) := do
  let sum ← add32 sum (a.toNat <<< 8)
  let n := l.length / 2 * 2
  let swsum := ocsum (w + 1) (l.take n) 0 % 65536
  let sum ← add32 sum (swap swsum)
  match l.drop n with
  | [] => return (sum, true)
  | b :: _ => return (← add32 sum b.toNat, false)

/-- A run that begins at a word. -/
def run (w : ℕ) (l : List UInt8) (sum : ℕ) : Option (ℕ × Bool) :=
  match l with
  | [] => some (sum, false)
  | a :: rest => if w % 2 = 0 then aligned ocsum w l sum else unaligned ocsum w a rest sum

/-- One trip around the loop, with the bytes from `w` on; `left` tells whether `pmlen` is -1, so
that the first byte is the second one of a word. -/
def trip (w : ℕ) (l : List UInt8) (left : Bool) (sum : ℕ) : Option (ℕ × Bool) :=
  match l, left with
  | [], left => some (sum, left)
  | l, false => run ocsum w l sum
  | a :: l, true => do
    let sum ← add32 sum a.toNat
    run ocsum (w + 1) l sum

/-- The label `douio`: add in the partial checksum, then the rest of the uio data. If there is
prefix data, the uio data goes on from there. -/
def douio (mp : Mblk) (dp : Struio) (w mlen : ℕ) (left : Bool) (sum : ℕ) :
    Option (ℕ × Bool) := do
  let odd : Bool := (dp.ptr - dp.base) % 2 = 1
  let sum ← add32 sum (if left then swap dp.data else dp.data)
  let left := if odd then !left else left
  if dp.lim ≠ dp.ptr then
    if mlen ≠ 0 then trip ocsum w (mp.bytes w (mlen + (dp.lim - dp.ptr))) left sum
    else trip ocsum dp.ptr (mp.bytes dp.ptr (dp.lim - dp.ptr)) left sum
  else trip ocsum w (mp.bytes w mlen) left sum

/-- The one or two trips for a block. -/
def block (mp : Mblk) (w : ℕ) (left : Bool) (sum : ℕ) : Option (ℕ × Bool) :=
  match mp.uio w with
  | none => trip ocsum w (mp.bytes w (mp.wptr - w)) left sum
  | some dp =>
    let mlen := dp.base - w
    if mlen ≠ 0 ∧ dp.base ≠ dp.ptr then do
      let (sum, left) ← trip ocsum w (mp.bytes w mlen) left sum
      douio ocsum mp dp w 0 left sum
    else douio ocsum mp dp w mlen left sum

/-- The loop over the blocks after the first one; those without data are passed over. -/
def rest : List Mblk → Bool → ℕ → Option ℕ
  | [], _, sum => some (fold (fold sum))
  | mp :: next, left, sum =>
    if mp.data.length = 0 then rest next left sum
    else do
      let (sum, left) ← block ocsum mp mp.rptr left sum
      rest next left sum

/-- The label `slow`. -/
def slow (mp : Mblk) (next : List Mblk) (w sum : ℕ) : Option ℕ := do
  let (sum, left) ← block ocsum mp w false sum
  rest ocsum next left sum

/-- The label `slow1`: the second trip for a block whose prefix has been summed. -/
def slow1 (mp : Mblk) (dp : Struio) (w sum : ℕ) : Option ℕ := do
  let (sum, left) ← douio ocsum mp dp w 0 false sum
  rest ocsum [] left sum

/-- The label `norm`: a single block with all of its data to do. -/
def norm (mp : Mblk) (w sum : ℕ) : Option ℕ :=
  let mlen := mp.wptr - w
  if mlen % 2 = 1 then slow ocsum mp [] w sum
  else some (ocsum w (mp.bytes w mlen) sum)

/-- A single block with uio data. -/
def fastUio (mp : Mblk) (dp : Struio) (w sum : ℕ) : Option ℕ :=
  let mlen := dp.base - w
  if mlen % 2 = 1 then slow ocsum mp [] w sum
  else if mlen ≠ 0 ∧ dp.base ≠ dp.ptr ∧ dp.lim ≠ dp.ptr then
    -- the prefix first, then the remainder of the uio data
    let sum := ocsum w (mp.bytes w mlen) sum
    if dp.ptr % 2 = 1 then slow1 ocsum mp dp w sum
    else if (dp.lim - dp.ptr) % 2 = 1 then slow ocsum mp [] w sum
    else (add32 sum dp.data).map (ocsum dp.ptr (mp.bytes dp.ptr (dp.lim - dp.ptr)))
  else if dp.lim ≠ dp.ptr then
    if mlen ≠ 0 then
      if (mlen + (dp.lim - dp.ptr)) % 2 = 1 then slow ocsum mp [] w sum
      else (add32 sum dp.data).map (ocsum w (mp.bytes w (mlen + (dp.lim - dp.ptr))))
    else if dp.ptr % 2 = 1 then slow ocsum mp [] w sum
    else if (dp.lim - dp.ptr) % 2 = 1 then slow ocsum mp [] w sum
    else (add32 sum dp.data).map (ocsum dp.ptr (mp.bytes dp.ptr (dp.lim - dp.ptr)))
  else if mlen = 0 then some dp.data
  else (add32 sum dp.data).map (ocsum w (mp.bytes w mlen))

/-- `ip_cksum` of the message `mp`, `next` -/
def ipCksum (mp : Mblk) (next : List Mblk) (offset sum : ℕ) : Option ℕ :=
  let w := mp.rptr + offset
  match next with
  | [] =>
    match mp.uio w with
    | none => norm ocsum mp w sum
    | some dp => fastUio ocsum mp dp w sum
  | _ => slow ocsum mp next w sum

/-- The loop of `ip_old_cksum`, which does not know about uio data. A byte that is left is taken
from the block before its length is looked at. -/
def oldLoop : List Mblk → Bool → ℕ → Option ℕ
  | [], _, sum => some (fold (fold sum))
  | mp :: next, left, sum =>
    if mp.data.length = 0 then oldLoop next left sum
    else do
      let (sum, left) ← trip ocsum mp.rptr mp.data left sum
      oldLoop next left sum

/-- `ip_old_cksum` -/
def ipOldCksum (mp : Mblk) (next : List Mblk) (offset sum : ℕ) : Option ℕ :=
  let w := mp.rptr + offset
  if next.isEmpty ∧ mp.wptr % 2 = 0 then
    some (ocsum w (mp.bytes w ((mp.wptr - w) / 2 * 2)) sum)
  else do
    let (sum, left) ← run ocsum w (mp.data.drop offset) sum
    oldLoop ocsum next left sum

end Sol26.Cksum
