import Mathlib.Data.BitVec
import Mathlib.Tactic

/-!
# XDR on message blocks

The streams of `rpc/xdr_mblk.c`: the encoder fills a chain of blocks, the decoder empties one.  A
block is the bytes between `b_rptr` and `b_wptr`.  Items are words, and byte strings that
`xdr_opaque` pads to a multiple of four bytes.
-/

namespace Sol26.Xdr.Mblk

abbrev Bytes := List UInt8

/-- `htonl`, as the bytes in memory. -/
def bigEndian (w : BitVec 32) : Bytes :=
  [⟨w.extractLsb' 24 8⟩, ⟨w.extractLsb' 16 8⟩, ⟨w.extractLsb' 8 8⟩, ⟨w.extractLsb' 0 8⟩]

/-- `ntohl` of four bytes in memory. -/
def ntohl : Bytes → BitVec 32
  | [a, b, c, d] => a.toBitVec ++ b.toBitVec ++ c.toBitVec ++ d.toBitVec
  | _ => 0

/-- `b_wptr - b_rptr` of the first block, and 0 where there is none. -/
def handyOf : List Bytes → ℤ
  | [] => 0
  | b :: _ => b.length

/-! ### Decoding -/

/-- A decoder: `x_handy`, and the chain from `x_base` on. -/
structure Dec where
  handy : ℤ
  m : List Bytes

/-- `xdrmblk_init` for `XDR_DECODE`. -/
def Dec.init (m : List Bytes) : Dec := ⟨handyOf m, m⟩

def getlongLoop : ℤ → List Bytes → Dec × Option (BitVec 32)
  | _, [] => (⟨0, []⟩, none)
  | handy, b :: rest =>
    if handy - 4 < 0 then
      if handy - 4 ≠ -4 then (⟨handy - 4, b :: rest⟩, none) else getlongLoop (handyOf rest) rest
    else (⟨handy - 4, b.drop 4 :: rest⟩, some (ntohl (b.take 4)))

/-- `xdrmblk_getlong` -/
def Dec.getlong (d : Dec) : Dec × Option (BitVec 32) :=
  if d.m = [] then (d, none) else getlongLoop d.handy d.m

def getbytesLoop : ℤ → List Bytes → ℕ → Bytes → Dec × Option Bytes
  | _, [], _, _ => (⟨0, []⟩, none)
  | handy, b :: rest, len, addr =>
    if handy - len < 0 then
      if 0 < handy then
        getbytesLoop (handyOf rest) rest (len - handy.toNat) (addr ++ b.take handy.toNat)
      else getbytesLoop (handyOf rest) rest len addr
    else (⟨handy - len, b.drop len :: rest⟩, some (addr ++ b.take len))

/-- `xdrmblk_getbytes` -/
def Dec.getbytes (d : Dec) (len : ℕ) : Dec × Option Bytes :=
  if d.m = [] then (d, none) else getbytesLoop d.handy d.m len []

def skipLoop : ℤ → List Bytes → ℕ → Dec × Bool
  | _, [], _ => (⟨0, []⟩, false)
  | handy, b :: rest, len =>
    if handy - len < 0 then
      if 0 < handy then skipLoop (handyOf rest) rest (len - handy.toNat)
      else skipLoop (handyOf rest) rest len
    else (⟨handy - len, b.drop len :: rest⟩, true)

/-- `RNDUP` -/
def rndup (x : ℕ) : ℕ := (x + 4 - 1) / 4 * 4

/-- `xdrmblk_control` for `XDR_SKIPBYTES`. -/
def Dec.skipbytes (d : Dec) (len : ℕ) : Dec × Bool :=
  if d.m = [] then (d, false) else skipLoop d.handy d.m (rndup len)

/-! ### Encoding -/

/-- Where the encoder finds its next block: one that is already linked, with room for so many
bytes, or one from `allocb`, which may fail or give more bytes than asked for. -/
inductive Next
  | cont (room : ℕ)
  | alloc (mpsize : Option ℕ)

/-- The room in the next block.  `XDRMBLK_SETHANDY` uses only what was asked for, unless that is
less than half of the block. -/
def Next.room (bufLen : ℕ) : Next → Option ℕ
  | .cont room => some room
  | .alloc none => none
  | .alloc (some mpsize) =>
    if bufLen = 0 then none else some (if mpsize / 2 ≤ bufLen then bufLen else mpsize)

/-- An encoder: the blocks it has left, the current one and its room `x_handy`, and `x_private`. -/
structure Enc where
  done : List Bytes
  cur : Bytes
  handy : ℤ
  next : List Next
  bufLen : ℕ

/-- The chain that has been encoded. -/
def Enc.chain (e : Enc) : List Bytes := e.done ++ [e.cur]

/-- On to the next block. -/
def Enc.advance (e : Enc) : Option Enc :=
  match e.next with
  | [] => none
  | n :: next => do
    let room ← n.room e.bufLen
    return { e with done := e.done ++ [e.cur], cur := [], handy := room, next := next }

/-- The bytes are stored at `b_wptr`, before the end of the block. -/
def Enc.store (e : Enc) (s : Bytes) : Option Enc :=
  if e.handy < s.length then none
  else some { e with cur := e.cur ++ s, handy := e.handy - s.length }

/-- `xdrmblk_putlong` -/
def Enc.putlong (e : Enc) (w : BitVec 32) : Option Enc :=
  if e.handy - 4 < 0 then do
    let e ← e.advance
    e.store (bigEndian w)
  else e.store (bigEndian w)

def putbytesLoop (bufLen : ℕ) : List Next → List Bytes → Bytes → ℤ → Bytes → Option Enc
  | [], done, cur, handy, addr =>
    if handy - addr.length < 0 then none
    else some ⟨done, cur ++ addr, handy - addr.length, [], bufLen⟩
  | n :: next, done, cur, handy, addr =>
    if handy - addr.length < 0 then do
      let k := if 0 < handy then handy.toNat else 0
      let room ← n.room bufLen
      putbytesLoop bufLen next (done ++ [cur ++ addr.take k]) [] room (addr.drop k)
    else some ⟨done, cur ++ addr, handy - addr.length, n :: next, bufLen⟩

/-- `xdrmblk_putbytes` -/
def Enc.putbytes (e : Enc) (addr : Bytes) : Option Enc :=
  putbytesLoop e.bufLen e.next e.done e.cur e.handy addr

/-! ### Items -/

inductive Item
  | long (w : BitVec 32)
  | bytes (s : Bytes)
deriving DecidableEq

inductive Kind
  | long
  | bytes (cnt : ℕ)

def Item.kind : Item → Kind
  | .long _ => .long
  | .bytes s => .bytes s.length

/-- The bytes that are missing to a full unit. -/
def pad (cnt : ℕ) : ℕ := if cnt % 4 ≠ 0 then 4 - cnt % 4 else 0

/-- What an item looks like on the wire. -/
def Item.wire : Item → Bytes
  | .long w => bigEndian w
  | .bytes s => s ++ List.replicate (pad s.length) 0

/-- Encode a word, or a byte string by `xdr_opaque`. -/
def Enc.put (e : Enc) : Item → Option Enc
  | .long w => e.putlong w
  | .bytes s =>
    if s.length = 0 then some e
    else do
      let e ← e.putbytes s
      if pad s.length = 0 then return e else e.putbytes (List.replicate (pad s.length) 0)

/-- Decode a word, or a byte string by `xdr_opaque`. -/
def Dec.get (d : Dec) : Kind → Option (Item × Dec)
  | .long =>
    match d.getlong with
    | (d, some w) => some (.long w, d)
    | (_, none) => none
  | .bytes cnt =>
    if cnt = 0 then some (.bytes [], d)
    else
      match d.getbytes cnt with
      | (_, none) => none
      | (d, some s) =>
        if pad cnt = 0 then some (.bytes s, d)
        else
          match d.getbytes (pad cnt) with
          | (_, none) => none
          | (d, some _) => some (.bytes s, d)

def encode : List Item → Enc → Option Enc
  | [], e => some e
  | x :: xs, e => do
    let e ← e.put x
    encode xs e

def decode : List Kind → Dec → Option (List Item)
  | [], _ => some []
  | k :: ks, d => do
    let (x, d) ← d.get k
    let xs ← decode ks d
    return x :: xs

/-! ### Where an item lies -/

/-- The bytes from offset `o` to the end of the block in which it lies. -/
def room : List Bytes → ℕ → ℕ
  | [], _ => 0
  | b :: c, o => if o < b.length then b.length - o else room c (o - b.length)

/-- The offsets of the words, when the first item is at offset `k`. -/
def longsAt : ℕ → List Item → List ℕ
  | _, [] => []
  | k, .long _ :: xs => k :: longsAt (k + 4) xs
  | k, .bytes s :: xs => longsAt (k + s.length + pad s.length) xs

/-- No word is divided between blocks. -/
def Unsplit (xs : List Item) (c : List Bytes) : Prop := ∀ o ∈ longsAt 0 xs, 4 ≤ room c o

instance (xs : List Item) (c : List Bytes) : Decidable (Unsplit xs c) :=
  inferInstanceAs (Decidable (∀ o ∈ longsAt 0 xs, 4 ≤ room c o))

def wires (xs : List Item) : Bytes := xs.flatMap Item.wire

theorem length_bigEndian (w : BitVec 32) : (bigEndian w).length = 4 := rfl

theorem ntohl_bigEndian (w : BitVec 32) : ntohl (bigEndian w) = w := by
  apply BitVec.eq_of_getLsbD_eq
  intro i hi
  simp only [bigEndian, ntohl, BitVec.getLsbD_append, BitVec.getLsbD_extractLsb']
  split_ifs with h1 h2 h3
  · simp [h1]
  · have hlt : i - 8 < 8 := h2
    simp only [hlt, decide_true, Bool.true_and]
    congr 1
    omega
  · have hlt : i - 8 - 8 < 8 := h3
    simp only [hlt, decide_true, Bool.true_and]
    congr 1
    omega
  · have hlt : i - 8 - 8 - 8 < 8 := by omega
    simp only [hlt, decide_true, Bool.true_and]
    congr 1
    omega

theorem length_wire_bytes (s : Bytes) : (Item.bytes s).wire.length = s.length + pad s.length := by
  simp [Item.wire]

theorem room_append (c1 c2 : List Bytes) (o : ℕ) :
    room (c1 ++ c2) o =
      if o < c1.flatten.length then room c1 o else room c2 (o - c1.flatten.length) := by
  induction c1 generalizing o with
  | nil => simp
  | cons b c1 ih =>
    simp only [List.cons_append, room, List.flatten_cons, List.length_append, ih]
    by_cases hb : o < b.length
    · rw [if_pos hb, if_pos hb, if_pos (by omega)]
    · rw [if_neg hb, if_neg hb, Nat.sub_sub]
      by_cases ho : o - b.length < c1.flatten.length
      · rw [if_pos ho, if_pos (by omega)]
      · rw [if_neg ho, if_neg (by omega)]

theorem room_eq_zero (c : List Bytes) {o : ℕ} (h : c.flatten.length ≤ o) : room c o = 0 := by
  induction c generalizing o with
  | nil => rfl
  | cons b c ih =>
    rw [List.flatten_cons, List.length_append] at h
    rw [room, if_neg (by omega), ih (by omega)]

end Sol26.Xdr.Mblk
