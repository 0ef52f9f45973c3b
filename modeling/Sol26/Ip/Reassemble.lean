import Mathlib.Tactic

/-!
# Reassembly of IP fragments

Model of `ip_reassemble` and of the part of `ip_rput_local` that queues the fragments of one
datagram, from `uts/common/inet/ip.c`. A result of `none` is a read outside a block.
-/
namespace Sol26.Ip

/-- A block of a message on a reassembly queue: the bytes from `b_rptr` to `b_wptr`, and the
offsets that `IP_REASS_SET_START` and `IP_REASS_SET_END` keep in `b_next` and `b_prev`. -/
structure Mblk where
  data : List UInt8
  start : ℕ
  stop : ℕ
  deriving DecidableEq, Repr

/-- The queue of one datagram. `ipf_tail_mp` is the last block of `queue`, or nil. `ipf_end` is 0
in the hard case, and `ipf_hole_cnt` is set when the hard case begins. -/
structure Ipf where
  queue : List Mblk
  holeCnt : ℤ
  last : ℕ
  deriving DecidableEq, Repr

def iphMf : ℕ := 0x2000

def iphOffset : ℕ := 0x1FFF

def ipSimpleHdrLength : ℕ := 20

/-- Subtraction of 32-bit words. -/
def sub32 (a b : ℕ) : ℕ := (a + 2 ^ 32 - b) % 2 ^ 32

/-- `IPH_HDR_LENGTH` -/
def iphHdrLength : List UInt8 → Option ℕ
  | [] => none
  | b :: _ => some ((b &&& 0xF).toNat <<< 2)

/-- The 16-bit field at a byte of the header. -/
def ntohs (b : List UInt8) (i : ℕ) : Option ℕ := do
  return (← b[i]?).toNat * 256 + (← b[i + 1]?).toNat

/-- Store a 16-bit field. -/
def htons (b : List UInt8) (i v : ℕ) : List UInt8 :=
  (b.set i (UInt8.ofNat (v / 256))).set (i + 1) (UInt8.ofNat v)

/-- `b_rptr += u1 - start` -/
def Mblk.trimFront (mp : Mblk) (u1 : ℕ) : Mblk :=
  ⟨mp.data.drop (u1 - mp.start), u1, mp.stop⟩

/-- `b_wptr -= end - u1` -/
def Mblk.trimBack (mp : Mblk) (u1 : ℕ) : Mblk :=
  ⟨mp.data.take (mp.data.length - (mp.stop - u1)), mp.start, u1⟩

/-- `Did we cover another hole?` -/
def coversHole (more : Bool) (stop : ℕ) (mp1 : Mblk) : List Mblk → Bool
  | [] => !more
  | next :: _ => (mp1.stop ≠ next.start && stop ≥ next.start) || !more

/-- The loop that checks for overlap: the new block, the ones after it and the number of holes. -/
def clip (more : Bool) (mp : Mblk) : List Mblk → ℤ → Mblk × List Mblk × ℤ
  | [], holes => (mp, [], holes)
  | mp1 :: rest, holes =>
    if mp.stop > mp1.start then
      if mp.stop < mp1.stop then (mp.trimBack mp1.start, mp1 :: rest, holes)
      -- clip out `mp1`
      else clip more mp rest (if coversHole more mp.stop mp1 rest then holes - 1 else holes)
    else (mp, mp1 :: rest, holes)

/-- Link a block between `mp1`, which ends at or before its start, and the next one, which starts
after it. -/
def fill (more : Bool) (mp mp1 next : Mblk) (rest : List Mblk) (holes : ℤ) : List Mblk × ℤ :=
  let holes := if mp.start > mp1.stop then holes + 1 else holes
  if mp.stop ≥ next.start then
    let r := clip more mp (next :: rest) (holes - 1)
    (mp1 :: r.1 :: r.2.1, r.2.2)
  else (mp1 :: mp :: next :: rest, holes)

/-- The new piece starts somewhere between the start of the head and before the end of the
tail. -/
def place (more : Bool) (mp : Mblk) : List Mblk → ℤ → Option (List Mblk × ℤ)
  | [], holes => some ([], holes)
  | mp1 :: rest, holes =>
    -- nothing new
    if mp.start < mp1.stop ∧ mp.stop ≤ mp1.stop then some (mp1 :: rest, holes)
    else
      let trimmed := if mp.start < mp1.stop then mp.trimFront mp1.stop else mp
      match rest with
      | [] =>
        if mp.start < mp1.stop then some ([mp1, trimmed], if more then holes else holes - 1)
        else none
      | next :: rest' =>
        if trimmed.start ≥ next.start then do
          let r ← place more trimmed (next :: rest') holes
          return (mp1 :: r.1, r.2)
        else some (fill more trimmed mp1 next rest' holes)

/-- The change at the front of the queue, whose first block starts at `u1`. -/
def frontHoles (mp : Mblk) (u1 : ℕ) (holes : ℤ) : ℤ :=
  if mp.start = 0 then if mp.stop ≥ u1 then holes - 1 else holes
  else if mp.stop < u1 then holes + 1
  else holes

/-- One turn of the loop of `ip_reassemble`; `next` tells whether more blocks follow in the
message. -/
def Ipf.add (ipf : Ipf) (more : Bool) (mp : Mblk) (next : Bool) : Option Ipf :=
  match ipf.queue with
  | [] => some { ipf with
      queue := [mp]
      holeCnt := if mp.start = 0 || !more then (if next then 2 else 1) else 2 }
  | mp1 :: rest =>
    let u1 := (rest.getLastD mp1).stop
    if mp.start ≥ u1 then some { ipf with
      queue := mp1 :: rest ++ [mp]
      holeCnt :=
        if more then (if mp.start ≠ u1 then ipf.holeCnt + 1 else ipf.holeCnt)
        else if mp.start = u1 && !next then ipf.holeCnt - 1
        else ipf.holeCnt }
    else if mp.start < mp1.start then
      let r := clip more mp (mp1 :: rest) (frontHoles mp mp1.start ipf.holeCnt)
      some { ipf with
        queue := r.1 :: r.2.1
        holeCnt := r.2.2 }
    else do
      let r ← place more mp (mp1 :: rest) ipf.holeCnt
      return { ipf with
        queue := r.1
        holeCnt := r.2 }

/-- Where a block that starts at `start` ends. The first one has the header. -/
def blockEnd (start : ℕ) (data : List UInt8) : Option ℕ :=
  if start = 0 then (iphHdrLength data).map (sub32 data.length ·)
  else some (start + data.length)

/-- The loop of `ip_reassemble` over the blocks of a message. -/
def Ipf.addAll (ipf : Ipf) (more : Bool) : ℕ → List (List UInt8) → Option Ipf
  | _, [] => some ipf
  | start, data :: next => do
    let stop ← blockEnd start data
    -- an empty block is freed
    if start = stop then ipf.addAll more stop next
    else do
      let ipf ← ipf.add more ⟨data, start, stop⟩ (!next.isEmpty)
      ipf.addAll more stop next

/-- Mark the blocks that have been queued in order, from offset `u1` on. -/
def mark : ℕ → List Mblk → Option (List Mblk)
  | _, [] => some []
  | u1, mp1 :: rest => do
    let u2 ← blockEnd u1 mp1.data
    let rest ← mark u2 rest
    return ⟨mp1.data, u1, u2⟩ :: rest

/-- The switch from in-order reassembly to the hard case. -/
def Ipf.harden (ipf : Ipf) : Option Ipf :=
  if ipf.last ≠ 0 then do
    let queue ← mark 0 ipf.queue
    return ⟨queue, 1, 0⟩
  else some ipf

/-- `ip_reassemble`; the result tells whether the datagram is complete. -/
def ipReassemble (mp : List (List UInt8)) (ipf : Ipf) (offsetAndFlags : ℕ) :
    Option (Ipf × Bool) := do
  let more : Bool := offsetAndFlags &&& iphMf ≠ 0
  let start := (offsetAndFlags &&& iphOffset) <<< 3
  let ipf ← ipf.harden
  let ipf ← ipf.addAll more start mp
  return (ipf, ipf.holeCnt = 0)

/-- The message of a complete queue, with the length restored and the fragment field cleared in
the header at its beginning. -/
def complete : List Mblk → Option (List (List UInt8))
  | [] => none
  | mp :: rest =>
    let u2 := ((mp :: rest).map (fun m => m.data.length)).sum
    some (htons (htons mp.data 2 u2) 6 0 :: rest.map Mblk.data)

/-- Blocks as they come in, with nothing in `b_next` and `b_prev`. -/
def blocks (mp : List (List UInt8)) : List Mblk := mp.map fun data => ⟨data, 0, 0⟩

/-- The part of `ip_rput_local` for one identity: the new queue, and the datagram if there is a
complete one. -/
def ipRputLocal (ipf : Option Ipf) (mp : List (List UInt8)) :
    Option (Option Ipf × Option (List (List UInt8))) := do
  let ipha ← mp.head?
  let u1 := (← ntohs ipha 6) &&& (iphMf ||| iphOffset)
  if u1 = 0 then return (ipf, some mp)
  let offset := (u1 <<< 3) &&& 0xFFFF
  let hdrLength ← iphHdrLength ipha
  let length := sub32 (← ntohs ipha 2) hdrLength
  -- a packet with no data
  if length = 0 then return (ipf, none)
  let mp := if offset ≠ 0 then ipha.drop hdrLength :: mp.tail else mp
  let stop := if offset ≠ 0 then length + offset else length
  match ipf with
  | none =>
    if offset = 0 then return (some ⟨blocks mp, 0, stop⟩, none)
    else do
      let r ← ipReassemble mp ⟨[], 0, 0⟩ u1
      return (some r.1, none)
  | some ipf =>
    if offset ≠ 0 ∧ ipf.last = offset then
      let queue := ipf.queue ++ blocks mp
      if u1 &&& iphMf ≠ 0 then return (some ⟨queue, ipf.holeCnt, stop⟩, none)
      else return (none, ← complete queue)
    else do
      let r ← ipReassemble mp ipf u1
      if r.2 then return (none, ← complete r.1.queue)
      else return (some r.1, none)

end Sol26.Ip
