import Sol26.Lib.Serial

/-!
# The TCP reassembly queue

`tcp_reass` of `inet/tcp.c`: segments that arrive out of order wait in a chain of message blocks
from `tcp_reass_head` to `tcp_reass_tail`, sorted by sequence number and with overlaps cut away,
until the gap before them is filled.
-/
namespace Sol26.Tcp

open Serial

variable {α : Type*}

/-- `SEQ_LT` -/
def seqLt (a b : ℕ) : Prop := diff a b < 0

/-- `SEQ_LEQ` -/
def seqLeq (a b : ℕ) : Prop := diff a b ≤ 0

/-- `SEQ_GT` -/
def seqGt (a b : ℕ) : Prop := diff a b > 0

/-- `SEQ_GEQ` -/
def seqGeq (a b : ℕ) : Prop := diff a b ≥ 0

instance (a b : ℕ) : Decidable (seqLt a b) := inferInstanceAs (Decidable (_ < _))
instance (a b : ℕ) : Decidable (seqLeq a b) := inferInstanceAs (Decidable (_ ≤ _))
instance (a b : ℕ) : Decidable (seqGt a b) := inferInstanceAs (Decidable (_ > _))
instance (a b : ℕ) : Decidable (seqGeq a b) := inferInstanceAs (Decidable (_ ≥ _))

/-- A message block on the queue: its address, `TCP_REASS_SEQ`, `TCP_REASS_END` and the bytes
from `b_rptr` to `b_wptr`. -/
structure Mblk (α : Type*) where
  id : ℕ
  seq : ℕ
  fin : ℕ
  data : List α
  deriving DecidableEq, Repr

/-- The queue: the chain from `tcp_reass_head` along `b_cont`, the address in `tcp_reass_tail`,
and `tcp_rnxt`. -/
structure Queue (α : Type*) where
  head : List (Mblk α)
  tail : Option ℕ
  rnxt : ℕ
  deriving DecidableEq, Repr

/-- `tcp_reass_elim_overlap`: the block, the chain after it, and whether the block has become the
last one. -/
def elimOverlap (mp : Mblk α) : List (Mblk α) → Mblk α × List (Mblk α) × Bool
  | [] => (mp, [], true)
  | mp1 :: rest =>
    if ¬ seqGt mp.fin mp1.seq then (mp, mp1 :: rest, false)
    else if ¬ seqGeq mp.fin mp1.fin then
      ({ mp with
          fin := mp1.seq
          data := mp.data.take (mp.data.length - (diff mp.fin mp1.seq).toNat) },
        mp1 :: rest, false)
    else elimOverlap mp rest

/-- Link the block in after `mp1`, trim its overlap with the following blocks and then that of
`mp1` with it. -/
def linkIn (tail : Option ℕ) (mp mp1 : Mblk α) (mp2 : List (Mblk α)) :
    List (Mblk α) × Option ℕ :=
  let r := elimOverlap mp mp2
  let tail := if r.2.2 then some mp.id else tail
  let r1 := elimOverlap mp1 (r.1 :: r.2.1)
  (r1.1 :: r1.2.1, if r1.2.2 then some mp1.id else tail)

/-- The search for the slot of a block that fits between head and tail. -/
def place (tail : Option ℕ) (mp : Mblk α) : Mblk α → List (Mblk α) → List (Mblk α) × Option ℕ
  | mp1, [] => linkIn tail mp mp1 []
  | mp1, mp2 :: rest =>
    if seqLeq mp.seq mp2.seq then linkIn tail mp mp1 (mp2 :: rest)
    else
      let r := place tail mp mp2 rest
      (mp1 :: r.1, r.2)

/-- `mp1->b_cont = mp` for the block at the address -/
def linkAfter (addr : ℕ) (mp : Mblk α) : List (Mblk α) → List (Mblk α)
  | [] => []
  | mp1 :: rest => if mp1.id = addr then [mp1, mp] else mp1 :: linkAfter addr mp rest

/-- One round of the loop of `tcp_reass`: a block that is not empty goes into the queue. The flag
is `TH_ACK_NEEDED`; `none` is a wild pointer. -/
def Queue.add (q : Queue α) (mp : Mblk α) : Option (Queue α × Bool) :=
  match q.tail with
  | none => some ({ q with head := [mp], tail := some mp.id }, true)
  | some addr => do
    let mp1 ← q.head.find? fun m => m.id = addr
    if seqGeq mp.seq mp1.fin then
      some ({ q with head := linkAfter addr mp q.head, tail := some mp.id }, false)
    else
      match q.head with
      | [] => none
      | mp1 :: rest =>
        if seqLt mp.seq mp1.seq then
          let r := elimOverlap mp (mp1 :: rest)
          some ({ q with
            head := r.1 :: r.2.1
            tail := if r.2.2 then some mp.id else q.tail }, false)
        else
          let r := place q.tail mp mp1 rest
          some ({ q with head := r.1, tail := r.2 }, false)

/-- The loop of `tcp_reass` over the blocks of a message. -/
def Queue.addAll (q : Queue α) (start : ℕ) : List (ℕ × List α) → Option (Queue α × Bool)
  | [] => some (q, false)
  | (id, data) :: rest =>
    let fin := word (start + data.length)
    if start = fin then q.addAll fin rest
    else do
      let (q1, ack1) ← q.add ⟨id, start, fin, data⟩
      let (q2, ack2) ← q1.addAll fin rest
      some (q2, ack1 || ack2)

/-- Eat what we can off the queue: the blocks to return and the ones that stay. -/
def eat : Mblk α → List (Mblk α) → List (Mblk α) × List (Mblk α)
  | mp1, [] => ([mp1], [])
  | mp1, mp :: rest =>
    if mp1.fin ≠ mp.seq then ([mp1], mp :: rest)
    else
      let r := eat mp rest
      (mp1 :: r.1, r.2)

/-- What `tcp_reass` leaves and returns; an empty list of blocks is a null pointer. -/
structure Result (α : Type*) where
  queue : Queue α
  ret : List (Mblk α)
  ackNeeded : Bool
  deriving DecidableEq, Repr

/-- `tcp_reass` -/
def Queue.reass (q : Queue α) (start : ℕ) (mps : List (ℕ × List α)) : Option (Result α) := do
  let (q, ack) ← q.addAll start mps
  match q.head with
  | [] => none
  | mp1 :: rest =>
    if mp1.seq ≠ q.rnxt then some ⟨q, [], ack⟩
    else
      let r := eat mp1 rest
      some ⟨{ q with head := r.2, tail := if r.2 = [] then none else q.tail }, r.1,
        ack || decide (r.2 ≠ [])⟩

end Sol26.Tcp
