import Mathlib.Data.List.TakeWhile
import Mathlib.Tactic

/-!
# Resource maps

The resource map allocator of `os/rmap.c`: an array of segments in increasing order of their
addresses, ended by a segment of size 0 and edited in place. Addresses and sizes are 32-bit
words, and every sum and difference is taken as the machine takes it.
-/
namespace Sol26.Rmap

/-- `struct map` -/
structure Slot where
  size : ℕ
  addr : ℕ
  deriving DecidableEq, Repr

/-- The map header and the segment array that follows it. -/
structure RMap where
  /-- `m_free`, the number of free slots -/
  mfree : ℕ
  /-- `m_size` -/
  msize : ℕ
  /-- The eight bytes before `m_map[0]`, read as a slot: the second word of `m_lock` stands
  where a size would be and `m_cv` where an address would be. -/
  before : Slot
  /-- `m_map` up to the end of the memory of the map -/
  map : List Slot
  deriving DecidableEq, Repr

/-- The value of an `ulong_t` or `size_t` expression. -/
def w32 (x : ℕ) : ℕ := x % 2 ^ 32

/-- `x - y` on words -/
def sub32 (x y : ℕ) : ℕ := (x + 2 ^ 32 - y) % 2 ^ 32

/-- `m_addr + m_size` -/
def Slot.stop (s : Slot) : ℕ := w32 (s.addr + s.size)

/-- `(ssize_t)size <= 0` -/
def badSize (size : ℕ) : Prop := size = 0 ∨ 2 ^ 31 ≤ size

instance (size : ℕ) : Decidable (badSize size) := by unfold badSize; infer_instance

/-- `MAP_OVERHEAD`: a header of 36 bytes and slots of 8. -/
def mapOverhead : ℕ := (36 + 2 * 8 - 1) / 8

/-- `mapinit`. The array starts 28 bytes into memory that the caller has zeroed. -/
def mapinit (mem : List Slot) (before : Slot) (size addr mapsize : ℕ) : Option RMap :=
  if mapsize < mapOverhead + 1 then none
  else some
    { mfree := if size ≠ 0 then mapsize - mapOverhead - 1 else mapsize - mapOverhead
      msize := mapsize - mapOverhead
      before := before
      map := mem.set 0 ⟨size, addr⟩ }

/-- Move the slots after the first one down by one place, the terminator included. -/
def shiftDown : List Slot → List Slot
  | _ :: next :: rest =>
    if next.size = 0 then next :: next :: rest else next :: shiftDown (next :: rest)
  | l => l

/-- Put a segment into the first slot and push the ones from there on up, until the segment
that was pushed out is the terminator. -/
def pushUp (size addr : ℕ) : List Slot → List Slot
  | bp :: rest =>
    if bp.size = 0 then ⟨size, addr⟩ :: rest else ⟨size, addr⟩ :: pushUp bp.size bp.addr rest
  | [] => []

/-- Move the segments up by one place and put a new one before them. The slot after the
terminator gets size 0 and keeps its address. -/
def openUp (new : Slot) : List Slot → List Slot
  | bp :: next :: rest =>
    if bp.size = 0 then new :: { next with size := 0 } :: rest
    else new :: openUp bp (next :: rest)
  | l => l

/-- `rmalloc_locked` -/
def RMap.rmallocLocked (mp : RMap) (size : ℕ) : RMap × ℕ :=
  let skip : Slot → Bool := fun bp => bp.size ≠ 0 ∧ ¬ size ≤ bp.size
  let pre := mp.map.takeWhile skip
  match mp.map.dropWhile skip with
  | [] => (mp, 0)
  | bp :: rest =>
    if bp.size = 0 then (mp, 0)
    else
      let bp' : Slot := ⟨bp.size - size, w32 (bp.addr + size)⟩
      if bp'.size = 0 then
        ({ mp with map := pre ++ shiftDown (bp' :: rest), mfree := mp.mfree + 1 }, bp.addr)
      else ({ mp with map := pre ++ bp' :: rest }, bp.addr)

/-- What one pass of `rmfree` from the label `retry` comes to. -/
inductive Freed where
  /-- The space is in the map. -/
  | done (mp : RMap)
  /-- The map was full: a segment was given up and the space is still to be inserted. The lock
  is dropped for the warning about `[lost_start, lost_end]` before the next pass. -/
  | retry (mp : RMap) (lostStart lostEnd : ℕ)
  /-- `badrmfree` -/
  | panic
  deriving DecidableEq, Repr

/-- The header bytes and the array in one: slot `i` of the array is cell `i + 1`. -/
def RMap.cell (mp : RMap) (i : ℕ) : Slot := (mp.before :: mp.map).getD i ⟨0, 0⟩

/-- The cell of the smaller one of the last two segments. -/
def RMap.smaller (mp : RMap) : ℕ :=
  let last := (mp.map.takeWhile fun bp => bp.size ≠ 0).length
  if (mp.cell last).size > (mp.cell (last - 1)).size then last - 1 else last

/-- Destroy one entry, compressing down. -/
def RMap.discard (mp : RMap) (bp : ℕ) : RMap :=
  let next := mp.cell (bp + 1)
  let cells := ((mp.before :: mp.map).set bp next).set (bp + 1) { next with size := 0 }
  { mp with mfree := mp.mfree + 1, before := cells.headD ⟨0, 0⟩, map := cells.tail }

/-- The overflow branch of `rmfree`. -/
def RMap.overflow (mp : RMap) : Freed :=
  .retry (mp.discard mp.smaller) (mp.cell mp.smaller).addr (mp.cell mp.smaller).stop

/-- One pass of `rmfree`. -/
def RMap.rmfree (mp : RMap) (size addr : ℕ) : Freed :=
  if addr = 0 ∨ badSize size then .panic
  else
    let skip : Slot → Bool := fun bp => bp.addr ≤ addr ∧ bp.size ≠ 0
    let pre := mp.map.takeWhile skip
    match mp.map.dropWhile skip with
    | [] => .panic
    | bp :: rest =>
      match pre.getLast?.filter fun left => left.stop ≥ addr with
      | some left =>
        if left.stop > addr then .panic
        else if bp.size ≠ 0 ∧ w32 (addr + size) ≥ bp.addr then
          if w32 (addr + size) > bp.addr then .panic
          else
            let left' : Slot := ⟨w32 (w32 (left.size + size) + bp.size), left.addr⟩
            .done { mp with
              map := pre.dropLast ++ left' :: shiftDown (bp :: rest), mfree := mp.mfree + 1 }
        else
          let left' : Slot := ⟨w32 (left.size + size), left.addr⟩
          .done { mp with map := pre.dropLast ++ left' :: bp :: rest }
      | none =>
        if w32 (addr + size) ≥ bp.addr ∧ bp.size ≠ 0 then
          if w32 (addr + size) > bp.addr then .panic
          else
            let bp' : Slot := ⟨w32 (bp.size + size), sub32 bp.addr size⟩
            .done { mp with map := pre ++ bp' :: rest }
        else if mp.mfree = 0 then mp.overflow
        else .done
          { mp with map := pre ++ pushUp size addr (bp :: rest), mfree := mp.mfree - 1 }

/-- `rmget`, with `none` for the panic on a bad size. -/
def RMap.rmget (mp : RMap) (size addr : ℕ) : Option (RMap × ℕ) :=
  if badSize size then none
  else
    let skip : Slot → Bool := fun bp => bp.size ≠ 0 ∧ ¬ (bp.addr ≤ addr ∧ bp.stop > addr)
    let pre := mp.map.takeWhile skip
    match mp.map.dropWhile skip with
    | [] => some (mp, 0)
    | bp :: rest =>
      if bp.size = 0 then some (mp, 0)
      else if bp.stop < w32 (addr + size) then some (mp, 0)
      else if bp.addr = addr then
        if bp.size = size then
          some ({ mp with map := pre ++ shiftDown (bp :: rest), mfree := mp.mfree + 1 }, addr)
        else
          let bp' : Slot := ⟨sub32 bp.size size, w32 (bp.addr + size)⟩
          some ({ mp with map := pre ++ bp' :: rest }, addr)
      else if bp.stop = w32 (addr + size) then
        some ({ mp with map := pre ++ ⟨sub32 bp.size size, bp.addr⟩ :: rest }, addr)
      else if mp.mfree = 0 then some (mp, 0)
      else
        let right : Slot := ⟨sub32 bp.stop (w32 (addr + size)), w32 (addr + size)⟩
        let left : Slot := ⟨sub32 addr bp.addr, bp.addr⟩
        some ({ mp with map := pre ++ left :: openUp right rest, mfree := mp.mfree - 1 }, addr)

end Sol26.Rmap
