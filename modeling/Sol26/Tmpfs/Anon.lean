import Mathlib.Algebra.Group.Nat.Even
import Sol26.Tmpfs.Write

/-!
# The anonymous memory of tmpfs files

Model of `tmp_resv`, `tmp_unresv`, `tmpnode_growmap` and `tmpnode_trunc` from
`uts/common/fs/tmpfs/tmp_tnode.c` and of what `wrtmp` does with the reservation and the anon array.
The contents of the pages are left out. The array is a list that tells which slots are not `NULL`,
and a result of `none` is an index outside of it.
-/
namespace Sol26.Tmpfs.Anon

/-- The page size of the machine, a power of two. -/
structure Paging where
  shift : ℕ
  le : shift ≤ 26

def Paging.size (pg : Paging) : ℕ := 2 ^ pg.shift

def Paging.btop (pg : Paging) (x : ℕ) : ℕ := x / pg.size

def Paging.btopr (pg : Paging) (x : ℕ) : ℕ := (x + (pg.size - 1)) / pg.size

/-- The reservation of a file system; `tmp_mount` sets `tm_anonmax` to `INT_MAX` or less. -/
structure Tmount where
  anonmax : ℕ
  anonmem : ℕ
  le : anonmax < 2 ^ 31

/-- A regular file. An array that is `NULL` has no slots. -/
structure Tmpnode where
  size : ℕ
  nblocks : ℕ
  asize : ℕ
  anon : List Bool

/-- `tmpnode_alloc` -/
def Tmpnode.alloc : Tmpnode := { size := 0, nblocks := 0, asize := 0, anon := [] }

/-- Subtraction of words of `w` bits. -/
def wordSub (w a b : ℕ) : ℕ := (a + 2 ^ w - b) % 2 ^ w

variable (pg : Paging)

/-- `tmp_resv`; `room` tells whether `anon_checkspace` and `anon_resv` succeed. The result is `none`
if the reservation is denied. -/
def tmpResv (tm : Tmount) (room : Bool) (delta : ℕ) (pagecreate : Bool) : Option Tmount :=
  let pages := pg.btopr delta
  if pagecreate ∧ (tm.anonmax < (tm.anonmem + pages) % 2 ^ 32 ∨ room = false) then none
  else if pagecreate then some { tm with anonmem := (tm.anonmem + pages) % 2 ^ 32 }
  else some tm

/-- `tmp_unresv` -/
def tmpUnresv (tm : Tmount) (delta : ℕ) : Tmount :=
  { tm with anonmem := wordSub 32 tm.anonmem (pg.btopr delta) }

/-! ### The array -/

/-- The loop that copies the first `n` slots of the old array. -/
def copySlots (oldapp : List Bool) : ℕ → List Bool → Option (List Bool)
  | 0, newapp => some newapp
  | n + 1, newapp => do
    let newapp ← copySlots oldapp n newapp
    let slot ← oldapp[n]?
    if n < newapp.length then some (newapp.set n slot) else none

/-- `TMAP_ALLOC` -/
def tmapAlloc : ℕ := 32 * pg.size

/-- The new size of the array, a signed number: one that is negative becomes `MAXOFF_T`. -/
def newAsize (offset : ℕ) : ℕ :=
  let newsize := (offset + tmapAlloc pg) % 2 ^ 32 / tmapAlloc pg * tmapAlloc pg
  if 2 ^ 31 ≤ newsize then maxOff else newsize

/-- `tmpnode_growmap` -/
def growmap (tp : Tmpnode) (offset : ℕ) : Option Tmpnode :=
  if offset < tp.asize then some tp
  else do
    let newsize := newAsize pg offset
    let newapp ← copySlots tp.anon (pg.btopr tp.asize) (List.replicate (pg.btopr newsize) false)
    return { tp with asize := newsize, anon := newapp }

/-- The number of slots from `i` on that `anon_pages` counts. -/
def anonPages (app : List Bool) : ℕ → ℕ → Option ℕ
  | _, 0 => some 0
  | i, n + 1 => do
    let slot ← app[i]?
    let cnt ← anonPages app (i + 1) n
    return cnt + if slot then 1 else 0

/-- `anon_free` of the `n` slots from `i` on. -/
def anonFree : ℕ → ℕ → List Bool → Option (List Bool)
  | _, 0, app => some app
  | i, n + 1, app => if i < app.length then anonFree (i + 1) n (app.set i false) else none

/-! ### Truncation -/

/-- The pages beyond the new size are freed. -/
def freePages (tm : Tmount) (tp : Tmpnode) (newsize : ℕ) : Option (Tmount × Tmpnode) :=
  if pg.btopr newsize ≠ pg.btopr tp.size then do
    let delta := roundup tp.size pg.size - roundup newsize pg.size
    let cnt ← anonPages tp.anon (pg.btopr newsize) (pg.btopr delta)
    let freed := pg.btop (cnt * pg.size % 2 ^ 32)
    let app ← anonFree (pg.btopr newsize) (pg.btopr delta) tp.anon
    return (tmpUnresv pg tm delta, { tp with nblocks := wordSub 64 tp.nblocks freed, anon := app })
  else some (tm, tp)

/-- The part of `tmpnode_trunc` for a file that gets smaller. -/
def shrink (tm : Tmount) (tp : Tmpnode) (newsize : ℕ) : Option (Tmount × Tmpnode) := do
  let (tm, tp) ← freePages pg tm tp newsize
  -- the slot is looked at to zero the rest of its page
  let _ ← tp.anon[pg.btop newsize]?
  if newsize = 0 then return (tm, { tp with size := newsize, anon := [], asize := 0 })
  else return (tm, { tp with size := newsize })

/-- `tmpnode_trunc` of a regular file -/
def tmpnodeTrunc (tm : Tmount) (tp : Tmpnode) (room : Bool) (newsize : ℕ) :
    Option (Tmount × Tmpnode × Option Werror) :=
  if newsize = tp.size then some (tm, tp, none)
  else if tp.size < newsize then
    let delta := roundup newsize pg.size - roundup tp.size pg.size
    match tmpResv pg tm room delta (pg.btopr newsize ≠ pg.btopr tp.size) with
    | none => some (tm, tp, some .enospc)
    | some tm => do
      let tp ← growmap pg tp newsize
      return (tm, { tp with size := newsize }, none)
  else do
    let (tm, tp) ← shrink pg tm tp newsize
    return (tm, tp, none)

/-! ### Writing -/

/-- What a write meets, by offset: whether swap space can be reserved, and where `uiomove` or the
release of the mapping fails after how many bytes. -/
structure Env where
  room : ℕ → Bool
  fault : ℕ → Option ℕ

/-- The state of the loop: the file, `uio_offset`, `uio_resid`, and `old_tn_size` once
`tn_size_changed` is set. -/
structure Wstate where
  tm : Tmount
  tp : Tmpnode
  offset : ℕ
  resid : ℕ
  oldSize : Option ℕ

/-- Memory for a file that is to end at `stop`; the result is `none` inside if it is denied. -/
def reserve (tm : Tmount) (tp : Tmpnode) (room : Bool) (stop : ℕ) :
    Option (Option (Tmount × Tmpnode)) :=
  if roundup tp.size pg.size < stop then
    match tmpResv pg tm room (stop - roundup tp.size pg.size) true with
    | none => some none
    | some tm => do
      let tp ← growmap pg tp stop
      return some (tm, tp)
  else some (some (tm, tp))

/-- The slot of the page that is written is filled. -/
def fillSlot (tp : Tmpnode) (pagenumber : ℕ) : Option Tmpnode := do
  let slot ← tp.anon[pagenumber]?
  if slot then return tp
  else
    return { tp with anon := tp.anon.set pagenumber true, nblocks := (tp.nblocks + 1) % 2 ^ 64 }

/-- The copy of `bytes` bytes, with the memory reserved: the file grows before the copy, and is cut
back if the copy fails. -/
def copyPage (env : Env) (w : Wstate) (bytes : ℕ) : Option (Wstate × Option Werror) := do
  let stop := w.offset + bytes
  let oldSize := if w.tp.size < stop then some w.tp.size else w.oldSize
  let tp := if w.tp.size < stop then { w.tp with size := stop } else w.tp
  let tp ← fillSlot tp (pg.btop w.offset)
  match env.fault w.offset with
  | none =>
    return ({ w with tp := tp, offset := stop, resid := w.resid - bytes, oldSize := oldSize }, none)
  | some m =>
    let moved := min m bytes
    let w : Wstate :=
      { w with tp := tp, offset := w.offset + moved, resid := w.resid - moved, oldSize := oldSize }
    match oldSize with
    | none => return (w, some .efault)
    | some size =>
      let (tm, tp, _) ← tmpnodeTrunc pg w.tm w.tp true size
      return ({ w with tm := tm, tp := tp }, some .efault)

/-- One pass of the loop of `wrtmp`. -/
def wrtmpPass (env : Env) (limit : ℕ) (w : Wstate) : Option (Wstate × Option Werror) :=
  let bytes := min (pg.size - w.offset % pg.size) w.resid
  if limit ≤ w.offset + bytes ∧ limit ≤ w.offset then some (w, some .efbig)
  else
    let bytes := if limit ≤ w.offset + bytes then limit - w.offset else bytes
    match reserve pg w.tm w.tp (env.room w.offset) (w.offset + bytes) with
    | none => none
    | some none => some (w, some .enospc)
    | some (some (tm, tp)) => copyPage pg env { w with tm := tm, tp := tp } bytes

/-- The loop; every pass without an error moves a byte, so that `uio_resid` passes are enough. -/
def wrtmpLoop (env : Env) (limit : ℕ) : ℕ → Wstate → Option (Wstate × Option Werror)
  | 0, w => some (w, none)
  | fuel + 1, w => do
    let (w, error) ← wrtmpPass pg env limit w
    match error with
    | some e => return (w, some e)
    | none => if 0 < w.resid then wrtmpLoop env limit fuel w else return (w, none)

/-- `wrtmp` -/
def wrtmp (env : Env) (tm : Tmount) (tp : Tmpnode) (offset resid limit : ℕ) :
    Option (Tmount × Tmpnode × Option Werror) :=
  let limit := min limit maxOff
  if limit ≤ offset then some (tm, tp, some .efbig)
  else if resid = 0 then some (tm, tp, none)
  else do
    let (w, error) ← wrtmpLoop pg env limit resid ⟨tm, tp, offset, resid, none⟩
    -- a write that moved something ends without an error
    return (w.tm, w.tp, if w.resid ≠ resid then none else error)

/-! ### File systems -/

/-- A file system with its regular files. -/
structure Fs where
  tm : Tmount
  files : List Tmpnode

/-- What is done to the file system; a file is named by its place in the list. -/
inductive Op
  | create
  | write (i : ℕ) (env : Env) (offset resid limit : ℕ)
  | trunc (i : ℕ) (room : Bool) (newsize : ℕ)
  | free (i : ℕ)

/-- One operation; on a file that does not exist it does nothing. -/
def Fs.exec (fs : Fs) : Op → Option Fs
  | .create => some { fs with files := fs.files ++ [.alloc] }
  | .write i env offset resid limit =>
    match fs.files[i]? with
    | none => some fs
    | some tp => do
      let (tm, tp, _) ← wrtmp pg env fs.tm tp offset resid limit
      return { tm := tm, files := fs.files.set i tp }
  | .trunc i room newsize =>
    match fs.files[i]? with
    | none => some fs
    | some tp => do
      let (tm, tp, _) ← tmpnodeTrunc pg fs.tm tp room newsize
      return { tm := tm, files := fs.files.set i tp }
  | .free i =>
    -- `tmpnode_free` truncates the file before the node goes away
    match fs.files[i]? with
    | none => some fs
    | some tp => do
      let (tm, _, _) ← tmpnodeTrunc pg fs.tm tp true 0
      return { tm := tm, files := fs.files.eraseIdx i }

def Fs.run (fs : Fs) : List Op → Option Fs
  | [] => some fs
  | op :: ops => do
    let fs ← fs.exec pg op
    fs.run ops

end Sol26.Tmpfs.Anon
