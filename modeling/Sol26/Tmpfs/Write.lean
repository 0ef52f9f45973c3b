import Mathlib.Order.Lattice

/-!
# Writing a tmpfs file

`wrtmp` and the truncation it falls back on. A file is its array of anonymous pages and its
size; a slot without a page reads as zeros. What the write meets in its surroundings is a
`Wenv`: the bytes of the caller, where `uiomove` fails and after how many bytes, where no
swap space can be reserved, and what a page holds that is created without being filled.
-/
namespace Sol26.Tmpfs

/-- The contents of one page. -/
abbrev Page := ℕ → UInt8

structure File where
  anon : ℕ → Option Page
  size : ℕ

inductive Werror
  | efbig | enospc | efault
deriving DecidableEq

structure Wenv where
  pageSize : ℕ
  data : ℕ → UInt8
  fault : ℕ → Option ℕ
  resv : ℕ → Bool
  junk : ℕ → Page

def maxOff : ℕ := 0x7fffffff

def roundup (x y : ℕ) : ℕ := (x + (y - 1)) / y * y

/-- The byte a reader of the file sees. -/
def File.byte (f : File) (pageSize x : ℕ) : UInt8 :=
  match f.anon (x / pageSize) with
  | some page => page (x % pageSize)
  | none => 0

def kzero (page : Page) (start stop : ℕ) : Page :=
  fun i => if start ≤ i ∧ i < stop then 0 else page i

/-- `uiomove` of `len` bytes of the caller, from his byte `first` on, to `start` in the page. -/
def uiomove (page : Page) (start len : ℕ) (data : ℕ → UInt8) (first : ℕ) : Page :=
  fun i => if start ≤ i ∧ i < start + len then data (first + (i - start)) else page i

def File.setPage (f : File) (pagenumber : ℕ) (page : Option Page) : File :=
  { f with anon := fun p => if p = pagenumber then page else f.anon p }

/-- `tmpnode_trunc` of a regular file; `resv` tells whether a growing file gets its space. -/
def tmpnodeTrunc (pageSize : ℕ) (resv : Bool) (f : File) (newsize : ℕ) :
    File × Option Werror :=
  if newsize = f.size then (f, none)
  else if f.size < newsize then
    if resv then ({ f with size := newsize }, none) else (f, some .enospc)
  else
    let first := roundup newsize pageSize / pageSize
    let f : File :=
      { anon := fun p => if first ≤ p then none else f.anon p, size := newsize }
    match f.anon (newsize / pageSize) with
    | some page =>
      (f.setPage (newsize / pageSize) (some (kzero page (newsize % pageSize) pageSize)), none)
    | none => (f, none)

/-- The state of the loop: the file, `uio_offset`, `uio_resid`, and `old_tn_size` once
`tn_size_changed` is set. -/
structure Wstate where
  file : File
  offset : ℕ
  resid : ℕ
  oldSize : Option ℕ

/-- The file grows to the end of the copy before the copy is made. -/
def Wstate.grow (w : Wstate) (stop : ℕ) : Wstate :=
  if w.file.size < stop then
    { w with file := { w.file with size := stop }, oldSize := some w.file.size }
  else w

/-- The page that is copied to: a created page is cleared up to the data. -/
def basePage (env : Wenv) (f : File) (pagenumber pageoffset : ℕ) (whole : Bool) : Page × Bool :=
  match f.anon pagenumber with
  | some page => if whole then (kzero (env.junk pagenumber) 0 pageoffset, true) else (page, false)
  | none => (kzero (env.junk pagenumber) 0 pageoffset, true)

/-- The page after a copy of `bytes` bytes at `offset` that moved `moved` of them: a created
page is zeroed from the end of the data to the end of the page. -/
def copiedPage (env : Wenv) (f : File) (start offset bytes moved : ℕ) : Page :=
  let pageoffset := offset % env.pageSize
  let base := basePage env f (offset / env.pageSize) pageoffset (bytes = env.pageSize)
  let page := uiomove base.1 pageoffset moved env.data (offset - start)
  if base.2 ∧ offset + moved < roundup (offset + bytes) env.pageSize then
    kzero page (pageoffset + moved) env.pageSize
  else page

/-- The copy of `bytes` bytes within one page, and what is done about a copy that fails. -/
def copyPage (env : Wenv) (start : ℕ) (w : Wstate) (bytes : ℕ) : Wstate × Option Werror :=
  let offset := w.offset
  let w := w.grow (offset + bytes)
  let moved := match env.fault offset with
    | some m => min m bytes
    | none => bytes
  let page := copiedPage env w.file start offset bytes moved
  let w : Wstate :=
    { w with
      file := w.file.setPage (offset / env.pageSize) (some page)
      offset := offset + moved
      resid := w.resid - moved }
  match env.fault offset with
  | none => (w, none)
  | some _ => match w.oldSize with
    | some size => ({ w with file := (tmpnodeTrunc env.pageSize true w.file size).1 }, some .efault)
    | none => (w, some .efault)

/-- One pass of the loop of `wrtmp`. -/
def wrtmpPage (env : Wenv) (start limit : ℕ) (w : Wstate) : Wstate × Option Werror :=
  let bytes := min (env.pageSize - w.offset % env.pageSize) w.resid
  if limit ≤ w.offset + bytes ∧ limit ≤ w.offset then (w, some .efbig)
  else
    let bytes := if limit ≤ w.offset + bytes then limit - w.offset else bytes
    if roundup w.file.size env.pageSize < w.offset + bytes ∧ env.resv w.offset = false then
      (w, some .enospc)
    else copyPage env start w bytes

/-- The loop; every pass without an error moves a byte, so that `uio_resid` passes are
enough. -/
def wrtmpLoop (env : Wenv) (start limit : ℕ) : ℕ → Wstate → Wstate × Option Werror
  | 0, w => (w, none)
  | fuel + 1, w =>
    match wrtmpPage env start limit w with
    | (w, some e) => (w, some e)
    | (w, none) => if 0 < w.resid then wrtmpLoop env start limit fuel w else (w, none)

/-- `wrtmp`: the file, what is left of `uio_resid`, and the error. -/
def wrtmp (env : Wenv) (f : File) (offset resid limit : ℕ) : File × ℕ × Option Werror :=
  let limit := min limit maxOff
  if limit ≤ offset then (f, resid, some .efbig)
  else if maxOff ≤ offset then (f, resid, some .efbig)
  else if resid = 0 then (f, resid, none)
  else
    let r := wrtmpLoop env offset limit resid ⟨f, offset, resid, none⟩
    -- a write that stored something ends without an error
    (r.1.file, r.1.resid, if r.1.resid ≠ resid then none else r.2)

end Sol26.Tmpfs
