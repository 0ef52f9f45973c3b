import Sol26.Ufs.Frags

/-!
# Cylinder groups

The allocation and release of blocks and fragments in `ufs_alloc.c`: `free`, `fragextend`,
`alloccg`, `alloccgblk`, `mapsearch` and `hashalloc`, on the free maps and the summaries of the
cylinder groups.  Addresses are in fragments.
-/

namespace Sol26.Ufs

open Function (update update_of_ne update_self)

/-- The superblock, as far as the allocator reads it.  `postbl` and `rotbl` are the tables of
the rotational layout. -/
structure Fs where
  geom : Geometry
  fpg : ℕ
  ncg : ℕ
  spc : ℕ
  nspf : ℕ
  cpc : ℕ
  nsect : ℕ
  nrpos : ℕ
  postbl : ℕ → ℕ → ℤ
  rotbl : ℕ → ℕ

/-- `struct csum` without the inode counts. -/
@[ext]
structure Csum where
  nbfree : ℤ
  nffree : ℤ
deriving DecidableEq

/-- A cylinder group.  It is `valid` when its block can be read and has its magic number. -/
structure Cg where
  valid : Bool
  cgx : ℕ
  cs : Csum
  rotor : ℕ
  frotor : ℕ
  frsum : ℕ → ℤ
  blktot : ℕ → ℤ
  blks : ℕ → ℕ → ℤ
  blksfree : Bytes

/-- A mounted file system: its groups, `fs_cs`, `fs_cstotal`, and whether `vfs_lock` is held. -/
structure Ufsvfs where
  cg : ℕ → Cg
  cs : ℕ → Csum
  cstotal : Csum
  locked : Bool

namespace Fs

variable (fs : Fs)

abbrev frag : ℕ := fs.geom.frag

def dtog (d : ℕ) : ℕ := d / fs.fpg

def dtogd (d : ℕ) : ℕ := d % fs.fpg

/-- The cylinder of a block, and its rotational position. -/
def cbtocylno (bno : ℕ) : ℕ := bno * fs.nspf / fs.spc

def cbtorpos (bno : ℕ) : ℕ :=
  bno * fs.nspf % fs.spc % fs.nsect % fs.nsect * fs.nrpos / fs.nsect

end Fs

namespace Csum

def addNbfree (cs : Csum) (n : ℤ) : Csum := { cs with nbfree := cs.nbfree + n }

def addNffree (cs : Csum) (n : ℤ) : Csum := { cs with nffree := cs.nffree + n }

end Csum

namespace Ufsvfs

variable (s : Ufsvfs)

def modifyCg (cg : ℕ) (f : Cg → Cg) : Ufsvfs :=
  { s with cg := update s.cg cg (f (s.cg cg)) }

/-- The same change of `cg_cs`, `fs_cs(cg)` and `fs_cstotal`. -/
def addCs (cg : ℕ) (f : Csum → Csum) : Ufsvfs :=
  { s with
    cg := update s.cg cg { s.cg cg with cs := f (s.cg cg).cs }
    cs := update s.cs cg (f (s.cs cg))
    cstotal := f s.cstotal }

/-- `mutex_enter` and `mutex_exit` of `vfs_lock`; `ufs_notclean` ends with the second. -/
def lock : Ufsvfs := { s with locked := true }

def unlock : Ufsvfs := { s with locked := false }

def blksfree (cg : ℕ) : Bytes := (s.cg cg).blksfree

@[simp] theorem cg_modifyCg (cg : ℕ) (f : Cg → Cg) : (s.modifyCg cg f).cg cg = f (s.cg cg) :=
  update_self ..

theorem cg_modifyCg_of_ne {cg cg' : ℕ} (h : cg' ≠ cg) (f : Cg → Cg) :
    (s.modifyCg cg f).cg cg' = s.cg cg' :=
  update_of_ne h ..

end Ufsvfs

namespace Cg

variable (cgp : Cg)

/-- `blks[rpos] += n` and `blktot[cylno] += n` for the block at `bno`. -/
def addBlk (fs : Fs) (bno : ℕ) (n : ℤ) : Cg :=
  let cylno := fs.cbtocylno bno
  let rpos := fs.cbtorpos bno
  { cgp with
    blks := update cgp.blks cylno
      (update (cgp.blks cylno) rpos (cgp.blks cylno rpos + n))
    blktot := update cgp.blktot cylno (cgp.blktot cylno + n) }

/-- `cg_frsum[k] += n`. -/
def addFrsum (k : ℕ) (n : ℤ) : Cg :=
  { cgp with frsum := update cgp.frsum k (cgp.frsum k + n) }

end Cg

/-! ### `free` -/

/-- "Deallocate the fragment": the map, and whether every fragment was allocated. -/
def freeLoop : ℕ → ℕ → Bytes → Bytes × Bool
  | 0, _, blksfree => (blksfree, true)
  | n + 1, bno, blksfree =>
    if isset blksfree bno then (blksfree, false) else freeLoop n (bno + 1) (setbit blksfree bno)

def freeBlock (fs : Fs) (s : Ufsvfs) (cg bno : ℕ) : Ufsvfs :=
  let blkno := fs.geom.fragstoblks bno
  if !fs.geom.isclrblock (s.blksfree cg) blkno then s.unlock
  else
    let s := s.modifyCg cg fun cgp =>
      { cgp.addBlk fs bno 1 with blksfree := fs.geom.setblock cgp.blksfree blkno }
    (s.addCs cg (·.addNbfree 1)).unlock

def freeFrags (fs : Fs) (s : Ufsvfs) (cg bno n : ℕ) : Ufsvfs :=
  let bbase := bno - fs.geom.fragnum bno
  let s := s.modifyCg cg fun cgp =>
    { cgp with frsum := fragacct fs.frag (fs.geom.blkmap cgp.blksfree bbase) cgp.frsum (-1) }
  match freeLoop n bno (s.blksfree cg) with
  | (blksfree, false) => s.modifyCg cg fun cgp => { cgp with blksfree := blksfree }
  | (blksfree, true) =>
    let s := s.modifyCg cg fun cgp =>
      { cgp with
        blksfree := blksfree
        frsum := fragacct fs.frag (fs.geom.blkmap blksfree bbase) cgp.frsum 1 }
    let s := s.addCs cg (·.addNffree n)
    -- if a complete block has been reassembled, account for it
    let s :=
      if fs.geom.isblock (s.blksfree cg) (fs.geom.fragstoblks bbase) then
        (s.modifyCg cg fun cgp => cgp.addBlk fs bbase 1).addCs cg fun cs =>
          (cs.addNffree (-fs.frag)).addNbfree 1
      else s
    s.unlock

/-- Free a block or fragment. -/
def free (fs : Fs) (s : Ufsvfs) (bno size : ℕ) : Ufsvfs :=
  if fs.geom.bsize < size ∨ fs.geom.fragoff size ≠ 0 then s
  else
    let cg := fs.dtog bno
    if !(s.cg cg).valid then s
    else if size = fs.geom.bsize then freeBlock fs s.lock cg (fs.dtogd bno)
    else freeFrags fs s.lock cg (fs.dtogd bno) (fs.geom.numfrags size)

/-! ### `fragextend` -/

/-- The first fragment from `i` on, below `last`, that is not free. -/
def extentLoop (blksfree : Bytes) (bno last : ℕ) : ℕ → ℕ → ℕ
  | 0, i => i
  | fuel + 1, i =>
    if i < last then
      if isset blksfree (bno + i) then extentLoop blksfree bno last fuel (i + 1) else i
    else i

def clrbits : ℕ → ℕ → Bytes → Bytes
  | 0, _, blksfree => blksfree
  | n + 1, bno, blksfree => clrbits n (bno + 1) (clrbit blksfree bno)

def setbits : ℕ → ℕ → Bytes → Bytes
  | 0, _, blksfree => blksfree
  | n + 1, bno, blksfree => setbits n (bno + 1) (setbit blksfree bno)

/-- Determine whether a fragment can be extended.  `iscancel` is `TRANS_ISCANCEL` of the block at
an address. -/
def fragextend (fs : Fs) (iscancel : ℕ → Bool) (s : Ufsvfs) (cg bprev osize nsize : ℕ) :
    Ufsvfs × ℕ :=
  if (s.cs cg).nffree < fs.geom.numfrags (nsize - osize) then (s, 0)
  else
    let frags := fs.geom.numfrags nsize
    let ofrags := fs.geom.numfrags osize
    let bbase := fs.geom.fragnum bprev
    if fs.geom.fragnum (bprev + frags - 1) < bbase then (s, 0)
    else if !(s.cg cg).valid then (s, 0)
    else if iscancel (fs.geom.blknum bprev) then (s, 0)
    else
      let blksfree := s.blksfree cg
      let bno := fs.dtogd bprev
      if (List.range frags).any fun i => ofrags ≤ i && !isset blksfree (bno + i) then (s, 0)
      else
        let i := extentLoop blksfree bno (fs.frag - bbase) fs.frag frags
        let s := s.modifyCg cg fun cgp => cgp.addFrsum (i - ofrags) (-1)
        let s :=
          if i ≠ frags then s.modifyCg cg fun cgp => cgp.addFrsum (i - frags) 1 else s
        let s := s.modifyCg cg fun cgp =>
          { cgp with blksfree := clrbits (frags - ofrags) (bno + ofrags) cgp.blksfree }
        ((s.addCs cg (·.addNffree (-(frags - ofrags : ℕ)))).unlock, bprev)

/-! ### `mapsearch` -/

/-- `scanc`: the number of bytes that are left when one has a bit of `mask` in the table. -/
def scanc (table : ℕ → ℕ) (mask : ℕ) (cp : Bytes) : ℕ → ℕ → ℕ
  | 0, _ => 0
  | size + 1, first =>
    if table (cp first).toNat &&& mask = 0 then scanc table mask cp size (first + 1)
    else size + 1

/-- The inner loop of the sift: the first place of the pattern in a block. -/
def siftPos (blk : ℕ) : ℕ → ℕ → ℕ → ℕ → Option ℕ
  | 0, _, _, _ => none
  | n + 1, pos, field, subfield =>
    if blk &&& field = subfield then some pos
    else siftPos blk n (pos + 1) (field <<< 1) (subfield <<< 1)

/-- "Found the byte in the map, sift through the bits to find the selected frag." -/
def sift (g : Geometry) (blksfree : Bytes) (allocsiz : ℕ) : ℕ → ℕ → ℕ
  | 0, bno => bno + (g.frag - allocsiz + 1)
  | n + 1, bno =>
    match siftPos (g.blkmap blksfree bno <<< 1) (g.frag - allocsiz + 1) 0 (around allocsiz)
        (inside allocsiz) with
    | some pos => bno + pos
    | none => sift g blksfree allocsiz n (bno + g.frag)

/-- The two scans of `mapsearch`.  The results are `cg_frotor` and the fragment found. -/
def mapLoop (fs : Fs) (iscancel : ℕ → Bool) (blksfree : Bytes) (cfrag start allocsiz : ℕ) :
    ℕ → ℕ → ℕ → Bool → ℕ → ℕ × Option ℕ
  | 0, _, _, _, frotor => (frotor, none)
  | fuel + 1, first, last, secondtime, frotor =>
    if first < last then
      let loc := scanc (fragtbl fs.frag) (1 <<< (allocsiz - 1 + fs.frag % 8)) blksfree
        (last - first) first
      if loc ≠ 0 then
        let byte := last - loc
        let bno := sift fs.geom blksfree allocsiz (8 / fs.frag) (byte * 8)
        if !iscancel (cfrag + bno) then (byte * 8, some bno)
        else if byte + 1 < last then
          mapLoop fs iscancel blksfree cfrag start allocsiz fuel (byte + 1) last secondtime
            (byte * 8)
        else if secondtime then (byte * 8, none)
        else mapLoop fs iscancel blksfree cfrag start allocsiz fuel 0 (start + 1) true (byte * 8)
      else if secondtime then (frotor, none)
      else mapLoop fs iscancel blksfree cfrag start allocsiz fuel 0 (start + 1) true frotor
    else (frotor, none)

/-- Find a block of the specified size in the specified cylinder group. -/
def mapsearch (fs : Fs) (iscancel : ℕ → Bool) (cgp : Cg) (bpref allocsiz : ℕ) : Cg × Option ℕ :=
  let start := if bpref ≠ 0 then fs.dtogd bpref / 8 else cgp.frotor / 8
  let last := howmany fs.fpg 8
  let (frotor, bno) := mapLoop fs iscancel cgp.blksfree (cgp.cgx * fs.fpg) start allocsiz
    (last + start + 3) start last false cgp.frotor
  ({ cgp with frotor := frotor }, bno)

/-! ### `alloccg` -/

/-- The walk through `fs_rotbl` to a free block. -/
def rotLoop (fs : Fs) (blksfree : Bytes) (bno : ℕ) : ℕ → ℕ → Option ℕ
  | 0, _ => none
  | fuel + 1, i =>
    if fs.geom.isblock blksfree (bno + i) then some (fs.geom.blkstofrags (bno + i))
    else
      let delta := fs.rotbl i
      if delta = 0 ∨ fs.geom.fragstoblks fs.fpg < delta + i then none
      else rotLoop fs blksfree bno fuel (i + delta)

/-- Where `alloccgblk` takes a block: at `bno`, by `mapsearch` from `bpref`, or nowhere. -/
inductive Place
  | gotit (bno bpref : ℕ)
  | norot (bpref : ℕ)
  | fault

/-- The first part of `alloccgblk`. -/
def placeBlk (fs : Fs) (cgp : Cg) (bpref : ℕ) : Place :=
  if bpref = 0 then .norot cgp.rotor
  else
    let bpref := fs.dtogd (fs.geom.blknum bpref)
    if fs.geom.isblock cgp.blksfree (fs.geom.fragstoblks bpref) then .gotit bpref bpref
    else
      let cylno := fs.cbtocylno bpref
      if cgp.blktot cylno = 0 then .norot bpref
      else if fs.cpc = 0 then .norot (howmany (fs.spc * cylno) fs.nspf)
      else
        let cylbp := cgp.blks cylno
        let pos := fs.cbtorpos bpref
        let turn := (List.range' pos (fs.nrpos - pos) ++ List.range pos).find? fun i => 0 < cylbp i
        match turn with
        | none => .norot bpref
        | some i =>
          let pos := cylno % fs.cpc
          let bno := (cylno - pos) * fs.spc / (fs.nspf <<< fs.geom.fragshift)
          if fs.postbl pos i = -1 then .fault
          else
            match rotLoop fs cgp.blksfree bno (fs.geom.fragstoblks fs.fpg + 1)
                (fs.postbl pos i).toNat with
            | some bno => .gotit bno bpref
            | none => .fault

/-- `gotit:` the block at `bno` is taken. -/
def takeBlk (fs : Fs) (s : Ufsvfs) (cg bno : ℕ) : Ufsvfs × ℕ :=
  let s := s.modifyCg cg fun cgp =>
    { cgp.addBlk fs bno (-1) with
      blksfree := fs.geom.clrblock cgp.blksfree (fs.geom.fragstoblks bno) }
  (s.addCs cg (·.addNbfree (-1)), (s.cg cg).cgx * fs.fpg + bno)

/-- `norot:` the block is searched for.  `mapsearch` has asked `TRANS_ISCANCEL` of what it
returns. -/
def searchBlk (fs : Fs) (iscancel : ℕ → Bool) (s : Ufsvfs) (cg bpref : ℕ) : Ufsvfs × ℕ :=
  match mapsearch fs iscancel (s.cg cg) bpref fs.frag with
  | (cgp, none) => (s.modifyCg cg fun _ => cgp, 0)
  | (cgp, some bno) => takeBlk fs (s.modifyCg cg fun _ => { cgp with rotor := bno }) cg bno

/-- Allocate a block in a cylinder group. -/
def alloccgblk (fs : Fs) (iscancel : ℕ → Bool) (s : Ufsvfs) (cg bpref : ℕ) : Ufsvfs × ℕ :=
  match placeBlk fs (s.cg cg) bpref with
  | .fault => (s, 0)
  | .norot bpref => searchBlk fs iscancel s cg bpref
  | .gotit bno bpref =>
    if iscancel ((s.cg cg).cgx * fs.fpg + bno) then searchBlk fs iscancel s cg bpref
    else takeBlk fs s cg bno

/-- The smallest size from `allocsiz` on of which `cg_frsum` has runs, or `fs_frag`. -/
def allocsizLoop (frag : ℕ) (frsum : ℕ → ℤ) : ℕ → ℕ → ℕ
  | 0, allocsiz => allocsiz
  | fuel + 1, allocsiz =>
    if allocsiz < frag then
      if frsum allocsiz ≠ 0 then allocsiz else allocsizLoop frag frsum fuel (allocsiz + 1)
    else allocsiz

/-- "No fragments were available, so a block will be allocated and hacked up." -/
def splitBlk (fs : Fs) (iscancel : ℕ → Bool) (s : Ufsvfs) (cg bpref frags : ℕ) : Ufsvfs × ℕ :=
  if (s.cg cg).cs.nbfree = 0 then (s.unlock, 0)
  else
    let (s, bno) := alloccgblk fs iscancel s cg bpref
    if bno = 0 then (s.unlock, 0)
    else
      let i := fs.frag - frags
      let s := s.modifyCg cg fun cgp =>
        { cgp.addFrsum i 1 with blksfree := setbits i (fs.dtogd bno + frags) cgp.blksfree }
      ((s.addCs cg (·.addNffree i)).unlock, bno)

/-- The run of `allocsiz` fragments at `bno` gives its first `frags`. -/
def takeFrags (fs : Fs) (s : Ufsvfs) (cg bno frags allocsiz : ℕ) : Ufsvfs × ℕ :=
  let s := s.modifyCg cg fun cgp =>
    { cgp.addFrsum allocsiz (-1) with blksfree := clrbits frags bno cgp.blksfree }
  let s :=
    if frags ≠ allocsiz then s.modifyCg cg fun cgp => cgp.addFrsum (allocsiz - frags) 1 else s
  ((s.addCs cg (·.addNffree (-frags))).unlock, cg * fs.fpg + bno)

/-- Determine whether a block can be allocated; 0 when it cannot. -/
def alloccg (fs : Fs) (iscancel : ℕ → Bool) (s : Ufsvfs) (cg bpref size : ℕ) : Ufsvfs × ℕ :=
  if (s.cs cg).nbfree = 0 ∧ size = fs.geom.bsize then (s, 0)
  else if !(s.cg cg).valid ∨ ((s.cg cg).cs.nbfree = 0 ∧ size = fs.geom.bsize) then (s, 0)
  else
    let s := s.lock
    if size = fs.geom.bsize then
      let (s, bno) := alloccgblk fs iscancel s cg bpref
      (s.unlock, bno)
    else
      let frags := fs.geom.numfrags size
      let allocsiz := allocsizLoop fs.frag (s.cg cg).frsum fs.frag frags
      if allocsiz = fs.frag then splitBlk fs iscancel s cg bpref frags
      else
        match mapsearch fs iscancel (s.cg cg) bpref allocsiz with
        | (cgp, none) => splitBlk fs iscancel (s.modifyCg cg fun _ => cgp) cg bpref frags
        | (cgp, some bno) => takeFrags fs (s.modifyCg cg fun _ => cgp) cg bno frags allocsiz

/-! ### `hashalloc` -/

/-- "quadratic rehash" -/
def rehashLoop (ncg : ℕ) (allocator : Ufsvfs → ℕ → Ufsvfs × ℕ) :
    ℕ → ℕ → ℕ → Ufsvfs → Ufsvfs × ℕ
  | 0, _, _, s => (s, 0)
  | fuel + 1, i, cg, s =>
    if i < ncg then
      let cg := if ncg ≤ cg + i then cg + i - ncg else cg + i
      let (s, result) := allocator s cg
      if result ≠ 0 then (s, result) else rehashLoop ncg allocator fuel (i * 2) cg s
    else (s, 0)

/-- "brute force search" -/
def bruteLoop (ncg : ℕ) (allocator : Ufsvfs → ℕ → Ufsvfs × ℕ) : ℕ → ℕ → Ufsvfs → Ufsvfs × ℕ
  | 0, _, s => (s, 0)
  | n + 1, cg, s =>
    let (s, result) := allocator s cg
    if result ≠ 0 then (s, result)
    else bruteLoop ncg allocator n (if cg + 1 = ncg then 0 else cg + 1) s

/-- Implement the cylinder overflow algorithm. -/
def hashalloc (fs : Fs) (allocator : Ufsvfs → ℕ → ℕ → Ufsvfs × ℕ) (s : Ufsvfs) (cg pref : ℕ) :
    Ufsvfs × ℕ :=
  let icg := cg
  let (s, result) := allocator s cg pref
  if result ≠ 0 then (s, result)
  else
    let (s, result) := rehashLoop fs.ncg (fun s cg => allocator s cg 0) fs.ncg 1 cg s
    if result ≠ 0 then (s, result)
    else bruteLoop fs.ncg (fun s cg => allocator s cg 0) (fs.ncg - 2) ((icg + 2) % fs.ncg) s

end Sol26.Ufs
