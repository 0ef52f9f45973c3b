import Sol26.Ufs.Overflow

/-!
# Quota charges of block allocation

`alloc` and `realloccg` charge the owner's quota by `chkdq` and then search the cylinder groups
for space.  The charge is not taken back when the search finds nothing.
-/

namespace Sol26.Ufs

inductive Errno
  | eio | enospc | edquot
deriving DecidableEq

/-- `struct dquot`: the usage and limits of one user, and the flag `DQ_BLKS`. -/
structure Dquot where
  curblocks : BitVec 32
  bhardlimit : BitVec 32
  bsoftlimit : BitVec 32
  btimelimit : ℕ
  blks : Bool

structure Cred where
  uid : ℕ
  ruid : ℕ

/-- What a call meets in its surroundings: the caller, `hrestime.tv_sec`, `MQ_ENABLED`, and
`vfs_btimelimit`. -/
structure Env where
  cr : Cred
  now : ℕ
  enabled : Bool
  vfsBtimelimit : ℕ

/-- The inode: its number, owner and `i_dquot`. -/
structure Inode where
  number : ℕ
  uid : ℕ
  dquot : Option Dquot

/-! ### `chkdq` -/

/-- The hard limit is reached. -/
def Dquot.overHard (dqp : Dquot) (ncurblocks : BitVec 32) (force : Bool) : Bool :=
  dqp.bhardlimit.ule ncurblocks && dqp.bhardlimit != 0 && !force

/-- The soft limit is reached, for the first time or not. -/
def Dquot.overSoft (dqp : Dquot) (ncurblocks : BitVec 32) : Bool :=
  dqp.bsoftlimit.ule ncurblocks && dqp.bsoftlimit != 0

def Dquot.newlyOver (dqp : Dquot) : Bool :=
  dqp.curblocks.ult dqp.bsoftlimit || dqp.btimelimit == 0

/-- The time over the soft limit has run out. -/
def Dquot.timeOut (dqp : Dquot) (ncurblocks : BitVec 32) (now : ℕ) (force : Bool) : Bool :=
  dqp.overSoft ncurblocks && !dqp.newlyOver && decide (dqp.btimelimit < now) && !force

/-- The user is told once. -/
def Dquot.tell (dqp : Dquot) (owner : Bool) : Dquot :=
  if !dqp.blks && owner then { dqp with blks := true } else dqp

/-- Check the limits for an allocation by another user than root. -/
def Dquot.limits (dqp : Dquot) (env : Env) (owner : Bool) (ncurblocks : BitVec 32)
    (force : Bool) : Dquot × Option Errno :=
  let (dqp, error) :=
    if dqp.overHard ncurblocks force then (dqp.tell owner, some Errno.edquot) else (dqp, none)
  if dqp.overSoft ncurblocks then
    if dqp.newlyOver then ({ dqp with btimelimit := env.now + env.vfsBtimelimit }, error)
    else if decide (dqp.btimelimit < env.now) && !force then (dqp.tell owner, some .edquot)
    else (dqp, error)
  else (dqp, error)

/-- `chkdq`: update disk usage, and take corrective action. -/
def chkdq (ip : Inode) (env : Env) (change : ℤ) (force : Bool) : Inode × Option Errno :=
  if change = 0 then (ip, none)
  else
    match ip.dquot with
    | none => (ip, none)
    | some dqp =>
      if !env.enabled then (ip, none)
      else if change < 0 then
        let curblocks :=
          if 0 ≤ dqp.curblocks.toInt + change then dqp.curblocks + BitVec.ofInt 32 change else 0
        let btimelimit := if curblocks.ult dqp.bsoftlimit then 0 else dqp.btimelimit
        ({ ip with
            dquot := some
              { dqp with curblocks := curblocks, btimelimit := btimelimit, blks := false } },
          none)
      else
        let ncurblocks := dqp.curblocks + BitVec.ofInt 32 change
        let (dqp, error) :=
          if env.cr.uid = 0 then (dqp, none)
          else dqp.limits env (ip.uid == env.cr.ruid) ncurblocks force
        match error with
        | none => ({ ip with dquot := some { dqp with curblocks := ncurblocks } }, none)
        | some e => ({ ip with dquot := some dqp }, some e)

/-- `btodb` of `sys/param.h`. -/
def btodb (bytes : ℕ) : ℕ := bytes >>> 9

/-! ### `alloc` and `realloccg` -/

/-- The rest of the superblock that these two read. -/
structure Super where
  fs : Fs
  size : ℕ
  ipg : ℕ
  minfree : ℕ
  dsize : ℕ

/-- `fs_optim`. -/
inductive Optim
  | space | time | other
deriving DecidableEq

/-- The parts of the state that the two change: the groups, `fs_optim` and the inode. -/
structure Mount where
  vfs : Ufsvfs
  optim : Optim
  ip : Inode

/-- `freespace(fs, fs_minfree)`. -/
def freespace (sb : Super) (vfs : Ufsvfs) : ℤ :=
  vfs.cstotal.nbfree * sb.fs.frag + vfs.cstotal.nffree - sb.dsize / 100 * sb.minfree

/-- `hashalloc` with `alloccg`, on a file system with or without a log. -/
def search (fs : Fs) (iscancel : ℕ → Bool) (vfs : Ufsvfs) (cg pref size : ℕ) : Ufsvfs × ℕ :=
  hashalloc fs (fun s cg pref => alloccg fs iscancel s cg pref size) vfs cg pref

/-- The preference, and the group in which `alloc` starts. -/
def prefOf (sb : Super) (bpref : ℕ) : ℕ := if sb.size ≤ bpref then 0 else bpref

def startOf (sb : Super) (ip : Inode) (bpref : ℕ) : ℕ :=
  if prefOf sb bpref = 0 then ip.number / sb.ipg else sb.fs.dtog (prefOf sb bpref)

def badSize (g : Geometry) (size : ℕ) : Bool :=
  decide (g.bsize < size) || decide (g.fragoff size ≠ 0)

/-- What `alloc` refuses before it charges. -/
def allocRefuses (sb : Super) (env : Env) (m : Mount) (size : ℕ) : Option Errno :=
  if badSize sb.fs.geom size then some .eio
  else if size = sb.fs.geom.bsize ∧ m.vfs.cstotal.nbfree = 0 then some .enospc
  else if env.cr.uid ≠ 0 ∧ freespace sb m.vfs ≤ 0 then some .enospc
  else none

/-- Allocate a block in the file system. -/
def alloc (sb : Super) (iscancel : ℕ → Bool) (env : Env) (m : Mount) (bpref size : ℕ) :
    Mount × Except Errno ℕ :=
  match allocRefuses sb env m size with
  | some e => (m, .error e)
  | none =>
    match chkdq m.ip env (btodb size) false with
    | (ip, some e) => ({ m with ip := ip }, .error e)
    | (ip, none) =>
      let (vfs, bno) :=
        search sb.fs iscancel m.vfs (startOf sb m.ip bpref) (prefOf sb bpref) size
      let m := { m with ip := ip, vfs := vfs }
      if bno ≠ 0 then (m, .ok bno) else (m, .error .enospc)

/-- What `realloccg` refuses before it charges. -/
def reallocRefuses (sb : Super) (env : Env) (m : Mount) (bprev osize nsize : ℕ) : Option Errno :=
  if badSize sb.fs.geom osize || badSize sb.fs.geom nsize then some .eio
  else if env.cr.uid ≠ 0 ∧ freespace sb m.vfs ≤ 0 then some .enospc
  else if bprev = 0 then some .eio
  else none

/-- The size that `realloccg` asks for, and the new `fs_optim`. -/
def requestOf (sb : Super) (m : Mount) (nsize : ℕ) : ℕ × Optim :=
  match m.optim with
  | .space =>
    if sb.minfree < 5 ∨ sb.dsize / (2 * 100) * sb.minfree < m.vfs.cstotal.nffree then
      (nsize, .space)
    else (nsize, .time)
  | _ =>
    if m.vfs.cstotal.nffree < sb.dsize / 100 * (sb.minfree + 2) then (sb.fs.geom.bsize, .time)
    else (sb.fs.geom.bsize, .space)

/-- Reallocate a fragment to a bigger size: `osize ≤ nsize`. -/
def realloccg (sb : Super) (iscancel : ℕ → Bool) (env : Env) (m : Mount)
    (bprev bpref osize nsize : ℕ) : Mount × Except Errno ℕ :=
  match reallocRefuses sb env m bprev osize nsize with
  | some e => (m, .error e)
  | none =>
    match chkdq m.ip env (btodb (nsize - osize)) false with
    | (ip, some e) => ({ m with ip := ip }, .error e)
    | (ip, none) =>
      let cg := sb.fs.dtog bprev
      let (vfs, bno) := fragextend sb.fs iscancel m.vfs cg bprev osize nsize
      let m := { m with ip := ip, vfs := vfs }
      if bno ≠ 0 then (m, .ok bno)
      else
        let (request, optim) := requestOf sb m nsize
        let (vfs, bno) := search sb.fs iscancel m.vfs cg (prefOf sb bpref) request
        let m := { m with optim := optim, vfs := vfs }
        if bno ≠ 0 then
          let vfs :=
            if nsize < request then
              free sb.fs m.vfs (bno + sb.fs.geom.numfrags nsize) (request - nsize)
            else m.vfs
          ({ m with vfs := vfs }, .ok bno)
        else (m, .error .enospc)

/-! ### The charge -/

/-- The usage that `chkdq` records for the owner, if a quota is in force. -/
def Inode.usage (ip : Inode) (env : Env) : Option (BitVec 32) :=
  if env.enabled then ip.dquot.map Dquot.curblocks else none

/-- A failed call leaves the usage, a successful one adds the charge. -/
def ChargeOk (env : Env) (charge : ℕ) (m : Mount) (r : Mount × Except Errno ℕ) : Prop :=
  r.1.ip.usage env = match r.2 with
    | .error _ => m.ip.usage env
    | .ok _ => (m.ip.usage env).map (· + BitVec.ofNat 32 charge)

/-- The quota is in force and admits the charge: the hard limit is not reached, and neither has
the time over the soft limit run out.  Root is not limited. -/
def Admits (ip : Inode) (env : Env) (charge : ℕ) : Prop :=
  env.enabled = true ∧ ∃ dqp, ip.dquot = some dqp ∧
    (env.cr.uid = 0 ∨
      (dqp.overHard (dqp.curblocks + BitVec.ofNat 32 charge) false = false ∧
        dqp.timeOut (dqp.curblocks + BitVec.ofNat 32 charge) env.now false = false))

theorem Dquot.tell_fields (dqp : Dquot) (owner : Bool) :
    (dqp.tell owner).curblocks = dqp.curblocks ∧ (dqp.tell owner).bsoftlimit = dqp.bsoftlimit ∧
      (dqp.tell owner).btimelimit = dqp.btimelimit := by
  rw [tell]
  split_ifs <;> simp

/-- Checking the limits does not change the usage, and fails when one is reached. -/
theorem Dquot.limits_spec (dqp : Dquot) (env : Env) (owner : Bool) (n : BitVec 32) :
    (dqp.limits env owner n false).1.curblocks = dqp.curblocks ∧
      ((dqp.limits env owner n false).2 = none ↔
        dqp.overHard n false = false ∧ dqp.timeOut n env.now false = false) := by
  obtain ⟨hcur, hsoft, htime⟩ := dqp.tell_fields owner
  have hover : (dqp.tell owner).overSoft n = dqp.overSoft n := by
    rw [overSoft, overSoft, hsoft]
  have hnew : (dqp.tell owner).newlyOver = dqp.newlyOver := by
    rw [newlyOver, newlyOver, hcur, hsoft, htime]
  have htell := (dqp.tell owner).tell_fields owner
  rw [limits, timeOut]
  by_cases hhard : dqp.overHard n false = true
  · simp only [hhard, if_true, hover, hnew]
    split_ifs <;> simp [hcur, htell.1]
  · rw [Bool.not_eq_true] at hhard
    simp only [hhard, Bool.false_eq_true, if_false, true_and]
    split_ifs with h1 h2 h3
    · simp [h1, h2]
    · have h3' : dqp.btimelimit < env.now := by simpa using h3
      simp [h1, h2, h3', hcur]
    · have h3' : ¬dqp.btimelimit < env.now := by simpa using h3
      simp [h1, h2, h3']
    · simp [h1]

/-- `chkdq` of a charge that is not zero. -/
theorem chkdq_spec (ip : Inode) (env : Env) {charge : ℕ} (hpos : 0 < charge) :
    (Admits ip env charge ∧ (chkdq ip env charge false).2 = none ∧
      (chkdq ip env charge false).1.usage env =
        (ip.usage env).map (· + BitVec.ofNat 32 charge)) ∨
    (¬Admits ip env charge ∧ (chkdq ip env charge false).1.usage env = ip.usage env ∧
      ((chkdq ip env charge false).2 = none → ip.usage env = none)) := by
  have hne : (charge : ℤ) ≠ 0 := by exact_mod_cast hpos.ne'
  have hnn : ¬(charge : ℤ) < 0 := by omega
  have hcast : BitVec.ofInt 32 (charge : ℤ) = BitVec.ofNat 32 charge :=
    BitVec.ofInt_natCast 32 charge
  rw [chkdq, if_neg hne]
  cases hdq : ip.dquot with
  | none =>
    right
    refine ⟨?_, rfl, fun _ => by simp [Inode.usage, hdq]⟩
    intro ⟨_, dqp, hsome, _⟩
    simp [hdq] at hsome
  | some dqp =>
    by_cases hen : env.enabled = true
    · simp only [hen, Bool.not_true, Bool.false_eq_true, if_false, if_neg hnn, hcast]
      have hlimits := dqp.limits_spec env (ip.uid == env.cr.ruid)
        (dqp.curblocks + BitVec.ofNat 32 charge)
      have hadm : Admits ip env charge ↔ (env.cr.uid = 0 ∨
          (dqp.limits env (ip.uid == env.cr.ruid) (dqp.curblocks + BitVec.ofNat 32 charge)
            false).2 = none) := by
        rw [hlimits.2, Admits, hdq]
        simp [hen]
      by_cases hroot : env.cr.uid = 0
      · left
        simp only [if_pos hroot]
        exact ⟨hadm.mpr (.inl hroot), trivial, by simp [Inode.usage, hen, hdq]⟩
      · simp only [if_neg hroot]
        cases herr : (dqp.limits env (ip.uid == env.cr.ruid)
            (dqp.curblocks + BitVec.ofNat 32 charge) false).2 with
        | none =>
          left
          exact ⟨hadm.mpr (.inr herr), rfl, by simp [Inode.usage, hen, hdq]⟩
        | some e =>
          right
          refine ⟨fun h => ?_, by simp [Inode.usage, hen, hdq, hlimits.1], fun h => by cases h⟩
          have hnone := (hadm.mp h).resolve_left hroot
          simp [herr] at hnone
    · right
      rw [Bool.not_eq_true] at hen
      simp only [hen, Bool.not_false, if_true]
      refine ⟨fun h => ?_, trivial, fun _ => by simp [Inode.usage, hen]⟩
      rw [Admits, hen] at h
      exact absurd h.1 (by decide)

/-- A call that charges and then looks for space: it leaks exactly the charge that is admitted
before nothing is found. -/
theorem chargeOk_iff (env : Env) (m : Mount) {charge : ℕ} (hlt : charge < 2 ^ 32)
    {r : Mount × Except Errno ℕ} (Found : Prop)
    (hip : r.1.ip = (chkdq m.ip env charge false).1)
    (hres : ((chkdq m.ip env charge false).2 ≠ none ∧ ∃ e, r.2 = .error e) ∨
      ((chkdq m.ip env charge false).2 = none ∧
        ((Found ∧ ∃ bno, r.2 = .ok bno) ∨ (¬Found ∧ ∃ e, r.2 = .error e)))) :
    ChargeOk env charge m r ↔ ¬(0 < charge ∧ Admits m.ip env charge ∧ ¬Found) := by
  rw [ChargeOk, hip]
  by_cases hpos : 0 < charge
  swap
  · have hzero : charge = 0 := by omega
    have hchk : chkdq m.ip env charge false = (m.ip, none) := by simp [chkdq, hzero]
    have hmap : (m.ip.usage env).map (· + BitVec.ofNat 32 charge) = m.ip.usage env := by
      simp [hzero]
    rw [hchk]
    refine iff_of_true ?_ fun h => hpos h.1
    cases r.2 with
    | error e => rfl
    | ok bno => exact hmap.symm
  cases chkdq_spec m.ip env hpos with
  | inl hin =>
    obtain ⟨hadm, hnone, huse⟩ := hin
    have hres' := (hres.resolve_left fun h => h.1 hnone).2
    rw [huse]
    cases hres' with
    | inl hfound =>
      obtain ⟨hf, bno, hok⟩ := hfound
      rw [hok]
      exact iff_of_true rfl fun h => h.2.2 hf
    | inr hlost =>
      obtain ⟨hf, e, herr⟩ := hlost
      rw [herr]
      refine iff_of_false (fun heq => ?_) (not_not.mpr ⟨hpos, hadm, hf⟩)
      -- the charge is not zero as a word, so the usage has grown
      obtain ⟨hen, dqp, hdq, -⟩ := hadm
      simp only [Inode.usage, hen, hdq, if_true, Option.map_some, Option.some.injEq] at heq
      have hnat := congrArg BitVec.toNat heq
      rw [BitVec.toNat_add, BitVec.toNat_ofNat, Nat.mod_eq_of_lt hlt] at hnat
      have hcur := dqp.curblocks.isLt
      omega
  | inr hout =>
    obtain ⟨hadm, huse, hquiet⟩ := hout
    rw [huse]
    refine iff_of_true ?_ fun h => hadm h.2.1
    cases hr : r.2 with
    | error e => rfl
    | ok bno =>
      have hnone : (chkdq m.ip env charge false).2 = none := by
        by_contra hsome
        obtain ⟨-, e, herr⟩ | ⟨hn, -⟩ := hres
        · simp [hr] at herr
        · exact hsome hn
      simp [hquiet hnone]

/-! ### When the charge leaks -/

/-- `alloc` comes to the search with a charge that the quota admits. -/
def AllocCharges (sb : Super) (env : Env) (m : Mount) (size : ℕ) : Prop :=
  allocRefuses sb env m size = none ∧ 0 < btodb size ∧ Admits m.ip env (btodb size)

def ReallocCharges (sb : Super) (env : Env) (m : Mount) (bprev osize nsize : ℕ) : Prop :=
  reallocRefuses sb env m bprev osize nsize = none ∧ 0 < btodb (nsize - osize) ∧
    Admits m.ip env (btodb (nsize - osize))

/-- The search of `alloc` finds nothing in this state. -/
def AllocFindsNone (sb : Super) (iscancel : ℕ → Bool) (m : Mount) (bpref size : ℕ) : Prop :=
  (search sb.fs iscancel m.vfs (startOf sb m.ip bpref) (prefOf sb bpref) size).2 = 0

/-- The fragment cannot be extended, and the search of `realloccg` finds nothing. -/
def ReallocFindsNone (sb : Super) (iscancel : ℕ → Bool) (m : Mount)
    (bprev bpref osize nsize : ℕ) : Prop :=
  (fragextend sb.fs iscancel m.vfs (sb.fs.dtog bprev) bprev osize nsize).2 = 0 ∧
    (search sb.fs iscancel m.vfs (sb.fs.dtog bprev) (prefOf sb bpref)
      (requestOf sb m nsize).1).2 = 0

variable {m : Mount} {sb : Super} {bprev size : ℕ} {iscancel : ℕ → Bool}

theorem btodb_lt {g : Geometry} (h : size ≤ g.bsize) : btodb size < 2 ^ 32 := by
  have hle : g.bsize ≤ 2 ^ 13 := Nat.pow_le_pow_right (by decide) g.le_maxbsize
  have hshift : btodb size ≤ size := Nat.shiftRight_le _ _
  omega

theorem not_badSize {g : Geometry} (h : badSize g size = false) :
    size ≤ g.bsize ∧ g.fragoff size = 0 := by
  simpa [badSize] using h

/-- `alloc` charges as it should unless the search finds nothing after an admitted charge. -/
theorem alloc_chargeOk_iff (sb : Super) (iscancel : ℕ → Bool) (env : Env) (m : Mount)
    (bpref size : ℕ) :
    ChargeOk env (btodb size) m (alloc sb iscancel env m bpref size) ↔
      ¬(AllocCharges sb env m size ∧ AllocFindsNone sb iscancel m bpref size) := by
  rw [alloc, AllocCharges]
  cases href : allocRefuses sb env m size with
  | some e =>
    refine iff_of_true rfl fun h => ?_
    cases h.1.1
  | none =>
    have hsize : badSize sb.fs.geom size = false := by
      by_contra hbad
      rw [Bool.not_eq_false] at hbad
      simp [allocRefuses, hbad] at href
    have hlt := btodb_lt (not_badSize hsize).1
    have hiff := chargeOk_iff env m hlt (r := alloc sb iscancel env m bpref size)
      (¬AllocFindsNone sb iscancel m bpref size) ?_ ?_
    · rw [alloc, href] at hiff
      simp only [true_and, not_not, and_assoc] at hiff ⊢
      exact hiff
    · rw [alloc, href]
      rcases hchk : chkdq m.ip env (btodb size) false with ⟨ip, _ | e⟩
      · dsimp only
        split_ifs <;> rfl
      · rfl
    · rw [alloc, href]
      rcases hchk : chkdq m.ip env (btodb size) false with ⟨ip, _ | e⟩
      · right
        refine ⟨rfl, ?_⟩
        dsimp only
        by_cases hzero : AllocFindsNone sb iscancel m bpref size
        · right
          rw [AllocFindsNone] at hzero
          exact ⟨not_not.mpr hzero, _, by rw [if_neg (not_not.mpr hzero)]⟩
        · left
          rw [AllocFindsNone] at hzero
          exact ⟨hzero, _, by rw [if_pos hzero]⟩
      · left
        exact ⟨by simp, e, rfl⟩

theorem fragextend_none (fs : Fs) (iscancel : ℕ → Bool) (s : Ufsvfs) {cg : ℕ} (hprev : bprev ≠ 0)
    (osize nsize : ℕ) (hzero : (fragextend fs iscancel s cg bprev osize nsize).2 = 0) :
    fragextend fs iscancel s cg bprev osize nsize = (s, 0) := by
  rw [fragextend] at hzero ⊢
  dsimp only at hzero ⊢
  split_ifs at hzero ⊢
  all_goals first | rfl | exact absurd hzero hprev

/-- `realloccg` charges as it should unless nothing is found after an admitted charge. -/
theorem realloccg_chargeOk_iff (sb : Super) (iscancel : ℕ → Bool) (env : Env) (m : Mount)
    (bprev bpref osize nsize : ℕ) :
    ChargeOk env (btodb (nsize - osize)) m (realloccg sb iscancel env m bprev bpref osize nsize) ↔
      ¬(ReallocCharges sb env m bprev osize nsize ∧
        ReallocFindsNone sb iscancel m bprev bpref osize nsize) := by
  rw [realloccg, ReallocCharges]
  cases href : reallocRefuses sb env m bprev osize nsize with
  | some e =>
    refine iff_of_true rfl fun h => ?_
    cases h.1.1
  | none =>
    have hsize : badSize sb.fs.geom nsize = false := by
      by_contra hbad
      rw [Bool.not_eq_false] at hbad
      simp [reallocRefuses, hbad] at href
    have hprev : bprev ≠ 0 := by
      intro hzero
      rw [reallocRefuses, if_pos hzero] at href
      split_ifs at href
    have hlt : btodb (nsize - osize) < 2 ^ 32 :=
      btodb_lt ((Nat.sub_le _ _).trans (not_badSize hsize).1)
    have hiff := chargeOk_iff env m hlt
      (r := realloccg sb iscancel env m bprev bpref osize nsize)
      (¬ReallocFindsNone sb iscancel m bprev bpref osize nsize) ?_ ?_
    · rw [realloccg, href] at hiff
      simp only [true_and, not_not, and_assoc] at hiff ⊢
      exact hiff
    · rw [realloccg, href]
      rcases hchk : chkdq m.ip env (btodb (nsize - osize)) false with ⟨ip, _ | e⟩
      · dsimp only
        split_ifs <;> rfl
      · rfl
    · rw [realloccg, href]
      rcases hchk : chkdq m.ip env (btodb (nsize - osize)) false with ⟨ip, _ | e⟩
      · right
        refine ⟨rfl, ?_⟩
        dsimp only
        by_cases hext : (fragextend sb.fs iscancel m.vfs (sb.fs.dtog bprev) bprev osize nsize).2 = 0
        · rw [if_neg (not_not.mpr hext),
            fragextend_none sb.fs iscancel m.vfs hprev osize nsize hext]
          by_cases hzero : (search sb.fs iscancel m.vfs (sb.fs.dtog bprev) (prefOf sb bpref)
              (requestOf sb m nsize).1).2 = 0
          · right
            refine ⟨not_not.mpr ⟨hext, hzero⟩, .enospc, ?_⟩
            have hmiss : ¬(search sb.fs iscancel m.vfs (sb.fs.dtog bprev) (prefOf sb bpref)
              (requestOf sb m nsize).1).2 ≠ 0 := not_not.mpr hzero
            exact congrArg Prod.snd (if_neg hmiss)
          · left
            refine ⟨fun h => hzero h.2, _, congrArg Prod.snd (if_pos hzero)⟩
        · left
          exact ⟨fun h => hext h.1, _, congrArg Prod.snd (if_pos hext)⟩
      · left
        exact ⟨by simp, e, rfl⟩

/-! ### When nothing is found -/

/-- What the allocator relies on: a consistent file system without a log, whose rotational tables, if
it has some, lead to free blocks, and the fragments and inodes of which lie in its groups. -/
structure Super.Sound (sb : Super) (iscancel : ℕ → Bool) (m : Mount) : Prop where
  layout : sb.fs.Layout
  rotates : ∀ c < sb.fs.ncg, (m.vfs.cg c).Rotates sb.fs
  no_log : iscancel = nolog
  consistent : m.vfs.Consistent sb.fs
  size_le : sb.size ≤ sb.fs.ncg * sb.fs.fpg
  number_lt : m.ip.number < sb.fs.ncg * sb.ipg

/-- The fragments behind the old ones are free, in the same block. -/
def CanExtend (fs : Fs) (s : Ufsvfs) (bprev osize nsize : ℕ) : Prop :=
  (fs.geom.numfrags (nsize - osize) : ℤ) ≤ (s.cs (fs.dtog bprev)).nffree ∧
    fs.geom.fragnum bprev ≤ fs.geom.fragnum (bprev + fs.geom.numfrags nsize - 1) ∧
    (s.cg (fs.dtog bprev)).valid = true ∧
    ∀ i, fs.geom.numfrags osize ≤ i → i < fs.geom.numfrags nsize →
      isset (s.blksfree (fs.dtog bprev)) (fs.dtogd bprev + i) = true

theorem fragextend_eq_zero_iff (fs : Fs) (s : Ufsvfs) (hprev : bprev ≠ 0) (osize nsize : ℕ) :
    (fragextend fs nolog s (fs.dtog bprev) bprev osize nsize).2 = 0 ↔
      ¬CanExtend fs s bprev osize nsize := by
  rw [fragextend, CanExtend]
  dsimp only
  split_ifs with h1 h2 h3 h4 h5
  · exact iff_of_true rfl fun h => absurd h.1 (not_le.mpr h1)
  · exact iff_of_true rfl fun h => absurd h.2.1 (not_le.mpr h2)
  · refine iff_of_true rfl fun h => ?_
    rw [h.2.2.1] at h3
    exact absurd h3 (by decide)
  · exact absurd h4 Bool.false_ne_true
  · refine iff_of_true rfl fun h => ?_
    rw [List.any_eq_true] at h5
    obtain ⟨i, hi, hbit⟩ := h5
    rw [List.mem_range] at hi
    simp only [Bool.and_eq_true, decide_eq_true_eq, Bool.not_eq_true'] at hbit
    rw [h.2.2.2 i hbit.1 hi] at hbit
    exact absurd hbit.2 (by decide)
  all_goals
    refine iff_of_false hprev (not_not.mpr ⟨not_lt.mp h1, not_lt.mp h2, by simpa using h3, ?_⟩)
    intro i hlo hhi
    by_contra hclear
    refine h5 (List.any_eq_true.mpr ⟨i, List.mem_range.mpr hhi, ?_⟩)
    simpa [hlo] using hclear

theorem Super.Sound.startOf_lt
    (h : sb.Sound iscancel m) (bpref : ℕ) : startOf sb m.ip bpref < sb.fs.ncg := by
  rw [startOf]
  split_ifs with hzero
  · exact Nat.div_lt_of_lt_mul (by rw [Nat.mul_comm]; exact h.number_lt)
  · have hlt : prefOf sb bpref < sb.size := by
      rw [prefOf] at hzero ⊢
      split_ifs at hzero ⊢ with hge
      · exact absurd rfl hzero
      · exact not_le.mp hge
    have hin := hlt.trans_le h.size_le
    rw [Nat.mul_comm] at hin
    exact Nat.div_lt_of_lt_mul hin

theorem alloccg_valid {fs : Fs} {s : Ufsvfs} {c bpref : ℕ}
    (hne : (alloccg fs iscancel s c bpref size).2 ≠ 0) : (s.cg c).valid = true := by
  by_contra hvalid
  rw [Bool.not_eq_true] at hvalid
  refine hne ?_
  rw [alloccg, hvalid]
  by_cases hnone : (s.cs c).nbfree = 0 ∧ size = fs.geom.bsize
  · rw [if_pos hnone]
  · rw [if_neg hnone, if_pos (.inl Bool.not_false)]

/-- The search finds nothing if and only if no group that can be read has a run. -/
theorem Super.Sound.search_eq_zero_iff (h : sb.Sound iscancel m) {cg : ℕ} (hcg : cg < sb.fs.ncg)
    (pref : ℕ) (hsize : sb.fs.LegalSize size) :
    (search sb.fs iscancel m.vfs cg pref size).2 = 0 ↔
      ∀ c < sb.fs.ncg, ¬m.vfs.GroupHas sb.fs (sb.fs.geom.numfrags size) c := by
  have hans : ∀ pref, Answers sb.fs.ncg (fun s c => alloccg sb.fs nolog s c pref size) m.vfs
      (fun _ => ∃ c < sb.fs.ncg, m.vfs.GroupHas sb.fs (sb.fs.geom.numfrags size) c)
      (m.vfs.GroupHas sb.fs (sb.fs.geom.numfrags size)) := by
    intro pref c hc
    have hout := alloccg_outcome h.layout (h.rotates c hc) (h.consistent.groups c hc)
      (h.consistent.cs_eq c hc) h.consistent.unlocked pref hsize
    obtain ⟨heq, hno⟩ | ⟨b, -, hne, htaken⟩ :=
      hout.taken h.layout (h.consistent.groups c hc) hsize.numfrags_pos
    · exact .inl ⟨heq, fun hhas => hno hhas.1 hhas.2⟩
    · exact .inr ⟨hne, c, hc, alloccg_valid hne, htaken.hasRun⟩
  rw [h.no_log, search]
  cases hashalloc_spec hans hcg pref with
  | inr hnone => exact iff_of_true (by rw [hnone.1]) hnone.2
  | inl hfound =>
    obtain ⟨hne, c, hc, hhas⟩ := hfound
    exact iff_of_false hne fun hno => hno c hc hhas

theorem Super.Sound.allocFindsNone_iff
    (h : sb.Sound iscancel m) (bpref : ℕ) (hsize : sb.fs.LegalSize size) :
    AllocFindsNone sb iscancel m bpref size ↔
      ∀ c < sb.fs.ncg, ¬m.vfs.GroupHas sb.fs (sb.fs.geom.numfrags size) c :=
  h.search_eq_zero_iff (h.startOf_lt bpref) _ hsize

theorem legalSize_bsize (fs : Fs) : fs.LegalSize fs.geom.bsize where
  pos := Nat.two_pow_pos _
  le_bsize := le_rfl
  whole := by
    rw [Geometry.fragoff, fs.geom.bsize_eq_frag_mul]
    exact Nat.mul_mod_left _ _

theorem legalSize_requestOf (m : Mount) {nsize : ℕ} (h : sb.fs.LegalSize nsize) :
    sb.fs.LegalSize (requestOf sb m nsize).1 := by
  rw [requestOf]
  split
  · split_ifs <;> exact h
  · split_ifs <;> exact legalSize_bsize sb.fs

theorem Super.Sound.reallocFindsNone_iff (h : sb.Sound iscancel m) (hprev : bprev ≠ 0)
    (hlt : bprev < sb.size) (bpref osize : ℕ) {nsize : ℕ} (hsize : sb.fs.LegalSize nsize) :
    ReallocFindsNone sb iscancel m bprev bpref osize nsize ↔
      ¬CanExtend sb.fs m.vfs bprev osize nsize ∧
        ∀ c < sb.fs.ncg,
          ¬m.vfs.GroupHas sb.fs (sb.fs.geom.numfrags (requestOf sb m nsize).1) c := by
  have hcg : sb.fs.dtog bprev < sb.fs.ncg := by
    have hin := hlt.trans_le h.size_le
    rw [Nat.mul_comm] at hin
    exact Nat.div_lt_of_lt_mul hin
  rw [ReallocFindsNone, h.search_eq_zero_iff hcg _ (legalSize_requestOf m hsize), h.no_log,
    fragextend_eq_zero_iff sb.fs m.vfs hprev]

/-- The usage of the owner is right after `alloc` and `realloccg`, unless a charge was admitted
and then nothing found.  In a sound state nothing is found if and only if no group has a run of
the fragments that are asked for, and the old fragment cannot be extended. -/
theorem quota_charged_iff (sb : Super) (iscancel : ℕ → Bool) (env : Env) (m : Mount) :
    (∀ bpref size, ChargeOk env (btodb size) m (alloc sb iscancel env m bpref size) ↔
        ¬(AllocCharges sb env m size ∧ AllocFindsNone sb iscancel m bpref size)) ∧
    (∀ bprev bpref osize nsize, osize ≤ nsize →
      (ChargeOk env (btodb (nsize - osize)) m
          (realloccg sb iscancel env m bprev bpref osize nsize) ↔
        ¬(ReallocCharges sb env m bprev osize nsize ∧
          ReallocFindsNone sb iscancel m bprev bpref osize nsize))) ∧
    (sb.Sound iscancel m →
      (∀ bpref size, sb.fs.LegalSize size →
        (ChargeOk env (btodb size) m (alloc sb iscancel env m bpref size) ↔
          ¬(AllocCharges sb env m size ∧
            ∀ c < sb.fs.ncg, ¬m.vfs.GroupHas sb.fs (sb.fs.geom.numfrags size) c))) ∧
      (∀ bprev bpref osize nsize, osize ≤ nsize → bprev ≠ 0 → bprev < sb.size →
        sb.fs.LegalSize nsize →
        (ChargeOk env (btodb (nsize - osize)) m
            (realloccg sb iscancel env m bprev bpref osize nsize) ↔
          ¬(ReallocCharges sb env m bprev osize nsize ∧
            ¬CanExtend sb.fs m.vfs bprev osize nsize ∧
            ∀ c < sb.fs.ncg,
              ¬m.vfs.GroupHas sb.fs (sb.fs.geom.numfrags (requestOf sb m nsize).1) c)))) := by
  refine ⟨alloc_chargeOk_iff sb iscancel env m, fun bprev bpref osize nsize _ =>
      realloccg_chargeOk_iff sb iscancel env m bprev bpref osize nsize,
    fun hsound => ⟨fun bpref size hsize => ?_, fun bprev bpref osize nsize _ hprev hlt hsize => ?_⟩⟩
  · rw [alloc_chargeOk_iff, hsound.allocFindsNone_iff bpref hsize]
  · rw [realloccg_chargeOk_iff, hsound.reallocFindsNone_iff hprev hlt bpref osize hsize]

/-- The file system of one block, and a user who has used 10 sectors and has no limits. -/
def smallSuper : Super where
  fs := smallFs
  size := 8
  ipg := 64
  minfree := 10
  dsize := 8

def smallEnv : Env where
  cr := { uid := 100, ruid := 100 }
  now := 0
  enabled := true
  vfsBtimelimit := 0

def smallMount : Mount where
  vfs := smallUfsvfs
  optim := .time
  ip := { number := 4, uid := 100,
          dquot := some { curblocks := 10, bhardlimit := 0, bsoftlimit := 0, btimelimit := 0,
                          blks := false } }

theorem smallMount_sound : smallSuper.Sound nolog smallMount where
  layout := ⟨by decide, by decide, by decide⟩
  rotates _ _ := .inl rfl
  no_log := rfl
  consistent := smallUfsvfs_consistent
  size_le := by decide
  number_lt := by decide

/-- The one free fragment can be had, and the last of the used ones before it be extended. -/
theorem quota_charged_smallMount :
    ChargeOk smallEnv 2 smallMount (alloc smallSuper nolog smallEnv smallMount 0 1024) ∧
      ChargeOk smallEnv 2 smallMount
        (realloccg smallSuper nolog smallEnv smallMount 1 0 1024 2048) := by
  have hspec := quota_charged_iff smallSuper nolog smallEnv smallMount
  constructor
  · refine ((hspec.2.2 smallMount_sound).1 0 1024 ⟨by decide, by decide, by decide⟩).mpr ?_
    intro h
    exact h.2 0 (by decide) ⟨rfl, 0, 2, by decide, by decide⟩
  · refine ((hspec.2.2 smallMount_sound).2 1 0 1024 2048 (by decide) (by decide)
      (by decide) ⟨by decide, by decide, by decide⟩).mpr ?_
    intro h
    refine h.2.1 ⟨by decide, by decide, rfl, fun i hlo hhi => ?_⟩
    have hi : i = 1 := by
      have hold : smallSuper.fs.geom.numfrags 1024 = 1 := by decide
      have hnew : smallSuper.fs.geom.numfrags 2048 = 2 := by decide
      omega
    subst hi
    decide

/-- Two fragments are not to be had: the call fails, and the usage has grown by four sectors. -/
theorem alloc_smallMount_charged :
    (alloc smallSuper nolog smallEnv smallMount 0 2048).2 = .error .enospc ∧
      smallMount.ip.usage smallEnv = some 10 ∧
      (alloc smallSuper nolog smallEnv smallMount 0 2048).1.ip.usage smallEnv = some 14 ∧
      ¬ChargeOk smallEnv (btodb 2048) smallMount
        (alloc smallSuper nolog smallEnv smallMount 0 2048) := by
  have herr : (alloc smallSuper nolog smallEnv smallMount 0 2048).2 = .error .enospc := by rfl
  have husage :
      (alloc smallSuper nolog smallEnv smallMount 0 2048).1.ip.usage smallEnv = some 14 := by rfl
  refine ⟨herr, rfl, husage, ?_⟩
  rw [ChargeOk, herr, husage]
  decide

end Sol26.Ufs
