import Mathlib.Tactic

/-!
# The descriptor table of a process

The open file table `u_flist` of `os/fio.c` and `syscall/dup.c` as the threads of a process use
it. A call runs under `u_flock` from one sleep to the next, so a step of the model is what a
call does between two sleeps. What threads hold in the middle of their calls is kept in bags:
descriptors got by `getf`, descriptors reserved by `ufalloc`, and references to files.
-/
namespace Sol26.Fd

/-- `struct uf_entry`, with the bits of `uf_pofile` that the table code tests. -/
structure Entry where
  ofile : Option ℕ := none
  /-- a `short`, and compared as one -/
  refcnt : BitVec 16 := 0#16
  /-- `FRESERVED` -/
  reserved : Bool := false
  /-- `FCLOSING` -/
  closing : Bool := false
  /-- `FRESERVED2` -/
  reserved2 : Bool := false
  deriving DecidableEq, Repr

/-- `uf_refcnt > 0` -/
def Entry.inUse (e : Entry) : Bool := (0#16).slt e.refcnt

/-- The condition variables of the process. -/
inductive Cv where
  | flock
  | flock2
  deriving DecidableEq, Repr

/-- What a sleeping thread will go on with. -/
inductive Wait where
  /-- `getandset` waits for the last `releasef` -/
  | close (fd fp : ℕ)
  /-- `dupdest` waits for the last `releasef` of the open descriptor that it takes over -/
  | dupOpen (dest fp fp2 : ℕ)
  /-- `dupdest` waits for the end of a close -/
  | dupClosing (dest fp : ℕ)
  deriving DecidableEq, Repr

/-- A thread in `cv_wait`. -/
structure Sleeper where
  wait : Wait
  woken : Bool := false
  deriving DecidableEq, Repr

structure State where
  /-- `u_flist`, of length `u_nofiles` -/
  flist : List Entry
  /-- the limit `RLIMIT_NOFILE` -/
  limit : ℕ
  /-- `f_count` of each file -/
  fcount : ℕ → ℕ
  sleepers : Multiset Sleeper := 0
  /-- descriptors got and not yet released -/
  gots : Multiset ℕ := 0
  /-- descriptors that `ufalloc` returned and that are not yet set -/
  reservations : Multiset ℕ := 0
  /-- references to files in the hands of threads -/
  refs : Multiset ℕ := 0

def Wait.on : Wait → Cv
  | .close _ _ => .flock
  | .dupOpen _ _ _ => .flock
  | .dupClosing _ _ => .flock2

def Sleeper.asleepOn (t : Sleeper) (cv : Cv) : Prop := t.wait.on = cv ∧ t.woken = false

/-- The thread that a `cv_signal` wakes, if there is one to wake. -/
def Signals (sleepers : Multiset Sleeper) (cv : Cv) : Option Sleeper → Prop
  | none => ∀ t ∈ sleepers, ¬ t.asleepOn cv
  | some t => t ∈ sleepers ∧ t.asleepOn cv

/-- `cv_signal` -/
def wake (sleepers : Multiset Sleeper) : Option Sleeper → Multiset Sleeper
  | none => sleepers
  | some t => ⟨t.wait, true⟩ ::ₘ sleepers.erase t

def State.update (s : State) (fd : ℕ) (f : Entry → Entry) : State :=
  { s with flist := s.flist.modify fd f }

def nfpchunk : ℕ := 24

/-- `flist_realloc`: `none` when the copy of the old array overruns the new one. -/
def State.flistRealloc (s : State) (nfd : ℕ) : Option State :=
  let nofiles := s.flist.length
  let newcnt :=
    if nofiles + nfpchunk > s.limit then s.limit
    else if nfd ≥ nofiles + nfpchunk then nfd + 1
    else nofiles + nfpchunk
  if newcnt < nofiles then none
  else some { s with flist := s.flist ++ List.replicate (newcnt - nofiles) {} }

/-- How the search of `ufalloc` ends. -/
inductive Found where
  | overlimit
  | slot (fd : ℕ)
  | tableEnd (fd : ℕ)
  deriving DecidableEq, Repr

/-- The loop of `ufalloc` over the entries from `i` on. -/
def search (filelimit : ℕ) : ℕ → List Entry → Found
  | i, [] => .tableEnd i
  | i, ufp :: rest =>
    if i ≥ filelimit then .overlimit
    else if ufp.ofile = none ∧ ufp.reserved = false ∧ ufp.reserved2 = false then .slot i
    else search filelimit (i + 1) rest

/-- `uf_pofile = FRESERVED` -/
def Entry.reserve (e : Entry) : Entry :=
  { e with reserved := true, closing := false, reserved2 := false }

/-- `ufalloc`: the descriptor, or `none` for `EMFILE`. -/
def State.ufalloc (s : State) (start : ℕ) : Option (State × Option ℕ) :=
  let found :=
    if start < s.flist.length then search s.limit start (s.flist.drop start)
    else .tableEnd start
  match found with
  | .overlimit => some (s, none)
  | .slot i => some (s.update i Entry.reserve, some i)
  | .tableEnd i =>
    if i ≥ s.limit then some (s, none)
    else do
      let s' ← s.flistRealloc i
      let _ ← s'.flist[i]?
      some (s'.update i Entry.reserve, some i)

/-- `setf`, for a thread that has reserved the descriptor: with the reference that it holds, or
with `NULLFP` when its open has failed. -/
def State.setf (s : State) (fd : ℕ) (fp : Option ℕ) : Option State := do
  let _ ← s.flist[fd]?
  some { s.update fd fun ufp => { ufp with ofile := fp, reserved := false } with
    reservations := s.reservations.erase fd
    refs := fp.elim s.refs s.refs.erase }

/-- `getf` -/
def State.getf (s : State) (fd : ℕ) : State :=
  match s.flist[fd]? with
  | none => s
  | some pufe =>
    if pufe.ofile = none then s
    else { s.update fd fun pufe => { pufe with refcnt := pufe.refcnt + 1 } with
      gots := fd ::ₘ s.gots }

/-- `releasef` -/
def State.releasef (s : State) (fd : ℕ) (who : Option Sleeper) : Option State := do
  let pufe ← s.flist[fd]?
  some { s.update fd fun pufe => { pufe with refcnt := pufe.refcnt - 1 } with
    gots := s.gots.erase fd
    sleepers :=
      if pufe.closing ∧ pufe.refcnt - 1 = 0 then wake s.sleepers who else s.sleepers }

/-- The loop of `getandset` and what follows it, for an entry that has been reset. -/
def State.closeLoop (s : State) (fd fp : ℕ) (who : Option Sleeper) : Option State := do
  let pufe ← s.flist[fd]?
  if pufe.inUse then
    some { s.update fd fun pufe => { pufe with closing := true } with
      sleepers := ⟨.close fd fp, false⟩ ::ₘ s.sleepers }
  else
    some { s.update fd fun pufe => { pufe with reserved := false, closing := false } with
      refs := fp ::ₘ s.refs
      sleepers := if pufe.reserved2 then wake s.sleepers who else s.sleepers }

/-- `getandset`. The file that it returns is a reference in the hands of the caller. -/
def State.getandset (s : State) (fd : ℕ) (who : Option Sleeper) : Option State :=
  match s.flist[fd]? with
  | none => some s
  | some pufe =>
    match pufe.ofile with
    | none => some s
    | some fp =>
      (s.update fd fun pufe => { pufe with ofile := none, reserved := true }).closeLoop fd fp who

/-- The end of `dupdest`: the file goes into the slot. -/
def State.install (s : State) (dest fp : ℕ) : Option State := do
  let _ ← s.flist[dest]?
  some (s.update dest fun ufp =>
    { ufp with ofile := some fp, reserved := false, closing := false, reserved2 := false })

/-- The loop of `dupdest` on a descriptor that it has taken over from the file `fp2`, and what
follows it. -/
def State.dupLoop (s : State) (dest fp fp2 : ℕ) : Option State := do
  let ufp ← s.flist[dest]?
  if ufp.inUse then
    some { s with sleepers := ⟨.dupOpen dest fp fp2, false⟩ ::ₘ s.sleepers }
  else
    let s' ← s.install dest fp
    some { s' with refs := fp2 ::ₘ s'.refs }

/-- `dupdest` from where it has its locks; the reference that it took before goes into the
slot. -/
def State.dupdest (s : State) (dest fp : ℕ) : Option State :=
  let s := { s with refs := s.refs.erase fp }
  match s.flist[dest]? with
  | none => do (← s.flistRealloc dest).install dest fp
  | some ufp =>
    match ufp.ofile with
    | some fp2 =>
      (s.update dest fun ufp =>
        { ufp with ofile := none, reserved := true, closing := true, reserved2 := true }).dupLoop
          dest fp fp2
    | none =>
      let s := s.update dest fun ufp => { ufp with reserved2 := true }
      if ufp.closing then
        some { s with sleepers := ⟨.dupClosing dest fp, false⟩ ::ₘ s.sleepers }
      else s.install dest fp

/-- A thread that was woken goes on. -/
def State.run (s : State) (t : Sleeper) (who : Option Sleeper) : Option State :=
  let s := { s with sleepers := s.sleepers.erase t }
  match t.wait with
  | .close fd fp => s.closeLoop fd fp who
  | .dupOpen dest fp fp2 => s.dupLoop dest fp fp2
  | .dupClosing dest fp => s.install dest fp

/-- What the threads do. -/
inductive Event where
  | ufalloc (start : ℕ)
  | setf (fd : ℕ) (fp : Option ℕ)
  | getf (fd : ℕ)
  | releasef (fd : ℕ) (who : Option Sleeper)
  | getandset (fd : ℕ) (who : Option Sleeper)
  /-- `f_count++`, by `dupfdes` and `dupdest` for the slot that they will fill, and by `falloc`
  for a new file -/
  | hold (fp : ℕ)
  | closef (fp : ℕ)
  | dupdest (dest fp : ℕ)
  | run (t : Sleeper) (who : Option Sleeper)
  deriving DecidableEq

/-- The effect of an event, or `none` for an access outside the table. -/
def State.exec (s : State) : Event → Option State
  | .ufalloc start => do
    let (s', fd) ← s.ufalloc start
    match fd with
    | some fd => some { s' with reservations := fd ::ₘ s'.reservations }
    | none => some s'
  | .setf fd fp => s.setf fd fp
  | .getf fd => some (s.getf fd)
  | .releasef fd who => s.releasef fd who
  | .getandset fd who => s.getandset fd who
  | .hold fp => some
    { s with fcount := Function.update s.fcount fp (s.fcount fp + 1), refs := fp ::ₘ s.refs }
  | .closef fp => some
    { s with fcount := Function.update s.fcount fp (s.fcount fp - 1), refs := s.refs.erase fp }
  | .dupdest dest fp => s.dupdest dest fp
  | .run t who => s.run t who

/-- The descriptor that a sleeping `dupdest` works on. `u_flock2` is held all the while. -/
def Wait.dups : Wait → Option ℕ
  | .close _ _ => none
  | .dupOpen dest _ _ => some dest
  | .dupClosing dest _ => some dest

/-- When an event can happen: threads use what they hold, `dupdest` needs `u_flock2` and is
called with a descriptor below the limit, and a signal wakes a thread if one sleeps. -/
def Event.Allowed (s : State) : Event → Prop
  | .ufalloc _ => True
  | .setf fd fp => fd ∈ s.reservations ∧ ∀ x ∈ fp, x ∈ s.refs
  | .getf _ => True
  | .releasef fd who => fd ∈ s.gots ∧ Signals s.sleepers .flock who
  | .getandset _ who => Signals s.sleepers .flock2 who
  | .hold _ => True
  | .closef fp => fp ∈ s.refs
  | .dupdest dest fp => fp ∈ s.refs ∧ dest < s.limit ∧ ∀ t ∈ s.sleepers, t.wait.dups = none
  | .run t who => t ∈ s.sleepers ∧ t.woken = true ∧ Signals s.sleepers .flock2 who

/-- A table without a call in progress. -/
structure Initial (s : State) : Prop where
  idle : ∀ e ∈ s.flist, e.refcnt = 0 ∧ e.reserved = false ∧ e.closing = false ∧ e.reserved2 = false
  fcount : ∀ fp, s.fcount fp = s.flist.countP (fun e => e.ofile = some fp)
  sleepers : s.sleepers = 0
  gots : s.gots = 0
  reservations : s.reservations = 0
  refs : s.refs = 0

/-- The states that allowed events lead to when each of them meets a condition. -/
inductive Reachable (ok : State → Event → Prop) : State → Prop
  | init {s : State} (h : Initial s) : Reachable ok s
  | step {s s' : State} (h : Reachable ok s) (e : Event) (ha : e.Allowed s) (hok : ok s e)
      (he : s.exec e = some s') : Reachable ok s'

theorem Reachable.mono {ok ok' : State → Event → Prop} {s : State} (h : Reachable ok s)
    (hok : ∀ s e, ok s e → ok' s e) : Reachable ok' s := by
  induction h with
  | init h => exact .init h
  | step _ e ha hoke he ih => exact .step ih e ha (hok _ e hoke) he

end Sol26.Fd
