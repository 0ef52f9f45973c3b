import Mathlib.Data.Int.Notation
import Mathlib.Data.Nat.Notation
import Mathlib.Logic.Function.Basic

/-!
# System V semaphores

One attempt of `semop` at its operations, from the label `check` to the end of the call or to
sleep, with `semaoe` for the adjust-on-exit entries of the process and `semundo`, which takes
back what was done. An attempt holds the lock of the set, so it is one step. What it wakes on
the condition variables of the semaphores is kept in the order in which it happens.
-/
namespace Sol26.Sem

open Function (update)

inductive Errno
  | e2big | efbig | eacces | erange | enospc | einval | eagain | eintr
deriving DecidableEq

/-- The limits that the module is configured with. -/
structure Seminfo where
  semopm : ℕ
  semume : ℕ
  semvmx : ℤ
  semaem : ℤ

/-- The limits as the source sets them. -/
def seminfo : Seminfo := ⟨10, 10, 32767, 16384⟩

structure Sembuf where
  num : ℕ
  op : ℤ
  undo : Bool
  nowait : Bool
deriving DecidableEq

structure Sema where
  semval : ℤ
  semncnt : ℕ
  semzcnt : ℕ
deriving DecidableEq

/-- An adjust-on-exit entry. -/
structure UndoEnt where
  id : ℤ
  num : ℕ
  aoe : ℤ
deriving DecidableEq

/-- The two condition variables of a semaphore: for a larger value, and for zero. -/
inductive Kind
  | ncnt | zcnt
deriving DecidableEq

structure Cv where
  num : ℕ
  kind : Kind
deriving DecidableEq

inductive Wake
  | signal (cv : Cv)
  | broadcast (cv : Cv)
deriving DecidableEq

/-- The semaphores of the set, `sem_binary`, the undo structure of the process if it has one,
and the wake-ups so far. -/
structure State where
  sem : ℕ → Sema
  binary : Bool
  undo : Option (List UndoEnt)
  wakes : List Wake

def short (x : ℤ) : ℤ := (x + 32768) % 65536 - 32768

def ushort (x : ℤ) : ℤ := x % 65536

/-! ### Adjust-on-exit entries -/

/-- The entries are sorted by set and semaphore. The entry of this semaphore is looked up and
adjusted, removed when it becomes zero, or inserted at its place if there is `room`. -/
def adjust (info : Seminfo) (room : Bool) (val id : ℤ) (num : ℕ) :
    List UndoEnt → Except Errno (List UndoEnt)
  | [] => if room then .ok [⟨id, num, short (-val)⟩] else .error .einval
  | e :: rest =>
    if e.id < id ∨ (e.id = id ∧ e.num < num) then
      (adjust info room val id num rest).map (e :: ·)
    else if e.id = id ∧ e.num = num then
      let aoe := short (e.aoe - val)
      if info.semaem < aoe ∨ aoe < -info.semaem then .error .erange
      else if aoe = 0 then .ok rest
      else .ok (⟨id, num, aoe⟩ :: rest)
    else if room then .ok (⟨id, num, short (-val)⟩ :: e :: rest)
    else .error .einval

/-- `semaoe`; `free` tells whether there is an undo structure for a process without one. -/
def semaoe (info : Seminfo) (free : Bool) (val id : ℤ) (num : ℕ) (up : Option (List UndoEnt)) :
    Option (List UndoEnt) × Option Errno :=
  if val = 0 then (up, none)
  else if info.semaem < val ∨ val < -info.semaem then (up, some .erange)
  else match up.or (if free then some [] else none) with
    | none => (none, some .enospc)
    | some ents =>
      match adjust info (ents.length < info.semume) val id num ents with
      | .ok ents' => (some ents', none)
      | .error e => (some ents, some e)

/-! ### Single operations -/

/-- The call of `semaoe` for an operation with `SEM_UNDO`. -/
def State.adjust (info : Seminfo) (free : Bool) (id : ℤ) (op : Sembuf) (val : ℤ) (s : State) :
    State × Option Errno :=
  if op.undo then
    let r := semaoe info free val id op.num s.undo
    ({ s with undo := r.1 }, r.2)
  else (s, none)

def State.setSem (s : State) (n : ℕ) (semp : Sema) : State :=
  { s with sem := update s.sem n semp }

def State.addVal (s : State) (n : ℕ) (x : ℤ) : State :=
  s.setSem n { s.sem n with semval := ushort ((s.sem n).semval + x) }

def State.wake (s : State) (w : Wake) : State := { s with wakes := s.wakes ++ [w] }

/-- The waiters for a larger value are woken, one of them or all. -/
def State.wakeNcnt (s : State) (n : ℕ) (signal : Bool) : State :=
  if (s.sem n).semncnt = 0 then s
  else if signal then
    (s.setSem n { s.sem n with semncnt := (s.sem n).semncnt - 1 }).wake (.signal ⟨n, .ncnt⟩)
  else (s.setSem n { s.sem n with semncnt := 0 }).wake (.broadcast ⟨n, .ncnt⟩)

/-- The waiters for zero are woken if the value is zero. -/
def State.wakeZcnt (s : State) (n : ℕ) (signal : Bool) : State :=
  if (s.sem n).semzcnt = 0 ∨ (s.sem n).semval ≠ 0 then s
  else if signal then
    (s.setSem n { s.sem n with semzcnt := (s.sem n).semzcnt - 1 }).wake (.signal ⟨n, .zcnt⟩)
  else (s.setSem n { s.sem n with semzcnt := 0 }).wake (.broadcast ⟨n, .zcnt⟩)

/-- `semundo`; the operations that were done come last one first. -/
def semundo (info : Seminfo) (free : Bool) (id : ℤ) : List Sembuf → State → State
  | [], s => s
  | op :: done, s =>
    if op.op = 0 then semundo info free id done s
    else
      let s := s.addVal op.num (-op.op)
      semundo info free id done (s.adjust info free id op (short (-op.op))).1

inductive Outcome
  | done
  | fail (error : Errno)
  | sleep (cv : Cv)
deriving DecidableEq

/-- The process goes to sleep for a larger value; a wait for more than one makes the set a set
that is not binary. -/
def State.sleepNcnt (s : State) (op : Sembuf) : State :=
  let semp := s.sem op.num
  let s := s.setSem op.num { semp with semncnt := semp.semncnt + 1 }
  if op.op < -1 then { s with binary := false } else s

def State.sleepZcnt (s : State) (op : Sembuf) : State :=
  let semp := s.sem op.num
  s.setSem op.num { semp with semzcnt := semp.semzcnt + 1 }

/-! ### The attempt -/

/-- The loop over the operations; `binaryType` is what was found at its start. -/
def semopLoop (info : Seminfo) (free : Bool) (id : ℤ) (binaryType : Bool) :
    List Sembuf → List Sembuf → State → Outcome × State
  | _, [], s => (.done, s)
  | done, op :: ops, s =>
    if 0 < op.op then
      if info.semvmx < op.op + (s.sem op.num).semval then
        (.fail .erange, semundo info free id done s)
      else match s.adjust info free id op op.op with
        | (s, some e) => (.fail e, semundo info free id done s)
        | (s, none) =>
          let signal := op.op = 1 ∧ binaryType
          let s := ((s.addVal op.num op.op).wakeNcnt op.num signal).wakeZcnt op.num signal
          semopLoop info free id binaryType (op :: done) ops s
    else if op.op < 0 then
      if -op.op ≤ (s.sem op.num).semval then
        match s.adjust info free id op op.op with
        | (s, some e) => (.fail e, semundo info free id done s)
        | (s, none) =>
          let s := (s.addVal op.num op.op).wakeZcnt op.num false
          semopLoop info free id binaryType (op :: done) ops s
      else
        let s := semundo info free id done s
        if op.nowait then (.fail .eagain, s)
        else (.sleep ⟨op.num, .ncnt⟩, s.sleepNcnt op)
    else if (s.sem op.num).semval ≠ 0 then
      let s := semundo info free id done s
      if op.nowait then (.fail .eagain, s)
      else (.sleep ⟨op.num, .zcnt⟩, s.sleepZcnt op)
    else semopLoop info free id binaryType (op :: done) ops s

/-- An attempt of a call, with no wake-ups so far. -/
def attempt (info : Seminfo) (free : Bool) (id : ℤ) (nsems : ℕ) (ops : List Sembuf) (s : State) :
    Outcome × State :=
  semopLoop info free id (s.binary && nsems = 1) [] ops { s with wakes := [] }

/-- `semop` up to its first attempt; `access` is the answer of `ipcaccess` for altering or for
reading. -/
def semop (info : Seminfo) (free : Bool) (id : ℤ) (nsems : ℕ) (access : Bool → Option Errno)
    (ops : List Sembuf) (s : State) : Outcome × State :=
  if info.semopm < ops.length then (.fail .e2big, s)
  else if ops.length = 0 then (.done, s)
  else match ops.findSome? fun op =>
      (access (op.op ≠ 0)).or (if nsems ≤ op.num then some .efbig else none) with
    | some e => (.fail e, s)
    | none => attempt info free id nsems ops s

end Sol26.Sem
