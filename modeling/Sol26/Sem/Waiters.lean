import Sol26.Sem.Atomic

/-!
# Processes in `semop`

The processes that sleep on the condition variables of one set of semaphores. An event is an
attempt of a process at its operations, the return of a sleeper that got a signal, or one entry
of `semexit`: what happens between taking and dropping the lock of the set. A signal on a
condition variable wakes any one of its sleepers, and a woken process makes its next attempt in
an event of its own.
-/
namespace Sol26.Sem

open Function (update)

/-- A process in `semop`, with the operations of its call. -/
structure Sleeper where
  proc : ℕ
  ops : List Sembuf
deriving DecidableEq

/-- The sleepers on every condition variable, and the processes that were woken and have not
run since. -/
structure Queues where
  queue : Cv → List Sleeper
  woken : List (Cv × Sleeper)

/-- Which of the sleepers on a condition variable a signal wakes. -/
abbrev Pick := Cv → List Sleeper → ℕ

/-- `cv_signal` and `cv_broadcast`. -/
def Queues.wake (pick : Pick) (q : Queues) : Wake → Queues
  | .signal cv =>
    let i := pick cv (q.queue cv) % (q.queue cv).length
    match (q.queue cv)[i]? with
    | none => q
    | some w => ⟨update q.queue cv ((q.queue cv).eraseIdx i), (cv, w) :: q.woken⟩
  | .broadcast cv => ⟨update q.queue cv [], (q.queue cv).map (cv, ·) ++ q.woken⟩

def Queues.wakeAll (pick : Pick) (wakes : List Wake) (q : Queues) : Queues :=
  wakes.foldl (Queues.wake pick) q

def Queues.sleep (q : Queues) (cv : Cv) (w : Sleeper) : Queues :=
  { q with queue := update q.queue cv (q.queue cv ++ [w]) }

/-- The queues after an attempt: first what it woke, then the process itself if it sleeps. -/
def Queues.settle (pick : Pick) (w : Sleeper) (r : Outcome × State) (q : Queues) : Queues :=
  match r.1 with
  | .sleep cv => (q.wakeAll pick r.2.wakes).sleep cv w
  | _ => q.wakeAll pick r.2.wakes

/-- A set of semaphores and the processes that use it. -/
structure System where
  sem : ℕ → Sema
  binary : Bool
  undo : ℕ → Option (List UndoEnt)
  queues : Queues

/-- What an attempt of a process works on. -/
def System.state (s : System) (proc : ℕ) : State := ⟨s.sem, s.binary, s.undo proc, []⟩

/-- The end of an attempt. -/
def System.settle (pick : Pick) (w : Sleeper) (r : Outcome × State) (s : System) : System :=
  ⟨r.2.sem, r.2.binary, update s.undo w.proc r.2.undo, s.queues.settle pick w r⟩

def Sema.count (semp : Sema) : Kind → ℕ
  | .ncnt => semp.semncnt
  | .zcnt => semp.semzcnt

def Sema.setCount (semp : Sema) (x : ℕ) : Kind → Sema
  | .ncnt => { semp with semncnt := x }
  | .zcnt => { semp with semzcnt := x }

/-- The return of `semop` with `EINTR`, when `cv_wait_sig` has returned zero. -/
def System.eintr (pick : Pick) (cv : Cv) (s : System) : System :=
  let semp := s.sem cv.num
  if semp.count cv.kind ≤ 1 then
    { s with sem := update s.sem cv.num (semp.setCount 0 cv.kind),
             queues := s.queues.wake pick (.broadcast cv) }
  else { s with sem := update s.sem cv.num (semp.setCount (semp.count cv.kind - 1) cv.kind) }

/-- One entry of `semexit`, with the value `v` that is within its range. -/
def System.exitTo (pick : Pick) (e : UndoEnt) (v : ℤ) (s : System) : System :=
  let semp := s.sem e.num
  let zero := v = 0 ∧ semp.semzcnt ≠ 0
  let larger := 0 < e.aoe ∧ semp.semncnt ≠ 0
  let semp := ⟨v, if larger then 0 else semp.semncnt, if zero then 0 else semp.semzcnt⟩
  let wakes := (if zero then [.broadcast ⟨e.num, .zcnt⟩] else []) ++
    if larger then [.broadcast ⟨e.num, .ncnt⟩] else []
  { s with sem := update s.sem e.num semp, queues := s.queues.wakeAll pick wakes }

/-- The last entry of the process; the entries of other sets are none of ours. -/
def System.exitEntry (info : Seminfo) (id : ℤ) (pick : Pick) (e : UndoEnt) (s : System) : System :=
  let v := (s.sem e.num).semval + e.aoe
  if e.id ≠ id ∨ v < 0 ∨ info.semvmx < v then s else s.exitTo pick e v

inductive Event
  /-- A process calls `semop`. -/
  | call (w : Sleeper) (access : Bool → Option Errno)
  /-- A process that was woken makes its next attempt. -/
  | resume (i : ℕ)
  /-- A sleeper gets a signal. -/
  | interrupt (cv : Cv) (i : ℕ)
  /-- A process that was woken gets a signal before it runs. -/
  | interruptWoken (i : ℕ)
  /-- A process that exits gives back its last entry. -/
  | exitEntry (proc : ℕ)
  /-- A process that has exited has no undo structure. -/
  | exitDone (proc : ℕ)

/-- One event; `free` tells whether there is a free undo structure. -/
def System.exec (info : Seminfo) (id : ℤ) (nsems : ℕ) (free : Bool) (pick : Pick) (s : System) :
    Event → Option System
  | .call w access =>
    some (s.settle pick w (semop info free id nsems access w.ops (s.state w.proc)))
  | .resume i => do
    let (_, w) ← s.queues.woken[i]?
    let s := { s with queues := { s.queues with woken := s.queues.woken.eraseIdx i } }
    some (s.settle pick w (attempt info free id nsems w.ops (s.state w.proc)))
  | .interrupt cv i => do
    let _ ← (s.queues.queue cv)[i]?
    let queue := update s.queues.queue cv ((s.queues.queue cv).eraseIdx i)
    some (System.eintr pick cv { s with queues := { s.queues with queue := queue } })
  | .interruptWoken i => do
    let (cv, _) ← s.queues.woken[i]?
    let s := { s with queues := { s.queues with woken := s.queues.woken.eraseIdx i } }
    some (s.eintr pick cv)
  | .exitEntry proc => do
    let ents ← s.undo proc
    let e ← ents.getLast?
    some { s.exitEntry info id pick e with undo := update s.undo proc (some ents.dropLast) }
  | .exitDone proc => some { s with undo := update s.undo proc none }

/-- A set without processes; `semget` makes it binary. -/
structure System.Initial (info : Seminfo) (s : System) : Prop where
  val : ∀ n, 0 ≤ (s.sem n).semval ∧ (s.sem n).semval ≤ info.semvmx
  count : ∀ n, (s.sem n).semncnt = 0 ∧ (s.sem n).semzcnt = 0
  binary : s.binary = true
  undo : ∀ p, Entries info ((s.undo p).getD [])
  queue : ∀ cv, s.queues.queue cv = []
  woken : s.queues.woken = []

/-- The states of runs whose events all meet a condition where they happen. -/
inductive Reachable (info : Seminfo) (id : ℤ) (nsems : ℕ)
    (ok : System → Bool → Event → Prop) : System → Prop
  | init {s : System} : s.Initial info → Reachable info id nsems ok s
  | step {s t : System} (free : Bool) (pick : Pick) (e : Event) :
      Reachable info id nsems ok s → ok s free e → s.exec info id nsems free pick e = some t →
      Reachable info id nsems ok t

/-- Whether all operations can be performed, one after the other, on the values. -/
def performs (info : Seminfo) : List Sembuf → (ℕ → ℤ) → Bool
  | [], _ => true
  | op :: ops, val =>
    (if 0 < op.op then op.op + val op.num ≤ info.semvmx
      else if op.op < 0 then -op.op ≤ val op.num
      else val op.num = 0) &&
    performs info ops (update val op.num (val op.num + op.op))

/-- Somebody sleeps who could go on. -/
def System.Stranded (info : Seminfo) (s : System) : Prop :=
  ∃ cv, ∃ w ∈ s.queues.queue cv, performs info w.ops (fun n => (s.sem n).semval) = true

end Sol26.Sem
