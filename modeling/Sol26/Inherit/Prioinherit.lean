import Sol26.Lib.Rings

/-!
# Priority inheritance

A thread that blocks on a synchronization object wills its dispatch priority to the owner of the
object, and on along the chain of the objects on which the owners are blocked. The turnstile of an
object has the queues of the blocked threads and a record of the priority that its owner inherits;
the records of a thread are on a ring. A `panic` and a loop that does not end give `none`.
-/
namespace Sol26.Inherit

open Rings Function

variable {T O : Type} [DecidableEq T] [DecidableEq O]

/-- A thread: `t_pri`, `t_epri`, `t_prioinv`, and the object and the queue where it is blocked. -/
structure Kthread (O : Type) where
  pri : ℕ
  epri : ℕ
  prioinv : Option O
  wchan : Option (O × Bool)

/-- A synchronization object with its turnstile: `pi_benef` and `pi_epri_hi` are those of its
`pirec`. -/
structure Sobj (T : Type) where
  owner : Option T
  mutex : Bool
  sleepq : Bool → List T
  benef : Option T
  epriHi : ℕ

/-- `forw` and `back` are the links of the records. Those of a cleared record are not read, so
`pirec_clear` leaves them here. -/
structure System (T O : Type) where
  threads : T → Kthread O
  sobjs : O → Sobj T
  forw : O → O
  back : O → O

/-- `DISP_PRIO` -/
def Kthread.dispPrio (k : Kthread O) : ℕ := if k.epri ≠ 0 then k.epri else k.pri

/-- `sleepq_insert`: in the order of the priorities, after those that are equal. -/
def sleepqInsert (prio : T → ℕ) (c : T) : List T → List T
  | [] => [c]
  | tp :: l => if prio tp < prio c then c :: tp :: l else tp :: sleepqInsert prio c l

namespace System

def prio (s : System T O) (t : T) : ℕ := (s.threads t).dispPrio

def setThread (s : System T O) (t : T) (k : Kthread O) : System T O :=
  { s with threads := update s.threads t k }

def setSobj (s : System T O) (x : O) (o : Sobj T) : System T O :=
  { s with sobjs := update s.sobjs x o }

/-- The queue `q` of the object becomes `l`. -/
def setSleepq (s : System T O) (x : O) (q : Bool) (l : List T) : System T O :=
  s.setSobj x { s.sobjs x with sleepq := update (s.sobjs x).sleepq q l }

/-- `pi_changepri`: a blocked thread is queued again with its new priority. -/
def changepri (s : System T O) (t : T) (epri : ℕ) : System T O :=
  let s' := s.setThread t { s.threads t with epri }
  match (s.threads t).wchan with
  | none => s'
  | some (x, q) => s'.setSleepq x q (sleepqInsert s'.prio t (((s.sobjs x).sleepq q).erase t))

/-- `tstile_maxpri` -/
def tstileMaxpri (s : System T O) (x : O) : ℕ :=
  match ((s.sobjs x).sleepq false).head?, ((s.sobjs x).sleepq true).head? with
  | some t0, some t1 => if s.prio t0 < s.prio t1 then s.prio t1 else s.prio t0
  | some t0, none => s.prio t0
  | none, some t1 => s.prio t1
  | none, none => 0

/-- The loop of `pirec_calcpri`, from the record `p` to the record `x`. -/
def calcpriLoop (s : System T O) (x : O) : ℕ → O → ℕ → Option ℕ
  | 0, _, _ => none
  | n + 1, p, dpri =>
    let dpri := max dpri (s.sobjs p).epriHi
    if s.forw p = x then some dpri else s.calcpriLoop x n (s.forw p) dpri

def calcpri [Fintype O] (s : System T O) (pirec : Option O) (dispPri : ℕ) : Option ℕ :=
  match pirec with
  | none => some dispPri
  | some x => s.calcpriLoop x (Fintype.card O) x dispPri

/-- A record is set up and put on the ring of its beneficiary. -/
def addPirec (s : System T O) (x : O) (t : T) (dispPri : ℕ) : System T O :=
  let s := s.setSobj x { s.sobjs x with epriHi := dispPri, benef := some t }
  match (s.threads t).prioinv with
  | none =>
    { s.setThread t { s.threads t with prioinv := some x } with
      forw := update s.forw x x, back := update s.back x x }
  | some q => { s with forw := insertNext s.forw s.back x q, back := insertPrev s.back x q }

/-- The priority of the thread is raised if it is lower. -/
def raise (s : System T O) (t : T) (dispPri : ℕ) : System T O :=
  if s.prio t < dispPri then s.changepri t dispPri else s

/-- The record of an object is taken from the ring of its beneficiary and cleared, as in `pi_waive`
and `pi_amend`. -/
def cancel [Fintype O] (s : System T O) (x : O) (benef : T) : Option (System T O) :=
  let r := if s.forw x = x then
      let s := s.changepri benef 0
      some (s.setThread benef { s.threads benef with prioinv := none })
    else
      let s := if (s.threads benef).prioinv = some x
        then s.setThread benef { s.threads benef with prioinv := some (s.forw x) } else s
      let s := { s with forw := removeNext s.forw s.back x, back := removePrev s.forw s.back x }
      (s.calcpri (s.threads benef).prioinv (s.threads benef).pri).map fun dispPri =>
        if dispPri ≠ s.prio benef then s.changepri benef dispPri else s
  r.map fun s => s.setSobj x { s.sobjs x with benef := none, epriHi := 0 }

/-- `pi_waive` -/
def waive [Fintype O] (s : System T O) (x : O) : Option (System T O) :=
  match (s.sobjs x).benef with
  | none => some s
  | some benef => s.cancel x benef

/-- `pi_inheritfrom` -/
def inheritfrom (s : System T O) (owner : T) (x : O) : System T O :=
  let dispPri := s.tstileMaxpri x
  if (s.threads owner).pri < dispPri then (s.addPirec x owner dispPri).raise owner dispPri else s

/-- `pi_amend` -/
def amend [Fintype O] (s : System T O) (inheritor : T) (x : O) : Option (System T O) :=
  if (s.sobjs x).benef = some inheritor then some s
  else (s.waive x).map fun s => s.inheritfrom inheritor x

/-- `tstile_free`: the turnstile of an object with no waiters has no record. -/
def tstileFree [Fintype O] (s : System T O) (x : O) : Option (System T O) :=
  if (s.sobjs x).sleepq false = [] ∧ (s.sobjs x).sleepq true = [] then s.waive x else some s

/-- `THREAD_CLEAN` -/
def clean (s : System T O) (t : T) : System T O :=
  s.setThread t { s.threads t with wchan := none }

/-- `SOBJ_UNSLEEP`: a blocked thread is taken out of its queue and runs. -/
def unsleep [Fintype O] (s : System T O) (t : T) : Option (System T O) :=
  match (s.threads t).wchan with
  | none => none
  | some (x, q) =>
    ((s.setSleepq x q (((s.sobjs x).sleepq q).erase t)).clean t).tstileFree x

/-- The owner of an object inherits the priority of a waiter, by the record of the object. -/
def inherit (s : System T O) (x : O) (owner : T) (dispPri : ℕ) : System T O :=
  let s := if (s.sobjs x).benef ≠ none then
      if (s.sobjs x).epriHi < dispPri then s.setSobj x { s.sobjs x with epriHi := dispPri } else s
    else s.addPirec x owner dispPri
  s.raise owner dispPri

/-- The loop of `pi_willto`: `waiter` is blocked on `x`, which `owner` owns. -/
def willtoLoop [Fintype O] (willing : T) : ℕ → System T O → T → O → T → Option (System T O)
  | 0, _, _, _, _ => none
  | n + 1, s, waiter, x, owner =>
    if willing = owner then none
    else if s.prio waiter ≤ (s.threads owner).pri then some s
    else
      let s := s.inherit x owner (s.prio waiter)
      match (s.threads owner).wchan with
      | none => some s
      | some (x', _) =>
        match (s.sobjs x').owner with
        | some owner' => willtoLoop willing n s owner x' owner'
        | none => if (s.sobjs x').mutex then s.unsleep owner else some s

/-- `pi_willto` -/
def willto [Fintype T] [Fintype O] (s : System T O) (waiter : T) : Option (System T O) :=
  match (s.threads waiter).wchan with
  | none => some s
  | some (x, _) =>
    match (s.sobjs x).owner with
    | none => some s
    | some owner => willtoLoop waiter (Fintype.card T) s waiter x owner

/-- A thread blocks: `t_block`, then `pi_willto`. -/
def block [Fintype T] [Fintype O] (s : System T O) (t : T) (x : O) (q : Bool) :
    Option (System T O) :=
  let s := s.setThread t { s.threads t with wchan := some (x, q) }
  (s.setSleepq x q (sleepqInsert s.prio t ((s.sobjs x).sleepq q))).willto t

/-- `sleepq_wakeone` -/
def wakeone (s : System T O) (x : O) (q : Bool) : System T O :=
  match (s.sobjs x).sleepq q with
  | [] => s
  | t :: l => (s.setSleepq x q l).clean t

/-- `sleepq_wakeall` -/
def wakeall (s : System T O) (x : O) (q : Bool) : System T O :=
  (fun s => s.wakeone x q)^[((s.sobjs x).sleepq q).length] s

/-- The owner of an object releases it: `pi_waive`, then one thread or all threads of a queue are
woken. -/
def release [Fintype O] (s : System T O) (x : O) (all q : Bool) : Option (System T O) :=
  (System.waive (s.setSobj x { s.sobjs x with owner := none }) x).bind fun s =>
    (if all then s.wakeall x q else s.wakeone x q).tstileFree x

/-- A thread becomes the owner of an object; if the object has waiters, `pi_amend` follows. -/
def acquire [Fintype O] (s : System T O) (t : T) (x : O) : Option (System T O) :=
  let s := s.setSobj x { s.sobjs x with owner := some t }
  if (s.sobjs x).sleepq false = [] ∧ (s.sobjs x).sleepq true = [] then some s else s.amend t x

/-- The thread `w` is blocked on an object that `o` owns. -/
def Waits (s : System T O) (w o : T) : Prop :=
  ∃ x q, (s.threads w).wchan = some (x, q) ∧ (s.sobjs x).owner = some o

/-- A thread may block on the object without closing a cycle. -/
def MayBlock (s : System T O) (t : T) (x : O) : Prop :=
  (s.threads t).wchan = none ∧
    ∀ o, (s.sobjs x).owner = some o → ¬ Relation.ReflTransGen s.Waits o t

end System

/-- A thread that is not blocked blocks, or releases or acquires an object. -/
inductive Step [Fintype T] [Fintype O] : System T O → System T O → Prop
  | block {s s' : System T O} (t : T) (x : O) (q : Bool) : s.MayBlock t x →
      s.block t x q = some s' → Step s s'
  | release {s s' : System T O} (t : T) (x : O) (all q : Bool) : (s.threads t).wchan = none →
      (s.sobjs x).owner = some t → s.release x all q = some s' → Step s s'
  | acquire {s s' : System T O} (t : T) (x : O) : (s.threads t).wchan = none →
      (s.sobjs x).owner = none → s.acquire t x = some s' → Step s s'

end Sol26.Inherit
