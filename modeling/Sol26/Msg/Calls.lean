import Mathlib.Tactic

/-!
# The message calls and their sleeps

Model of `msgsnd`, `msgrcv` and `msgctl` from `uts/common/os/msg.c`. What a call does between two
sleeps is one step. Along the way it is kept what the thread holds of the locks, and whether it has a
header or segments in hand. The messages of a queue are a list, the free headers are counted, and
whether `rmalloc` and the copies succeed comes from outside. The text of all messages is in one pool
of less than 2^32 bytes, and the bytes on a queue do not wrap.
-/
namespace Sol26.Msg

open Function (update)

/-- The tunables of `struct msginfo` that the calls read. -/
structure Msginfo where
  msgmax : ℕ
  msgmnb : ℕ
  msgmni : ℕ

/-- The place of the queue that an identifier selects. -/
def Msginfo.slot (c : Msginfo) (id : ℤ) : ℕ := (id % c.msgmni).toNat

structure Message where
  type : ℤ
  ts : ℕ

/-- `struct msqid_ds`, with the bits `IPC_ALLOC`, `MSG_RWAIT` and `MSG_WWAIT` of its mode. -/
structure Msqid where
  alloc : Bool
  rwait : Bool
  wwait : Bool
  seq : ℕ
  msgs : List Message
  cbytes : ℕ
  qbytes : ℕ

inductive Errno
  | EACCES
  | EPERM
  | EINVAL
  | EFAULT
  | EOVERFLOW
  | EAGAIN
  | E2BIG
  | ENOMSG
  | EINTR
  | EIDRM
  deriving DecidableEq

/-- What `msgsnd` waits for. -/
inductive Wait
  | bytes
  | header
  | map
  deriving DecidableEq

/-- A call that sleeps. -/
inductive Call
  | rcv (msqid : ℤ) (msgsz : ℕ) (msgtyp : ℤ) (noerror : Bool)
  | snd (wait : Wait) (msqid : ℤ) (cnt : ℕ) (type : ℤ)

/-- The condition variables. -/
inductive Cv
  | qnum (q : ℕ)
  | bytes (q : ℕ)
  | msgfp
  | map
  deriving DecidableEq

def Call.cv (c : Msginfo) : Call → Cv
  | .rcv msqid _ _ _ => .qnum (c.slot msqid)
  | .snd .bytes msqid _ _ => .bytes (c.slot msqid)
  | .snd .header _ _ _ => .msgfp
  | .snd .map _ _ _ => .map

/-- A thread is outside of the calls, asleep in one, or woken and not run yet. -/
inductive Status
  | out
  | asleep (call : Call)
  | woken (call : Call)

inductive Lock
  | queue (q : ℕ)
  | msg
  | map

/-- What the discipline is about. -/
inductive Op
  | enter (l : Lock)
  | exit (l : Lock)
  | takeHeader
  | giveHeader
  | takeSegs
  | giveSegs
  /-- a queue pointer that was not set is used -/
  | stray

/-- What a thread holds. -/
structure Held where
  queue : Option ℕ := none
  msg : Bool := false
  map : Bool := false
  header : Bool := false
  segs : Bool := false
  deriving DecidableEq

/-- What a thread holds after an operation; `none` if it breaks the discipline. -/
def Held.op (h : Held) : Op → Option Held
  | .enter (.queue q) => if h.queue = none then some { h with queue := some q } else none
  | .enter .msg => if h.msg then none else some { h with msg := true }
  | .enter .map => if h.map then none else some { h with map := true }
  | .exit (.queue q) => if h.queue = some q then some { h with queue := none } else none
  | .exit .msg => if h.msg then some { h with msg := false } else none
  | .exit .map => if h.map then some { h with map := false } else none
  | .takeHeader => if h.header then none else some { h with header := true }
  | .giveHeader => if h.header then some { h with header := false } else none
  | .takeSegs => if h.segs then none else some { h with segs := true }
  | .giveSegs => if h.segs then some { h with segs := false } else none
  | .stray => none

/-- What a thread holds when its sleep ends, which is what it held when it began. -/
def Call.held (c : Msginfo) : Call → Held
  | .rcv msqid _ _ _ | .snd .bytes msqid _ _ => { queue := some (c.slot msqid) }
  | .snd .header _ _ _ => { msg := true }
  | .snd .map _ _ _ => { map := true }

def Status.held (c : Msginfo) : Status → Held
  | .out => {}
  | .asleep call | .woken call => call.held c

/-- The queues, the free headers, the threads that wait for the map, and where each thread is and
what it holds; `none` if it has broken the discipline. -/
structure System (T : Type*) where
  msgque : ℕ → Msqid
  msgfp : ℕ
  mapwant : ℕ
  threads : T → Status
  held : T → Option Held

/-- The system in the course of a step, and what the thread holds that makes it. -/
structure Kernel (T : Type*) extends System T where
  own : Option Held

/-- What comes of a step. -/
inductive Outcome
  | returns (error : Option Errno)
  | sleeps (call : Call)

/-- `-x` for a `long`. -/
def negLong (x : ℤ) : ℤ := Int.bmod (-x) (2 ^ 32)

/-- The loop at `findmsg` for a type other than 0, with the best message so far and its place. -/
def findLoop (msgtyp : ℤ) : List Message → ℕ → Option (ℕ × Message) → Option (ℕ × Message)
  | [], _, smp => smp
  | mp :: rest, i, smp =>
    if 0 < msgtyp then
      if msgtyp ≠ mp.type then findLoop msgtyp rest (i + 1) smp else some (i, mp)
    else if mp.type ≤ negLong msgtyp ∧ ¬ smp.any (·.2.type ≤ mp.type) then
      findLoop msgtyp rest (i + 1) (some (i, mp))
    else findLoop msgtyp rest (i + 1) smp

/-- `findmsg`: the message to be received, and its place. -/
def findmsg (msgtyp : ℤ) (msgs : List Message) : Option (ℕ × Message) :=
  if msgtyp = 0 then msgs.head?.map (0, ·) else findLoop msgtyp msgs 0 none

/-- What `msgsnd` meets outside: the type if it can be read, and whether there are segments and the
text can be read. -/
structure SndEnv where
  type : Option ℤ
  rmalloc : Bool
  copyin : Bool

/-- What `msgrcv` meets outside: whether the type and the text can be written. -/
structure RcvEnv where
  copyoutType : Bool
  copyoutText : Bool

/-- The fields of the caller's `msqid_ds` that `IPC_SET` reads. -/
structure Ds where
  qbytes : ℕ
  uid : ℤ
  gid : ℤ

/-- The commands of `msgctl`. For `IPC_STAT` the error of `ipcaccess` and `copyout` is given, and the
`o_msqid_ds` of the old commands has ids of 16 bits. -/
inductive Cmd
  | rmid
  | set (old : Bool) (ds : Option Ds)
  | stat (error : Option Errno)
  | other

/-- The caller is the owner or the creator of the queue, or the super-user. -/
structure Cred where
  owner : Bool
  suser : Bool

section Kernel

variable {T : Type*} (c : Msginfo)

/-- The queue was removed, and its place maybe given to another one. -/
def System.gone (s : System T) (id : ℤ) : Prop :=
  (s.msgque (c.slot id)).alloc = false ∨ (id / c.msgmni).toNat ≠ (s.msgque (c.slot id)).seq

instance (s : System T) (id : ℤ) : Decidable (s.gone c id) := inferInstanceAs (Decidable (_ ∨ _))

namespace Kernel

def op (k : Kernel T) (o : Op) : Kernel T := { k with own := k.own.bind (·.op o) }

def setQue (k : Kernel T) (q : ℕ) (qp : Msqid) : Kernel T :=
  { k with msgque := update k.msgque q qp }

def broadcast (k : Kernel T) (cv : Cv) : Kernel T :=
  { k with threads := fun t =>
      match k.threads t with
      | .asleep call => if call.cv c = cv then .woken call else .asleep call
      | status => status }

/-- A header goes back to the free list. -/
def putHeader (k : Kernel T) : Kernel T :=
  let k := k.op (.enter .msg)
  let k := if k.msgfp = 0 then k.broadcast c .msgfp else k
  ({ k with msgfp := k.msgfp + 1 }.op .giveHeader).op (.exit .msg)

/-- `rmfree` of `msgmap` -/
def rmfree (k : Kernel T) : Kernel T :=
  let k := k.op (.enter .map)
  let k := if k.mapwant ≠ 0 then { k with mapwant := 0 }.broadcast c .map else k
  (k.op .giveSegs).op (.exit .map)

/-- `msgfree` of the message at a place of the queue. -/
def msgfree (k : Kernel T) (q i : ℕ) (mp : Message) : Kernel T :=
  let qp := k.msgque q
  let k := (k.setQue q { qp with msgs := qp.msgs.eraseIdx i, wwait := false }).op .takeHeader
  let k := if qp.wwait then k.broadcast c (.bytes q) else k
  let k := if mp.ts ≠ 0 then (k.op .takeSegs).rmfree c else k
  k.putHeader c

/-- `msgconv`, which locks the queue. -/
def msgconv (k : Kernel T) (id : ℤ) : Kernel T × Option ℕ :=
  if id < 0 then (k, none)
  else
    let q := c.slot id
    let k := k.op (.enter (.queue q))
    if k.gone c id then (k.op (.exit (.queue q)), none) else (k, some q)

/-- The loop of `IPC_RMID`. -/
def freeAll (q : ℕ) : List Message → Kernel T → Kernel T
  | [], k => k
  | mp :: rest, k => freeAll q rest (k.msgfree c q 0 mp)

def rmid (k : Kernel T) (q : ℕ) (msgid : ℤ) : Kernel T :=
  let k := freeAll c q (k.msgque q).msgs k
  let qp := k.msgque q
  let k := if qp.rwait then k.broadcast c (.qnum q) else k
  let k := if qp.wwait then k.broadcast c (.bytes q) else k
  k.setQue q { qp with
    cbytes := 0
    seq := if 2 ^ 31 ≤ msgid + c.msgmni then 0 else (qp.seq + 1) % 2 ^ 32
    rwait := false
    wwait := false
    alloc := false }

def ipcSet (k : Kernel T) (q : ℕ) (old : Bool) (cr : Cred) (ds : Ds) : Kernel T × Option Errno :=
  let maxuid := 2147483647
  let ushrtMax := 65535
  if (k.msgque q).qbytes < ds.qbytes ∧ cr.suser = false then (k, some .EPERM)
  else if old ∧ (ushrtMax ≤ ds.uid ∨ ushrtMax ≤ ds.gid) then (k, some .EOVERFLOW)
  else if ds.uid < 0 ∨ maxuid < ds.uid ∨ ds.gid < 0 ∨ maxuid < ds.gid then (k, some .EINVAL)
  else (k.setQue q { k.msgque q with qbytes := ds.qbytes }, none)

/-- The switch of `msgctl`. -/
def command (k : Kernel T) (q : ℕ) (msgid : ℤ) (cr : Cred) : Cmd → Kernel T × Option Errno
  | .rmid =>
    if cr.owner = false ∧ cr.suser = false then (k, some .EPERM) else (k.rmid c q msgid, none)
  | .set old ds =>
    if cr.owner = false ∧ cr.suser = false then (k, some .EPERM)
    else
      match ds with
      | none => (k, some .EFAULT)
      | some ds => k.ipcSet q old cr ds
  | .stat error => (k, error)
  | .other => (k, some .EINVAL)

def msgctl (k : Kernel T) (msgid : ℤ) (cmd : Cmd) (cr : Cred) : Kernel T × Outcome :=
  match k.msgconv c msgid with
  | (k, none) => (k, .returns (some .EINVAL))
  | (k, some q) =>
    let (k, error) := k.command c q msgid cr cmd
    (k.op (.exit (.queue q)), .returns error)

/-- `msgrcv` from `findmsg` on. -/
def rcvFrom (k : Kernel T) (q : ℕ) (msqid : ℤ) (msgsz : ℕ) (msgtyp : ℤ) (nowait noerror : Bool)
    (u : RcvEnv) : Kernel T × Outcome :=
  let qp := k.msgque q
  match findmsg msgtyp qp.msgs with
  | some (i, smp) =>
    if msgsz < smp.ts ∧ noerror = false then (k.op (.exit (.queue q)), .returns (some .E2BIG))
    else
      let sz := if msgsz < smp.ts then msgsz else smp.ts
      if u.copyoutType = false then (k.op (.exit (.queue q)), .returns (some .EFAULT))
      else if sz ≠ 0 ∧ u.copyoutText = false then
        (k.op (.exit (.queue q)), .returns (some .EFAULT))
      else
        let k := k.setQue q { qp with cbytes := qp.cbytes - smp.ts }
        ((k.msgfree c q i smp).op (.exit (.queue q)), .returns none)
  | none =>
    if nowait then (k.op (.exit (.queue q)), .returns (some .ENOMSG))
    else (k.setQue q { qp with rwait := true }, .sleeps (.rcv msqid msgsz msgtyp noerror))

def msgrcv (k : Kernel T) (msqid msgsz msgtyp : ℤ) (nowait noerror access : Bool) (u : RcvEnv) :
    Kernel T × Outcome :=
  match k.msgconv c msqid with
  | (k, none) => (k, .returns (some .EINVAL))
  | (k, some q) =>
    if access = false then (k.op (.exit (.queue q)), .returns (some .EACCES))
    else if msgsz < 0 then (k.op (.exit (.queue q)), .returns (some .EINVAL))
    else k.rcvFrom c q msqid msgsz.toNat msgtyp nowait noerror u

/-- The message is put at the end of the queue. -/
def enqueue (k : Kernel T) (q cnt : ℕ) (type : ℤ) : Kernel T :=
  let qp := k.msgque q
  let k := k.setQue q { qp with
    msgs := qp.msgs ++ [⟨type, cnt % 2 ^ 16⟩]
    cbytes := qp.cbytes + cnt
    rwait := false }
  let k := if qp.rwait then k.broadcast c (.qnum q) else k
  let k := k.op .giveHeader
  if cnt ≠ 0 then k.op .giveSegs else k

/-- `msgsnd` with a header in hand. -/
def sendWith (k : Kernel T) (q : ℕ) (msqid : ℤ) (cnt : ℕ) (type : ℤ) (nowait : Bool) (u : SndEnv) :
    Kernel T × Outcome :=
  let k := k.op (.enter .map)
  if cnt ≠ 0 ∧ u.rmalloc = false then
    if nowait then
      (((k.op (.exit .map)).putHeader c).op (.exit (.queue q)), .returns (some .EAGAIN))
    else
      let k := { k with mapwant := k.mapwant + 1 }.putHeader c
      (k.op (.exit (.queue q)), .sleeps (.snd .map msqid cnt type))
  else
    let k := if cnt ≠ 0 then k.op .takeSegs else k
    let k := k.op (.exit .map)
    if cnt ≠ 0 ∧ u.copyin = false then
      (((k.rmfree c).putHeader c).op (.exit (.queue q)), .returns (some .EFAULT))
    else ((k.enqueue c q cnt type).op (.exit (.queue q)), .returns none)

/-- `msgsnd` from `getres` on. -/
def getres (k : Kernel T) (q : ℕ) (msqid : ℤ) (cnt : ℕ) (type : ℤ) (nowait : Bool) (u : SndEnv) :
    Kernel T × Outcome :=
  let qp := k.msgque q
  if qp.qbytes < cnt + qp.cbytes then
    if nowait then (k.op (.exit (.queue q)), .returns (some .EAGAIN))
    else (k.setQue q { qp with wwait := true }, .sleeps (.snd .bytes msqid cnt type))
  else
    let k := k.op (.enter .msg)
    if k.msgfp = 0 then
      if nowait then ((k.op (.exit .msg)).op (.exit (.queue q)), .returns (some .EAGAIN))
      else (k.op (.exit (.queue q)), .sleeps (.snd .header msqid cnt type))
    else
      let k := ({ k with msgfp := k.msgfp - 1 }.op .takeHeader).op (.exit .msg)
      k.sendWith c q msqid cnt type nowait u

def msgsnd (k : Kernel T) (msqid msgsz : ℤ) (nowait access : Bool) (u : SndEnv) :
    Kernel T × Outcome :=
  match k.msgconv c msqid with
  | (k, none) => (k, .returns (some .EINVAL))
  | (k, some q) =>
    if access = false then (k.op (.exit (.queue q)), .returns (some .EACCES))
    else if msgsz < 0 ∨ (c.msgmax : ℤ) < msgsz then
      (k.op (.exit (.queue q)), .returns (some .EINVAL))
    else
      match u.type with
      | none => (k.op (.exit (.queue q)), .returns (some .EFAULT))
      | some type =>
        if type < 1 then (k.op (.exit (.queue q)), .returns (some .EINVAL))
        else k.getres c q msqid msgsz.toNat type nowait u

/-- `cv_wait_sig` has returned 1. -/
def resume (k : Kernel T) (snd : SndEnv) (rcv : RcvEnv) : Call → Kernel T × Outcome
  | .rcv msqid msgsz msgtyp noerror =>
    let q := c.slot msqid
    if k.gone c msqid then (k.op (.exit (.queue q)), .returns (some .EIDRM))
    else k.rcvFrom c q msqid msgsz msgtyp false noerror rcv
  | .snd .bytes msqid cnt type =>
    let q := c.slot msqid
    if k.gone c msqid then (k.op (.exit (.queue q)), .returns (some .EIDRM))
    else k.getres c q msqid cnt type false snd
  | .snd .header msqid cnt type =>
    match (k.op (.exit .msg)).msgconv c msqid with
    | (k, none) => (k, .returns (some .EIDRM))
    | (k, some q) => k.getres c q msqid cnt type false snd
  | .snd .map msqid cnt type =>
    match (k.op (.exit .map)).msgconv c msqid with
    | (k, none) => (k, .returns (some .EIDRM))
    | (k, some q) => k.getres c q msqid cnt type false snd

/-- `cv_wait_sig` has returned 0. -/
def interrupt (k : Kernel T) : Call → Kernel T × Outcome
  | .rcv msqid _ _ _ => (k.op (.exit (.queue (c.slot msqid))), .returns (some .EINTR))
  | .snd .bytes msqid _ _ =>
    let q := c.slot msqid
    match (k.op (.exit (.queue q))).msgconv c msqid with
    -- the lock of `*qp1` is released, which `msgconv` has not set
    | (k, none) => (k.op .stray, .returns (some .EIDRM))
    | (k, some _) =>
      let k := (k.setQue q { k.msgque q with wwait := false }).broadcast c (.bytes q)
      (k.op (.exit (.queue q)), .returns (some .EINTR))
  | .snd .header msqid _ _ =>
    match (k.op (.exit .msg)).msgconv c msqid with
    | (k, none) => (k, .returns (some .EINVAL))
    | (k, some q1) =>
      let q := c.slot msqid
      if q1 ≠ q then (k.op (.exit (.queue q1)), .returns (some .EINTR))
      else (k.op (.exit (.queue q)), .returns (some .EINTR))
  | .snd .map msqid _ _ =>
    match (k.op (.exit .map)).msgconv c msqid with
    | (k, none) => (k, .returns (some .EIDRM))
    | (k, some _) => (k.op (.exit (.queue (c.slot msqid))), .returns (some .EINTR))

end Kernel

/-- `msgget` for a new queue; `ipcget` has chosen the place. -/
def System.msgget (s : System T) (q : ℕ) : System T :=
  { s with msgque := update s.msgque q { s.msgque q with
      alloc := true
      rwait := false
      wwait := false
      msgs := []
      qbytes := c.msgmnb } }

/-- A step of a thread. -/
inductive Step
  | msgctl (msgid : ℤ) (cmd : Cmd) (cr : Cred)
  | msgsnd (msqid msgsz : ℤ) (nowait access : Bool) (u : SndEnv)
  | msgrcv (msqid msgsz msgtyp : ℤ) (nowait noerror access : Bool) (u : RcvEnv)
  | resume (snd : SndEnv) (rcv : RcvEnv)
  | interrupt

/-- What a thread does; `none` if it cannot. A thread that sleeps may also run without a wakeup. -/
def Kernel.step (k : Kernel T) : Status → Step → Option (Kernel T × Outcome)
  | .out, .msgctl msgid cmd cr => some (k.msgctl c msgid cmd cr)
  | .out, .msgsnd msqid msgsz nowait access u => some (k.msgsnd c msqid msgsz nowait access u)
  | .out, .msgrcv msqid msgsz msgtyp nowait noerror access u =>
    some (k.msgrcv c msqid msgsz msgtyp nowait noerror access u)
  | .asleep call, .resume snd rcv | .woken call, .resume snd rcv => some (k.resume c snd rcv call)
  | .asleep call, .interrupt | .woken call, .interrupt => some (k.interrupt c call)
  | _, _ => none

def Outcome.status : Outcome → Status
  | .returns _ => .out
  | .sleeps call => .asleep call

/-- A step of thread `t`. -/
def System.exec [DecidableEq T] (s : System T) (t : T) (e : Step) : Option (System T) :=
  ((⟨s, s.held t⟩ : Kernel T).step c (s.threads t) e).map fun (k, o) =>
    { k.toSystem with
      threads := update k.threads t o.status
      held := update k.held t k.own }

/-- No thread has made a call yet. -/
def System.Initial (s : System T) : Prop := ∀ t, s.threads t = .out ∧ s.held t = some {}

/-- What a run leads to if all the steps are allowed. A new queue gets a place that is not in use. -/
inductive Reaches [DecidableEq T] (allowed : System T → T → Step → Prop) : System T → Prop
  | initial {s : System T} : s.Initial → Reaches allowed s
  | msgget {s : System T} {q : ℕ} : Reaches allowed s → (s.msgque q).alloc = false →
      Reaches allowed (s.msgget c q)
  | exec {s s' : System T} {t : T} {e : Step} : Reaches allowed s → allowed s t e →
      s.exec c t e = some s' → Reaches allowed s'

end Kernel

end Sol26.Msg
