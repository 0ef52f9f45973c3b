import Mathlib.Tactic

/-!
# The duplicate request cache of RPC

`svc_clts_kdup` looks a request up, or takes a new or an old entry for it, with `dupreq_lock` held.
`svc_clts_kdupdone` stores what came of a request without any lock, so its two stores may come
between the steps of a lookup. An access outside of a buffer fails, as does an access through
`NULL`.
-/
namespace Sol26.Rpc

open Function (update)

/-- The address of a `struct dupreq`. -/
abbrev Ptr := ℕ

/-- What `dr_status` may be. -/
inductive Status
  | inprogress
  | done
  | drop
  deriving DecidableEq

/-- What `svc_clts_kdup` returns, with the response that it copies out. -/
inductive Answer
  | new
  | inprogress
  | done (res : List UInt8)
  | drop
  | error

/-- What identifies a request: `rq_xprt->xp_xid`, `rq_prog`, `rq_vers`, `rq_proc` and
`rq_xprt->xp_rtaddr`. -/
structure Req where
  xid : ℕ
  prog : ℕ
  vers : ℕ
  proc : ℕ
  addr : List UInt8
  deriving DecidableEq

/-- A `struct netbuf`; `maxlen` is the length of `buf`. -/
structure Netbuf where
  len : ℕ
  buf : List UInt8

structure Dupreq where
  xid : ℕ
  prog : ℕ
  vers : ℕ
  proc : ℕ
  addr : Netbuf
  resp : List UInt8
  status : Status
  next : Ptr
  chain : Option Ptr

def drhashsz : ℕ := 257

def xidhash (xid : ℕ) : ℕ := xid % drhashsz

/-- The cache, with the memory; `used` are the entries that were allocated. -/
structure Cache where
  mem : Ptr → Dupreq
  used : Finset Ptr
  drhashtbl : ℕ → Option Ptr
  ndupreqs : ℕ
  drmru : Option Ptr

/-- What `kmem_alloc` gives for an entry, for an address and for a response. -/
structure Env where
  entry : Finset Ptr → Option Ptr
  addr : ℕ → Option (List UInt8)
  resp : ℕ → Option (List UInt8)
  entry_notMem : ∀ used dr, entry used = some dr → dr ∉ used
  addr_length : ∀ n b, addr n = some b → b.length = n
  resp_length : ∀ n b, resp n = some b → b.length = n

namespace Cache

def set (c : Cache) (dr : Ptr) (d : Dupreq) : Cache := { c with mem := update c.mem dr d }

end Cache

/-- The comparison of an entry with a request. -/
def Dupreq.Matches (d : Dupreq) (req : Req) : Prop :=
  d.xid = req.xid ∧ d.proc = req.proc ∧ d.prog = req.prog ∧ d.vers = req.vers ∧
    d.addr.len = req.addr.length ∧ d.addr.buf.take d.addr.len = req.addr.take d.addr.len

instance (d : Dupreq) (req : Req) : Decidable (d.Matches req) :=
  inferInstanceAs (Decidable (_ ∧ _))

namespace Cache

/-- The loop over a hash chain. -/
def lookup (c : Cache) (req : Req) : ℕ → Option Ptr → Option (Option Ptr)
  | _, none => some none
  | 0, some _ => none
  | n + 1, some dr =>
    if (c.mem dr).Matches req then some (some dr) else c.lookup req n (c.mem dr).chain

/-- The loop of `unhash`; `prev` is `drtprev`. -/
def unhashLoop (c : Cache) (dr : Ptr) : ℕ → Option Ptr → Option Ptr → Option Cache
  | _, _, none => some c
  | 0, _, some _ => none
  | n + 1, prev, some drt =>
    if drt = dr then
      match prev with
      | none =>
        some { c with
          drhashtbl := update c.drhashtbl (xidhash (c.mem dr).xid) (c.mem drt).chain }
      | some p => some (c.set p { c.mem p with chain := (c.mem drt).chain })
    else c.unhashLoop dr n (some drt) (c.mem drt).chain

def unhash (c : Cache) (dr : Ptr) : Option Cache :=
  c.unhashLoop dr c.ndupreqs none (c.drhashtbl (xidhash (c.mem dr).xid))

/-- A new entry is put on the ring. -/
def enter (c : Cache) (dr : Ptr) : Cache :=
  let d := { c.mem dr with resp := [], addr := { (c.mem dr).addr with buf := [] } }
  match c.drmru with
  | some m =>
    let c' := c.set dr { d with next := (c.mem m).next }
    { c'.set m { c'.mem m with next := dr } with
      used := insert dr c.used, ndupreqs := c.ndupreqs + 1 }
  | none =>
    { c.set dr { d with next := dr } with used := insert dr c.used, ndupreqs := c.ndupreqs + 1 }

end Cache

/-- The address of the request is copied into the entry; `none` if there is no memory. -/
def Dupreq.setAddr (d : Dupreq) (env : Env) (req : Req) : Dupreq × Bool :=
  let room := if d.addr.buf.length < req.addr.length then env.addr req.addr.length
    else some d.addr.buf
  match room with
  | none => ({ d with addr := { d.addr with buf := [] }, status := .drop }, false)
  | some b =>
    ({ d with addr := { len := req.addr.length, buf := req.addr ++ b.drop req.addr.length } }, true)

/-- The entry gets room for a response of the given size. -/
def Dupreq.setResp (d : Dupreq) (env : Env) (size : ℕ) : Dupreq × Bool :=
  let room := if d.resp.length < size then env.resp size else some d.resp
  match room with
  | none => ({ d with resp := [], status := .drop }, false)
  | some b => ({ d with resp := b }, true)

/-- The fields of the entry from its address on. -/
def Dupreq.fill (d : Dupreq) (env : Env) (req : Req) (size : ℕ) : Dupreq × Bool :=
  let d := { d with xid := req.xid, prog := req.prog, vers := req.vers, proc := req.proc }
  let r := d.setAddr env req
  if r.2 then r.1.setResp env size else r

/-- The part of `svc_clts_kdup` after it has an entry. -/
def Cache.take (c : Cache) (env : Env) (req : Req) (size : ℕ) (dr : Ptr) : Cache × Answer :=
  let r := (c.mem dr).fill env req size
  let c := { c with drmru := some dr }
  if r.2 then
    let h := xidhash r.1.xid
    ({ c.set dr { r.1 with status := .inprogress, chain := c.drhashtbl h } with
        drhashtbl := update c.drhashtbl h (some dr) }, .new)
  else (c.set dr r.1, .error)

/-- Where the thread that holds `dupreq_lock` is: it has found an entry with a status, or it looks
at an entry to recycle. -/
inductive Lock
  | idle
  | matched (req : Req) (dr : Ptr) (status : Status)
  | recycling (req : Req) (env : Env) (dr : Ptr)

/-- A request that is executed and then given to `svc_clts_kdupdone`; `stored` is the response
once it is copied into the entry. -/
structure Job where
  dr : Ptr
  req : Req
  stored : Option (List UInt8)

/-- The jobs after `svc_clts_kdup` has taken an entry: a new request is executed. -/
def Answer.start (jobs : List Job) (dr : Ptr) (req : Req) : Answer → List Job
  | .new => ⟨dr, req, none⟩ :: jobs
  | _ => jobs

/-- The cache and the service threads. -/
structure System where
  cache : Cache
  lock : Lock
  jobs : List Job

/-- What can be seen of a step. -/
inductive Label
  | quiet
  /-- `svc_clts_kdup` returns without an entry. -/
  | refused (req : Req)
  /-- `svc_clts_kdup` returns, with the entry `dr`, which may be a recycled one. -/
  | returned (req : Req) (answer : Answer) (dr : Ptr) (recycled : Bool)
  /-- `svc_clts_kdupdone` returns, with the response or after a drop. -/
  | finished (dr : Ptr) (res : Option (List UInt8))

/-- The first part of `svc_clts_kdup`, to where it has an entry, a status, or looks for an entry to
recycle. -/
def System.kdup (s : System) (maxdupreqs : ℕ) (size : Req → ℕ) (env : Env) (req : Req) :
    Option (Label × System) :=
  (s.cache.lookup req s.cache.ndupreqs (s.cache.drhashtbl (xidhash req.xid))).bind fun
    | some dr => some (.quiet, { s with lock := .matched req dr (s.cache.mem dr).status })
    | none =>
      if s.cache.ndupreqs < maxdupreqs then
        match env.entry s.cache.used with
        | none => some (.refused req, s)
        | some dr =>
          let r := (s.cache.enter dr).take env req (size req) dr
          some (.returned req r.2 dr false, { s with cache := r.1, jobs := r.2.start s.jobs dr req })
      else
        s.cache.drmru.map fun m =>
          (.quiet, { s with lock := .recycling req env (s.cache.mem m).next })

/-- The rest of `svc_clts_kdup` for an entry that matches. -/
def System.answer (s : System) (size : Req → ℕ) (req : Req) (dr : Ptr) :
    Status → Option (Label × System)
  | .done =>
    if size req ≤ (s.cache.mem dr).resp.length then
      some (.returned req (.done ((s.cache.mem dr).resp.take (size req))) dr false,
        { s with lock := .idle })
    else none
  | .inprogress =>
    some (.returned req .inprogress dr false, { s with
      cache := s.cache.set dr { s.cache.mem dr with status := .inprogress }, lock := .idle })
  | .drop =>
    some (.returned req .drop dr false, { s with
      cache := s.cache.set dr { s.cache.mem dr with status := .inprogress }, lock := .idle
      jobs := ⟨dr, req, none⟩ :: s.jobs })

/-- One look of the loop that recycles an entry. -/
def System.recycle (s : System) (size : Req → ℕ) (req : Req) (env : Env) (dr : Ptr) :
    Option (Label × System) :=
  if (s.cache.mem dr).status = .inprogress then
    some (.quiet, { s with lock := .recycling req env (s.cache.mem dr).next })
  else
    (s.cache.unhash dr).map fun c =>
      let r := c.take env req (size req) dr
      (.returned req r.2 dr true, { cache := r.1, lock := .idle, jobs := r.2.start s.jobs dr req })

/-- The thread that holds the lock goes on. -/
def System.proceed (s : System) (size : Req → ℕ) : Option (Label × System) :=
  match s.lock with
  | .idle => none
  | .matched req dr status => s.answer size req dr status
  | .recycling req env dr => s.recycle size req env dr

/-- `svc_clts_kdupdone` copies the response of the job. -/
def System.store (s : System) (size : Req → ℕ) (i : ℕ) (res : List UInt8) : Option (Label × System) :=
  s.jobs[i]?.bind fun job =>
    let d := s.cache.mem job.dr
    if job.stored = none ∧ res.length = size job.req ∧ res.length ≤ d.resp.length then
      some (.quiet, { s with
        cache := s.cache.set job.dr { d with resp := res ++ d.resp.drop res.length }
        jobs := s.jobs.set i { job with stored := some res } })
    else none

/-- `svc_clts_kdupdone` sets the status: `DUP_DONE` after a response was copied, else
`DUP_DROP`. -/
def System.finish (s : System) (i : ℕ) : Option (Label × System) :=
  s.jobs[i]?.map fun job =>
    let status := match job.stored with
      | none => .drop
      | some _ => .done
    (.finished job.dr job.stored, { s with
      cache := s.cache.set job.dr { s.cache.mem job.dr with status }, jobs := s.jobs.eraseIdx i })

/-- A step: a call of `svc_clts_kdup` when the lock is free, one of its further steps, or a step of
`svc_clts_kdupdone`. -/
inductive Step (maxdupreqs : ℕ) (size : Req → ℕ) : System → Label → System → Prop
  | kdup {s s' : System} {l : Label} (env : Env) (req : Req) : s.lock = .idle →
      s.kdup maxdupreqs size env req = some (l, s') → Step maxdupreqs size s l s'
  | proceed {s s' : System} {l : Label} : s.proceed size = some (l, s') →
      Step maxdupreqs size s l s'
  | store {s s' : System} {l : Label} (i : ℕ) (res : List UInt8) : s.store size i res = some (l, s') →
      Step maxdupreqs size s l s'
  | finish {s s' : System} {l : Label} (i : ℕ) : s.finish i = some (l, s') →
      Step maxdupreqs size s l s'

end Sol26.Rpc
