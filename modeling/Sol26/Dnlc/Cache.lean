import Mathlib.Data.Nat.Size
import Mathlib.Tactic

/-!
# The directory name lookup cache

Model of `dnlc_enter` and of the functions that purge the cache, from `uts/common/fs/dnlc.c`. A step
is what a thread does between two points where another thread may come in between: the purging
functions hold `nc_rele_lock` all along, and the lock of one hash chain at a time, while an entry
that they free is at once there for `dnlc_get`. A hash chain is a list, a free entry is known by its
place in `ncache`, and a vnode by its address. Statistics and holds on vnodes and credentials are
left out.
-/
namespace Sol26.Dnlc

open Function (update)

abbrev Vnode := BitVec 32

/-- The size of the cache, and the file system of each vnode. -/
structure Config where
  ncsize : ℕ
  pos : 0 < ncsize
  vfsp : Vnode → ℕ

namespace Config

/-- `nc_hashsz` -/
def hashsz (cfg : Config) : ℕ := 2 ^ (cfg.ncsize / 2).size

/-- `nc_rsize` -/
def rsize (cfg : Config) : ℕ := 2 * cfg.ncsize

instance (cfg : Config) : NeZero cfg.hashsz := ⟨(Nat.two_pow_pos _).ne'⟩

/-- The chain of a hash signature. -/
def chain (cfg : Config) (hash : BitVec 32) : Fin cfg.hashsz :=
  ⟨hash.toNat &&& (cfg.hashsz - 1), Nat.lt_of_le_pred (Nat.two_pow_pos _) Nat.and_le_right⟩

end Config

/-- The arguments of `dnlc_enter`. -/
structure Call where
  dp : Vnode
  name : List (BitVec 8)
  vp : Vnode
  cred : BitVec 32

def ncNamlen : ℕ := 31

def anycred : BitVec 32 := -1

/-- `DNLC_HASH` -/
def dnlcHash (name : List (BitVec 8)) (vp : Vnode) : BitVec 32 :=
  name.foldl (fun hash c => (hash <<< 4) + hash + c.signExtend 32) (vp.sshiftRight 8)

/-- An entry with an identity. -/
structure Ncache where
  slot : ℕ
  call : Call
  hash : BitVec 32

def Ncache.init (slot : ℕ) (c : Call) : Ncache := ⟨slot, c, dnlcHash c.name c.dp⟩

/-- What `dnlc_search` looks for. -/
def Ncache.isFor (ncp : Ncache) (c : Call) (hash : BitVec 32) : Bool :=
  ncp.hash = hash && ncp.call.dp = c.dp && ncp.call.name.length = c.name.length &&
    (c.cred = anycred || ncp.call.cred = c.cred) && ncp.call.name = c.name

/-- Where a call of `dnlc_enter` is: at `dnlc_get`, before a chain from which it may steal an entry,
with an entry that it has got, or with one to be freed. -/
inductive Enter (cfg : Config)
  | get (c : Call)
  | steal (c : Call) (hp last : Fin cfg.hashsz)
  | got (ncp : Ncache)
  | dblEnter (slot : ℕ)

/-- The purging functions. -/
inductive Kind
  | purge
  | purgeVp (vp : Vnode)
  | purgeVfsp (vfsp : ℕ) (count : ℤ)

/-- Whether an entry is to be purged. -/
def Kind.purges (cfg : Config) (ncp : Ncache) : Kind → Bool
  | purge => true
  | purgeVp vp => ncp.call.dp = vp || ncp.call.vp = vp
  | purgeVfsp vfsp _ => cfg.vfsp ncp.call.dp = vfsp || cfg.vfsp ncp.call.vp = vfsp

/-- Whether the loop over a chain is left when so many entries are purged. -/
def Kind.breaks (n : ℕ) : Kind → Bool
  | purgeVfsp _ count => count ≠ 0 && count ≤ n
  | _ => false

/-- Where the loops are: before a chain, or at an entry of a chain whose lock is held. -/
inductive At (cfg : Config)
  | before (nch : ℕ)
  | inside (nch : Fin cfg.hashsz) (place : ℕ)

/-- A purge under way. -/
structure Purge (cfg : Config) where
  kind : Kind
  pc : At cfg
  index : ℕ
  n : ℕ

/-- The chains, the free entries, the rotor, the calls under way and the writes to `nc_rele`, the
last one first. -/
structure Cache (cfg : Config) where
  chains : Fin cfg.hashsz → List Ncache
  freelist : List ℕ
  freeRotor : Fin cfg.hashsz
  enters : List (Enter cfg)
  purge : Option (Purge cfg)
  rele : List (ℕ × Option Vnode)

variable {cfg : Config}

/-- `dnlc_init` -/
def Cache.init (cfg : Config) : Cache cfg where
  chains _ := []
  freelist := (List.range cfg.ncsize).reverse
  freeRotor := 0
  enters := []
  purge := none
  rele := []

/-- The purge holds the lock of the chain. -/
def Cache.locked (s : Cache cfg) (h : Fin cfg.hashsz) : Bool :=
  match s.purge with
  | some ⟨_, .inside nch _, _, _⟩ => nch = h
  | _ => false

/-- The entry that is stolen from a chain, as its place from the end: one whose vnode is not in use
elsewhere, or the last one. -/
def victim (idle : Vnode → Bool) (chain : List Ncache) : ℕ :=
  (chain.reverse.findIdx? fun ncp => idle ncp.call.vp).getD 0

/-- A step of `dnlc_enter`, with the calls that are left of it; `none` if it has to wait. -/
def Cache.enter (s : Cache cfg) (idle : Vnode → Bool) :
    Enter cfg → Option (Cache cfg × List (Enter cfg))
  | .get c =>
    match s.freelist with
    | slot :: rest => some ({ s with freelist := rest }, [.got (.init slot c)])
    | [] => some ({ s with freeRotor := s.freeRotor + 1 }, [.steal c (s.freeRotor + 1) s.freeRotor])
  | .steal c hp last =>
    if s.chains hp ≠ [] ∧ s.locked hp then none
    else
      match (s.chains hp).reverse[victim idle (s.chains hp)]? with
      | some ncp =>
        let rest := ((s.chains hp).reverse.eraseIdx (victim idle (s.chains hp))).reverse
        some ({ s with chains := update s.chains hp rest }, [.got (.init ncp.slot c)])
      | none =>
        if hp = last then some (s, [])
        else some ({ s with freeRotor := hp + 1 }, [.steal c (hp + 1) last])
  | .got ncp =>
    let hp := cfg.chain ncp.hash
    if s.locked hp then none
    else if (s.chains hp).any (·.isFor ncp.call ncp.hash) then some (s, [.dblEnter ncp.slot])
    else some ({ s with chains := update s.chains hp (ncp :: s.chains hp) }, [])
  | .dblEnter slot => some ({ s with freelist := slot :: s.freelist }, [])

/-- A step of the loops of a purge. -/
def Cache.scan (s : Cache cfg) (p : Purge cfg) : Cache cfg :=
  match p.pc with
  | .before nch =>
    if h : nch < cfg.hashsz then { s with purge := some { p with pc := .inside ⟨nch, h⟩ 0 } }
    else { s with
      purge := none
      rele := (List.range p.index).reverse.map (fun i => (i, none)) ++ s.rele }
  | .inside nch place =>
    match (s.chains nch)[place]? with
    | none => { s with purge := some { p with pc := .before (nch + 1) } }
    | some ncp =>
      if p.kind.purges cfg ncp then
        { s with
          chains := update s.chains nch ((s.chains nch).eraseIdx place)
          freelist := ncp.slot :: s.freelist
          purge := some { p with
            pc := if p.kind.breaks (p.n + 1) then .before (nch + 1) else .inside nch place
            index := p.index + 2
            n := p.n + 1 }
          rele := (p.index + 1, some ncp.call.dp) :: (p.index, some ncp.call.vp) :: s.rele }
      else { s with purge := some { p with pc := .inside nch (place + 1) } }

inductive Event
  | call (c : Call)
  | enter (k : ℕ) (idle : Vnode → Bool)
  | purge (kind : Kind)
  | scan

/-- What happens; `none` if it cannot. -/
def Cache.exec (s : Cache cfg) : Event → Option (Cache cfg)
  | .call c => some { s with
      enters := if c.name.length ≤ ncNamlen then .get c :: s.enters else s.enters }
  | .enter k idle => do
    let t ← s.enters[k]?
    let (s', left) ← s.enter idle t
    return { s' with enters := s.enters.take k ++ left ++ s.enters.drop (k + 1) }
  | .purge kind =>
      if s.purge.isNone then some { s with purge := some ⟨kind, .before 0, 0, 0⟩ } else none
  | .scan => s.purge.map s.scan

def run (cfg : Config) (events : List Event) : Option (Cache cfg) :=
  events.foldlM Cache.exec (.init cfg)

end Sol26.Dnlc
