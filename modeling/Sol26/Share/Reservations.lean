import Mathlib.Tactic

/-!
# Share reservations

`add_share` and `del_share` of `os/share.c`: the reservations of a vnode, the newest first.
-/

namespace Sol26.Share

/-- Share modes of `sys/fcntl.h`. -/
def rdacc : BitVec 16 := 0x1
def wracc : BitVec 16 := 0x2
def rwacc : BitVec 16 := 0x3
def nodny : BitVec 16 := 0x0
def rddny : BitVec 16 := 0x1
def wrdny : BitVec 16 := 0x2
def rwdny : BitVec 16 := 0x3
def compat : BitVec 16 := 0x8

/-- `struct shrlock`; the length of the owner is `own_len`. -/
structure Shrlock where
  access : BitVec 16
  deny : BitVec 16
  sysid : ℤ
  pid : ℤ
  owner : List UInt8
deriving DecidableEq

inductive Errno
  | einval | eexist | eagain
deriving DecidableEq

/-- A bit of the mask is set. -/
def has (mode mask : BitVec 16) : Bool := mode &&& mask != 0

namespace Shrlock

def isCompat (s : Shrlock) : Bool := has s.deny compat

/-- "Sanity check to make sure we have valid options." -/
def badOptions (shr : Shrlock) : Bool :=
  shr.access == 0 || has shr.access (~~~(rdacc ||| wracc ||| rwacc)) ||
    has shr.deny (~~~(nodny ||| rddny ||| wrdny ||| rwdny ||| compat))

/-- The share owner matches. -/
def sameOwner (s shr : Shrlock) : Bool :=
  s.sysid == shr.sysid && s.pid == shr.pid && s.owner == shr.owner

/-- "Make sure no other deny modes are also set with F_COMPAT" -/
def stored (shr : Shrlock) : Shrlock :=
  if shr.isCompat then { shr with deny := compat } else shr

end Shrlock

/-- What one reservation of the list says to a request. -/
inductive Verdict
  | stop (r : Except Errno Unit)
  | continue

/-- The body of the loop of `add_share`.  `first` tells that it is the first share, which is the
last of the list. -/
def judge (readonly : Bool) (shr s : Shrlock) (first : Bool) : Verdict :=
  if s.sameOwner shr ∧ s.access = shr.access ∧ s.deny = shr.deny then .stop (.error .eexist)
  else if s.sameOwner shr ∧ s.isCompat ∧ shr.isCompat ∧ (first ∨ has s.access wracc) then
    .stop (.ok ())
  else if s.isCompat ∧ first then
    if !shr.isCompat then
      if has shr.access wracc ∨ has shr.deny rddny ∨ has s.access wracc then
        .stop (.error .eagain)
      else if readonly then .stop (.ok ())
      else .stop (.error .eagain)
    else if shr.access = rdacc ∧ s.access = rdacc then .stop (.ok ())
    else .stop (.error .eagain)
  else if s.isCompat ∧ shr.isCompat then .continue
  else if shr.isCompat then
    if has shr.access wracc ∨ has s.deny rddny ∨ has s.access wracc then .stop (.error .eagain)
    else if first then
      if s.access = rdacc ∧ readonly then .stop (.ok ()) else .stop (.error .eagain)
    else .continue
  else if has shr.access s.deny ∨ has shr.deny s.access then .stop (.error .eagain)
  else .continue

def scan (readonly : Bool) (shr : Shrlock) : List Shrlock → Except Errno Unit
  | [] => .ok ()
  | s :: rest =>
    match judge readonly shr s rest.isEmpty with
    | .stop r => r
    | .continue => scan readonly shr rest

/-- `add_share`.  `readonly` is `isreadonly(vp)` at the time of the call. -/
def addShare (readonly : Bool) (l : List Shrlock) (shr : Shrlock) :
    List Shrlock × Except Errno Unit :=
  if shr.badOptions then (l, .error .einval)
  else
    match scan readonly shr l with
    | .error e => (l, .error e)
    | .ok () => (shr.stored :: l, .ok ())

/-- The condition of `del_share`. -/
def matched (shr s : Shrlock) : Bool :=
  (shr.owner.length == s.owner.length && shr.owner == s.owner) ||
    (shr.owner.length == 0 &&
      ((shr.sysid == 0 && shr.pid == s.pid) || (shr.sysid != 0 && shr.sysid == s.sysid)))

/-- The loop of `del_share`, with the number of reservations found. -/
def delLoop (shr : Shrlock) : List Shrlock → List Shrlock × ℕ
  | [] => ([], 0)
  | s :: rest =>
    let (rest, found) := delLoop shr rest
    if matched shr s then (rest, found + 1) else (s :: rest, found)

def delShare (l : List Shrlock) (shr : Shrlock) : List Shrlock × Except Errno Unit :=
  let (l, found) := delLoop shr l
  (l, if found ≠ 0 then .ok () else .error .einval)

/-! ### Compatible reservations -/

/-- Neither denies what the other accesses, unless one is in compatibility mode. -/
def Compatible (a b : Shrlock) : Prop :=
  a.isCompat = false → b.isCompat = false → a.access &&& b.deny = 0 ∧ a.deny &&& b.access = 0

/-- A request that is not in compatibility mode goes on only past what it is compatible with. -/
theorem judge_continue {readonly : Bool} {shr s : Shrlock} {first : Bool}
    (hshr : shr.isCompat = false) (h : judge readonly shr s first = .continue) :
    Compatible shr s := by
  intro _ hs
  simp only [judge, hshr, hs, Bool.false_eq_true, false_and, and_false, if_false] at h
  split_ifs at h with h1 h2
  rw [not_or] at h2
  simpa [has] using h2

/-- It is allowed without more ado only at the first share, in compatibility mode. -/
theorem judge_stop {readonly : Bool} {shr s : Shrlock} {first : Bool}
    (hshr : shr.isCompat = false) (h : judge readonly shr s first = .stop (.ok ())) :
    s.isCompat = true ∧ first = true := by
  simp only [judge, hshr] at h
  split_ifs at h <;> simp_all

theorem scan_ok {readonly : Bool} {shr : Shrlock} (hshr : shr.isCompat = false) :
    ∀ l : List Shrlock, scan readonly shr l = .ok () → ∀ s ∈ l, Compatible shr s := by
  intro l
  induction l with
  | nil => simp
  | cons s rest ih =>
    intro hok
    rw [scan] at hok
    cases hj : judge readonly shr s rest.isEmpty with
    | stop r =>
      rw [hj] at hok
      subst hok
      obtain ⟨hs, hfirst⟩ := judge_stop hshr hj
      rw [List.isEmpty_iff] at hfirst
      subst hfirst
      intro t ht
      obtain rfl := List.mem_singleton.mp ht
      intro _ hnot
      simp [hs] at hnot
    | «continue» =>
      rw [hj] at hok
      exact List.forall_mem_cons.mpr ⟨judge_continue hshr hj, ih hok⟩

theorem stored_isCompat (shr : Shrlock) : shr.stored.isCompat = shr.isCompat := by
  rw [Shrlock.stored]
  split_ifs with h
  · rw [h]
    exact show has compat compat = true by decide
  · rfl

theorem stored_of_not (shr : Shrlock) (h : shr.isCompat = false) : shr.stored = shr := by
  rw [Shrlock.stored, h]
  rfl

/-- What `add_share` can do. -/
theorem addShare_cases (readonly : Bool) (l : List Shrlock) (shr : Shrlock) :
    (∃ e, addShare readonly l shr = (l, .error e)) ∨
      (addShare readonly l shr = (shr.stored :: l, .ok ()) ∧ scan readonly shr l = .ok ()) := by
  rw [addShare]
  split_ifs
  · exact .inl ⟨_, rfl⟩
  · cases hscan : scan readonly shr l with
    | error e => exact .inl ⟨e, rfl⟩
    | ok u => exact .inr ⟨rfl, rfl⟩

theorem addShare_compatible {readonly : Bool} {l : List Shrlock} (h : l.Pairwise Compatible)
    (shr : Shrlock) : (addShare readonly l shr).1.Pairwise Compatible := by
  obtain ⟨e, heq⟩ | ⟨heq, hok⟩ := addShare_cases readonly l shr
  · rw [heq]
    exact h
  · rw [heq]
    refine List.pairwise_cons.mpr ⟨fun s hs => ?_, h⟩
    cases hshr : shr.isCompat with
    | true =>
      intro hnot
      simp [stored_isCompat, hshr] at hnot
    | false =>
      rw [stored_of_not shr hshr]
      exact scan_ok hshr l hok s hs

/-! ### Deleting -/

/-- The reservations that `del_share` is to delete: "the shares with the matching sysid and owner";
for an empty owner all with the sysid, or all with the pid if there is none. -/
def wanted (shr s : Shrlock) : Bool :=
  if shr.owner = [] then if shr.sysid = 0 then s.pid == shr.pid else s.sysid == shr.sysid
  else s.sysid == shr.sysid && s.owner == shr.owner

/-- Exactly the wanted reservations are removed. -/
def DeletesExactly (l : List Shrlock) (shr : Shrlock) : Prop :=
  (delShare l shr).1 = l.filter fun s => !wanted shr s

/-- Reservations with the owner of the request have its sysid or, for a request without an owner
and sysid, its pid. -/
def OwnersTell (l : List Shrlock) (shr : Shrlock) : Prop :=
  ∀ s ∈ l, s.owner = shr.owner →
    if shr.owner = [] ∧ shr.sysid = 0 then s.pid = shr.pid else s.sysid = shr.sysid

theorem delLoop_eq (shr : Shrlock) (l : List Shrlock) :
    delLoop shr l = (l.filter fun s => !matched shr s, l.countP (matched shr)) := by
  induction l with
  | nil => rfl
  | cons s rest ih =>
    rw [delLoop, ih]
    cases hm : matched shr s <;> simp [hm]

theorem delShare_fst (l : List Shrlock) (shr : Shrlock) :
    (delShare l shr).1 = l.filter fun s => !matched shr s := by
  rw [delShare, delLoop_eq]

theorem matched_iff (shr s : Shrlock) : matched shr s = true ↔ s.owner = shr.owner ∨
    (shr.owner = [] ∧ if shr.sysid = 0 then s.pid = shr.pid else s.sysid = shr.sysid) := by
  have hown : (shr.owner.length = s.owner.length ∧ shr.owner = s.owner) ↔ s.owner = shr.owner :=
    ⟨fun h => h.2.symm, fun h => ⟨by rw [h], h.symm⟩⟩
  simp only [matched, Bool.or_eq_true, Bool.and_eq_true, beq_iff_eq, bne_iff_ne,
    List.length_eq_zero_iff, hown]
  by_cases hsys : shr.sysid = 0
  · simp only [hsys, true_and, ne_eq, not_true_eq_false, false_and, or_false, if_true,
      eq_comm (a := s.pid)]
  · simp only [hsys, false_and, ne_eq, not_false_eq_true, true_and, false_or, if_false,
      eq_comm (a := s.sysid)]

theorem wanted_iff (shr s : Shrlock) : wanted shr s = true ↔
    if shr.owner = [] then if shr.sysid = 0 then s.pid = shr.pid else s.sysid = shr.sysid
    else s.sysid = shr.sysid ∧ s.owner = shr.owner := by
  rw [wanted]
  split_ifs <;> simp

theorem matched_eq_wanted_iff (shr s : Shrlock) :
    matched shr s = wanted shr s ↔ (s.owner = shr.owner →
      if shr.owner = [] ∧ shr.sysid = 0 then s.pid = shr.pid else s.sysid = shr.sysid) := by
  rw [Bool.eq_iff_iff, matched_iff, wanted_iff]
  by_cases hnil : shr.owner = []
  · by_cases hsys : shr.sysid = 0 <;> simp only [hnil, hsys] <;> tauto
  · simp only [hnil, if_false, false_and, or_false]
    tauto

theorem filter_eq_filter_iff {α : Type*} {p q : α → Bool} {l : List α} :
    l.filter p = l.filter q ↔ ∀ a ∈ l, p a = q a := by
  constructor
  · intro h a ha
    have hmem : a ∈ l.filter p ↔ a ∈ l.filter q := by rw [h]
    rw [List.mem_filter, List.mem_filter] at hmem
    rw [Bool.eq_iff_iff]
    exact ⟨fun hp => (hmem.mp ⟨ha, hp⟩).2, fun hq => (hmem.mpr ⟨ha, hq⟩).2⟩
  · exact List.filter_congr

theorem deletesExactly_iff (l : List Shrlock) (shr : Shrlock) :
    DeletesExactly l shr ↔ OwnersTell l shr := by
  rw [DeletesExactly, delShare_fst, filter_eq_filter_iff]
  refine forall₂_congr fun s _ => ?_
  rw [Bool.not_inj_iff, matched_eq_wanted_iff]

/-! ### Runs -/

inductive Call
  | add (readonly : Bool) (shr : Shrlock)
  | del (shr : Shrlock)

def Call.step (l : List Shrlock) : Call → List Shrlock
  | .add readonly shr => (addShare readonly l shr).1
  | .del shr => (delShare l shr).1

/-- The reservations after the calls, on a vnode without any at first. -/
def run (calls : List Call) : List Shrlock := calls.foldl Call.step []

theorem step_compatible {l : List Shrlock} (h : l.Pairwise Compatible) (c : Call) :
    (c.step l).Pairwise Compatible := by
  cases c with
  | add readonly shr => exact addShare_compatible h shr
  | del shr =>
    rw [Call.step, delShare_fst]
    exact h.filter _

theorem run_compatible (calls : List Call) : (run calls).Pairwise Compatible := by
  have hrun : ∀ l : List Shrlock, l.Pairwise Compatible →
      (calls.foldl Call.step l).Pairwise Compatible := by
    induction calls with
    | nil => exact fun _ h => h
    | cons c calls ih => exact fun l h => ih _ (step_compatible h c)
  exact hrun [] List.Pairwise.nil

/-- In every state reached, the reservations are compatible, a failed `add_share` changes nothing,
and `del_share` removes exactly what it should if and only if owners tell the sysid (or pid). -/
theorem shares_compatible_and_owned (calls : List Call) :
    (run calls).Pairwise Compatible ∧
      (∀ readonly shr e, (addShare readonly (run calls) shr).2 = .error e →
        (addShare readonly (run calls) shr).1 = run calls) ∧
      ∀ shr, DeletesExactly (run calls) shr ↔ OwnersTell (run calls) shr := by
  refine ⟨run_compatible calls, fun readonly shr e herr => ?_, deletesExactly_iff _⟩
  obtain ⟨e', heq⟩ | ⟨heq, -⟩ := addShare_cases readonly (run calls) shr
  · rw [heq]
  · simp [heq] at herr

/-- Two clients with owners of their own: each can release its reservation. -/
theorem shares_ownNames :
    DeletesExactly (run [.add false ⟨rdacc, nodny, 1, 0, [7]⟩, .add false ⟨rdacc, wrdny, 2, 0, [8]⟩])
      ⟨0, 0, 1, 0, [7]⟩ := by
  refine ((shares_compatible_and_owned _).2.2 _).mpr ?_
  rw [OwnersTell]
  decide

/-- Two clients read a file, and name their owners alike. -/
def twoClients : List Call :=
  [.add false ⟨rdacc, nodny, 1, 0, [7]⟩, .add false ⟨rdacc, nodny, 2, 0, [7]⟩]

/-- The first client releases its reservation, and with it that of the second. -/
theorem not_deletesExactly_twoClients :
    run twoClients = [⟨rdacc, nodny, 2, 0, [7]⟩, ⟨rdacc, nodny, 1, 0, [7]⟩] ∧
      delShare (run twoClients) ⟨0, 0, 1, 0, [7]⟩ = ([], .ok ()) ∧
      ¬DeletesExactly (run twoClients) ⟨0, 0, 1, 0, [7]⟩ := by
  refine ⟨by decide, by rfl, ?_⟩
  rw [DeletesExactly]
  decide

end Sol26.Share
