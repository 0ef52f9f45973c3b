import Sol26.Msg.Locks

/-!
# The sleepers of the message calls

A thread that sleeps has set the flag of its queue, and whoever gives what it waits for finds the
flag or an empty free list and wakes all threads that wait. Two commands of `msgctl` do not: `IPC_SET`
may raise the limit of a queue and wakes nobody, and `IPC_RMID` wakes those who wait for a header or
for segments only through the messages that it frees.
-/
namespace Sol26.Msg

open Function (update update_of_ne update_self)

variable {T : Type*} {c : Msginfo} {k : Kernel T} {s s' : System T} {q : ℕ}

/-! ### What is found -/

/-- The message is one that `msgrcv` would take. -/
def Message.Suits (m : Message) (msgtyp : ℤ) : Prop :=
  msgtyp = 0 ∨ 0 < msgtyp ∧ m.type = msgtyp ∨ msgtyp < 0 ∧ m.type ≤ negLong msgtyp

variable {call : Call} {msgs : List Message} {i : ℕ} {msgtyp : ℤ}

theorem findLoop_eq_none (h0 : msgtyp ≠ 0)
    {smp : Option (ℕ × Message)} (h : findLoop msgtyp msgs i smp = none) :
    smp = none ∧ ∀ m ∈ msgs, ¬ m.Suits msgtyp := by
  induction msgs generalizing i smp with
  | nil => exact ⟨h, by simp⟩
  | cons mp rest ih =>
    unfold findLoop at h
    split_ifs at h with hpos hne hbest
    · obtain ⟨rfl, hrest⟩ := ih h
      refine ⟨rfl, List.forall_mem_cons.2 ⟨?_, hrest⟩⟩
      rintro (hz | ⟨-, heq⟩ | ⟨hneg, -⟩)
      · exact h0 hz
      · exact hne heq.symm
      · omega
    · simpa using (ih h).1
    · obtain ⟨rfl, hrest⟩ := ih h
      refine ⟨rfl, List.forall_mem_cons.2 ⟨?_, hrest⟩⟩
      rintro (hz | ⟨hp, -⟩ | ⟨-, hle⟩)
      · exact h0 hz
      · exact hpos hp
      · exact hbest ⟨hle, by simp⟩

/-- If nothing is found, no message suits. -/
theorem findmsg_eq_none (h : findmsg msgtyp msgs = none) : ∀ m ∈ msgs, ¬ m.Suits msgtyp := by
  unfold findmsg at h
  split_ifs at h with h0
  · rw [Option.map_eq_none_iff, List.head?_eq_none_iff] at h
    simp [h]
  · exact (findLoop_eq_none h0 h).2

/-! ### The invariant -/

/-- The queue that the call is for. -/
def Call.msqid : Call → ℤ
  | .rcv msqid _ _ _ | .snd _ msqid _ _ => msqid

/-- What the call waits for is not there, and whoever provides it will see to a wakeup. -/
def System.Lacks (c : Msginfo) (s : System T) : Call → Prop
  | .rcv msqid _ msgtyp _ => (s.msgque (c.slot msqid)).rwait = true ∧
      ∀ m ∈ (s.msgque (c.slot msqid)).msgs, ¬ m.Suits msgtyp
  | .snd .bytes msqid cnt _ => (s.msgque (c.slot msqid)).wwait = true ∧
      (s.msgque (c.slot msqid)).qbytes < cnt + (s.msgque (c.slot msqid)).cbytes
  | .snd .header _ _ _ => s.msgfp = 0
  | .snd .map _ _ _ => s.mapwant ≠ 0

/-- A thread may sleep in the call. -/
def System.Waits (c : Msginfo) (s : System T) (call : Call) : Prop :=
  ¬ s.gone c call.msqid ∧ s.Lacks c call

def Inv (c : Msginfo) (s : System T) : Prop :=
  ∀ t call, s.threads t = .asleep call → s.Waits c call

theorem System.Waits.congr (h : s.Waits c call)
    (hque : s'.msgque (c.slot call.msqid) = s.msgque (c.slot call.msqid))
    (hfp : s'.msgfp = s.msgfp) (hmap : s'.mapwant = s.mapwant) : s'.Waits c call := by
  refine ⟨by rw [System.gone, hque]; exact h.1, ?_⟩
  rcases call with _ | ⟨_ | _ | _, _, _, _⟩ <;> rw [Call.msqid] at hque
  all_goals simpa only [System.Lacks, hque, hfp, hmap] using h.2

/-- The free headers and the map change, and some threads are woken. -/
theorem Inv.resources (h : Inv c s) (hque : s'.msgque = s.msgque)
    (hsub : ∀ t call, s'.threads t = .asleep call → s.threads t = .asleep call)
    (hfp : ∀ t msqid cnt type, s'.threads t = .asleep (.snd .header msqid cnt type) → s'.msgfp = 0)
    (hmap : ∀ t msqid cnt type, s'.threads t = .asleep (.snd .map msqid cnt type) →
      s'.mapwant ≠ 0) : Inv c s' := by
  intro t call ht
  obtain ⟨hgone, hlacks⟩ := h t call (hsub t call ht)
  refine ⟨by rwa [System.gone, hque], ?_⟩
  rcases call with ⟨msqid, msgsz, msgtyp, noerror⟩ | ⟨_ | _ | _, msqid, cnt, type⟩
  · simpa only [System.Lacks, hque] using hlacks
  · simpa only [System.Lacks, hque] using hlacks
  · exact hfp t msqid cnt type ht
  · exact hmap t msqid cnt type ht

/-- One queue changes, and some threads are woken. -/
theorem Inv.change (h : Inv c s) (hfp : s'.msgfp = s.msgfp) (hmap : s'.mapwant = s.mapwant)
    (hque : ∀ p, p ≠ q → s'.msgque p = s.msgque p)
    (hsub : ∀ t call, s'.threads t = .asleep call → s.threads t = .asleep call)
    (hcall : ∀ t call, s'.threads t = .asleep call → c.slot call.msqid = q → s'.Waits c call) :
    Inv c s' := by
  intro t call ht
  by_cases hq : c.slot call.msqid = q
  · exact hcall t call ht hq
  · exact (h t call (hsub t call ht)).congr (hque _ hq) hfp hmap

/-- The queue stays what it is. -/
theorem Inv.edit (h : Inv c s) (hfp : s'.msgfp = s.msgfp) (hmap : s'.mapwant = s.mapwant)
    (hque : ∀ p, p ≠ q → s'.msgque p = s.msgque p)
    (hid : (s'.msgque q).alloc = (s.msgque q).alloc ∧ (s'.msgque q).seq = (s.msgque q).seq)
    (hsub : ∀ t call, s'.threads t = .asleep call → s.threads t = .asleep call)
    (hrcv : ∀ t call msgtyp, s'.threads t = .asleep call → call.cv c = .qnum q →
      (s.msgque q).rwait = true → (∀ m ∈ (s.msgque q).msgs, ¬ m.Suits msgtyp) →
        (s'.msgque q).rwait = true ∧ ∀ m ∈ (s'.msgque q).msgs, ¬ m.Suits msgtyp)
    (hsnd : ∀ t msqid cnt type, s'.threads t = .asleep (.snd .bytes msqid cnt type) →
      c.slot msqid = q → (s.msgque q).wwait = true →
      (s.msgque q).qbytes < cnt + (s.msgque q).cbytes →
        (s'.msgque q).wwait = true ∧ (s'.msgque q).qbytes < cnt + (s'.msgque q).cbytes) :
    Inv c s' := by
  refine h.change hfp hmap hque hsub fun t call ht hq => ?_
  obtain ⟨hgone, hlacks⟩ := h t call (hsub t call ht)
  subst hq
  refine ⟨by rwa [System.gone, hid.1, hid.2], ?_⟩
  rcases call with ⟨msqid, msgsz, msgtyp, noerror⟩ | ⟨_ | _ | _, msqid, cnt, type⟩
  · exact hrcv t _ msgtyp ht rfl hlacks.1 hlacks.2
  · exact hsnd t msqid cnt type ht rfl hlacks.1 hlacks.2
  · exact hfp.trans hlacks
  · simpa only [System.Lacks, hmap] using hlacks

namespace Kernel

variable {flag nowait : Bool} {cv : Cv} {cnt : ℕ} {msqid type : ℤ}

theorem asleep_broadcast {t : T} :
    (k.broadcast c cv).threads t = .asleep call ↔ k.threads t = .asleep call ∧ call.cv c ≠ cv := by
  simp only [broadcast]
  cases hstatus : k.threads t with
  | out => simp
  | woken call' => simp
  | asleep call' =>
    dsimp only
    by_cases hcv : call'.cv c = cv
    · rw [if_pos hcv]
      simp only [reduceCtorEq, Status.asleep.injEq, false_iff, not_and, not_not]
      rintro rfl
      exact hcv
    · rw [if_neg hcv]
      simp only [Status.asleep.injEq, iff_self_and]
      rintro rfl
      exact hcv

/-- The wakeup that depends on a flag. -/
def wake (c : Msginfo) (k : Kernel T) (flag : Bool) (cv : Cv) : Kernel T :=
  if flag then k.broadcast c cv else k

theorem asleep_of_wake {t : T} (h : (k.wake c flag cv).threads t = .asleep call) :
    k.threads t = .asleep call ∧ (flag = true → call.cv c ≠ cv) := by
  unfold wake at h
  split_ifs at h with hflag
  · obtain ⟨hold, hne⟩ := asleep_broadcast.1 h
    exact ⟨hold, fun _ => hne⟩
  · exact ⟨h, fun hf => absurd hf hflag⟩

theorem wake_eq : (k.wake c flag cv).msgque = k.msgque ∧ (k.wake c flag cv).msgfp = k.msgfp ∧
    (k.wake c flag cv).mapwant = k.mapwant := by
  unfold wake
  split_ifs <;> exact ⟨rfl, rfl, rfl⟩

theorem putHeader_spec (k : Kernel T) : (k.putHeader c).msgque = k.msgque ∧
    (k.putHeader c).msgfp = k.msgfp + 1 ∧ (k.putHeader c).mapwant = k.mapwant ∧
    ∀ t call, (k.putHeader c).threads t = .asleep call →
      k.threads t = .asleep call ∧ (k.msgfp = 0 → call.cv c ≠ .msgfp) := by
  unfold putHeader
  dsimp only
  split_ifs with hfp
  · refine ⟨rfl, rfl, rfl, fun t call ht => ?_⟩
    obtain ⟨hold, hne⟩ := asleep_broadcast.1 ht
    exact ⟨hold, fun _ => hne⟩
  · exact ⟨rfl, rfl, rfl, fun t call ht => ⟨ht, fun h0 => absurd h0 hfp⟩⟩

theorem rmfree_spec (k : Kernel T) : (k.rmfree c).msgque = k.msgque ∧
    (k.rmfree c).msgfp = k.msgfp ∧ (k.rmfree c).mapwant = 0 ∧
    ∀ t call, (k.rmfree c).threads t = .asleep call →
      k.threads t = .asleep call ∧ (k.mapwant ≠ 0 → call.cv c ≠ .map) := by
  unfold rmfree
  dsimp only
  split_ifs with hmap
  · refine ⟨rfl, rfl, rfl, fun t call ht => ?_⟩
    obtain ⟨hold, hne⟩ := asleep_broadcast.1 ht
    exact ⟨hold, fun _ => hne⟩
  · exact ⟨rfl, rfl, not_not.1 hmap, fun t call ht => ⟨ht, fun h0 => absurd h0 hmap⟩⟩

theorem putHeader_inv (h : Inv c k.toSystem) : Inv c (k.putHeader c).toSystem := by
  obtain ⟨hque, -, hmap, hasleep⟩ := k.putHeader_spec (c := c)
  refine h.resources hque (fun t call ht => (hasleep t call ht).1) (fun t _ _ _ ht => ?_)
    fun t _ _ _ ht => ?_
  · obtain ⟨hold, hne⟩ := hasleep t _ ht
    exact absurd rfl (hne (h t _ hold).2)
  · rw [hmap]
    exact (h t _ (hasleep t _ ht).1).2

theorem rmfree_inv (h : Inv c k.toSystem) : Inv c (k.rmfree c).toSystem := by
  obtain ⟨hque, hfp, -, hasleep⟩ := k.rmfree_spec (c := c)
  refine h.resources hque (fun t call ht => (hasleep t call ht).1) (fun t _ _ _ ht => ?_)
    fun t _ _ _ ht => ?_
  · rw [hfp]
    exact (h t _ (hasleep t _ ht).1).2
  · obtain ⟨hold, hne⟩ := hasleep t _ ht
    exact absurd rfl (hne (h t _ hold).2)

/-- The first half of `msgfree`, which is about the queue. -/
def unlink (c : Msginfo) (k : Kernel T) (q i : ℕ) : Kernel T :=
  ((k.setQue q { k.msgque q with msgs := (k.msgque q).msgs.eraseIdx i, wwait := false }).op
    .takeHeader).wake c (k.msgque q).wwait (.bytes q)

theorem asleep_of_unlink {t : T} (h : (k.unlink c q i).threads t = .asleep call) :
    k.threads t = .asleep call ∧ ((k.msgque q).wwait = true → call.cv c ≠ .bytes q) := by
  have := asleep_of_wake (k := Kernel.op _ _) h
  exact this

theorem msgfree_eq {mp : Message} : k.msgfree c q i mp =
    (if mp.ts ≠ 0 then ((k.unlink c q i).op .takeSegs).rmfree c else k.unlink c q i).putHeader c :=
  rfl

theorem msgfree_spec (mp : Message) : (k.msgfree c q i mp).msgfp = k.msgfp + 1 ∧
    (k.msgfree c q i mp).mapwant = (if mp.ts ≠ 0 then 0 else k.mapwant) ∧
    ∀ t call, (k.msgfree c q i mp).threads t = .asleep call → k.threads t = .asleep call := by
  have hfp : (k.unlink c q i).msgfp = k.msgfp := wake_eq.2.1
  have hmap : (k.unlink c q i).mapwant = k.mapwant := wake_eq.2.2
  rw [msgfree_eq]
  obtain ⟨-, hfp', hmap', hasleep⟩ := putHeader_spec (c := c)
    (if mp.ts ≠ 0 then ((k.unlink c q i).op .takeSegs).rmfree c else k.unlink c q i)
  rw [hfp', hmap']
  split_ifs at hasleep ⊢ with hts
  · obtain ⟨-, hfp'', hmap'', hasleep'⟩ := rmfree_spec (c := c) ((k.unlink c q i).op .takeSegs)
    refine ⟨by rw [hfp'']; exact congrArg (· + 1) hfp, hmap'', fun t call ht => ?_⟩
    have hold := (hasleep' t call (hasleep t call ht).1).1
    exact (asleep_of_unlink hold).1
  · exact ⟨congrArg (· + 1) hfp, hmap, fun t call ht => (asleep_of_unlink (hasleep t call ht).1).1⟩

/-- A message is freed after the count of bytes has changed: who waits for bytes is woken. -/
theorem msgfree_inv {n : ℕ} {mp : Message} (h : Inv c k.toSystem) :
    Inv c ((k.setQue q { k.msgque q with cbytes := n }).msgfree c q i mp).toSystem := by
  let k1 := k.setQue q { k.msgque q with cbytes := n }
  have hqp : k1.msgque q = { k.msgque q with cbytes := n } := update_self _ _ _
  have hunlink : Inv c (k1.unlink c q i).toSystem := by
    have hq : (k1.unlink c q i).msgque q = { k1.msgque q with
        msgs := (k1.msgque q).msgs.eraseIdx i, wwait := false } :=
      (congrFun wake_eq.1 q).trans (update_self _ _ _)
    rw [hqp] at hq
    refine h.edit (q := q) wake_eq.2.1 wake_eq.2.2 (fun p hp => ?_) (by rw [hq]; exact ⟨rfl, rfl⟩)
      (fun t call ht => (asleep_of_unlink (k := k1) ht).1) (fun t call msgtyp ht _ hr hnone => ?_)
      fun t msqid cnt type ht hs hw _ => ?_
    · refine (congrFun wake_eq.1 p).trans ?_
      exact (update_of_ne hp _ _).trans (update_of_ne hp _ _)
    · rw [hq]
      exact ⟨hr, fun m hm => hnone m (List.mem_of_mem_eraseIdx hm)⟩
    · have hne := (asleep_of_unlink (k := k1) ht).2
      rw [hqp] at hne
      exact absurd (congrArg Cv.bytes hs) (hne hw)
  rw [msgfree_eq]
  refine putHeader_inv ?_
  split_ifs
  · exact rmfree_inv (k := (k1.unlink c q i).op .takeSegs) hunlink
  · exact hunlink

theorem freeAll_inv (h : Inv c k.toSystem) : Inv c (freeAll c q msgs k).toSystem := by
  induction msgs generalizing k with
  | nil => exact h
  | cons mp rest ih =>
    have hself : k.setQue q { k.msgque q with cbytes := (k.msgque q).cbytes } = k := by
      simp [setQue]
    refine ih ?_
    rw [← hself]
    exact msgfree_inv h

/-- Who waits for a header is woken by any message that is freed, and who waits for segments by one
that has text. -/
theorem freeAll_spec :
    (freeAll c q msgs k).msgfp = k.msgfp + msgs.length ∧
      ((∃ m ∈ msgs, m.ts ≠ 0) ∨ k.mapwant = 0 → (freeAll c q msgs k).mapwant = 0) ∧
      ∀ t call, (freeAll c q msgs k).threads t = .asleep call → k.threads t = .asleep call := by
  induction msgs generalizing k with
  | nil => simp [freeAll]
  | cons mp rest ih =>
    obtain ⟨hfp, hmap, hasleep⟩ := ih (k := k.msgfree c q 0 mp)
    obtain ⟨hfp', hmap', hasleep'⟩ := msgfree_spec (c := c) (k := k) (q := q) (i := 0) mp
    refine ⟨?_, fun htext => hmap ?_, fun t call ht => hasleep' t call (hasleep t call ht)⟩
    · rw [freeAll, hfp, hfp', List.length_cons]
      omega
    · rw [hmap']
      by_cases hts : mp.ts ≠ 0
      · exact .inr (if_pos hts)
      · rw [if_neg hts]
        refine htext.imp_left ?_
        rintro ⟨m, hm, ht⟩
        exact ⟨m, (List.mem_cons.1 hm).resolve_left fun he => hts (he ▸ ht), ht⟩

/-- All who sleep in a call for the queue are woken by its removal. -/
theorem rmid_inv {msgid : ℤ} (h : Inv c k.toSystem)
    (hfree : ∀ u wait msqid cnt type, k.threads u = .asleep (.snd wait msqid cnt type) →
      c.slot msqid = q → (wait = .header → (k.msgque q).msgs ≠ []) ∧
        (wait = .map → ∃ m ∈ (k.msgque q).msgs, m.ts ≠ 0)) :
    Inv c (k.rmid c q msgid).toSystem := by
  unfold rmid
  have hspec := @freeAll_spec T c k q (k.msgque q).msgs
  generalize hk : freeAll c q (k.msgque q).msgs k = k1 at hspec
  obtain ⟨hfp, hmap, hsub⟩ := hspec
  have h1 : Inv c k1.toSystem := hk ▸ freeAll_inv h
  let k2 := k1.wake c (k1.msgque q).rwait (.qnum q)
  let k3 := k2.wake c (k1.msgque q).wwait (.bytes q)
  refine h1.change (q := q) (wake_eq.2.1.trans wake_eq.2.1 : k3.msgfp = k1.msgfp)
    (wake_eq.2.2.trans wake_eq.2.2 : k3.mapwant = k1.mapwant) (fun p hp => ?_)
    (fun t call ht => (asleep_of_wake (asleep_of_wake ht).1).1) fun t call ht hq => ?_
  · have hque : k3.msgque = k1.msgque := wake_eq.1.trans wake_eq.1
    exact (update_of_ne hp _ _).trans (congrFun hque p)
  · obtain ⟨ht2, hw⟩ := asleep_of_wake ht
    obtain ⟨hold, hr⟩ := asleep_of_wake ht2
    obtain ⟨-, hlacks⟩ := h1 t call hold
    have hbefore := hsub t call hold
    rcases call with ⟨msqid, msgsz, msgtyp, noerror⟩ | ⟨wait, msqid, cnt, type⟩
    · subst hq
      exact absurd rfl (hr hlacks.1)
    · obtain ⟨hheader, htext⟩ := hfree t wait msqid cnt type hbefore hq
      cases wait with
      | bytes =>
        subst hq
        exact absurd rfl (hw hlacks.1)
      | header =>
        have hzero : k1.msgfp = 0 := hlacks
        have := List.length_pos_of_ne_nil (hheader rfl)
        omega
      | map => exact absurd (hmap (.inl (htext rfl))) hlacks

/-- Fields of a queue change that no sleeper is hurt by. -/
theorem setQue_inv {qp : Msqid} (h : Inv c k.toSystem)
    (hid : qp.alloc = (k.msgque q).alloc ∧ qp.seq = (k.msgque q).seq)
    (hrcv : (k.msgque q).rwait = true → qp.rwait = true ∧ qp.msgs = (k.msgque q).msgs)
    (hsnd : (k.msgque q).wwait = true → qp.wwait = true ∧ ∀ t msqid cnt type,
      k.threads t = .asleep (.snd .bytes msqid cnt type) → c.slot msqid = q →
        qp.qbytes < cnt + qp.cbytes) : Inv c (k.setQue q qp).toSystem := by
  have hnew : (k.setQue q qp).msgque q = qp := update_self _ _ _
  refine h.edit (q := q) rfl rfl (fun p hp => update_of_ne hp _ _) (by rwa [hnew])
    (fun t call ht => ht) (fun t call msgtyp _ _ hr hnone => ?_)
    fun t msqid cnt type ht hq hw _ => ?_
  · obtain ⟨hr', hmsgs⟩ := hrcv hr
    rw [hnew, hmsgs]
    exact ⟨hr', hnone⟩
  · obtain ⟨hw', hlt⟩ := hsnd hw
    rw [hnew]
    exact ⟨hw', hlt t msqid cnt type ht hq⟩

/-- The invariant holds, and if the thread goes to sleep, it is for a reason. -/
def Good (c : Msginfo) (r : Kernel T × Outcome) : Prop :=
  Inv c r.1.toSystem ∧
    ∀ call, r.2 = .sleeps call → r.1.Waits c call

theorem Good.returns {error : Option Errno} (h : Inv c k.toSystem) :
    Good c (k, .returns error) := ⟨h, by simp⟩

/-- A sleeper's own room is what the others lack too. -/
theorem bytes_of_asleep (h : Inv c k.toSystem) {t : T}
    (ht : k.threads t = .asleep (.snd .bytes msqid cnt type)) (hq : c.slot msqid = q) :
    (k.msgque q).qbytes < cnt + (k.msgque q).cbytes := by
  subst hq
  exact (h t _ ht).2.2

theorem rcvFrom_good {msgsz : ℕ} {noerror : Bool} {u : RcvEnv}
    (h : Inv c k.toSystem) (hgone : ¬ k.gone c msqid) :
    Good c (k.rcvFrom c (c.slot msqid) msqid msgsz msgtyp nowait noerror u) := by
  unfold rcvFrom
  dsimp only
  cases hfind : findmsg msgtyp (k.msgque (c.slot msqid)).msgs with
  | some r =>
    obtain ⟨i, smp⟩ := r
    dsimp only
    split_ifs <;> first | exact .returns h | exact .returns (msgfree_inv h)
  | none =>
    dsimp only
    split_ifs
    · exact .returns h
    · refine ⟨setQue_inv h ⟨rfl, rfl⟩ (fun _ => ⟨rfl, rfl⟩)
        (fun hw => ⟨hw, fun t msqid' cnt type => bytes_of_asleep h⟩), ?_⟩
      rintro call ⟨⟩
      have hnew : (k.setQue (c.slot msqid) { k.msgque (c.slot msqid) with
        rwait := true }).msgque (c.slot msqid) = _ := update_self _ _ _
      refine ⟨?_, ?_⟩
      · rwa [System.gone, Call.msqid, hnew]
      · rw [System.Lacks, hnew]
        exact ⟨rfl, findmsg_eq_none hfind⟩

theorem enqueue_inv (h : Inv c k.toSystem) : Inv c (k.enqueue c q cnt type).toSystem := by
  let qp := k.msgque q
  let k1 := k.setQue q { qp with
    msgs := qp.msgs ++ [⟨type, cnt % 2 ^ 16⟩]
    cbytes := qp.cbytes + cnt
    rwait := false }
  let k2 := k1.wake c qp.rwait (.qnum q)
  have hk2 : Inv c k2.toSystem := by
    have hq : k2.msgque q = _ := (congrFun wake_eq.1 q).trans (update_self _ _ _)
    refine h.edit (q := q) (wake_eq (k := k1)).2.1 (wake_eq (k := k1)).2.2 (fun p hp => ?_)
      (by rw [hq]; exact ⟨rfl, rfl⟩) (fun t call ht => (asleep_of_wake (k := k1) ht).1)
      (fun t call msgtyp ht hs hr _ => ?_) fun t msqid cnt' _ _ _ hw hlt => ?_
    · exact (congrFun wake_eq.1 p).trans (update_of_ne hp _ _)
    · exact absurd hs ((asleep_of_wake (k := k1) ht).2 hr)
    · rw [hq]
      exact ⟨hw, hlt.trans_le (Nat.add_le_add_left (Nat.le_add_right _ _) _)⟩
  change Inv c (if cnt ≠ 0 then (k2.op .giveHeader).op .giveSegs else k2.op .giveHeader).toSystem
  split_ifs <;> exact hk2

theorem sendWith_good {u : SndEnv} (h : Inv c k.toSystem) (hgone : ¬ k.gone c msqid) :
    Good c (k.sendWith c q msqid cnt type nowait u) := by
  unfold sendWith
  dsimp only
  by_cases hmap : cnt ≠ 0 ∧ u.rmalloc = false
  · rw [if_pos hmap]
    split_ifs
    · exact .returns (putHeader_inv (k := (k.op _).op _) h)
    · let k1 : Kernel T := { k.op (.enter .map) with mapwant := k.mapwant + 1 }
      have hwant : Inv c k1.toSystem := h.resources rfl (fun t call ht => ht)
        (fun t _ _ _ ht => (h t _ ht).2) fun _ _ _ _ _ => Nat.succ_ne_zero _
      refine ⟨putHeader_inv hwant, ?_⟩
      rintro call ⟨⟩
      obtain ⟨hque, -, hmap, -⟩ := k1.putHeader_spec (c := c)
      refine ⟨?_, fun h0 => absurd (hmap.symm.trans h0) (Nat.succ_ne_zero _)⟩
      rw [System.gone]
      exact hque.symm ▸ hgone
  · rw [if_neg hmap]
    by_cases hcnt : cnt ≠ 0
    · simp only [if_pos hcnt]
      split_ifs
      · exact .returns (putHeader_inv (rmfree_inv (k := ((k.op _).op _).op _) h))
      · exact .returns (enqueue_inv (k := ((k.op _).op _).op _) h)
    · simp only [if_neg hcnt]
      rw [if_neg fun hc => hcnt hc.1]
      exact .returns (enqueue_inv (k := (k.op _).op _) h)

theorem getres_good {u : SndEnv} (h : Inv c k.toSystem) (hgone : ¬ k.gone c msqid) :
    Good c (k.getres c (c.slot msqid) msqid cnt type nowait u) := by
  unfold getres
  dsimp only
  split_ifs with hfull hnowait hfp hnowait
  · exact .returns h
  · refine ⟨setQue_inv h ⟨rfl, rfl⟩ (fun hr => ⟨hr, rfl⟩)
      (fun _ => ⟨rfl, fun t msqid' cnt' type' => bytes_of_asleep h⟩), ?_⟩
    rintro call ⟨⟩
    have hnew : (k.setQue (c.slot msqid) { k.msgque (c.slot msqid) with
      wwait := true }).msgque (c.slot msqid) = _ := update_self _ _ _
    refine ⟨?_, ?_⟩
    · rwa [System.gone, Call.msqid, hnew]
    · rw [System.Lacks, hnew]
      exact ⟨rfl, hfull⟩
  · exact .returns h
  · refine ⟨h, ?_⟩
    rintro call ⟨⟩
    exact ⟨hgone, hfp⟩
  · -- there are headers, so that nobody waits for one
    refine sendWith_good ?_ hgone
    exact h.resources rfl (fun t call ht => ht) (fun t _ _ _ ht => absurd (h t _ ht).2 hfp)
      fun t _ _ _ ht => (h t _ ht).2

end Kernel

/-! ### Steps -/

/-- The call does what it is for. -/
def System.Succeeds (c : Msginfo) (s : System T) (t : T) (msgid : ℤ) (cmd : Cmd) (cr : Cred) : Prop :=
  ((⟨s, s.held t⟩ : Kernel T).msgctl c msgid cmd cr).2 = .returns none

/-- No limit is set so that there is room for a sender that waits. -/
def System.PermitsSet (c : Msginfo) (s : System T) (msgid : ℤ) (ds : Ds) : Prop :=
  ∀ u msqid cnt type, s.threads u = .asleep (.snd .bytes msqid cnt type) →
    c.slot msqid = c.slot msgid → ds.qbytes < cnt + (s.msgque (c.slot msgid)).cbytes

/-- The queue has a message if a sender to it waits for a header, and one with text if a sender to it
waits for segments. -/
def System.PermitsRmid (c : Msginfo) (s : System T) (msgid : ℤ) : Prop :=
  ∀ u wait msqid cnt type, s.threads u = .asleep (.snd wait msqid cnt type) →
    c.slot msqid = c.slot msgid → (wait = .header → (s.msgque (c.slot msgid)).msgs ≠ []) ∧
      (wait = .map → ∃ m ∈ (s.msgque (c.slot msgid)).msgs, m.ts ≠ 0)

/-- The step is not one of an interrupted sender that goes astray, and no `IPC_SET` or `IPC_RMID`
leaves a sender asleep. -/
def System.Permits (c : Msginfo) (s : System T) (t : T) (e : Step) : Prop :=
  ¬ s.Strays c t e ∧ ∀ msgid cmd cr, e = .msgctl msgid cmd cr → s.Succeeds c t msgid cmd cr →
    (∀ old ds, cmd = .set old (some ds) → s.PermitsSet c msgid ds) ∧
    (cmd = .rmid → s.PermitsRmid c msgid)

namespace Kernel

theorem command_inv {msgid : ℤ} {cmd : Cmd} {cr : Cred} (h : Inv c k.toSystem)
    (hok : (k.command c (c.slot msgid) msgid cr cmd).2 = none →
      (∀ old ds, cmd = .set old (some ds) → k.PermitsSet c msgid ds) ∧
      (cmd = .rmid → k.PermitsRmid c msgid)) :
    Inv c (k.command c (c.slot msgid) msgid cr cmd).1.toSystem := by
  cases cmd with
  | rmid =>
    unfold command at hok ⊢
    split_ifs at hok ⊢
    · exact h
    · exact rmid_inv h ((hok rfl).2 rfl)
  | set old ds =>
    unfold command at hok ⊢
    split_ifs at hok ⊢
    · exact h
    · cases ds with
      | none => exact h
      | some ds =>
        simp only [ipcSet] at hok ⊢
        split_ifs at hok ⊢
        any_goals exact h
        exact setQue_inv h ⟨rfl, rfl⟩ (fun hr => ⟨hr, rfl⟩)
          (fun hw => ⟨hw, (hok rfl).1 old ds rfl⟩)
  | stat error | other => exact h

theorem msgconv_of_not_gone {id : ℤ} (hneg : ¬ id < 0) (hgone : ¬ k.gone c id) :
    k.msgconv c id = (k.op (.enter (.queue (c.slot id))), some (c.slot id)) := by
  rw [msgconv, if_neg hneg]
  exact if_neg hgone

/-- A call on a queue that its identifier still stands for. -/
theorem match_good {id : ℤ} {e0 : Option Errno} {f : Kernel T → ℕ → Kernel T × Outcome}
    (h : Inv c k.toSystem)
    (hf : ∀ k' : Kernel T, Inv c k'.toSystem → k'.toSystem = k.toSystem →
      k.msgconv c id = (k', some (c.slot id)) → ¬ k'.gone c id → Good c (f k' (c.slot id))) :
    Good c (match k.msgconv c id with
      | (k, none) => (k, .returns e0)
      | (k, some q) => f k q) := by
  unfold msgconv
  split_ifs with hneg
  · exact .returns h
  · dsimp only
    split_ifs with hgone
    · exact .returns h
    · exact hf _ h rfl (msgconv_of_not_gone hneg hgone) hgone

theorem resume_good {snd : SndEnv} {rcv : RcvEnv} (h : Inv c k.toSystem) :
    Good c (k.resume c snd rcv call) := by
  rcases call with ⟨msqid, msgsz, msgtyp, noerror⟩ | ⟨wait, msqid, cnt, type⟩
  · simp only [resume]
    split_ifs with hgone
    · exact .returns h
    · exact rcvFrom_good h hgone
  · cases wait with
    | bytes =>
      simp only [resume]
      split_ifs with hgone
      · exact .returns h
      · exact getres_good h hgone
    | header =>
      exact match_good (k := k.op (.exit .msg)) h fun k' h' _ _ hgone => getres_good h' hgone
    | map =>
      exact match_good (k := k.op (.exit .map)) h fun k' h' _ _ hgone => getres_good h' hgone

theorem interrupt_good (h : Inv c k.toSystem)
    (hstray : ∀ msqid cnt type, call = .snd .bytes msqid cnt type →
      ¬ (msqid < 0 ∨ k.gone c msqid)) : Good c (k.interrupt c call) := by
  rcases call with ⟨msqid, msgsz, msgtyp, noerror⟩ | ⟨wait, msqid, cnt, type⟩
  · exact .returns h
  · cases wait with
    | bytes =>
      obtain ⟨hneg, hgone⟩ := not_or.1 (hstray msqid cnt type rfl)
      simp only [interrupt, msgconv_of_not_gone (k := k.op _) hneg hgone]
      refine .returns ?_
      -- all who wait for room are woken
      refine h.edit (q := c.slot msqid) rfl rfl (fun p hp => update_of_ne hp _ _) ?_
        (fun t call ht => (asleep_broadcast.1 ht).1) (fun t call msgtyp _ _ hr hnone => ?_)
        fun t msqid' cnt' _ ht hs _ _ => ?_
      · simp [broadcast, setQue, op]
      · simpa [broadcast, setQue, op] using ⟨hr, hnone⟩
      · exact absurd (congrArg Cv.bytes hs) (asleep_broadcast.1 ht).2
    | header =>
      refine match_good (k := k.op (.exit .msg)) h fun k' h' _ _ _ => ?_
      rw [if_neg (not_not.2 rfl)]
      exact .returns h'
    | map =>
      exact match_good (k := k.op (.exit .map)) h fun k' h' _ _ _ => .returns h'

end Kernel

/-- A thread that has slept goes on. -/
theorem Inv.wakeup {t : T} {e : Step} {r : Kernel T × Outcome} (h : Inv c s)
    (hcall : s.threads t = .asleep call ∨ s.threads t = .woken call) (hstray : ¬ s.Strays c t e)
    (hr : (∃ snd rcv, r = (⟨s, s.held t⟩ : Kernel T).resume c snd rcv call) ∨
      e = .interrupt ∧ r = (⟨s, s.held t⟩ : Kernel T).interrupt c call) : Kernel.Good c r := by
  have hk : Inv c (⟨s, s.held t⟩ : Kernel T).toSystem := h
  rcases hr with ⟨snd, rcv, rfl⟩ | ⟨rfl, rfl⟩
  · exact Kernel.resume_good hk
  · refine Kernel.interrupt_good hk fun msqid cnt type heq hlost => ?_
    subst heq
    exact hstray ⟨rfl, msqid, cnt, type, hcall, hlost⟩

section Run

variable [DecidableEq T] {t : T} {e : Step}

/-- A thread's step leads on, with the thread where the outcome says. -/
theorem Kernel.Good.settle {r : Kernel T × Outcome} (h : Good c r) (t : T) (held : T → Option Held) :
    Inv c { r.1.toSystem with
      threads := update r.1.threads t r.2.status
      held := held } := by
  intro u call hu
  suffices hright : r.1.Waits c call from hright.congr rfl rfl rfl
  dsimp only at hu
  by_cases hut : u = t
  · rw [hut, update_self] at hu
    refine h.2 call ?_
    cases ho : r.2 with
    | returns error => simp [ho, Outcome.status] at hu
    | sleeps call' =>
      rw [ho] at hu
      rw [Status.asleep.inj hu]
  · rw [update_of_ne hut] at hu
    exact h.1 u call hu

theorem Inv.exec (h : Inv c s) (hperm : s.Permits c t e) (hstep : s.exec c t e = some s') :
    Inv c s' := by
  obtain ⟨r, hr, rfl⟩ := Option.map_eq_some_iff.1 hstep
  let k : Kernel T := ⟨s, s.held t⟩
  have hk : Inv c k.toSystem := h
  refine Kernel.Good.settle ?_ t _
  cases hstatus : s.threads t with
  | out =>
    rw [hstatus] at hr
    cases e with
    | msgctl msgid cmd cr =>
      cases hr
      refine Kernel.match_good hk fun k' h' hk' hconv _ => ?_
      refine .returns (Kernel.command_inv h' fun hok => ?_)
      have hperms := hperm.2 msgid cmd cr rfl (by
        unfold System.Succeeds Kernel.msgctl
        rw [hconv]
        exact congrArg Outcome.returns hok)
      rwa [← show k'.toSystem = s from hk'] at hperms
    | msgsnd msqid msgsz nowait access u =>
      cases hr
      refine Kernel.match_good hk fun k' h' _ _ hgone => ?_
      split_ifs
      any_goals exact .returns h'
      · split
        · exact .returns h'
        · split_ifs
          · exact .returns h'
          · exact Kernel.getres_good h' hgone
    | msgrcv msqid msgsz msgtyp nowait noerror access u =>
      cases hr
      refine Kernel.match_good hk fun k' h' _ _ hgone => ?_
      split_ifs
      any_goals exact .returns h'
      exact Kernel.rcvFrom_good h' hgone
    | _ => cases hr
  | asleep call | woken call =>
    rw [hstatus] at hr
    have hcall : s.threads t = .asleep call ∨ s.threads t = .woken call := by simp [hstatus]
    cases e with
    | resume snd rcv =>
      exact h.wakeup hcall hperm.1 (.inl ⟨snd, rcv, (Option.some.inj hr).symm⟩)
    | interrupt => exact h.wakeup hcall hperm.1 (.inr ⟨rfl, (Option.some.inj hr).symm⟩)
    | _ => cases hr

theorem Reaches.inv (h : Reaches c (fun s t e => s.Permits c t e) s) : Inv c s := by
  induction h with
  | initial hs =>
    intro t call ht
    simp [(hs t).1] at ht
  | @msgget s q _ hq ih =>
    -- nobody sleeps on a queue that is not in use
    refine ih.change (q := q) rfl rfl (fun p hp => update_of_ne hp _ _)
      (fun t call ht => ht) fun t call ht hs => absurd (.inl ?_) (ih t call ht).1
    rwa [hs]
  | exec _ hperm hstep ih => exact ih.exec hperm hstep

/-- Nobody sleeps who could go on: a receiver finds no message that suits, a sender has no room or
there is no header, and nobody sleeps in a call for a queue that is gone. -/
theorem permitted_run_sleepers (c : Msginfo) (s : System T)
    (h : Reaches c (fun s t e => s.Permits c t e) s) :
    (∀ t call, s.threads t = .asleep call → ¬ s.gone c call.msqid) ∧
      (∀ t msqid msgsz msgtyp noerror, s.threads t = .asleep (.rcv msqid msgsz msgtyp noerror) →
        ∀ m ∈ (s.msgque (c.slot msqid)).msgs, ¬ m.Suits msgtyp) ∧
      (∀ t msqid cnt type, s.threads t = .asleep (.snd .bytes msqid cnt type) →
        (s.msgque (c.slot msqid)).qbytes < cnt + (s.msgque (c.slot msqid)).cbytes) ∧
      ∀ t msqid cnt type, s.threads t = .asleep (.snd .header msqid cnt type) → s.msgfp = 0 :=
  ⟨fun t call ht => (h.inv t call ht).1, fun t _ _ _ _ ht => (h.inv t _ ht).2.2,
    fun t _ _ _ ht => (h.inv t _ ht).2.2, fun t _ _ _ ht => (h.inv t _ ht).2⟩

end Run

/-- A sender sleeps because there is no room. -/
theorem permitted_run_sleepers_fullQueue :
    ∃ s, Reaches oneQueue (fun s t e => s.Permits oneQueue t e) s ∧
      s.threads true = .asleep (.snd .bytes 0 1 1) ∧ (s.msgque 0).qbytes < 1 + (s.msgque 0).cbytes := by
  have hr : Reaches oneQueue (fun s t e => s.Permits oneQueue t e) _ :=
    (Reaches.initial fullQueue_initial).exec (t := true) (e := sendByte)
      ⟨by rintro ⟨⟨⟩, -⟩, by rintro _ _ _ ⟨⟩⟩ rfl
  exact ⟨_, hr, rfl, (permitted_run_sleepers oneQueue _ hr).2.2.1 true 0 1 1 rfl⟩

/-- The super-user raises the limit, there is room for the message, and the sender sleeps on. -/
theorem raised_limit_strands :
    ∃ s s', fullQueue.exec oneQueue true sendByte = some s ∧
      s.exec oneQueue false (.msgctl 0 (.set false (some ⟨10, 0, 0⟩)) ⟨false, true⟩) = some s' ∧
      s'.threads true = .asleep (.snd .bytes 0 1 1) ∧ s'.threads false = .out ∧
      1 + (s'.msgque 0).cbytes ≤ (s'.msgque 0).qbytes :=
  ⟨_, _, rfl, rfl, rfl, rfl, by decide⟩

end Sol26.Msg
