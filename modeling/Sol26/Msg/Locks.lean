import Sol26.Msg.Calls

/-!
# The lock discipline of the message calls

Every step of a call keeps the discipline, save one: `msgsnd` that is interrupted in its sleep for
room on a queue, and then finds that the queue is gone. It goes on with a pointer that `msgconv` has
not set.
-/
namespace Sol26.Msg

open Function (update update_of_ne update_self)
open Prod (eta ext fst snd)

variable {T : Type*} {c : Msginfo} {k k' : Kernel T} {q : ℕ}

namespace Kernel

@[simp] theorem op_own (k : Kernel T) (o : Op) : (k.op o).own = k.own.bind (·.op o) := rfl

@[simp] theorem setQue_own (k : Kernel T) (qp : Msqid) : (k.setQue q qp).own = k.own := rfl

@[simp] theorem broadcast_own (k : Kernel T) (cv : Cv) : (k.broadcast c cv).own = k.own := rfl

theorem putHeader_own {h : Held} (hk : k.own = some h) (hmsg : h.msg = false)
    (hheader : h.header = true) : (k.putHeader c).own = some { h with header := false } := by
  unfold putHeader
  dsimp only
  split_ifs <;> simp [hk, Held.op, hmsg, hheader]

theorem rmfree_own {h : Held} (hk : k.own = some h) (hmap : h.map = false)
    (hsegs : h.segs = true) : (k.rmfree c).own = some { h with segs := false } := by
  unfold rmfree
  dsimp only
  split_ifs <;> simp [hk, Held.op, hmap, hsegs]

theorem msgfree_own {i : ℕ} {mp : Message} (hk : k.own = some { queue := some q }) :
    (k.msgfree c q i mp).own = some { queue := some q } := by
  unfold msgfree
  refine putHeader_own (h := { queue := some q, header := true }) ?_ rfl rfl
  by_cases hts : mp.ts ≠ 0
  · rw [if_pos hts]
    refine rmfree_own (h := { queue := some q, header := true, segs := true }) ?_ rfl rfl
    split_ifs <;> simp [hk, Held.op]
  · rw [if_neg hts]
    split_ifs <;> simp [hk, Held.op]

theorem freeAll_own {msgs : List Message} (hk : k.own = some { queue := some q }) :
    (freeAll c q msgs k).own = some { queue := some q } := by
  induction msgs generalizing k with
  | nil => exact hk
  | cons mp rest ih => exact ih (msgfree_own hk)

theorem command_own {msgid : ℤ} {cmd : Cmd} {cr : Cred} (hk : k.own = some { queue := some q }) :
    (k.command c q msgid cr cmd).1.own = some { queue := some q } := by
  cases cmd with
  | rmid =>
    unfold command
    split_ifs
    · exact hk
    · unfold rmid
      dsimp only
      split_ifs <;> simpa using freeAll_own hk
  | set old ds =>
    unfold command
    split_ifs
    · exact hk
    · cases ds with
      | none => exact hk
      | some ds =>
        simp only [ipcSet]
        split_ifs <;> exact hk
  | stat error | other => exact hk

/-- A thread that holds nothing has the lock of the queue afterwards, or nothing. -/
theorem msgconv_own (hk : k.own = some {}) (id : ℤ) :
    ((k.msgconv c id).2 = none ∧ (k.msgconv c id).1.own = some {}) ∨
      ((k.msgconv c id).2 = some (c.slot id) ∧
        (k.msgconv c id).1.own = some { queue := some (c.slot id) }) := by
  unfold msgconv
  split_ifs with hneg
  · exact .inl ⟨rfl, hk⟩
  · dsimp only
    split_ifs
    · exact .inl ⟨rfl, by simp [hk, Held.op]⟩
    · exact .inr ⟨rfl, by simp [hk, Held.op]⟩

/-- What the thread holds is as its state after the step says. -/
def Kept (c : Msginfo) (r : Kernel T × Outcome) : Prop := r.1.own = some (r.2.status.held c)

theorem Kept.exit {error : Option Errno} (hk : k.own = some { queue := some q }) :
    Kept c (k.op (.exit (.queue q)), .returns error) := by
  simp [Kept, hk, Held.op, Outcome.status, Status.held]

section Queue

variable {msqid : ℤ} {nowait : Bool} (hk : k.own = some { queue := some (c.slot msqid) })

include hk

theorem rcvFrom_kept {msgsz : ℕ} {msgtyp : ℤ} {noerror : Bool} {u : RcvEnv} :
    Kept c (k.rcvFrom c (c.slot msqid) msqid msgsz msgtyp nowait noerror u) := by
  unfold rcvFrom
  dsimp only
  split
  · split_ifs <;> first | exact .exit hk | exact .exit (msgfree_own hk)
  · split_ifs
    · exact .exit hk
    · exact hk

omit hk in
theorem sendWith_kept {cnt : ℕ} {type : ℤ} {u : SndEnv}
    (hk : k.own = some { queue := some (c.slot msqid), header := true }) :
    Kept c (k.sendWith c (c.slot msqid) msqid cnt type nowait u) := by
  unfold sendWith
  dsimp only
  by_cases hmap : cnt ≠ 0 ∧ u.rmalloc = false
  · rw [if_pos hmap]
    by_cases hnowait : nowait = true
    · rw [if_pos hnowait]
      refine .exit (putHeader_own (h := { queue := some (c.slot msqid), header := true }) ?_ rfl rfl)
      simp [hk, Held.op]
    · rw [if_neg hnowait]
      let h : Held := { queue := some (c.slot msqid), map := true, header := true }
      have hput : ∀ k' : Kernel T, k'.own = some h → (k'.putHeader c).own =
          some { h with header := false } := fun k' hk' => putHeader_own hk' rfl rfl
      refine (congrArg (Option.bind · _) (hput _ (by simp [hk, Held.op, h]))).trans ?_
      simp [Held.op, h, Outcome.status, Status.held, Call.held]
  · rw [if_neg hmap]
    by_cases hcnt : cnt ≠ 0
    · simp only [if_pos hcnt]
      split_ifs
      · refine .exit (putHeader_own (h := { queue := some (c.slot msqid), header := true })
          (rmfree_own (h := { queue := some (c.slot msqid), header := true, segs := true })
            ?_ rfl rfl) rfl rfl)
        simp [hk, Held.op]
      · refine .exit ?_
        simp only [enqueue, if_pos hcnt]
        split_ifs <;> simp [hk, Held.op]
    · simp only [if_neg hcnt]
      rw [if_neg fun h => hcnt h.1]
      refine .exit ?_
      simp only [enqueue, if_neg hcnt]
      split_ifs <;> simp [hk, Held.op]

theorem getres_kept {cnt : ℕ} {type : ℤ} {u : SndEnv} :
    Kept c (k.getres c (c.slot msqid) msqid cnt type nowait u) := by
  unfold getres
  dsimp only
  split_ifs
  · exact .exit hk
  · exact hk
  · exact .exit (by simp [hk, Held.op])
  · simp [Kept, hk, Held.op, Outcome.status, Status.held, Call.held]
  · exact sendWith_kept (by simp [hk, Held.op])

end Queue

section Calls

variable (hk : k.own = some {})

include hk

theorem msgctl_kept {msgid : ℤ} {cmd : Cmd} {cr : Cred} : Kept c (k.msgctl c msgid cmd cr) := by
  unfold msgctl
  obtain ⟨hnone, hheld⟩ | ⟨hsome, hheld⟩ := msgconv_own (c := c) hk msgid
  · rw [← eta (k.msgconv c msgid), hnone]
    exact hheld
  · rw [← eta (k.msgconv c msgid), hsome]
    exact .exit (command_own hheld)

theorem msgrcv_kept {msqid msgsz msgtyp : ℤ} {nowait noerror access : Bool} {u : RcvEnv} :
    Kept c (k.msgrcv c msqid msgsz msgtyp nowait noerror access u) := by
  unfold msgrcv
  obtain ⟨hnone, hheld⟩ | ⟨hsome, hheld⟩ := msgconv_own (c := c) hk msqid
  · rw [← eta (k.msgconv c msqid), hnone]
    exact hheld
  · rw [← eta (k.msgconv c msqid), hsome]
    dsimp only
    split_ifs
    · exact .exit hheld
    · exact .exit hheld
    · exact rcvFrom_kept hheld

theorem msgsnd_kept {msqid msgsz : ℤ} {nowait access : Bool} {u : SndEnv} :
    Kept c (k.msgsnd c msqid msgsz nowait access u) := by
  unfold msgsnd
  obtain ⟨hnone, hheld⟩ | ⟨hsome, hheld⟩ := msgconv_own (c := c) hk msqid
  · rw [← eta (k.msgconv c msqid), hnone]
    exact hheld
  · rw [← eta (k.msgconv c msqid), hsome]
    dsimp only
    split_ifs
    · exact .exit hheld
    · exact .exit hheld
    · split
      · exact .exit hheld
      · split_ifs
        · exact .exit hheld
        · exact getres_kept hheld

end Calls

/-- After a sleep the call takes the lock of the queue again. -/
theorem reenter_kept {k0 : Kernel T} {msqid : ℤ} {error : Errno}
    {f : Kernel T → ℕ → Kernel T × Outcome} (hk : k0.own = some {})
    (hf : ∀ k : Kernel T, k.own = some { queue := some (c.slot msqid) } →
      Kept c (f k (c.slot msqid))) :
    Kept c (match k0.msgconv c msqid with
      | (k, none) => (k, .returns (some error))
      | (k, some q) => f k q) := by
  obtain ⟨hnone, hown⟩ | ⟨hsome, hown⟩ := msgconv_own (c := c) hk msqid
  · rw [← eta (k0.msgconv c msqid), hnone]
    exact hown
  · rw [← eta (k0.msgconv c msqid), hsome]
    exact hf _ hown

theorem resume_kept {snd : SndEnv} {rcv : RcvEnv} {call : Call}
    (hk : k.own = some (call.held c)) : Kept c (k.resume c snd rcv call) := by
  rcases call with ⟨msqid, msgsz, msgtyp, noerror⟩ | ⟨wait, msqid, cnt, type⟩
  · unfold resume
    dsimp only
    split_ifs
    · exact .exit hk
    · exact rcvFrom_kept hk
  · cases wait with
    | bytes =>
      unfold resume
      dsimp only
      split_ifs
      · exact .exit hk
      · exact getres_kept hk
    | header | map => exact reenter_kept (by simp [hk, Call.held, Held.op]) fun _ h => getres_kept h

end Kernel

namespace Kernel

theorem msgconv_snd (k : Kernel T) (id : ℤ) :
    (k.msgconv c id).2 = if id < 0 ∨ k.gone c id then none else some (c.slot id) := by
  unfold msgconv
  by_cases hneg : id < 0
  · rw [if_pos hneg, if_pos (.inl hneg)]
  · rw [if_neg hneg]
    by_cases hgone : k.gone c id
    · rw [if_pos (Or.inr hgone)]
      exact congrArg snd (if_pos hgone)
    · rw [if_neg (not_or.2 ⟨hneg, hgone⟩)]
      exact congrArg snd (if_neg hgone)

/-- Only an interrupted wait for room breaks the discipline, if the queue is gone. -/
theorem interrupt_kept_iff {call : Call} (hk : k.own = some (call.held c)) :
    Kept c (k.interrupt c call) ↔
      ¬ ∃ msqid cnt type, call = .snd .bytes msqid cnt type ∧ (msqid < 0 ∨ k.gone c msqid) := by
  rcases call with ⟨msqid, msgsz, msgtyp, noerror⟩ | ⟨wait, msqid, cnt, type⟩
  · have hkept : Kept c (k.interrupt c (.rcv msqid msgsz msgtyp noerror)) := .exit hk
    simpa using hkept
  · cases wait with
    | bytes =>
      let k0 := k.op (.exit (.queue (c.slot msqid)))
      have hown : k0.own = some {} := by simp [k0, hk, Call.held, Held.op]
      have hsnd := k0.msgconv_snd (c := c) msqid
      have hshape : k.interrupt c (.snd .bytes msqid cnt type) = match k0.msgconv c msqid with
        | (k, none) => (k.op .stray, .returns (some .EIDRM))
        | (k, some _) =>
          (((k.setQue (c.slot msqid) { k.msgque (c.slot msqid) with wwait := false }).broadcast c
            (.bytes (c.slot msqid))).op (.exit (.queue (c.slot msqid))),
              .returns (some .EINTR)) := rfl
      rw [hshape, ← eta (k0.msgconv c msqid), hsnd]
      by_cases hlost : msqid < 0 ∨ k0.gone c msqid
      · have hstray : ∃ msqid' cnt' type', Call.snd .bytes msqid cnt type =
            .snd .bytes msqid' cnt' type' ∧ (msqid' < 0 ∨ k.gone c msqid') :=
          ⟨msqid, cnt, type, rfl, hlost⟩
        rw [if_pos hlost]
        refine iff_of_false (fun hkept => ?_) (not_not.2 hstray)
        obtain ⟨-, hown'⟩ := (msgconv_own (c := c) hown msqid).resolve_right fun h => by
          rw [hsnd, if_pos hlost] at h
          cases h.1
        simp [Kept, Held.op, hown'] at hkept
      · rw [if_neg hlost]
        refine iff_of_true ?_ ?_
        · obtain ⟨-, hown'⟩ := (msgconv_own (c := c) hown msqid).resolve_left fun h => by
            rw [hsnd, if_neg hlost] at h
            cases h.1
          exact .exit hown'
        · rintro ⟨msqid', cnt', type', ⟨⟩, h⟩
          exact hlost h
    | header =>
      have hkept : Kept c (k.interrupt c (.snd .header msqid cnt type)) :=
        reenter_kept (by simp [hk, Call.held, Held.op]) fun k' hk' => by
          dsimp only
          rw [if_neg (not_not.2 rfl)]
          exact .exit hk'
      simpa using hkept
    | map =>
      have hkept : Kept c (k.interrupt c (.snd .map msqid cnt type)) :=
        reenter_kept (by simp [hk, Call.held, Held.op]) fun k' hk' => .exit hk'
      simpa using hkept

end Kernel

/-- A thread that waits for room on its queue is interrupted, and the queue is gone. -/
def System.Strays (c : Msginfo) (s : System T) (t : T) (e : Step) : Prop :=
  e = .interrupt ∧ ∃ msqid cnt type, (s.threads t = .asleep (.snd .bytes msqid cnt type) ∨
    s.threads t = .woken (.snd .bytes msqid cnt type)) ∧ (msqid < 0 ∨ s.gone c msqid)

namespace Kernel

/-- What the threads hold outside of the step. -/
def view (c : Msginfo) (k : Kernel T) : (T → Option Held) × (T → Held) :=
  (k.held, fun t => (k.threads t).held c)

@[simp] theorem op_view (k : Kernel T) (o : Op) : (k.op o).view c = k.view c := rfl

@[simp] theorem setQue_view (k : Kernel T) (qp : Msqid) : (k.setQue q qp).view c = k.view c := rfl

@[simp] theorem broadcast_view (k : Kernel T) (cv : Cv) : (k.broadcast c cv).view c = k.view c := by
  refine ext rfl (funext fun t => ?_)
  simp only [view, broadcast]
  cases hstatus : k.threads t with
  | out => rfl
  | asleep call =>
    dsimp only
    split_ifs <;> rfl
  | woken call => rfl

@[simp] theorem putHeader_view (k : Kernel T) : (k.putHeader c).view c = k.view c := by
  unfold putHeader
  dsimp only
  split_ifs
  · exact broadcast_view (k.op (.enter .msg)) .msgfp
  · rfl

@[simp] theorem rmfree_view (k : Kernel T) : (k.rmfree c).view c = k.view c := by
  unfold rmfree
  dsimp only
  split_ifs
  · exact broadcast_view _ _
  · rfl

@[simp] theorem msgfree_view (k : Kernel T) (i : ℕ) (mp : Message) :
    (k.msgfree c q i mp).view c = k.view c := by
  unfold msgfree
  dsimp only
  split_ifs <;> simp

@[simp] theorem freeAll_view (msgs : List Message) (k : Kernel T) :
    (freeAll c q msgs k).view c = k.view c := by
  induction msgs generalizing k with
  | nil => rfl
  | cons mp rest ih => simp [freeAll, ih]

@[simp] theorem command_view (k : Kernel T) (msgid : ℤ) (cr : Cred) (cmd : Cmd) :
    (k.command c q msgid cr cmd).1.view c = k.view c := by
  cases cmd with
  | rmid =>
    unfold command rmid
    dsimp only
    split_ifs <;> simp
  | set old ds =>
    unfold command
    split_ifs
    · rfl
    · cases ds with
      | none => rfl
      | some ds =>
        simp only [ipcSet]
        split_ifs <;> rfl
  | stat error => rfl
  | other => rfl

@[simp] theorem msgconv_view (k : Kernel T) (id : ℤ) : (k.msgconv c id).1.view c = k.view c := by
  unfold msgconv
  split_ifs
  · rfl
  · dsimp only
    split_ifs <;> rfl

@[simp] theorem rcvFrom_view (k : Kernel T) (msqid : ℤ) (msgsz : ℕ) (msgtyp : ℤ)
    (nowait noerror : Bool) (u : RcvEnv) :
    (k.rcvFrom c q msqid msgsz msgtyp nowait noerror u).1.view c = k.view c := by
  unfold rcvFrom
  dsimp only
  split <;> split_ifs <;> simp

@[simp] theorem enqueue_view (k : Kernel T) (cnt : ℕ) (type : ℤ) :
    (k.enqueue c q cnt type).view c = k.view c := by
  unfold enqueue
  dsimp only
  split_ifs <;> simp

theorem sendWith_view (k : Kernel T) (msqid : ℤ) (cnt : ℕ) (type : ℤ) (nowait : Bool)
    (u : SndEnv) : (k.sendWith c q msqid cnt type nowait u).1.view c = k.view c := by
  unfold sendWith
  dsimp only
  by_cases hmap : cnt ≠ 0 ∧ u.rmalloc = false
  · rw [if_pos hmap]
    split_ifs
    · simp
    · exact putHeader_view _
  · rw [if_neg hmap]
    split_ifs <;> simp

@[simp] theorem getres_view (k : Kernel T) (msqid : ℤ) (cnt : ℕ) (type : ℤ) (nowait : Bool)
    (u : SndEnv) : (k.getres c q msqid cnt type nowait u).1.view c = k.view c := by
  unfold getres
  dsimp only
  split_ifs
  any_goals rfl
  exact sendWith_view _ _ _ _ _ _

theorem match_view {k0 : Kernel T} {id : ℤ} {f : Kernel T → Kernel T × Outcome}
    {g : Kernel T → ℕ → Kernel T × Outcome} (hf : ∀ k, (f k).1.view c = k.view c)
    (hg : ∀ k q, (g k q).1.view c = k.view c) :
    (match k0.msgconv c id with
      | (k, none) => f k
      | (k, some q) => g k q).1.view c = k0.view c := by
  rw [← msgconv_view k0 id]
  split
  · rename_i k heq
    rw [heq]
    exact hf k
  · rename_i k q heq
    rw [heq]
    exact hg k q

theorem step_view {status : Status} {e : Step} {o : Outcome}
    (h : k.step c status e = some (k', o)) : k'.view c = k.view c := by
  have hcall : ∀ call snd rcv, (k.resume c snd rcv call).1.view c = k.view c := by
    intro call snd rcv
    rcases call with ⟨msqid, msgsz, msgtyp, noerror⟩ | ⟨wait, msqid, cnt, type⟩
    · simp only [resume]
      split_ifs <;> simp
    · cases wait with
      | bytes =>
        simp only [resume]
        split_ifs <;> simp
      | header | map => exact match_view (fun _ => rfl) (fun k q => getres_view k _ _ _ _ _)
  have hintr : ∀ call, (k.interrupt c call).1.view c = k.view c := by
    intro call
    rcases call with ⟨msqid, msgsz, msgtyp, noerror⟩ | ⟨wait, msqid, cnt, type⟩
    · rfl
    · cases wait with
      | bytes => exact match_view (fun _ => rfl) (fun k q => broadcast_view _ _)
      | header =>
        refine match_view (fun _ => rfl) (fun k q => ?_)
        dsimp only
        split_ifs <;> rfl
      | map => exact match_view (fun _ => rfl) (fun k q => rfl)
  have hrun : ∀ {r : Kernel T × Outcome}, some r = some (k', o) → r.1.view c = k.view c →
      k'.view c = k.view c := by
    rintro r ⟨⟩ hr
    exact hr
  cases status with
  | out =>
    cases e with
    | msgctl msgid cmd cr => exact hrun h (match_view (fun _ => rfl) (fun k q => command_view ..))
    | msgsnd msqid msgsz nowait access u =>
      refine hrun h (match_view (fun _ => rfl) (fun k q => ?_))
      split_ifs
      · rfl
      · rfl
      · split
        · rfl
        · split_ifs
          · rfl
          · exact getres_view ..
    | msgrcv msqid msgsz msgtyp nowait noerror access u =>
      refine hrun h (match_view (fun _ => rfl) (fun k q => ?_))
      split_ifs
      · rfl
      · rfl
      · exact rcvFrom_view ..
    | resume snd rcv | interrupt => cases h
  | asleep call | woken call =>
    cases e with
    | resume snd rcv => exact hrun h (hcall call snd rcv)
    | interrupt => exact hrun h (hintr call)
    | _ => cases h

/-- A call or the end of a sleep keeps the discipline; an interrupted sleep does as its own lemma
says. -/
theorem step_kept_iff {status : Status} {e : Step} {o : Outcome}
    (hk : k.own = some (status.held c)) (h : k.step c status e = some (k', o)) :
    Kept c (k', o) ↔ ¬ (e = .interrupt ∧ ∃ msqid cnt type,
      (status = .asleep (.snd .bytes msqid cnt type) ∨
        status = .woken (.snd .bytes msqid cnt type)) ∧ (msqid < 0 ∨ k.gone c msqid)) := by
  have hrun : ∀ {r : Kernel T × Outcome}, some r = some (k', o) → e ≠ .interrupt → Kept c r →
      (Kept c (k', o) ↔ ¬ (e = .interrupt ∧ ∃ msqid cnt type,
        (status = .asleep (.snd .bytes msqid cnt type) ∨
          status = .woken (.snd .bytes msqid cnt type)) ∧ (msqid < 0 ∨ k.gone c msqid))) := by
    rintro r ⟨⟩ hne hr
    exact iff_of_true hr fun hstray => hne hstray.1
  cases status with
  | out =>
    cases e with
    | msgctl msgid cmd cr => exact hrun h (by simp) (msgctl_kept hk)
    | msgsnd msqid msgsz nowait access u => exact hrun h (by simp) (msgsnd_kept hk)
    | msgrcv msqid msgsz msgtyp nowait noerror access u =>
      exact hrun h (by simp) (msgrcv_kept hk)
    | _ => cases h
  | asleep call | woken call =>
    cases e with
    | resume snd rcv => exact hrun h (by simp) (resume_kept hk)
    | interrupt =>
      have hr : k.interrupt c call = (k', o) := Option.some.inj h
      rw [← hr, interrupt_kept_iff hk]
      simp
    | _ => cases h

end Kernel

section Run

variable [DecidableEq T] {s s' : System T} {t : T} {e : Step}

/-- The step of one thread changes nothing of what the others hold. -/
theorem exec_other (h : s.exec c t e = some s') {u : T} (hu : u ≠ t) :
    s'.held u = s.held u ∧ (s'.threads u).held c = (s.threads u).held c := by
  obtain ⟨⟨k, o⟩, hstep, rfl⟩ := Option.map_eq_some_iff.1 h
  have hview := Kernel.step_view hstep
  dsimp only
  rw [update_of_ne hu, update_of_ne hu]
  exact ⟨congrFun (congrArg fst hview) u, congrFun (congrArg snd hview) u⟩

theorem exec_kept_iff (hs : s.held t = some ((s.threads t).held c)) (h : s.exec c t e = some s') :
    s'.held t = some ((s'.threads t).held c) ↔ ¬ s.Strays c t e := by
  obtain ⟨⟨k, o⟩, hstep, rfl⟩ := Option.map_eq_some_iff.1 h
  dsimp only
  rw [update_self, update_self]
  exact Kernel.step_kept_iff (k := ⟨s, s.held t⟩) hs hstep

theorem Reaches.held {allowed : System T → T → Step → Prop}
    (hallowed : ∀ s t e, allowed s t e → ¬ s.Strays c t e) (h : Reaches c allowed s) (t : T) :
    s.held t = some ((s.threads t).held c) := by
  induction h generalizing t with
  | initial hs => rw [(hs t).2, (hs t).1, Status.held]
  | msgget _ _ ih => exact ih t
  | @exec s s' u e _ hok hstep ih =>
    by_cases ht : t = u
    · subst ht
      exact (exec_kept_iff (ih t) hstep).2 (hallowed s t e hok)
    · obtain ⟨hheld, hstatus⟩ := exec_other hstep ht
      rw [hheld, hstatus, ih t]

/-- As long as no interrupted sender goes astray, every thread holds at each sleep the lock that the
sleep gives up, and nothing when it returns; and a step keeps it so just in case it is not astray. -/
theorem calls_keep_discipline (c : Msginfo) (s : System T)
    (h : Reaches c (fun s t e => ¬ s.Strays c t e) s) :
    (∀ t, s.held t = some ((s.threads t).held c)) ∧
      ∀ t e s', s.exec c t e = some s' →
        (s'.held t = some ((s'.threads t).held c) ↔ ¬ s.Strays c t e) :=
  ⟨h.held fun _ _ _ hok => hok,
    fun t _ _ hstep => exec_kept_iff (h.held (fun _ _ _ hok => hok) t) hstep⟩

end Run

/-! ### The queue is removed under a sender -/

/-- One queue, on which nothing fits. -/
def fullQueue : System Bool where
  msgque _ := ⟨true, false, false, 0, [], 0, 0⟩
  msgfp := 1
  mapwant := 0
  threads _ := .out
  held _ := some {}

theorem fullQueue_initial : fullQueue.Initial := fun _ => ⟨rfl, rfl⟩

def oneQueue : Msginfo := ⟨10, 10, 1⟩

/-- A message of one byte, for which there is no room. -/
def sendByte : Step := .msgsnd 0 1 false true ⟨some 1, true, true⟩

/-- The sender sleeps with nothing but the lock that the sleep gives up. -/
theorem calls_keep_discipline_fullQueue :
    ∃ s, fullQueue.exec oneQueue true sendByte = some s ∧
      s.held true = some { queue := some 0 } := by
  refine ⟨_, rfl, ?_⟩
  have hr : Reaches oneQueue (fun s t e => ¬ s.Strays oneQueue t e) fullQueue :=
    .initial fullQueue_initial
  exact ((calls_keep_discipline oneQueue fullQueue hr).2 true sendByte _ rfl).2
    (by rintro ⟨⟨⟩, -⟩)

/-- While one thread sleeps for room, another removes the queue; then comes a signal. -/
theorem interrupted_sender_strays :
    ((fullQueue.exec oneQueue true sendByte).bind fun s =>
      (s.exec oneQueue false (.msgctl 0 .rmid ⟨true, false⟩)).bind fun s =>
        (s.exec oneQueue true .interrupt).map fun s => s.held true) = some none := by
  decide

end Sol26.Msg
