import Mathlib.Tactic.Ring
import Sol26.Sem.Semop

/-!
# An attempt of `semop` does all or nothing

The adjustment of an entry is taken back by the opposite adjustment, also when the entry was
removed or inserted in between, so that `semundo` undoes operation by operation what the loop
did.
-/
namespace Sol26.Sem

open Function (update update_of_ne update_self)
open List (cons_append length_append mem_append mem_cons mem_cons_of_mem mem_cons_self nil_append
  reverse_cons)

variable {info : Seminfo} {id val : ℤ} {num : ℕ} {l l' : List UndoEnt} {s t s0 : State}
  {op : Sembuf} {done ops : List Sembuf} {free : Bool}

/-- The limits fit the types they are compared with: a value is an unsigned short, and an
entry that left its range by an adjustment does not wrap around into it. -/
structure Seminfo.Fits (info : Seminfo) : Prop where
  semvmx : info.semvmx < 65536
  semaem : 3 * info.semaem < 65536

theorem seminfo_fits : seminfo.Fits := ⟨by decide, by decide⟩

def UndoEnt.Before (e f : UndoEnt) : Prop := e.id < f.id ∨ (e.id = f.id ∧ e.num < f.num)

/-- The entries of an undo structure: sorted, none of them zero, all in range, and not too
many. -/
structure Entries (info : Seminfo) (l : List UndoEnt) : Prop where
  sorted : l.Pairwise UndoEnt.Before
  nonzero : ∀ e ∈ l, e.aoe ≠ 0
  range : ∀ e ∈ l, -info.semaem ≤ e.aoe ∧ e.aoe ≤ info.semaem
  room : l.length ≤ info.semume

/-- The adjust-on-exit value of a semaphore. -/
def aoe (id : ℤ) (num : ℕ) : List UndoEnt → ℤ
  | [] => 0
  | e :: rest => if e.id = id ∧ e.num = num then e.aoe else aoe id num rest

/-- The sum of the operations on a semaphore. -/
def total (n : ℕ) : List Sembuf → ℤ
  | [] => 0
  | op :: ops => (if op.num = n then op.op else 0) + total n ops

/-- The sum of the operations with `SEM_UNDO` on a semaphore. -/
def undoTotal (n : ℕ) : List Sembuf → ℤ
  | [] => 0
  | op :: ops => (if op.num = n ∧ op.undo then op.op else 0) + undoTotal n ops

/-! ### Entries -/

theorem short_of_range {x : ℤ} (h : -32768 ≤ x) (h' : x < 32768) : short x = x := by
  simp only [short]
  omega

/-- No entry for zero, one entry for any other value. -/
def ent (id : ℤ) (num : ℕ) (x : ℤ) : List UndoEnt := if x = 0 then [] else [⟨id, num, x⟩]

/-- The entries before and after those of a semaphore. -/
structure Around (id : ℤ) (num : ℕ) (p q : List UndoEnt) : Prop where
  before : ∀ e ∈ p, e.id < id ∨ (e.id = id ∧ e.num < num)
  after : ∀ e ∈ q, id < e.id ∨ (id = e.id ∧ num < e.num)

theorem aoe_of_ne (h : ∀ e ∈ l, ¬ (e.id = id ∧ e.num = num)) : aoe id num l = 0 := by
  induction l with
  | nil => rfl
  | cons e l ih =>
    rw [aoe, if_neg (h e mem_cons_self)]
    exact ih fun f hf => h f (mem_cons_of_mem _ hf)

theorem aoe_append (p q : List UndoEnt) (h : ∀ e ∈ p, ¬ (e.id = id ∧ e.num = num)) :
    aoe id num (p ++ q) = aoe id num q := by
  induction p with
  | nil => rfl
  | cons e p ih =>
    rw [cons_append, aoe, if_neg (h e mem_cons_self)]
    exact ih fun f hf => h f (mem_cons_of_mem _ hf)

/-- The place of a semaphore in a sorted list. -/
theorem split_entries (hs : l.Pairwise UndoEnt.Before) (h0 : ∀ e ∈ l, e.aoe ≠ 0) (id : ℤ)
    (num : ℕ) :
    ∃ p q, Around id num p q ∧ l = p ++ (ent id num (aoe id num l) ++ q) := by
  induction l with
  | nil => exact ⟨[], [], ⟨by simp, by simp⟩, by simp [aoe, ent]⟩
  | cons e l ih =>
    have hcons := List.pairwise_cons.1 hs
    by_cases hlt : e.id < id ∨ (e.id = id ∧ e.num < num)
    · obtain ⟨p, q, har, hl⟩ := ih hcons.2 fun f hf => h0 f (mem_cons_of_mem _ hf)
      refine ⟨e :: p, q, ⟨?_, har.after⟩, ?_⟩
      · intro f hf
        cases mem_cons.1 hf with
        | inl h => rw [h]; exact hlt
        | inr h => exact har.before f h
      · rw [aoe, if_neg (by omega), cons_append, ← hl]
    · by_cases heq : e.id = id ∧ e.num = num
      · refine ⟨[], l, ⟨by simp, ?_⟩, ?_⟩
        · intro f hf
          have := hcons.1 f hf
          rw [UndoEnt.Before, heq.1, heq.2] at this
          exact this
        · rw [aoe, if_pos heq, ent, if_neg (h0 e mem_cons_self)]
          obtain ⟨rfl, rfl⟩ := heq
          rfl
      · refine ⟨[], e :: l, ⟨by simp, ?_⟩, ?_⟩
        · intro f hf
          cases mem_cons.1 hf with
          | inl h => rw [h]; omega
          | inr h =>
            have := hcons.1 f h
            rw [UndoEnt.Before] at this
            omega
        · rw [aoe_of_ne, ent, if_pos rfl]
          · rfl
          · intro f hf
            cases mem_cons.1 hf with
            | inl h => rw [h]; exact heq
            | inr h =>
              have := hcons.1 f h
              rw [UndoEnt.Before] at this
              omega

variable {p q : List UndoEnt}

/-- What `semaoe` does to the value at the place of the semaphore. -/
theorem adjust_around (har : Around id num p q) (room : Bool) (a : ℤ) (val : ℤ) :
    adjust info room val id num (p ++ (ent id num a ++ q)) =
      if a = 0 then
        if room then .ok (p ++ (⟨id, num, short (-val)⟩ :: q)) else .error .einval
      else if info.semaem < short (a - val) ∨ short (a - val) < -info.semaem then .error .erange
      else .ok (p ++ (ent id num (short (a - val)) ++ q)) := by
  obtain ⟨hbefore, hafter⟩ := har
  induction p with
  | nil =>
    by_cases ha : a = 0
    · simp only [ha, ent, if_true, nil_append]
      cases q with
      | nil => rfl
      | cons e q =>
        have := hafter e mem_cons_self
        rw [adjust, if_neg (by omega), if_neg (by omega)]
    · simp only [ent, if_neg ha, nil_append, cons_append, adjust, lt_irrefl,
        and_false, or_self, if_false, and_self, if_true]
      split_ifs <;> simp_all
  | cons e p ih =>
    rw [cons_append, adjust, if_pos (hbefore e mem_cons_self),
      ih fun f hf => hbefore f (mem_cons_of_mem _ hf)]
    split_ifs <;> rfl

theorem Around.not_mem (har : Around id num p q) :
    (∀ e ∈ p, ¬ (e.id = id ∧ e.num = num)) ∧ ∀ e ∈ q, ¬ (e.id = id ∧ e.num = num) :=
  ⟨fun e he => by have := har.before e he; omega, fun e he => by have := har.after e he; omega⟩

theorem aoe_around (har : Around id num p q) (a : ℤ) :
    aoe id num (p ++ (ent id num a ++ q)) = a := by
  rw [aoe_append _ _ har.not_mem.1]
  by_cases ha : a = 0
  · rw [ent, if_pos ha, nil_append, aoe_of_ne har.not_mem.2, ha]
  · rw [ent, if_neg ha, List.singleton_append, aoe, if_pos ⟨rfl, rfl⟩]

theorem aoe_around_of_ne {i : ℤ} {n : ℕ} (h : ¬ (i = id ∧ n = num)) (a b : ℤ) :
    aoe i n (p ++ (ent id num a ++ q)) = aoe i n (p ++ (ent id num b ++ q)) := by
  have hent : ∀ c : ℤ, ∀ e ∈ ent id num c, ¬ (e.id = i ∧ e.num = n) := by
    intro c e he
    rw [ent] at he
    split_ifs at he
    · cases he
    · rw [List.mem_singleton.1 he]
      intro heq
      exact h ⟨heq.1.symm, heq.2.symm⟩
  induction p with
  | nil => rw [nil_append, nil_append, aoe_append _ _ (hent a), aoe_append _ _ (hent b)]
  | cons e p ih => simp only [cons_append, aoe, ih]

theorem length_ent (id : ℤ) (num : ℕ) (a : ℤ) : (ent id num a).length = if a = 0 then 0 else 1 := by
  rw [ent]
  split_ifs <;> rfl

theorem mem_around {e : UndoEnt} {a : ℤ} (he : e ∈ p ++ (ent id num a ++ q)) :
    e ∈ p ∨ (e = ⟨id, num, a⟩ ∧ a ≠ 0) ∨ e ∈ q := by
  rw [mem_append, mem_append, ent] at he
  split_ifs at he with ha
  · simp only [List.not_mem_nil, false_or] at he
    tauto
  · simpa [ha] using he

/-- The place of a semaphore may hold any value in range. -/
theorem Entries.around {a b : ℤ} (har : Around id num p q)
    (h : Entries info (p ++ (ent id num a ++ q))) (hb : -info.semaem ≤ b ∧ b ≤ info.semaem)
    (hroom : (p ++ (ent id num b ++ q)).length ≤ info.semume) :
    Entries info (p ++ (ent id num b ++ q)) := by
  have hp : ∀ e ∈ p, e ∈ p ++ (ent id num a ++ q) := by simp +contextual
  have hq : ∀ e ∈ q, e ∈ p ++ (ent id num a ++ q) := by simp +contextual
  refine ⟨?_, ?_, ?_, hroom⟩
  · have hsorted := h.sorted
    rw [List.pairwise_append, List.pairwise_append] at hsorted ⊢
    obtain ⟨hpp, ⟨-, hqq, -⟩, hpq⟩ := hsorted
    have hent : ∀ e ∈ ent id num b, e = ⟨id, num, b⟩ := by
      intro e he
      rw [ent] at he
      split_ifs at he
      · cases he
      · exact List.mem_singleton.1 he
    refine ⟨hpp, ⟨?_, hqq, ?_⟩, ?_⟩
    · rw [ent]
      split_ifs
      · exact List.Pairwise.nil
      · exact List.pairwise_singleton _ _
    · intro e he f hf
      rw [hent e he]
      exact har.after f hf
    · intro e he f hf
      cases mem_append.1 hf with
      | inl hf =>
        rw [hent f hf]
        exact har.before e he
      | inr hf => exact hpq e he f (List.mem_append_right _ hf)
  · intro e he
    rcases mem_around he with he | he | he
    · exact h.nonzero e (hp e he)
    · rw [he.1]; exact he.2
    · exact h.nonzero e (hq e he)
  · intro e he
    rcases mem_around he with he | he | he
    · exact h.range e (hp e he)
    · rw [he.1]; exact hb
    · exact h.range e (hq e he)

theorem Entries.aoe_range (hi : 0 ≤ info.semaem) (h : Entries info l) (i : ℤ) (n : ℕ) :
    -info.semaem ≤ aoe i n l ∧ aoe i n l ≤ info.semaem := by
  have hrange := h.range
  clear h
  induction l with
  | nil => exact ⟨by simp only [aoe]; omega, hi⟩
  | cons e l ih =>
    rw [aoe]
    split_ifs
    · exact hrange e mem_cons_self
    · exact ih fun f hf => hrange f (mem_cons_of_mem _ hf)

/-- An adjustment that succeeds changes the value of its semaphore alone, keeps the entries
well formed, and the opposite adjustment takes it back. -/
theorem adjust_spec (hfit : info.Fits) (hl : Entries info l) (hval : val ≠ 0)
    (hrange : ¬ (info.semaem < val ∨ val < -info.semaem))
    (h : adjust info (l.length < info.semume) val id num l = .ok l') :
    Entries info l' ∧ aoe id num l' = aoe id num l - val ∧
      (∀ i n, ¬ (i = id ∧ n = num) → aoe i n l' = aoe i n l) ∧
      adjust info (l'.length < info.semume) (-val) id num l' = .ok l := by
  have hem := hfit.semaem
  obtain ⟨p, q, har, hsplit⟩ := split_entries hl.sorted hl.nonzero id num
  have ha := hl.aoe_range (by omega) id num
  revert hsplit ha
  generalize aoe id num l = a
  intro hsplit ha
  subst hsplit
  rw [adjust_around har] at h
  -- whatever was at the place, the value there is now `a - val`
  have hnew : l' = p ++ (ent id num (a - val) ++ q) ∧ -info.semaem ≤ a - val ∧
      a - val ≤ info.semaem ∧ (p ++ (ent id num (a - val) ++ q)).length ≤ info.semume := by
    have hroom := hl.room
    simp only [length_append, length_ent] at hroom ⊢
    by_cases h0 : a = 0
    · rw [if_pos h0] at h hroom
      split_ifs at h with hlt
      have hlt := of_decide_eq_true hlt
      simp only [length_append, length_ent, if_pos h0] at hlt
      refine ⟨?_, by omega, by omega, ?_⟩
      · rw [← Except.ok.inj h, short_of_range (by omega) (by omega), ent, h0, zero_sub,
          if_neg (by omega)]
        rfl
      · split_ifs <;> omega
    · rw [if_neg h0] at h hroom
      split_ifs at h with hout
      have hs : short (a - val) = a - val := by
        simp only [short] at hout ⊢
        omega
      rw [hs] at h hout
      refine ⟨(Except.ok.inj h).symm, by omega, by omega, ?_⟩
      split_ifs <;> omega
  obtain ⟨rfl, hlo, hhi, hroom⟩ := hnew
  refine ⟨hl.around har ⟨hlo, hhi⟩ hroom, aoe_around har _, fun i n hne =>
    aoe_around_of_ne hne _ _, ?_⟩
  rw [adjust_around har]
  by_cases hz : a - val = 0
  · have hlen := hl.room
    simp only [length_append, length_ent, if_neg (show ¬ a = 0 by omega)] at hlen
    rw [if_pos hz, if_pos]
    · rw [short_of_range (by omega) (by omega), ent, if_neg (by omega), show a = - -val by omega]
      rfl
    · apply decide_eq_true
      simp only [length_append, length_ent, if_pos hz]
      omega
  · rw [if_neg hz, show a - val - -val = a by omega, short_of_range (by omega) (by omega),
      if_neg (by omega)]

/-! ### What an attempt sees of the state -/

/-- The values of the semaphores and the entries of the process, with the structure that it
would get if it has none. -/
structure View where
  val : ℕ → ℤ
  ents : Option (List UndoEnt)

def State.view (free : Bool) (s : State) : View :=
  ⟨fun n => (s.sem n).semval, s.undo.or (if free then some [] else none)⟩

/-- Values and entries as the limits allow them. -/
structure View.Good (info : Seminfo) (v : View) : Prop where
  val : ∀ n, 0 ≤ v.val n ∧ v.val n ≤ info.semvmx
  ents : Entries info (v.ents.getD [])

def View.adjust (info : Seminfo) (id : ℤ) (op : Sembuf) (val : ℤ) (v : View) : Option View :=
  if op.undo then
    if val = 0 then some v
    else if info.semaem < val ∨ val < -info.semaem then none
    else match v.ents with
      | none => none
      | some l =>
        match Sem.adjust info (l.length < info.semume) val id op.num l with
        | .ok l' => some ⟨v.val, some l'⟩
        | .error _ => none
  else some v

def View.add (v : View) (n : ℕ) (x : ℤ) : View := { v with val := update v.val n (v.val n + x) }

/-- One operation, if it can be done. -/
def View.perform (info : Seminfo) (id : ℤ) (op : Sembuf) (v : View) : Option View :=
  if 0 < op.op then
    if info.semvmx < op.op + v.val op.num then none
    else (v.adjust info id op op.op).map (·.add op.num op.op)
  else if op.op < 0 then
    if -op.op ≤ v.val op.num then (v.adjust info id op op.op).map (·.add op.num op.op)
    else none
  else if v.val op.num ≠ 0 then none
  else some v

variable {v w u : View}

/-- `semaoe` changes the entries of the process, or it fails and changes nothing. -/
theorem view_adjust (info : Seminfo) (free : Bool) (id : ℤ) (op : Sembuf) (val : ℤ) (s : State) :
    (∃ u, s.adjust info free id op val = ({ s with undo := u }, none) ∧
      (s.view free).adjust info id op val = some (State.view free { s with undo := u })) ∨
    ∃ u e, s.adjust info free id op val = ({ s with undo := u }, some e) ∧
      State.view free { s with undo := u } = s.view free ∧
      (s.view free).adjust info id op val = none := by
  rw [State.adjust, View.adjust]
  by_cases hu : op.undo
  · rw [if_pos hu, if_pos hu, semaoe]
    by_cases h0 : val = 0
    · rw [if_pos h0, if_pos h0]
      exact .inl ⟨_, rfl, rfl⟩
    · rw [if_neg h0, if_neg h0]
      by_cases hr : info.semaem < val ∨ val < -info.semaem
      · rw [if_pos hr, if_pos hr]
        exact .inr ⟨_, _, rfl, rfl, rfl⟩
      · rw [if_neg hr, if_neg hr]
        cases hents : s.undo.or (if free then some [] else none) with
        | none =>
          refine .inr ⟨_, _, rfl, ?_, by simp only [State.view, hents]⟩
          simp only [State.view, Option.none_or, (Option.or_eq_none_iff.1 hents).1,
            (Option.or_eq_none_iff.1 hents).2]
        | some l =>
          cases hadj : Sem.adjust info (l.length < info.semume) val id op.num l with
          | ok l' =>
            refine .inl ⟨some l', ?_, ?_⟩
            · simp only [hadj]
            · simp only [State.view, hents, hadj, Option.some_or]
          | error e =>
            refine .inr ⟨some l, e, ?_, ?_, ?_⟩
            · simp only [hadj]
            · simp only [State.view, hents, Option.some_or]
            · simp only [State.view, hents, hadj]
  · rw [if_neg hu, if_neg hu]
    exact .inl ⟨s.undo, rfl, rfl⟩

theorem view_addVal {n : ℕ} {x : ℤ} (h : 0 ≤ (s.sem n).semval + x)
    (h' : (s.sem n).semval + x < 65536) : (s.addVal n x).view free = (s.view free).add n x := by
  simp only [State.view, State.addVal, State.setSem, View.add, View.mk.injEq, and_true]
  funext m
  by_cases hm : m = n
  · subst hm
    simp only [update_self, ushort]
    omega
  · simp only [update_of_ne hm]

@[simp] theorem view_setSem {n : ℕ} {semp : Sema} (h : semp.semval = (s.sem n).semval) :
    (s.setSem n semp).view free = s.view free := by
  simp only [State.view, State.setSem, View.mk.injEq, and_true]
  funext m
  by_cases hm : m = n
  · subst hm
    simp only [update_self, h]
  · simp only [update_of_ne hm]

@[simp] theorem view_wake (s : State) (w : Wake) : (s.wake w).view free = s.view free := rfl

@[simp] theorem view_wakeNcnt (s : State) (n : ℕ) (signal : Bool) :
    (s.wakeNcnt n signal).view free = s.view free := by
  simp only [State.wakeNcnt]
  split_ifs <;> simp

@[simp] theorem view_wakeZcnt (s : State) (n : ℕ) (signal : Bool) :
    (s.wakeZcnt n signal).view free = s.view free := by
  simp only [State.wakeZcnt]
  split_ifs <;> simp

@[simp] theorem view_sleepNcnt (s : State) (op : Sembuf) :
    (s.sleepNcnt op).view free = s.view free := by
  simp only [State.sleepNcnt]
  split_ifs
  · exact view_setSem rfl
  · exact view_setSem rfl

@[simp] theorem view_sleepZcnt (s : State) (op : Sembuf) :
    (s.sleepZcnt op).view free = s.view free :=
  view_setSem rfl

/-! ### One operation and its undoing -/

theorem View.adjust_spec (hfit : info.Fits) (hv : v.Good info) (hval : val ≠ 0)
    (h : v.adjust info id op val = some w) :
    w.val = v.val ∧ Entries info (w.ents.getD []) ∧
      (∀ i n, aoe i n (w.ents.getD []) = aoe i n (v.ents.getD []) -
        if i = id ∧ op.num = n ∧ op.undo then val else 0) ∧
      w.adjust info id op (short (-val)) = some v := by
  have hem := hfit.semaem
  by_cases hu : op.undo
  · rw [View.adjust, if_pos hu, if_neg hval] at h
    split_ifs at h with hr
    obtain ⟨vals, ents⟩ := v
    cases ents with
    | none => cases h
    | some l =>
      cases hadj : Sem.adjust info (l.length < info.semume) val id op.num l with
      | error e =>
        simp only [hadj] at h
        cases h
      | ok l' =>
        simp only [hadj] at h
        cases h
        obtain ⟨hents, hself, hother, hback⟩ := adjust_spec hfit hv.ents hval hr hadj
        refine ⟨rfl, hents, ?_, ?_⟩
        · intro i n
          simp only [Option.getD_some, hu, and_true]
          split_ifs with hin
          · rw [hin.1, ← hin.2]
            exact hself
          · rw [hother i n fun h => hin ⟨h.1, h.2.symm⟩, sub_zero]
            rfl
        · rw [View.adjust, short_of_range (by omega) (by omega), if_pos hu, if_neg (by omega),
            if_neg (by omega)]
          simp only [hback]
          rfl
  · rw [View.adjust, if_neg hu] at h
    cases h
    refine ⟨rfl, hv.ents, ?_, ?_⟩
    · intro i n
      rw [if_neg (fun hin => hu hin.2.2), sub_zero]
    · rw [View.adjust, if_neg hu]

/-- What `semundo` does for one operation. -/
def View.takeBack (info : Seminfo) (id : ℤ) (op : Sembuf) (v : View) : View :=
  if op.op = 0 then v
  else ((v.add op.num (-op.op)).adjust info id op (short (-op.op))).getD (v.add op.num (-op.op))

/-- The values and entries after an operation are those before it with the operation added. -/
structure View.Performed (info : Seminfo) (id : ℤ) (op : Sembuf) (v w : View) : Prop where
  good : w.Good info
  val : ∀ n, w.val n = v.val n + if op.num = n then op.op else 0
  aoe : ∀ i n, aoe i n (w.ents.getD []) = aoe i n (v.ents.getD []) -
    if i = id ∧ op.num = n ∧ op.undo then op.op else 0
  back : w.takeBack info id op = v

theorem View.add_neg (v : View) (n : ℕ) (x : ℤ) : (v.add n x).add n (-x) = v := by
  simp [View.add]

theorem View.perform_nonzero (hfit : info.Fits) (hv : v.Good info) (h0 : op.op ≠ 0)
    (hlo : 0 ≤ v.val op.num + op.op) (hhi : v.val op.num + op.op ≤ info.semvmx)
    (h : (v.adjust info id op op.op).map (·.add op.num op.op) = some w) :
    View.Performed info id op v w := by
  obtain ⟨u, hu, rfl⟩ := Option.map_eq_some_iff.1 h
  obtain ⟨hval, hents, haoe, hback⟩ := View.adjust_spec hfit hv h0 hu
  have hadd : ∀ n, (u.add op.num op.op).val n = v.val n + if op.num = n then op.op else 0 := by
    intro n
    by_cases hn : n = op.num
    · simp [View.add, hn, hval]
    · simp [View.add, hn, Ne.symm hn, hval]
  refine ⟨⟨?_, hents⟩, hadd, ?_, ?_⟩
  · intro n
    have := hv.val n
    rw [hadd]
    split_ifs with hn
    · rw [← hn]
      exact ⟨hlo, hhi⟩
    · omega
  · intro i n
    exact haoe i n
  · rw [View.takeBack, if_neg h0]
    simp only [View.add_neg, hback, Option.getD_some]

theorem View.perform_spec (hfit : info.Fits) (hv : v.Good info)
    (h : v.perform info id op = some w) : View.Performed info id op v w := by
  have := hv.val op.num
  rw [View.perform] at h
  split_ifs at h
  · exact View.perform_nonzero hfit hv (by omega) (by omega) (by omega) h
  · exact View.perform_nonzero hfit hv (by omega) (by omega) (by omega) h
  · have h0 : op.op = 0 := by omega
    cases h
    exact ⟨hv, by simp [h0], by simp [h0], by rw [View.takeBack, if_pos h0]⟩

/-- The operations done so far, last one first, lead from one view to the other. -/
inductive Trail (info : Seminfo) (id : ℤ) (v : View) : List Sembuf → View → Prop
  | nil : Trail info id v [] v
  | cons {xs : List Sembuf} {y z : View} {x : Sembuf} : Trail info id v xs y →
      View.perform info id x y = some z → Trail info id v (x :: xs) z

theorem Trail.good (hfit : info.Fits) (hv : v.Good info) (h : Trail info id v done w) :
    w.Good info := by
  induction h with
  | nil => exact hv
  | cons _ hop ih => exact (View.perform_spec hfit ih hop).good

theorem view_semundo_cons (hfit : info.Fits) (hu : u.Good info)
    (hop : View.perform info id op u = some (s.view free)) :
    ∃ t : State, t.view free = u ∧
      semundo info free id (op :: done) s = semundo info free id done t := by
  have hw := View.perform_spec hfit hu hop
  have hback := hw.back
  rw [View.takeBack] at hback
  rw [semundo]
  split_ifs at hback ⊢ with h0
  · exact ⟨s, hback, rfl⟩
  · refine ⟨_, ?_, rfl⟩
    have hval := hw.val op.num
    have hgood := hu.val op.num
    have hmax := hfit.semvmx
    rw [if_pos rfl] at hval
    have hs : (s.view free).val op.num = (s.sem op.num).semval := rfl
    rw [← view_addVal (by omega) (by omega)] at hback
    rcases view_adjust info free id op (short (-op.op)) (s.addVal op.num (-op.op)) with
      ⟨u', ht, hadj⟩ | ⟨u', e, ht, hview, hadj⟩
    · rw [hadj, Option.getD_some] at hback
      rw [ht]
      exact hback
    · rw [hadj, Option.getD_none] at hback
      rw [ht]
      exact hview.trans hback

/-- `semundo` takes everything back. -/
theorem view_semundo (hfit : info.Fits) (hv : v.Good info)
    (h : Trail info id v done (s.view free)) : (semundo info free id done s).view free = v := by
  induction done generalizing s with
  | nil =>
    cases h
    rfl
  | cons op done ih =>
    cases h with
    | cons htrail hop =>
      obtain ⟨t, ht, heq⟩ := view_semundo_cons hfit (htrail.good hfit hv) hop
      rw [heq]
      apply ih
      rw [ht]
      exact htrail

/-! ### The whole attempt -/

/-- What a pass of the loop can do. -/
inductive Pass (info : Seminfo) (free : Bool) (id : ℤ) (binaryType : Bool) (done : List Sembuf)
    (op : Sembuf) (ops : List Sembuf) (s : State) : Outcome × State → Prop
  | fail (u : Option (List UndoEnt)) (e : Errno)
      (hview : State.view free { s with undo := u } = s.view free) :
      Pass info free id binaryType done op ops s
        (.fail e, semundo info free id done { s with undo := u })
  | up (u : Option (List UndoEnt)) (hpos : 0 < op.op)
      (hmax : op.op + (s.sem op.num).semval ≤ info.semvmx)
      (hadj : (s.view free).perform info id op =
        some ((State.view free { s with undo := u }).add op.num op.op)) :
      Pass info free id binaryType done op ops s
        (semopLoop info free id binaryType (op :: done) ops
          (((State.addVal { s with undo := u } op.num op.op).wakeNcnt op.num
            (op.op = 1 ∧ binaryType)).wakeZcnt op.num (op.op = 1 ∧ binaryType)))
  | down (u : Option (List UndoEnt)) (hneg : op.op < 0)
      (hmin : 0 ≤ op.op + (s.sem op.num).semval)
      (hadj : (s.view free).perform info id op =
        some ((State.view free { s with undo := u }).add op.num op.op)) :
      Pass info free id binaryType done op ops s
        (semopLoop info free id binaryType (op :: done) ops
          ((State.addVal { s with undo := u } op.num op.op).wakeZcnt op.num false))
  | zero (hzero : op.op = 0) (h0 : (s.sem op.num).semval = 0)
      (hadj : (s.view free).perform info id op = some (s.view free)) :
      Pass info free id binaryType done op ops s
        (semopLoop info free id binaryType (op :: done) ops s)
  | sleepNcnt (hneg : op.op < 0) (hlt : (s.sem op.num).semval < -op.op) :
      Pass info free id binaryType done op ops s
        (.sleep ⟨op.num, .ncnt⟩, (semundo info free id done s).sleepNcnt op)
  | sleepZcnt (hzero : op.op = 0) (hne : (s.sem op.num).semval ≠ 0) :
      Pass info free id binaryType done op ops s
        (.sleep ⟨op.num, .zcnt⟩, (semundo info free id done s).sleepZcnt op)

theorem semopLoop_pass (info : Seminfo) (free : Bool) (id : ℤ) (binaryType : Bool)
    (done : List Sembuf) (op : Sembuf) (ops : List Sembuf) (s : State) :
    Pass info free id binaryType done op ops s
      (semopLoop info free id binaryType done (op :: ops) s) := by
  have hs : (s.view free).val op.num = (s.sem op.num).semval := rfl
  rw [semopLoop]
  by_cases hpos : 0 < op.op
  · rw [if_pos hpos]
    by_cases hmax : info.semvmx < op.op + (s.sem op.num).semval
    · rw [if_pos hmax]
      exact .fail s.undo _ rfl
    · rw [if_neg hmax]
      rcases view_adjust info free id op op.op s with ⟨u, ht, hadj⟩ | ⟨u, e, ht, hview, -⟩
      · rw [ht]
        refine .up u hpos (by omega) ?_
        rw [View.perform, if_pos hpos, hs, if_neg hmax, hadj]
        rfl
      · rw [ht]
        exact .fail u e hview
  · rw [if_neg hpos]
    by_cases hneg : op.op < 0
    · rw [if_pos hneg]
      by_cases hmin : -op.op ≤ (s.sem op.num).semval
      · rw [if_pos hmin]
        rcases view_adjust info free id op op.op s with ⟨u, ht, hadj⟩ | ⟨u, e, ht, hview, -⟩
        · rw [ht]
          refine .down u hneg (by omega) ?_
          rw [View.perform, if_neg hpos, if_pos hneg, hs, if_pos hmin, hadj]
          rfl
        · rw [ht]
          exact .fail u e hview
      · rw [if_neg hmin]
        split_ifs
        · exact .fail s.undo _ rfl
        · exact .sleepNcnt hneg (by omega)
    · rw [if_neg hneg]
      by_cases hz : (s.sem op.num).semval ≠ 0
      · rw [if_pos hz]
        split_ifs
        · exact .fail s.undo _ rfl
        · exact .sleepZcnt (by omega) hz
      · rw [if_neg hz]
        refine .zero (by omega) (by omega) ?_
        rw [View.perform, if_neg hpos, if_neg hneg, hs, if_neg hz]

/-- An operation that is not zero leads on. -/
theorem trail_nonzero (hfit : info.Fits) (htrail : Trail info id v done (s.view free))
    {u : Option (List UndoEnt)} (hlo : 0 ≤ op.op + (s.sem op.num).semval)
    (hhi : op.op + (s.sem op.num).semval ≤ info.semvmx)
    (hadj : (s.view free).perform info id op =
      some ((State.view free { s with undo := u }).add op.num op.op)) :
    Trail info id v (op :: done) ((State.addVal { s with undo := u } op.num op.op).view free) := by
  have hmax := hfit.semvmx
  rw [add_comm op.op] at hlo hhi
  rw [view_addVal (s := { s with undo := u }) hlo (lt_of_le_of_lt hhi hmax)]
  exact htrail.cons hadj

/-- The loop ends with all operations done, or with what was there before the first one. -/
theorem semopLoop_spec (hfit : info.Fits) (hv : v.Good info) (binaryType : Bool)
    (ops : List Sembuf) (htrail : Trail info id v done (s.view free)) :
    (((semopLoop info free id binaryType done ops s).1 = .done ∧
      Trail info id v (ops.reverse ++ done)
        ((semopLoop info free id binaryType done ops s).2.view free)) ∨
    ((semopLoop info free id binaryType done ops s).1 ≠ .done ∧
      (semopLoop info free id binaryType done ops s).2.view free = v)) := by
  induction ops generalizing done s with
  | nil => exact .inl ⟨rfl, htrail⟩
  | cons op ops ih =>
    have hundo := view_semundo hfit hv htrail
    have hgood : 0 ≤ (s.sem op.num).semval ∧ (s.sem op.num).semval ≤ info.semvmx :=
      (htrail.good hfit hv).val op.num
    have hpass := semopLoop_pass info free id binaryType done op ops s
    rw [reverse_cons, List.append_assoc, List.singleton_append]
    revert hpass
    generalize semopLoop info free id binaryType done (op :: ops) s = r
    intro hpass
    cases hpass with
    | fail u e hview =>
      refine .inr ⟨by simp, view_semundo hfit hv ?_⟩
      rw [hview]
      exact htrail
    | up u hpos hmax hadj =>
      apply ih
      rw [view_wakeZcnt, view_wakeNcnt]
      exact trail_nonzero hfit htrail (by omega) hmax hadj
    | down u hneg hmin hadj =>
      apply ih
      rw [view_wakeZcnt]
      exact trail_nonzero hfit htrail hmin (by omega) hadj
    | zero _ _ hadj => exact ih (htrail.cons hadj)
    | sleepNcnt => exact .inr ⟨by simp, by rw [view_sleepNcnt, hundo]⟩
    | sleepZcnt => exact .inr ⟨by simp, by rw [view_sleepZcnt, hundo]⟩

theorem total_append (n : ℕ) (xs ys : List Sembuf) :
    total n (xs ++ ys) = total n xs + total n ys := by
  induction xs with
  | nil => simp [total]
  | cons op xs ih => simp only [cons_append, total, ih, add_assoc]

theorem total_reverse (n : ℕ) (xs : List Sembuf) : total n xs.reverse = total n xs := by
  induction xs with
  | nil => rfl
  | cons op xs ih =>
    rw [reverse_cons, total_append, ih]
    simp only [total]
    omega

theorem undoTotal_append (n : ℕ) (xs ys : List Sembuf) :
    undoTotal n (xs ++ ys) = undoTotal n xs + undoTotal n ys := by
  induction xs with
  | nil => simp [undoTotal]
  | cons op xs ih => simp only [cons_append, undoTotal, ih, add_assoc]

theorem undoTotal_reverse (n : ℕ) (xs : List Sembuf) : undoTotal n xs.reverse = undoTotal n xs := by
  induction xs with
  | nil => rfl
  | cons op xs ih =>
    rw [reverse_cons, undoTotal_append, ih]
    simp only [undoTotal]
    omega

theorem Trail.val_eq (hfit : info.Fits) (hv : v.Good info) (h : Trail info id v done w) (n : ℕ) :
    w.val n = v.val n + total n done := by
  induction h with
  | nil => simp [total]
  | cons htrail hop ih =>
    rw [(View.perform_spec hfit (htrail.good hfit hv) hop).val, ih, total]
    omega

theorem Trail.aoe_eq (hfit : info.Fits) (hv : v.Good info) (h : Trail info id v done w) (i : ℤ)
    (n : ℕ) :
    aoe i n (w.ents.getD []) =
      aoe i n (v.ents.getD []) - if i = id then undoTotal n done else 0 := by
  induction h with
  | nil => simp [undoTotal]
  | cons htrail hop ih =>
    rw [(View.perform_spec hfit (htrail.good hfit hv) hop).aoe, ih, undoTotal]
    split_ifs <;> first | omega | tauto

/-- Every part of a trail is a trail. -/
theorem Trail.split {xs : List Sembuf} (h : Trail info id v (xs ++ done) w) :
    ∃ u, Trail info id v done u := by
  induction xs generalizing w with
  | nil => exact ⟨w, h⟩
  | cons op xs ih =>
    cases h with
    | cons htrail _ => exact ih htrail

/-- The values of a set and the entries of a process after all of `ops`, or none of them. -/
structure AllOrNothing (info : Seminfo) (id : ℤ) (ops : List Sembuf) (s : State)
    (r : Outcome × State) : Prop where
  nothing : r.1 ≠ .done → (∀ n, (r.2.sem n).semval = (s.sem n).semval) ∧
    r.2.undo.getD [] = s.undo.getD []
  values : r.1 = .done → ∀ n, (r.2.sem n).semval = (s.sem n).semval + total n ops
  bounds : r.1 = .done → ∀ n k, 0 ≤ (s.sem n).semval + total n (ops.take k) ∧
    (s.sem n).semval + total n (ops.take k) ≤ info.semvmx
  entries : r.1 = .done → ∀ i n, aoe i n (r.2.undo.getD []) =
    aoe i n (s.undo.getD []) - if i = id then undoTotal n ops else 0
  wellFormed : Entries info (r.2.undo.getD [])

theorem getD_view (free : Bool) (s : State) : (s.view free).ents.getD [] = s.undo.getD [] := by
  cases s with
  | mk sem binary undo wakes => cases undo <;> cases free <;> rfl

theorem AllOrNothing.of_nothing (hents : Entries info (s.undo.getD [])) {o : Outcome}
    (ho : o ≠ .done) (hval : ∀ n, (t.sem n).semval = (s.sem n).semval)
    (hundo : t.undo.getD [] = s.undo.getD []) : AllOrNothing info id ops s (o, t) :=
  ⟨fun _ => ⟨hval, hundo⟩, fun h => absurd h ho, fun h => absurd h ho, fun h => absurd h ho,
    by rw [hundo]; exact hents⟩

/-- A trail over all operations. -/
theorem AllOrNothing.of_trail (hfit : info.Fits) (hgood : (s.view free).Good info)
    (h : Trail info id (s.view free) ops.reverse (t.view free)) :
    AllOrNothing info id ops s (.done, t) := by
  refine ⟨fun hne => absurd rfl hne, fun _ n => ?_, fun _ n k => ?_, fun _ i n => ?_, ?_⟩
  · rw [← total_reverse]
    exact h.val_eq hfit hgood n
  · -- the operations up to the `k`-th are a trail of their own, so its end is within bounds
    rw [← List.take_append_drop k ops, List.reverse_append] at h
    obtain ⟨u, hu⟩ := h.split
    have hval := hu.val_eq hfit hgood n
    rw [total_reverse] at hval
    have hbound := (hu.good hfit hgood).val n
    rw [hval] at hbound
    exact hbound
  · have haoe := h.aoe_eq hfit hgood i n
    rw [getD_view, getD_view, undoTotal_reverse] at haoe
    exact haoe
  · rw [← getD_view free]
    exact (h.good hfit hgood).ents

theorem attempt_allOrNothing (hfit : info.Fits)
    (hval : ∀ n, 0 ≤ (s.sem n).semval ∧ (s.sem n).semval ≤ info.semvmx)
    (hents : Entries info (s.undo.getD [])) (free : Bool) (id : ℤ) (nsems : ℕ)
    (ops : List Sembuf) : AllOrNothing info id ops s (attempt info free id nsems ops s) := by
  have hgood : (s.view free).Good info := ⟨hval, by rw [getD_view]; exact hents⟩
  have hstart : Trail info id (s.view free) [] (State.view free { s with wakes := [] }) :=
    Trail.nil
  have hloop := semopLoop_spec hfit hgood (s.binary && nsems = 1) ops hstart
  rw [attempt]
  revert hloop
  generalize semopLoop info free id (s.binary && nsems = 1) [] ops { s with wakes := [] } = r
  obtain ⟨o, t⟩ := r
  rintro (⟨hdone, htrail⟩ | ⟨hne, hview⟩)
  · rw [List.append_nil] at htrail
    rw [show o = .done from hdone]
    exact .of_trail hfit hgood htrail
  · apply AllOrNothing.of_nothing hents hne
    · exact fun n => congrFun (congrArg View.val hview) n
    · rw [← getD_view free t, ← getD_view free s]
      exact congrArg (fun v => v.ents.getD []) hview

/-- `semop`, and every attempt that it makes after it was woken, does all of its operations or
none of them. -/
theorem semop_allOrNothing (hfit : info.Fits)
    (hval : ∀ n, 0 ≤ (s.sem n).semval ∧ (s.sem n).semval ≤ info.semvmx)
    (hents : Entries info (s.undo.getD [])) (free : Bool) (id : ℤ) (nsems : ℕ)
    (access : Bool → Option Errno) (ops : List Sembuf) :
    AllOrNothing info id ops s (attempt info free id nsems ops s) ∧
      AllOrNothing info id ops s (semop info free id nsems access ops s) := by
  have hattempt := attempt_allOrNothing hfit hval hents free id nsems ops
  refine ⟨hattempt, ?_⟩
  rw [semop]
  split_ifs with hmany hnone
  · exact .of_nothing hents (by simp) (fun _ => rfl) rfl
  · rw [List.length_eq_zero_iff] at hnone
    subst hnone
    have hgood : (s.view free).Good info := ⟨hval, by rw [getD_view]; exact hents⟩
    exact .of_trail hfit hgood Trail.nil
  · cases ops.findSome? fun op =>
        (access (op.op ≠ 0)).or (if nsems ≤ op.num then some .efbig else none) with
    | some e => exact .of_nothing hents (by simp) (fun _ => rfl) rfl
    | none => exact hattempt

/-- A set of one semaphore with value two, and a process with an entry for it. -/
def twoUnits : State := ⟨fun n => ⟨if n = 0 then 2 else 0, 0, 0⟩, true, some [⟨7, 0, 1⟩], []⟩

theorem semop_allOrNothing_twoUnits :
    seminfo.Fits ∧ Entries seminfo (twoUnits.undo.getD []) ∧
      AllOrNothing seminfo 7 [⟨0, 1, true, false⟩, ⟨0, -4, false, false⟩] twoUnits
        (semop seminfo false 7 1 (fun _ => none)
          [⟨0, 1, true, false⟩, ⟨0, -4, false, false⟩] twoUnits) := by
  have hval : ∀ n, 0 ≤ (twoUnits.sem n).semval ∧ (twoUnits.sem n).semval ≤ seminfo.semvmx := by
    intro n
    simp only [twoUnits, seminfo]
    split_ifs <;> omega
  have hents : Entries seminfo (twoUnits.undo.getD []) :=
    ⟨List.pairwise_singleton _ _, by decide, by decide, by decide⟩
  exact ⟨seminfo_fits, hents, (semop_allOrNothing seminfo_fits hval hents false 7 1
    (fun _ => none) _).2⟩

end Sol26.Sem
