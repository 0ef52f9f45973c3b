import Sol26.Fd.Table

/-!
# What every slot of the table is in

A descriptor is free, open, reserved by one thread, or being closed by one thread, and its flags
tell which. This holds as long as `dupdest` is not called for a descriptor that another thread
has reserved.
-/
namespace Sol26.Fd

open Function (comp_def update update_of_ne update_self)
open Bool (toNat_eq_one toNat_false toNat_le toNat_true)
open Option (bind_eq_bind bind_eq_some_iff)
open Wait (dups on)
open Multiset (countP countP_cons countP_eq_zero countP_map countP_pos_of_mem count_cons
  count_cons_of_ne count_cons_self count_erase_of_ne count_erase_self count_pos erase_cons_head
  exists_cons_of_mem map_map mem_cons)

/-- The entry of a descriptor, and an empty one outside the table. -/
def State.slot (s : State) (fd : ℕ) : Entry := s.flist.getD fd {}

/-- The descriptor that the thread is closing. -/
def Wait.closes : Wait → Option ℕ
  | .close fd _ => some fd
  | .dupOpen dest _ _ => some dest
  | .dupClosing _ _ => none

/-- The files that the thread holds references to. -/
def Wait.files : Wait → List ℕ
  | .close _ fp => [fp]
  | .dupOpen _ fp fp2 => [fp, fp2]
  | .dupClosing _ fp => [fp]

def closers (sleepers : Multiset Sleeper) (fd : ℕ) : ℕ :=
  sleepers.countP fun t => t.wait.closes = some fd

def dupers (sleepers : Multiset Sleeper) (fd : ℕ) : ℕ :=
  sleepers.countP fun t => t.wait.dups = some fd

/-- How many threads are in `dupdest`. -/
def dupping (sleepers : Multiset Sleeper) : ℕ := sleepers.countP fun t => t.wait.dups.isSome

def holders (flist : List Entry) (fp : ℕ) : ℕ := flist.countP fun e => e.ofile = some fp

def inHand (sleepers : Multiset Sleeper) (fp : ℕ) : ℕ :=
  (sleepers.map fun t => t.wait.files.count fp).sum

/-- A slot and the threads that have to do with it: how many got it, reserved it, are closing it
and dup to it. With `few` of them, `uf_refcnt` is their number and not only that modulo `2 ^ 16`. -/
structure SlotOk (few : Prop) (e : Entry) (got reserved closers dupers : ℕ) : Prop where
  refcnt : e.refcnt = BitVec.ofNat 16 got
  reserved : reserved + closers = e.reserved.toNat
  closing : closers = e.closing.toNat
  reserved2 : dupers = e.reserved2.toNat
  opened : e.ofile ≠ none → e.reserved = false ∧ e.reserved2 = false
  busy : few → 0 < got → e.ofile ≠ none ∨ e.closing = true
  short : few → got < 32768

/-- The invariant of the table. -/
structure Inv (few : Prop) (s : State) : Prop where
  slot : ∀ fd, SlotOk few (s.slot fd) (s.gots.count fd) (s.reservations.count fd)
    (closers s.sleepers fd) (dupers s.sleepers fd)
  /-- `u_flock2` lets one thread at a time into `dupdest` -/
  dup : dupping s.sleepers ≤ 1
  /-- a `dupdest` that waits for a close is woken when the close is done -/
  wait : ∀ dest fp w, ⟨.dupClosing dest fp, w⟩ ∈ s.sleepers →
    (s.slot dest).closing = !w ∧ (w = true → (s.slot dest).reserved = false)
  /-- every reference to a file is in a slot or in the hands of a thread -/
  fcount : ∀ fp, s.fcount fp = holders s.flist fp + s.refs.count fp + inHand s.sleepers fp

section Slots

variable {few : Prop} {s : State} {fd : ℕ} {e : Entry} {f : Entry → Entry}

theorem ofile_eq_none (h : e.ofile ≠ none → e.reserved = false ∧ e.reserved2 = false)
    (hr : e.reserved = true ∨ e.reserved2 = true) : e.ofile = none := by
  by_contra hne
  simp [h hne] at hr

theorem Entry.refcnt_ne_zero (e : Entry) (h : e.inUse = true) : e.refcnt ≠ 0 := by
  intro hz
  simp [Entry.inUse, hz] at h

theorem SlotOk.refcnt_toInt {got reserved closers dupers : ℕ}
    (h : SlotOk few e got reserved closers dupers) (hf : few) : e.refcnt.toInt = got := by
  have hlt := h.short hf
  rw [h.refcnt, BitVec.toInt_ofNat', Int.bmod_eq_of_le] <;> omega

theorem SlotOk.inUse_iff {got reserved closers dupers : ℕ}
    (h : SlotOk few e got reserved closers dupers) (hf : few) : e.inUse = true ↔ 0 < got := by
  rw [Entry.inUse, BitVec.slt_eq_decide, h.refcnt_toInt hf]
  simp

@[simp] theorem update_sleepers : (s.update fd f).sleepers = s.sleepers := rfl

@[simp] theorem update_gots : (s.update fd f).gots = s.gots := rfl

@[simp] theorem update_reservations : (s.update fd f).reservations = s.reservations := rfl

@[simp] theorem update_refs : (s.update fd f).refs = s.refs := rfl

theorem slot_eq (h : s.flist[fd]? = some e) : s.slot fd = e := by
  simp [State.slot, h]

theorem slot_update (h : s.flist[fd]? = some e) (j : ℕ) :
    (s.update fd f).slot j = if j = fd then f e else s.slot j := by
  unfold State.slot State.update
  simp only [List.getD_eq_getElem?_getD, List.getElem?_modify]
  by_cases hj : j = fd
  · subst hj
    simp [h]
  · simp [hj, Ne.symm hj]

theorem holders_update (h : s.flist[fd]? = some e) (fp : ℕ) :
    holders (s.update fd f).flist fp + (if e.ofile = some fp then 1 else 0) =
      holders s.flist fp + if (f e).ofile = some fp then 1 else 0 := by
  unfold holders State.update
  dsimp only
  generalize s.flist = l at h
  induction l generalizing fd with
  | nil => simp at h
  | cons a l ih =>
    cases fd with
    | zero =>
      obtain rfl : a = e := by simpa using h
      simp only [List.modify_zero_cons, List.countP_cons, decide_eq_true_eq]
      omega
    | succ fd =>
      have := ih (by simpa using h)
      simp only [List.modify_succ_cons, List.countP_cons]
      omega

/-- Growth keeps every entry and adds empty ones. -/
theorem flistRealloc_spec {s' : State} (h : s.flistRealloc fd = some s') :
    ∃ n, s' = { s with flist := s.flist ++ List.replicate n {} } := by
  unfold State.flistRealloc at h
  simp only [Option.ite_none_left_eq_some, Option.some.injEq] at h
  exact ⟨_, h.2.symm⟩

theorem slot_grow (n j : ℕ) :
    ({ s with flist := s.flist ++ List.replicate n {} } : State).slot j = s.slot j := by
  unfold State.slot
  simp only [List.getD_eq_getElem?_getD, List.getElem?_append, List.getElem?_replicate]
  split_ifs with h1 h2
  · rfl
  all_goals simp [List.getElem?_eq_none (not_lt.mp h1)]

theorem holders_grow (n fp : ℕ) :
    holders (s.flist ++ List.replicate n ({} : Entry)) fp = holders s.flist fp := by
  simp [holders, List.countP_replicate]

end Slots

section Bags

variable {sleepers : Multiset Sleeper} {t : Sleeper} {fd fp : ℕ}

@[simp] theorem closers_cons : closers (t ::ₘ sleepers) fd =
    closers sleepers fd + if t.wait.closes = some fd then 1 else 0 := by
  simp [closers, countP_cons]

@[simp] theorem dupers_cons : dupers (t ::ₘ sleepers) fd =
    dupers sleepers fd + if t.wait.dups = some fd then 1 else 0 := by
  simp [dupers, countP_cons]

@[simp] theorem inHand_cons : inHand (t ::ₘ sleepers) fp =
    inHand sleepers fp + t.wait.files.count fp := by
  simp [inHand, add_comm]

@[simp] theorem dupping_cons : dupping (t ::ₘ sleepers) =
    dupping sleepers + if t.wait.dups.isSome then 1 else 0 := by
  simp [dupping, countP_cons]

/-- Only one thread is in `dupdest`. -/
theorem dups_of_cons (h : dupping (t ::ₘ sleepers) ≤ 1) (ht : t.wait.dups.isSome) :
    ∀ u ∈ sleepers, u.wait.dups = none := by
  intro u hu
  by_contra hne
  rw [dupping_cons, if_pos ht] at h
  have : 0 < dupping sleepers := countP_pos_of_mem hu (Option.isSome_iff_ne_none.mpr hne)
  omega

/-- The counts look at what threads wait for, not at whether they have been woken. -/
theorem counts_congr {a b : Multiset Sleeper} (h : a.map Sleeper.wait = b.map Sleeper.wait) :
    closers a = closers b ∧ dupers a = dupers b ∧ inHand a = inHand b ∧ dupping a = dupping b := by
  have hcount : ∀ (p : Wait → Prop) [DecidablePred p],
      a.countP (fun t => p t.wait) = b.countP (fun t => p t.wait) := by
    intro p _
    have := congrArg (countP p) h
    rwa [countP_map, countP_map, ← Multiset.countP_eq_card_filter,
      ← Multiset.countP_eq_card_filter] at this
  refine ⟨funext fun fd => hcount fun t => t.closes = some fd,
    funext fun fd => hcount fun t => t.dups = some fd, funext fun fp => ?_,
    hcount fun t => t.dups.isSome⟩
  have := congrArg (fun m => (m.map fun t : Wait => t.files.count fp).sum) h
  simpa [inHand, map_map] using this

theorem wake_map {cv : Cv} {who : Option Sleeper} (h : Signals sleepers cv who) :
    (wake sleepers who).map Sleeper.wait = sleepers.map Sleeper.wait := by
  cases who with
  | none => rfl
  | some t =>
    obtain ⟨rest, hrest⟩ := exists_cons_of_mem h.1
    simp [wake, hrest]

theorem mem_wake {who : Option Sleeper} (h : t ∈ wake sleepers who) :
    t ∈ sleepers ∨ ∃ u, who = some u ∧ t = ⟨u.wait, true⟩ := by
  cases who with
  | none => exact .inl h
  | some u =>
    rcases mem_cons.mp h with rfl | h
    · exact .inr ⟨u, rfl, rfl⟩
    · exact .inl (Multiset.mem_of_mem_erase h)

end Bags

section Steps

variable {few : Prop} {s s' : State} {fd fp : ℕ} {e : Entry}

/-- A step that edits the entry of one descriptor, with what the threads hold afterwards. -/
theorem Inv.edit (h : Inv few s) (hfd : s.flist[fd]? = some e) (f : Entry → Entry)
    {sleepers : Multiset Sleeper} {gots reservations refs : Multiset ℕ}
    (hother : ∀ j, j ≠ fd → gots.count j = s.gots.count j ∧
      reservations.count j = s.reservations.count j ∧
      closers sleepers j = closers s.sleepers j ∧ dupers sleepers j = dupers s.sleepers j)
    (hok : SlotOk few (f e) (gots.count fd) (reservations.count fd) (closers sleepers fd)
      (dupers sleepers fd))
    (hdup : dupping sleepers ≤ 1)
    (hwait : ∀ dest x w, ⟨.dupClosing dest x, w⟩ ∈ sleepers →
      (dest = fd → (f e).closing = !w ∧ (w = true → (f e).reserved = false)) ∧
      (dest ≠ fd → ⟨.dupClosing dest x, w⟩ ∈ s.sleepers))
    (hcount : ∀ x, (if (f e).ofile = some x then 1 else 0) + refs.count x + inHand sleepers x =
      (if e.ofile = some x then 1 else 0) + s.refs.count x + inHand s.sleepers x) :
    Inv few ⟨(s.update fd f).flist, s.limit, s.fcount, sleepers, gots, reservations, refs⟩ := by
  have hslot : ∀ j, State.slot
      ⟨(s.update fd f).flist, s.limit, s.fcount, sleepers, gots, reservations, refs⟩ j =
        if j = fd then f e else s.slot j := fun j => slot_update hfd j
  refine ⟨fun j => ?_, hdup, fun dest x w hm => ?_, fun x => ?_⟩
  · rw [hslot]
    by_cases hj : j = fd
    · rw [if_pos hj, hj]
      exact hok
    · obtain ⟨h1, h2, h3, h4⟩ := hother j hj
      rw [if_neg hj]
      dsimp only
      rw [h1, h2, h3, h4]
      exact h.slot j
  · rw [hslot]
    obtain ⟨h1, h2⟩ := hwait dest x w hm
    by_cases hj : dest = fd
    · rw [if_pos hj]
      exact h1 hj
    · rw [if_neg hj]
      exact h.wait dest x w (h2 hj)
  · have h1 := holders_update hfd x (f := f)
    have h2 := hcount x
    have h3 := h.fcount x
    dsimp only
    omega

theorem Initial.inv (h : Initial s) : Inv few s := by
  have hslot : ∀ fd, (s.slot fd).refcnt = 0 ∧ (s.slot fd).reserved = false ∧
      (s.slot fd).closing = false ∧ (s.slot fd).reserved2 = false := by
    intro fd
    unfold State.slot
    rw [List.getD_eq_getElem?_getD]
    cases hfd : s.flist[fd]? with
    | none => simp
    | some e => exact h.idle e (List.mem_of_getElem? hfd)
  constructor
  · intro fd
    obtain ⟨h1, h2, h3, h4⟩ := hslot fd
    constructor <;> simp [h.gots, h.reservations, h.sleepers, closers, dupers, h1, h2, h3, h4]
  · simp [h.sleepers, dupping]
  · simp [h.sleepers]
  · simp [h.fcount, h.refs, h.sleepers, holders, inHand]

theorem Inv.slotOk (h : Inv few s) (hfd : s.flist[fd]? = some e) :
    SlotOk few e (s.gots.count fd) (s.reservations.count fd) (closers s.sleepers fd)
      (dupers s.sleepers fd) := by
  have := h.slot fd
  rwa [slot_eq hfd] at this

variable {w : Bool} {who : Option Sleeper} {dest : ℕ}

theorem Inv.waiting (h : Inv few s) (hfd : s.flist[fd]? = some e)
    (hm : ⟨.dupClosing fd fp, w⟩ ∈ s.sleepers) :
    e.closing = !w ∧ (w = true → e.reserved = false) := by
  have := h.wait fd fp w hm
  rwa [slot_eq hfd] at this

/-- Entries keep the flags that a waiting `dupdest` relies on. -/
theorem Inv.waits (h : Inv few s) (hfd : s.flist[fd]? = some e) {f : Entry → Entry}
    (hc : (f e).closing = e.closing) (hr : (f e).reserved = true → e.reserved = true)
    (dest x : ℕ) (w : Bool) (hm : ⟨.dupClosing dest x, w⟩ ∈ s.sleepers) :
    (dest = fd → (f e).closing = !w ∧ (w = true → (f e).reserved = false)) ∧
      (dest ≠ fd → ⟨.dupClosing dest x, w⟩ ∈ s.sleepers) := by
  refine ⟨?_, fun _ => hm⟩
  rintro rfl
  have := h.waiting hfd hm
  refine ⟨hc.trans this.1, fun hw => ?_⟩
  by_contra hres
  simp [hr (by simpa using hres)] at this
  simp [this] at hw

theorem Inv.getf (h : Inv few s) (fd : ℕ) (hg : few → s.gots.count fd + 1 < 32768) :
    Inv few (s.getf fd) := by
  unfold State.getf
  split
  · exact h
  rename_i e hfd
  split_ifs with hnone
  · exact h
  have hok := h.slotOk hfd
  apply h.edit hfd
  · intro j hj
    simp [count_cons_of_ne hj]
  · rw [count_cons_self]
    exact ⟨by rw [BitVec.ofNat_add, ← hok.refcnt]; rfl, hok.reserved, hok.closing, hok.reserved2,
      hok.opened, fun _ _ => .inl hnone, hg⟩
  · exact h.dup
  · apply h.waits hfd rfl
    exact id
  · simp

/-- A thread that is closing or dups to the descriptor shows in the flags. -/
theorem closers_pos {sleepers : Multiset Sleeper} {t : Sleeper} (ht : t ∈ sleepers)
    (hc : t.wait.closes = some fd) : 0 < closers sleepers fd :=
  countP_pos_of_mem ht hc

theorem dupers_pos {sleepers : Multiset Sleeper}
    (ht : ⟨.dupClosing fd fp, w⟩ ∈ sleepers) : 0 < dupers sleepers fd :=
  countP_pos_of_mem ht rfl

theorem exists_duper {sleepers : Multiset Sleeper} (h : 0 < dupers sleepers fd) :
    ∃ t ∈ sleepers, t.wait.dups = some fd :=
  Multiset.countP_pos.mp h

/-- A `dupdest` is not under way for a descriptor that is reserved by another thread. -/
theorem Inv.reserved2_eq_false (h : Inv few s) (hfd : s.flist[fd]? = some e)
    (hr : fd ∈ s.reservations) : e.reserved2 = false := by
  obtain ⟨-, h2, h3, h4, -⟩ := h.slotOk hfd
  have hpos := count_pos.mpr hr
  by_contra hne
  rw [Bool.not_eq_false] at hne
  have hduper : 0 < dupers s.sleepers fd := by simp [h4, hne]
  obtain ⟨⟨t, w⟩, ht, hdup⟩ := exists_duper hduper
  have hle := toNat_le e.reserved
  cases t with
  | close => simp [dups] at hdup
  | dupOpen dest x y =>
    have : 0 < closers s.sleepers fd := closers_pos ht hdup
    omega
  | dupClosing dest x =>
    obtain rfl : dest = fd := by simpa [dups] using hdup
    have hw := h.waiting hfd ht
    cases w with
    | false =>
      rw [hw.1] at h3
      simp only [Bool.not_false, toNat_true] at h3
      omega
    | true =>
      rw [hw.2 rfl] at h2
      simp only [toNat_false] at h2
      omega

theorem Inv.setf (h : Inv few s) {fp : Option ℕ} (hr : fd ∈ s.reservations)
    (hf : ∀ x ∈ fp, x ∈ s.refs) (hs : s.setf fd fp = some s') : Inv few s' := by
  unfold State.setf at hs
  simp only [bind_eq_bind, bind_eq_some_iff, Option.some.injEq] at hs
  obtain ⟨e, hfd, rfl⟩ := hs
  have h2' := h.reserved2_eq_false hfd hr
  obtain ⟨h1, h2, h3, h4, h5, h6, h7⟩ := h.slotOk hfd
  have hpos := count_pos.mpr hr
  have hle := toNat_le e.reserved
  have hres : e.reserved = true := toNat_eq_one.mp (by omega)
  have hclose : e.closing = false := Bool.toNat_eq_zero.mp (by omega)
  have hnone := ofile_eq_none h5 (.inl hres)
  simp only [hclose, toNat_false, hres, toNat_true] at h2 h3
  apply h.edit hfd
  · intro j hj
    simp [count_erase_of_ne hj]
  · refine ⟨h1, ?_, h3.trans (by simp [hclose]), h4, fun _ => ⟨rfl, h2'⟩, fun hw hg => ?_, h7⟩
    · simp only [count_erase_self, toNat_false]
      dsimp only [State.update]
      omega
    · exact (h6 hw hg).imp_left fun hne => absurd hnone hne
  · exact h.dup
  · apply h.waits hfd rfl
    simp
  · intro x
    cases fp with
    | none => simp [hnone]
    | some fp =>
      have hcount := count_pos.mpr (hf fp rfl)
      by_cases hx : x = fp
      · subst hx
        simp only [hnone, Option.elim_some, count_erase_self, ↓reduceIte]
        simp
        omega
      · simp [hnone, count_erase_of_ne hx, Ne.symm hx]

theorem Inv.releasef (h : Inv few s) (hg : fd ∈ s.gots)
    (hw : Signals s.sleepers .flock who) (hs : s.releasef fd who = some s') : Inv few s' := by
  unfold State.releasef at hs
  simp only [bind_eq_bind, bind_eq_some_iff, Option.some.injEq] at hs
  obtain ⟨e, hfd, rfl⟩ := hs
  obtain ⟨h1, h2, h3, h4, h5, h6, h7⟩ := h.slotOk hfd
  obtain ⟨n, hn⟩ := Nat.exists_eq_add_one.mpr (count_pos.mpr hg)
  rw [hn] at h1 h6 h7
  obtain ⟨sleepers, hsl⟩ : ∃ sleepers, sleepers =
    if e.closing ∧ e.refcnt - 1 = 0 then wake s.sleepers who else s.sleepers := ⟨_, rfl⟩
  have hmap : sleepers.map Sleeper.wait = s.sleepers.map Sleeper.wait := by
    rw [hsl]
    split_ifs
    · exact wake_map hw
    · rfl
  obtain ⟨hc, hd, hi, hm⟩ := counts_congr hmap
  rw [← hsl]
  apply h.edit hfd
  · intro j hj
    simp [count_erase_of_ne hj, hc, hd]
  · rw [hc, hd, count_erase_self, hn, Nat.add_sub_cancel]
    refine ⟨?_, h2, h3, h4, h5, fun hw _ => h6 hw n.succ_pos, fun hw => ?_⟩
    · dsimp only
      rw [h1, BitVec.ofNat_add]
      exact BitVec.add_sub_cancel _ _
    · have := h7 hw
      omega
  · rw [hm]
    exact h.dup
  · intro dest x w hm
    apply h.waits hfd rfl
    · exact id
    · -- a signal on `p_flock` does not touch a thread that waits on `p_flock2`
      rw [hsl] at hm
      split_ifs at hm
      · rcases mem_wake hm with hm | ⟨u, rfl, hu⟩
        · exact hm
        · have := hw.2.1
          simp only [Sleeper.mk.injEq] at hu
          rw [← hu.1] at this
          simp [on] at this
      · exact hm
  · simp [hi]

/-- When a close is done, a `dupdest` that waits for it is woken, and no other thread is. -/
theorem wake_after_close {sleepers : Multiset Sleeper} (hdup : dupping sleepers ≤ 1)
    (hw : Signals sleepers .flock2 who) (hd : 0 < dupers sleepers fd) {x : ℕ}
    (hm : ⟨.dupClosing dest x, w⟩ ∈ wake sleepers who) : dest = fd ∧ w = true := by
  obtain ⟨t, ht, htd⟩ := exists_duper hd
  cases who with
  | none =>
    simp only [wake] at hm
    have hw := hw _ hm
    obtain ⟨rest, hrest⟩ := exists_cons_of_mem hm
    rw [hrest] at ht hdup
    have hnone := dups_of_cons hdup (by simp [dups])
    rcases mem_cons.mp ht with rfl | ht
    · refine ⟨by simpa [dups] using htd, ?_⟩
      simpa [Sleeper.asleepOn, on] using hw
    · simp [hnone t ht] at htd
  | some u =>
    obtain ⟨hu, huon⟩ := hw
    obtain ⟨rest, hrest⟩ := exists_cons_of_mem hu
    have hud : u.wait.dups.isSome := by
      have := huon.1
      cases hwait : u.wait <;> simp [hwait, on, dups] at this ⊢
    rw [hrest] at ht hdup
    have hnone := dups_of_cons hdup hud
    have htu : t = u := by
      rcases mem_cons.mp ht with rfl | ht
      · rfl
      · simp [hnone t ht] at htd
    simp only [wake, hrest, erase_cons_head, mem_cons, Sleeper.mk.injEq] at hm
    rcases hm with ⟨hwait, hwt⟩ | hm
    · rw [htu, ← hwait] at htd
      exact ⟨by simpa [dups] using htd, hwt⟩
    · exact absurd (hnone _ hm) (by simp [dups])

/-- The thread that runs `getandset` counts as one that has been woken. -/
theorem Inv.closeLoop
    (h : Inv few { s with sleepers := ⟨.close fd fp, true⟩ ::ₘ s.sleepers })
    (hw : Signals s.sleepers .flock2 who) (hs : s.closeLoop fd fp who = some s') : Inv few s' := by
  unfold State.closeLoop at hs
  simp only [bind_eq_bind, bind_eq_some_iff] at hs
  obtain ⟨e, hfd, hs⟩ := hs
  obtain ⟨h1, h2, h3, h4, h5, h6, h7⟩ := h.slotOk hfd
  have hdup := h.dup
  simp only [closers_cons, dupers_cons, dupping_cons, Wait.closes, dups, ↓reduceIte,
    reduceCtorEq, Option.isSome_none, Bool.false_eq_true, add_zero] at h1 h2 h3 h4 h7 hdup
  have hle := toNat_le e.reserved
  have hle' := toNat_le e.closing
  have hres : e.reserved = true := toNat_eq_one.mp (by omega)
  have hclose : e.closing = true := toNat_eq_one.mp (by omega)
  have hnone := ofile_eq_none h5 (.inl hres)
  simp only [hres, hclose, toNat_true] at h2 h3
  have hc0 : closers s.sleepers fd = 0 := by omega
  have hr0 : s.reservations.count fd = 0 := by omega
  by_cases hbusy : e.inUse = true
  · -- back to sleep
    rw [if_pos hbusy] at hs
    cases hs
    apply h.edit hfd
    · simp [Wait.closes, dups]
    · constructor <;> simp +contextual [hc0, hr0, hres, hnone, Wait.closes, dups, h1, h4, h7]
    · simpa [dups] using hdup
    · intro dest x w hm
      apply h.waits hfd (by simp [hclose])
      · exact id
      · simpa using hm
    · simp [Wait.files]
  · rw [if_neg hbusy] at hs
    cases hs
    obtain ⟨sleepers, hsl⟩ : ∃ sleepers, sleepers =
      if e.reserved2 then wake s.sleepers who else s.sleepers := ⟨_, rfl⟩
    have hmap : sleepers.map Sleeper.wait = s.sleepers.map Sleeper.wait := by
      rw [hsl]
      split_ifs
      · exact wake_map hw
      · rfl
    obtain ⟨hc, hd, hi, hn⟩ := counts_congr hmap
    have h0 : few → s.gots.count fd = 0 := fun hf => by
      simpa [hbusy] using (h.slotOk hfd).inUse_iff hf
    rw [← hsl]
    apply h.edit hfd
    · intro j hj
      simp [hc, hd, Wait.closes, dups, Ne.symm hj]
    · rw [hc, hd]
      refine ⟨h1, by simp [hc0, hr0], by simp [hc0], by simp [h4], by simp [hnone],
        fun hf hpos => ?_, h7⟩
      exact absurd (h0 hf) hpos.ne'
    · rw [hn]
      exact hdup
    · intro dest x w hm
      rw [hsl] at hm
      split_ifs at hm with hr2
      · have hd1 : 0 < dupers s.sleepers fd := by simp [h4, hr2]
        obtain ⟨rfl, rfl⟩ := wake_after_close hdup hw hd1 hm
        simp
      · refine ⟨?_, fun _ => by simpa using hm⟩
        rintro rfl
        have := dupers_pos hm
        simp [h4, hr2] at this
    · intro x
      simp only [hnone, hi, count_cons, inHand_cons, Wait.files, List.count_singleton, beq_iff_eq]
      simp only [reduceCtorEq, ↓reduceIte, eq_comm]
      omega

/-- `getandset` sets `FCLOSING` only when it has to wait, but it clears it in any case. -/
theorem closeLoop_update (f : Entry → Entry) :
    (s.update fd f).closeLoop fd fp who =
      (s.update fd fun pufe => { f pufe with closing := true }).closeLoop fd fp who := by
  unfold State.closeLoop State.update
  simp only [List.getElem?_modify, ↓reduceIte]
  cases hfd : s.flist[fd]? with
  | none => simp
  | some e => simp [List.modify_modify_eq, comp_def, Entry.inUse]

theorem Inv.getandset (h : Inv few s) (hw : Signals s.sleepers .flock2 who)
    (hs : s.getandset fd who = some s') : Inv few s' := by
  unfold State.getandset at hs
  cases hfd : s.flist[fd]? with
  | none =>
    rw [hfd] at hs
    exact Option.some.inj hs ▸ h
  | some e =>
    rw [hfd] at hs
    cases hof : e.ofile with
    | none =>
      simp only [hof] at hs
      exact Option.some.inj hs ▸ h
    | some fp =>
      simp only [hof] at hs
      rw [closeLoop_update] at hs
      have hw' : Signals (s.update fd fun pufe =>
          { pufe with ofile := none, reserved := true, closing := true }).sleepers .flock2 who := hw
      refine Inv.closeLoop ?_ hw' hs
      obtain ⟨h1, h2, h3, h4, h5, -, h9⟩ := h.slotOk hfd
      obtain ⟨h7, h8⟩ := h5 (by simp [hof])
      rw [h7, toNat_false] at h2
      rw [h8, toNat_false] at h4
      have hc0 : closers s.sleepers fd = 0 := by omega
      have hr0 : s.reservations.count fd = 0 := by omega
      apply h.edit hfd
      · intro j hj
        simp [Wait.closes, dups, Ne.symm hj]
      · constructor <;> simp +contextual [hc0, hr0, h1, h4, h8, h9, Wait.closes, dups]
      · simpa [dups] using h.dup
      · intro dest x w hm
        have hold : ⟨.dupClosing dest x, w⟩ ∈ s.sleepers := by simpa using hm
        refine ⟨?_, fun _ => hold⟩
        rintro rfl
        have := dupers_pos hold
        omega
      · intro x
        simp only [hof, update_sleepers, update_refs, inHand_cons, Wait.files,
          List.count_singleton, beq_iff_eq, Option.some.injEq, reduceCtorEq, ↓reduceIte]
        omega

/-- A free slot that is kept for `dupdest` is filled. -/
theorem Inv.install
    (h : Inv few { s with sleepers := ⟨.dupClosing dest fp, true⟩ ::ₘ s.sleepers })
    (hs : s.install dest fp = some s') : Inv few s' := by
  unfold State.install at hs
  simp only [bind_eq_bind, bind_eq_some_iff, Option.some.injEq] at hs
  obtain ⟨e, hfd, rfl⟩ := hs
  obtain ⟨h1, h2, h3, h4, h5, h6, h7⟩ := h.slotOk hfd
  have hdup := h.dup
  obtain ⟨hcl, hre⟩ := h.waiting hfd (Multiset.mem_cons_self _ _)
  have hre := hre rfl
  simp only [closers_cons, dupers_cons, dupping_cons, Wait.closes, dups, ↓reduceIte,
    reduceCtorEq, Option.isSome_some, add_zero, hcl, hre, Bool.not_true, toNat_false]
    at h1 h2 h3 h4 h7 hdup
  have hle := toNat_le e.reserved2
  have hr2 : e.reserved2 = true := toNat_eq_one.mp (by omega)
  have hd0 : dupers s.sleepers dest = 0 := by omega
  have hr0 : s.reservations.count dest = 0 := by omega
  have hnone := ofile_eq_none h5 (.inr hr2)
  apply h.edit hfd
  · intro j hj
    simp [Wait.closes, dups, Ne.symm hj]
  · constructor <;> simp +contextual [h1, h3, hd0, hr0, h7]
  · have : dupping s.sleepers ≤ 1 := by omega
    exact this
  · intro dest' x w' hm
    have := dups_of_cons h.dup (by simp [dups]) _ hm
    simp [dups] at this
  · intro x
    simp only [hnone, inHand_cons, Wait.files, List.count_singleton, beq_iff_eq,
      Option.some.injEq, reduceCtorEq, ↓reduceIte]
    omega

/-- `dupdest` overwrites all flags of the slot. -/
theorem install_update {f : Entry → Entry} (hf : ∀ e, (f e).refcnt = e.refcnt) :
    (s.update dest f).install dest fp = s.install dest fp := by
  unfold State.install State.update
  simp only [List.getElem?_modify, ↓reduceIte]
  cases hfd : s.flist[dest]? with
  | none => simp
  | some e => simp [List.modify_modify_eq, comp_def, hf]

theorem Inv.grow (h : Inv few s) (n : ℕ) :
    Inv few { s with flist := s.flist ++ List.replicate n {} } := by
  refine ⟨fun fd => ?_, h.dup, fun dest fp w hm => ?_, fun fp => ?_⟩
  · rw [slot_grow]
    exact h.slot fd
  · rw [slot_grow]
    exact h.wait dest fp w hm
  · dsimp only
    rw [holders_grow]
    exact h.fcount fp

/-- A thread comes into `dupdest` for a descriptor without a file: it waits for the close that
is in progress, or goes on at once. -/
theorem Inv.enter (h : Inv few s) (hfd : s.flist[dest]? = some e) (hf : fp ∈ s.refs)
    (hdup : ∀ t ∈ s.sleepers, t.wait.dups = none) (hnone : e.ofile = none)
    (hres : dest ∉ s.reservations) :
    Inv few ⟨(s.update dest fun ufp => { ufp with reserved2 := true }).flist, s.limit, s.fcount,
      ⟨.dupClosing dest fp, !e.closing⟩ ::ₘ s.sleepers, s.gots, s.reservations,
      s.refs.erase fp⟩ := by
  obtain ⟨h1, h2, h3, h4, h5, h6, h7⟩ := h.slotOk hfd
  have hr0 : s.reservations.count dest = 0 := Multiset.count_eq_zero.mpr hres
  have hd0 : ∀ j, dupers s.sleepers j = 0 := by
    intro j
    refine countP_eq_zero.mpr fun t ht => ?_
    simp [hdup t ht]
  have hdup0 : dupping s.sleepers = 0 := by
    refine countP_eq_zero.mpr fun t ht => ?_
    simp [hdup t ht]
  apply h.edit hfd
  · intro j hj
    simp [Wait.closes, dups, Ne.symm hj]
  · refine ⟨h1, ?_, ?_, ?_, ?_, ?_, h7⟩
    · simpa [Wait.closes] using h2
    · simpa [Wait.closes] using h3
    · simp [dups, hd0]
    · simp [hnone]
    · simpa [hnone] using h6
  · simp [dups, hdup0]
  · intro dest' x w hm
    have hout : ⟨.dupClosing dest' x, w⟩ ∉ s.sleepers := fun hm => by
      simpa [dups] using hdup _ hm
    simp only [mem_cons, hout, or_false, Sleeper.mk.injEq, Wait.dupClosing.injEq] at hm
    obtain ⟨⟨rfl, rfl⟩, rfl⟩ := hm
    refine ⟨fun _ => ⟨by simp, fun hclose => ?_⟩, fun hne => absurd rfl hne⟩
    simp only [Bool.not_eq_true'] at hclose
    simp only [hclose, hr0, toNat_false] at h2 h3
    have hzero : e.reserved.toNat = 0 := by omega
    exact Bool.toNat_eq_zero.mp hzero
  · intro x
    have hpos := count_pos.mpr hf
    by_cases hx : x = fp
    · subst hx
      simp [Wait.files]
      omega
    · simp [Wait.files, count_erase_of_ne hx, Ne.symm hx]

/-- Waking a thread or putting it back to sleep. -/
theorem Inv.resleep (h : Inv few s) {sleepers : Multiset Sleeper}
    (hmap : sleepers.map Sleeper.wait = s.sleepers.map Sleeper.wait)
    (hsame : ∀ dest x w, ⟨.dupClosing dest x, w⟩ ∈ sleepers →
      ⟨.dupClosing dest x, w⟩ ∈ s.sleepers) :
    Inv few { s with sleepers := sleepers } := by
  obtain ⟨hc, hd, hi, hn⟩ := counts_congr hmap
  refine ⟨fun fd => ?_, ?_, fun dest x w hm => h.wait dest x w (hsame dest x w hm), fun x => ?_⟩
  · dsimp only
    rw [hc, hd]
    exact h.slot fd
  · rw [hn]
    exact h.dup
  · dsimp only
    rw [hi]
    exact h.fcount x

/-- The thread that runs `dupdest` counts as one that has been woken. -/
theorem Inv.dupLoop {fp2 : ℕ}
    (h : Inv few { s with sleepers := ⟨.dupOpen dest fp fp2, true⟩ ::ₘ s.sleepers })
    (hs : s.dupLoop dest fp fp2 = some s') : Inv few s' := by
  unfold State.dupLoop at hs
  simp only [bind_eq_bind, bind_eq_some_iff] at hs
  obtain ⟨e, hfd, hs⟩ := hs
  by_cases hbusy : e.inUse = true
  · rw [if_pos hbusy] at hs
    cases hs
    exact h.resleep (by simp) (by simp)
  rw [if_neg hbusy] at hs
  simp only [State.install, hfd, bind_eq_bind, Option.bind_some, Option.some.injEq] at hs
  obtain rfl := hs
  obtain ⟨h1, h2, h3, h4, h5, h6, h7⟩ := h.slotOk hfd
  simp only [closers_cons, dupers_cons, Wait.closes, dups, ↓reduceIte] at h1 h2 h3 h4 h7
  have hle := toNat_le e.reserved
  have hle2 := toNat_le e.reserved2
  have hres : e.reserved = true := toNat_eq_one.mp (by omega)
  have hnone := ofile_eq_none h5 (.inl hres)
  have hc0 : closers s.sleepers dest = 0 := by omega
  have hr0 : s.reservations.count dest = 0 := by omega
  have hd0 : dupers s.sleepers dest = 0 := by omega
  apply h.edit hfd
  · intro j hj
    simp [Wait.closes, dups, Ne.symm hj]
  · constructor <;> simp +contextual [h1, h7, hc0, hd0, hr0]
  · have := h.dup
    simp only [dupping_cons, update_sleepers] at this ⊢
    omega
  · intro dest' x w hm
    have := dups_of_cons h.dup (by simp [dups]) _ hm
    simp [dups] at this
  · intro x
    simp only [hnone, update_sleepers, update_refs, inHand_cons, Wait.files, count_cons,
      List.count_cons, List.count_nil, beq_iff_eq, Option.some.injEq, reduceCtorEq, ↓reduceIte,
      @eq_comm ℕ x]
    omega

theorem getElem?_update {f : Entry → Entry} (hfd : s.flist[fd]? = some e) :
    (s.update fd f).flist[fd]? = some (f e) := by
  simp [State.update, hfd]

theorem Inv.dupdest (h : Inv few s) (hf : fp ∈ s.refs)
    (hdup : ∀ t ∈ s.sleepers, t.wait.dups = none) (hres : dest ∉ s.reservations)
    (hs : s.dupdest dest fp = some s') : Inv few s' := by
  unfold State.dupdest at hs
  cases hfd : s.flist[dest]? with
  | none =>
    simp only [hfd, bind_eq_bind, bind_eq_some_iff] at hs
    obtain ⟨s1, hgrow, hs⟩ := hs
    obtain ⟨n, rfl⟩ := flistRealloc_spec hgrow
    have hinst := hs
    unfold State.install at hinst
    simp only [bind_eq_bind, bind_eq_some_iff] at hinst
    obtain ⟨e, hfd', -⟩ := hinst
    have he : e = {} := by
      have h1 := slot_grow (s := s) n dest
      rw [slot_eq hfd'] at h1
      simpa [State.slot, hfd] using h1
    rw [← install_update (f := fun ufp => { ufp with reserved2 := true }) fun _ => rfl] at hs
    have henter := (h.grow n).enter hfd' hf hdup (by simp [he]) hres
    rw [he] at henter
    exact Inv.install henter hs
  | some e =>
    cases hof : e.ofile with
    | none =>
      simp only [hfd, hof] at hs
      have henter := h.enter hfd hf hdup hof hres
      cases hclose : e.closing with
      | false =>
        rw [hclose] at henter
        simp only [hclose, Bool.false_eq_true, ↓reduceIte] at hs
        exact Inv.install henter hs
      | true =>
        rw [hclose] at henter
        simp only [hclose, ↓reduceIte] at hs
        exact Option.some.inj hs ▸ henter
    | some fp2 =>
      simp only [hfd, hof] at hs
      refine Inv.dupLoop ?_ hs
      obtain ⟨h1, h2, h3, h4, h5, -, h9⟩ := h.slotOk hfd
      obtain ⟨h7, h8⟩ := h5 (by simp [hof])
      rw [h7, toNat_false] at h2
      have hc0 : closers s.sleepers dest = 0 := by omega
      have hr0 : s.reservations.count dest = 0 := by omega
      have hd0 : dupers s.sleepers dest = 0 := by simp [h4, h8]
      have hdup0 : dupping s.sleepers = 0 := by
        refine countP_eq_zero.mpr fun t ht => ?_
        simp [hdup t ht]
      apply h.edit hfd
      · intro j hj
        simp [Wait.closes, dups, Ne.symm hj, State.update]
      · constructor <;> simp +contextual [hc0, hr0, h1, h9, hd0, Wait.closes, dups, State.update]
      · simp [dups, hdup0, State.update]
      · intro dest' x w hm
        have hold : ⟨.dupClosing dest' x, w⟩ ∈ s.sleepers := by simpa [State.update] using hm
        have := hdup _ hold
        simp [dups] at this
      · intro x
        have hpos := count_pos.mpr hf
        by_cases hx : x = fp
        · subst hx
          simp [hof, Wait.files, State.update, List.count_cons]
          omega
        · simp [hof, Wait.files, State.update, count_erase_of_ne hx, Ne.symm hx, List.count_cons]
          omega

theorem Inv.run (h : Inv few s) {t : Sleeper} (ht : t ∈ s.sleepers) (hwoken : t.woken = true)
    (hw : Signals s.sleepers .flock2 who) (hs : s.run t who = some s') : Inv few s' := by
  obtain ⟨rest, hrest⟩ := exists_cons_of_mem ht
  obtain ⟨flist, limit, fcount, sleepers, gots, reservations, refs⟩ := s
  obtain rfl : sleepers = t ::ₘ rest := hrest
  obtain ⟨wait, w⟩ := t
  obtain rfl : w = true := hwoken
  unfold State.run at hs
  simp only [erase_cons_head] at hs
  cases wait with
  | close fd fp =>
    refine Inv.closeLoop h ?_ hs
    cases who with
    | none => exact fun u hu => hw u (Multiset.mem_cons_of_mem hu)
    | some u =>
      refine ⟨(mem_cons.mp hw.1).resolve_left ?_, hw.2⟩
      rintro rfl
      simpa using hw.2.2
  | dupOpen dest fp fp2 => exact Inv.dupLoop h hs
  | dupClosing dest fp => exact Inv.install h hs

theorem Inv.hold (h : Inv few s) (fp : ℕ) :
    Inv few { s with fcount := update s.fcount fp (s.fcount fp + 1), refs := fp ::ₘ s.refs } := by
  refine ⟨h.slot, h.dup, h.wait, fun x => ?_⟩
  have := h.fcount x
  by_cases hx : x = fp
  · subst hx
    simp only [update_self, count_cons_self]
    omega
  · simpa [update_of_ne hx, count_cons_of_ne hx] using this

theorem Inv.closef (h : Inv few s) (hf : fp ∈ s.refs) :
    Inv few { s with fcount := update s.fcount fp (s.fcount fp - 1), refs := s.refs.erase fp } := by
  refine ⟨h.slot, h.dup, h.wait, fun x => ?_⟩
  have := h.fcount x
  have hpos := count_pos.mpr hf
  by_cases hx : x = fp
  · subst hx
    simp only [update_self, count_erase_self]
    omega
  · simpa [update_of_ne hx, count_erase_of_ne hx] using this

end Steps

end Sol26.Fd
