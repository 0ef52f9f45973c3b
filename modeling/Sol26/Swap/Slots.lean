import Mathlib.Tactic

/-!
# Slots on swap devices

Model of `swap_getoff`, `swap_phys_alloc` and `swap_phys_free` from `uts/common/vm/vm_swap.c`, with
`swap_backsearch` zero, and of the map that `swapadd` sets up. The map of a device is the list of
its bits, 32 to a word. An access outside of it and a panic are errors.
-/
namespace Sol26.Swap

inductive Fault
  | outside
  | panic
  deriving DecidableEq

/-- `struct swapinfo`; `inDel` is the flag `ST_INDEL`. -/
structure Swapinfo where
  vp : ℕ
  soff : ℕ
  eoff : ℕ
  npgs : ℕ
  nfpgs : ℕ
  hint : ℕ
  inDel : Bool
  allocs : ℕ
  swapslots : List Bool

/-- The devices in the order of their list, and `silast`. -/
structure Swaps where
  devices : List Swapinfo
  silast : Option ℕ

/-- `TESTBIT` -/
def testBit (slots : List Bool) (i : ℕ) : Except Fault Bool :=
  match slots[i]? with
  | some b => .ok b
  | none => .error .outside

/-- The test of a word for `0xffffffff`. -/
def fullWord (slots : List Bool) (sp : ℕ) : Except Fault Bool :=
  if 32 * (sp + 1) ≤ slots.length then .ok (((slots.drop (32 * sp)).take 32).all id)
  else .error .outside

/-- A loop over `n` words from `sp` on, to the first that is not full. -/
def findWord (slots : List Bool) : ℕ → ℕ → Except Fault (Option ℕ)
  | 0, _ => .ok none
  | n + 1, sp => do
    if ← fullWord slots sp then findWord slots n (sp + 1) else return some sp

/-- A loop over `n` bits from `i` on, to the first that is clear. -/
def findBit (slots : List Bool) : ℕ → ℕ → Except Fault (Option ℕ)
  | 0, _ => .ok none
  | n + 1, i => do
    if ← testBit slots i then findBit slots n (i + 1) else return some i

/-- The word with a free slot, searched from the hint to the end and from the beginning to the
hint. -/
def wordFrom (slots : List Bool) (hint : ℕ) : Except Fault (Option ℕ) := do
  match ← findWord slots (slots.length / 32 - hint / 32) (hint / 32) with
  | some sp => return some sp
  | none =>
    match ← findWord slots (hint / 32) 0 with
    | some sp => return some sp
    | none => if ← fullWord slots (hint / 32) then return none else return some (hint / 32)

/-- The free slot in a word. -/
def slotIn (slots : List Bool) (hint sp : ℕ) : Except Fault ℕ := do
  match ← findBit slots (32 - hint % 32) (32 * sp + hint % 32) with
  | some i => return i
  | none =>
    match ← findBit slots (hint % 32) (32 * sp) with
    | some i => return i
    | none => .error .panic

section

variable (pagesize : ℕ)

/-- `swap_getoff`; the offset is `none` for -1. -/
def swapGetoff (sip : Swapinfo) : Except Fault (Swapinfo × Option ℕ) := do
  match ← wordFrom sip.swapslots sip.hint with
  | none => return (sip, none)
  | some sp =>
    let slot ← slotIn sip.swapslots sip.hint sp
    return ({ sip with swapslots := sip.swapslots.set slot true, hint := slot + 1 },
      some (slot * pagesize + sip.soff))

/-- The loop of `swap_phys_alloc` that makes the range longer. The recursion is on `si_nfpgs`. -/
def extend (maxcontig lenp soff : ℕ) : ℕ → ℕ → Swapinfo → Except Fault (ℕ × Swapinfo)
  | 0, len, sip => return (len, { sip with nfpgs := 0 })
  | n + 1, len, sip =>
    if lenp ≤ len ∨ maxcontig ≠ 0 ∧ maxcontig ≤ len then
      return (len, { sip with nfpgs := n + 1 })
    else do
      match ← swapGetoff pagesize sip with
      | (sip, none) => return (len, { sip with nfpgs := n + 1 })
      | (sip, some noff) =>
        if noff ≠ soff + len then
          return (len, { sip with
            nfpgs := n + 1
            swapslots := sip.swapslots.set ((noff - sip.soff) / pagesize) false })
        else extend maxcontig lenp soff n (len + pagesize) sip

/-- What the caller asks for: `SA_NOT` with `*vpp` and `*offp`, and `*lenp`. -/
structure Want where
  other : Bool
  vp : ℕ
  off : ℕ
  lenp : ℕ

/-- Whether the device is one that the caller takes. -/
def Swapinfo.Suits (sip : Swapinfo) (w : Want) : Prop :=
  w.other = true → w.vp ≠ sip.vp ∨ w.off < sip.soff ∨ sip.eoff ≤ w.off

instance (sip : Swapinfo) (w : Want) : Decidable (sip.Suits w) :=
  inferInstanceAs (Decidable (_ → _))

/-- The next device on the list, which goes round. -/
def Swaps.next (devices : List Swapinfo) (i : ℕ) : ℕ := if i + 1 = devices.length then 0 else i + 1

/-- The loop over the devices from `silast` on, for at most `n` of them. -/
def search (w : Want) (silast : ℕ) : ℕ → ℕ → List Swapinfo → Option ℕ × List Swapinfo
  | 0, _, devices => (none, devices)
  | n + 1, i, devices =>
    match devices[i]? with
    | none => (none, devices)
    | some sip =>
      if (sip.inDel = false ∧ 0 < sip.nfpgs) ∧ sip.Suits w then (some i, devices)
      else
        let devices := if sip.nfpgs = 0 then devices.set i { sip with allocs := 0 } else devices
        if Swaps.next devices i = silast then (none, devices)
        else search w silast n (Swaps.next devices i) devices

/-- `swap_phys_alloc`; the result has `*vpp`, `*offp` and `*lenp`. -/
def swapPhysAlloc (swapMaxcontig maxcontig : ℕ) (s : Swaps) (w : Want) :
    Except Fault (Swaps × Option (ℕ × ℕ × ℕ)) :=
  match s.silast with
  | none => return (s, none)
  | some silast =>
    match search w silast s.devices.length silast s.devices with
    | (none, devices) => return ({ s with devices := devices }, none)
    | (some i, devices) =>
      match devices[i]? with
      | none => .error .outside
      | some sip => do
        match ← swapGetoff pagesize sip with
        | (_, none) => .error .panic
        | (sip, some soff) =>
          let (len, sip) ← extend pagesize maxcontig w.lenp soff (sip.nfpgs - 1) pagesize sip
          let sip := { sip with allocs := sip.allocs + len / pagesize }
          if swapMaxcontig ≤ sip.allocs then
            return (⟨devices.set i { sip with allocs := 0 }, some (Swaps.next devices i)⟩,
              some (sip.vp, soff, len))
          else return (⟨devices.set i sip, some silast⟩, some (sip.vp, soff, len))

/-- The loop of `swap_phys_free`. -/
def freeLoop : ℕ → ℕ → Swapinfo → Except Fault Swapinfo
  | 0, _, sip => return sip
  | n + 1, pagenumber, sip => do
    if ← testBit sip.swapslots pagenumber then
      freeLoop n (pagenumber + 1)
        { sip with swapslots := sip.swapslots.set pagenumber false, nfpgs := sip.nfpgs + 1 }
    else .error .panic

/-- `swap_phys_free` -/
def swapPhysFree (s : Swaps) (vp off len : ℕ) : Except Fault Swaps := do
  match s.devices.findIdx? fun sip => sip.vp = vp ∧ sip.soff ≤ off ∧ off < sip.eoff with
  | none => .error .panic
  | some i =>
    match s.devices[i]? with
    | none => .error .outside
    | some sip =>
      let sip ← freeLoop (len / pagesize) ((off - sip.soff) / pagesize) sip
      return { s with devices := s.devices.set i sip }

/-- The map of a new device, with the bits that can never be allocated set. -/
def newSlots (pages : ℕ) : List Bool :=
  List.replicate pages false ++ List.replicate ((pages + 31) / 32 * 32 - pages) true

end

/-! ### The map -/

section

variable {slots : List Bool}

theorem fullWord_eq {sp : ℕ} (h : 32 * (sp + 1) ≤ slots.length) :
    ∃ b, fullWord slots sp = .ok b ∧
      (b = true ↔ ∀ i, 32 * sp ≤ i → i < 32 * (sp + 1) → slots[i]? = some true) := by
  refine ⟨_, if_pos h, ?_⟩
  rw [List.all_eq_true]
  constructor
  · intro hall i h1 h2
    have hi : i < slots.length := by omega
    have hmem : slots[i] ∈ (slots.drop (32 * sp)).take 32 := by
      rw [List.mem_iff_getElem?]
      refine ⟨i - 32 * sp, ?_⟩
      rw [List.getElem?_take_of_lt (by omega), List.getElem?_drop,
        show 32 * sp + (i - 32 * sp) = i by omega, List.getElem?_eq_getElem hi]
    rw [List.getElem?_eq_getElem hi]
    exact congrArg some (hall _ hmem)
  · intro hall b hb
    obtain ⟨j, hj⟩ := List.mem_iff_getElem?.1 hb
    have hlt : j < 32 := by
      by_contra hge
      rw [List.getElem?_eq_none ((List.length_take_le _ _).trans (by omega))] at hj
      exact Option.some_ne_none b hj.symm
    rw [List.getElem?_take_of_lt hlt, List.getElem?_drop, hall _ (by omega) (by omega)] at hj
    exact (Option.some.inj hj).symm

theorem findWord_spec : ∀ (n sp : ℕ), 32 * (sp + n) ≤ slots.length →
    (∃ w, findWord slots n sp = .ok (some w) ∧ 32 * (w + 1) ≤ slots.length ∧
      ∃ i, 32 * w ≤ i ∧ i < 32 * (w + 1) ∧ slots[i]? = some false) ∨
    findWord slots n sp = .ok none ∧
      ∀ i, 32 * sp ≤ i → i < 32 * (sp + n) → slots[i]? = some true
  | 0, sp, _ => .inr ⟨rfl, fun i h1 h2 => by omega⟩
  | n + 1, sp, h => by
    obtain ⟨b, hb, hiff⟩ := @fullWord_eq slots sp (by omega)
    rw [findWord, hb]
    cases b with
    | false =>
      refine .inl ⟨sp, rfl, by omega, ?_⟩
      by_contra hno
      push Not at hno
      refine Bool.false_ne_true (hiff.2 fun i h1 h2 => ?_)
      have hne := hno i h1 h2
      rw [List.getElem?_eq_getElem (by omega)] at hne ⊢
      simpa using hne
    | true =>
      have hfull := hiff.1 rfl
      rcases findWord_spec n (sp + 1) (by omega) with hfound | ⟨hnone, hrest⟩
      · exact .inl hfound
      · refine .inr ⟨hnone, fun i h1 h2 => ?_⟩
        by_cases hi : i < 32 * (sp + 1)
        · exact hfull i h1 hi
        · exact hrest i (by omega) (by omega)

theorem findBit_spec : ∀ (n i : ℕ), i + n ≤ slots.length →
    (∃ j, findBit slots n i = .ok (some j) ∧ i ≤ j ∧ j < i + n ∧ slots[j]? = some false) ∨
    findBit slots n i = .ok none ∧ ∀ j, i ≤ j → j < i + n → slots[j]? = some true
  | 0, i, _ => .inr ⟨rfl, fun j h1 h2 => by omega⟩
  | n + 1, i, h => by
    have hi : i < slots.length := by omega
    have hget := List.getElem?_eq_getElem hi
    rw [findBit, testBit, hget]
    cases hb : slots[i] with
    | false => exact .inl ⟨i, rfl, le_rfl, by omega, by rw [hget, hb]⟩
    | true =>
      rcases findBit_spec n (i + 1) (by omega) with ⟨j, hj, h1, h2, hc⟩ | ⟨hnone, hrest⟩
      · exact .inl ⟨j, hj, by omega, by omega, hc⟩
      · refine .inr ⟨hnone, fun j h1 h2 => ?_⟩
        by_cases hj : j = i
        · rw [hj, hget, hb]
        · exact hrest j (by omega) (by omega)

/-- If there is a free slot, the search finds a word with one. -/
theorem wordFrom_spec {hint : ℕ} (hwords : 32 ∣ slots.length) (hhint : hint ≤ slots.length)
    (hfree : false ∈ slots) :
    ∃ w, wordFrom slots hint = .ok (some w) ∧ 32 * (w + 1) ≤ slots.length ∧
      ∃ i, 32 * w ≤ i ∧ i < 32 * (w + 1) ∧ slots[i]? = some false := by
  obtain ⟨k, hk⟩ := hwords
  unfold wordFrom
  rcases @findWord_spec slots (slots.length / 32 - hint / 32) (hint / 32) (by omega) with
    ⟨w, hw, hrest⟩ | ⟨hnone, hfull⟩
  · rw [hw]
    exact ⟨w, rfl, hrest⟩
  · rw [hnone]
    rcases @findWord_spec slots (hint / 32) 0 (by omega) with ⟨w, hw, hrest⟩ | ⟨-, hfull'⟩
    · refine ⟨w, ?_, hrest⟩
      dsimp only [bind, Except.bind]
      rw [hw]
      rfl
    · obtain ⟨i, hi⟩ := List.mem_iff_getElem?.1 hfree
      have hlt := (List.getElem?_eq_some_iff.1 hi).1
      have htrue : slots[i]? = some true := by
        by_cases hc : i < 32 * (hint / 32)
        · exact hfull' i (by omega) (by omega)
        · exact hfull i (by omega) (by omega)
      rw [hi] at htrue
      exact absurd (Option.some.inj htrue) Bool.false_ne_true

theorem slotIn_spec {hint w : ℕ} (hw : 32 * (w + 1) ≤ slots.length)
    (hfree : ∃ i, 32 * w ≤ i ∧ i < 32 * (w + 1) ∧ slots[i]? = some false) :
    ∃ i, slotIn slots hint w = .ok i ∧ slots[i]? = some false := by
  unfold slotIn
  rcases @findBit_spec slots (32 - hint % 32) (32 * w + hint % 32) (by omega) with
    ⟨j, hj, -, -, hc⟩ | ⟨hnone, hset⟩
  · rw [hj]
    exact ⟨j, rfl, hc⟩
  · rw [hnone]
    rcases @findBit_spec slots (hint % 32) (32 * w) (by omega) with ⟨j, hj, -, -, hc⟩ | ⟨-, hset'⟩
    · refine ⟨j, ?_, hc⟩
      dsimp only [bind, Except.bind]
      rw [hj]
      rfl
    · obtain ⟨i, h1, h2, hi⟩ := hfree
      have htrue : slots[i]? = some true := by
        by_cases hc : i < 32 * w + hint % 32
        · exact hset' i h1 hc
        · exact hset i (by omega) (by omega)
      rw [hi] at htrue
      exact absurd (Option.some.inj htrue) Bool.false_ne_true

end

/-! ### A device -/

/-- What `swapadd` sets up and the operations keep. -/
structure Swapinfo.Ok (pagesize : ℕ) (sip : Swapinfo) : Prop where
  size : sip.eoff = sip.soff + sip.npgs * pagesize
  words : 32 ∣ sip.swapslots.length
  padding : ∀ i, sip.swapslots[i]? = some false → i < sip.npgs
  count : sip.nfpgs = sip.swapslots.count false
  hint : sip.hint ≤ sip.swapslots.length

section

variable {pagesize : ℕ} {sip : Swapinfo}

theorem count_set_true {slots : List Bool} {i : ℕ} (h : slots[i]? = some false) :
    (slots.set i true).count false + 1 = slots.count false := by
  obtain ⟨hlt, hget⟩ := List.getElem?_eq_some_iff.1 h
  have hpos : 0 < slots.count false := List.count_pos_iff.2 (hget ▸ List.getElem_mem hlt)
  rw [List.count_set hlt, hget]
  simp
  omega

theorem count_set_false {slots : List Bool} {i : ℕ} (h : slots[i]? = some true) :
    (slots.set i false).count false = slots.count false + 1 := by
  obtain ⟨hlt, hget⟩ := List.getElem?_eq_some_iff.1 h
  rw [List.count_set hlt, hget]
  simp

/-- The device after a free slot has been taken. -/
def Swapinfo.took (sip : Swapinfo) (slot : ℕ) : Swapinfo :=
  { sip with swapslots := sip.swapslots.set slot true, hint := slot + 1 }

/-- A device with a free slot gives one. -/
theorem swapGetoff_spec (hwords : 32 ∣ sip.swapslots.length) (hhint : sip.hint ≤ sip.swapslots.length)
    (hfree : 0 < sip.swapslots.count false) :
    ∃ slot, sip.swapslots[slot]? = some false ∧
      swapGetoff pagesize sip = .ok (sip.took slot, some (slot * pagesize + sip.soff)) := by
  obtain ⟨w, hw, hle, hex⟩ := wordFrom_spec hwords hhint (List.count_pos_iff.1 hfree)
  obtain ⟨slot, hslot, hclear⟩ := @slotIn_spec _ sip.hint w hle hex
  refine ⟨slot, hclear, ?_⟩
  unfold swapGetoff
  rw [hw]
  dsimp only [bind, Except.bind]
  rw [hslot]
  rfl

/-- The slots from `p` on, `n` of them, have been taken from `sip`. -/
structure Taken (sip : Swapinfo) (p n : ℕ) (sip' : Swapinfo) : Prop where
  same : sip'.vp = sip.vp ∧ sip'.soff = sip.soff ∧ sip'.eoff = sip.eoff ∧ sip'.npgs = sip.npgs ∧
    sip'.inDel = sip.inDel ∧ sip'.allocs = sip.allocs
  length : sip'.swapslots.length = sip.swapslots.length
  hint : sip'.hint ≤ sip'.swapslots.length
  was : ∀ j, p ≤ j → j < p + n → sip.swapslots[j]? = some false
  now : ∀ j, p ≤ j → j < p + n → sip'.swapslots[j]? = some true
  rest : ∀ j, j < p ∨ p + n ≤ j → sip'.swapslots[j]? = sip.swapslots[j]?
  count : sip'.swapslots.count false + n = sip.swapslots.count false

theorem Taken.one {slot : ℕ} (h : sip.swapslots[slot]? = some false) :
    Taken sip slot 1 (sip.took slot) where
  same := ⟨rfl, rfl, rfl, rfl, rfl, rfl⟩
  length := List.length_set
  hint := by
    have := (List.getElem?_eq_some_iff.1 h).1
    simp only [Swapinfo.took, List.length_set]
    omega
  was j h1 h2 := by
    obtain rfl : j = slot := by omega
    exact h
  now j h1 h2 := by
    obtain rfl : j = slot := by omega
    exact List.getElem?_set_self (List.getElem?_eq_some_iff.1 h).1
  rest j hj := List.getElem?_set_ne (by omega)
  count := count_set_true h

/-- One more slot, right after those taken. -/
theorem Taken.more {sip' : Swapinfo} {p n : ℕ} (h : Taken sip p n sip')
    (hfree : sip'.swapslots[p + n]? = some false) : Taken sip p (n + 1) (sip'.took (p + n)) := by
  have hone := Taken.one hfree
  refine ⟨h.same, hone.length.trans h.length, hone.hint, fun j h1 h2 => ?_, fun j h1 h2 => ?_,
    fun j hj => ?_, ?_⟩
  · by_cases hj : j < p + n
    · exact h.was j h1 hj
    · obtain rfl : j = p + n := by omega
      rwa [h.rest _ (by omega)] at hfree
  · by_cases hj : j < p + n
    · rw [hone.rest j (.inl hj)]
      exact h.now j h1 hj
    · exact hone.now j (by omega) (by omega)
  · rw [hone.rest j (by omega), h.rest j (by omega)]
  · have := hone.count
    have := h.count
    omega

/-- A slot that does not follow is given back, and only the hint has moved. -/
theorem Taken.undo {sip' : Swapinfo} {p n slot : ℕ} (h : Taken sip p n sip')
    (hfree : sip'.swapslots[slot]? = some false) :
    Taken sip p n { sip'.took slot with swapslots := (sip'.took slot).swapslots.set slot false } := by
  have hlt := (List.getElem?_eq_some_iff.1 hfree).1
  have hback : (sip'.took slot).swapslots.set slot false = sip'.swapslots := by
    rw [Swapinfo.took, List.set_set]
    refine List.ext_getElem? fun j => ?_
    by_cases hj : slot = j
    · rw [← hj, List.getElem?_set_self hlt, hfree]
    · rw [List.getElem?_set_ne hj]
  rw [hback]
  exact ⟨h.same, h.length, by simpa [Swapinfo.took] using hlt, h.was, h.now, h.rest, h.count⟩

theorem Taken.nfpgs {sip' : Swapinfo} {p n : ℕ} (h : Taken sip p n sip') (m : ℕ) :
    Taken sip p n { sip' with nfpgs := m } :=
  ⟨h.same, h.length, h.hint, h.was, h.now, h.rest, h.count⟩

/-- The range grows slot by slot, and not beyond what is asked for. -/
theorem extend_spec (maxcontig lenp : ℕ) (hpos : 0 < pagesize) (hwords : 32 ∣ sip.swapslots.length)
    {p : ℕ} : ∀ (n k : ℕ) (sip' : Swapinfo), Taken sip p k sip' →
      n = sip'.swapslots.count false → 1 ≤ k → k = 1 ∨ (k - 1) * pagesize < lenp →
    ∃ k' sip'', extend pagesize maxcontig lenp (p * pagesize + sip.soff) n (k * pagesize) sip' =
        .ok (k' * pagesize, sip'') ∧ Taken sip p k' sip'' ∧
      sip''.nfpgs = sip''.swapslots.count false ∧ 1 ≤ k' ∧
      (k' = 1 ∨ (k' - 1) * pagesize < lenp)
  | 0, k, sip', h, hn, hk, hle => ⟨k, _, rfl, h.nfpgs 0, hn, hk, hle⟩
  | n + 1, k, sip', h, hn, hk, hle => by
    rw [extend]
    split_ifs with hstop
    · exact ⟨k, _, rfl, h.nfpgs (n + 1), hn, hk, hle⟩
    · obtain ⟨slot, hfree, hoff⟩ := @swapGetoff_spec pagesize sip' (h.length ▸ hwords) h.hint
        (by omega)
      rw [hoff, h.same.2.1]
      dsimp only [bind, Except.bind]
      have hiff : slot * pagesize + sip.soff = p * pagesize + sip.soff + k * pagesize ↔
          slot = p + k := by
        rw [show p * pagesize + sip.soff + k * pagesize = (p + k) * pagesize + sip.soff by ring,
          Nat.add_right_cancel_iff, Nat.mul_left_inj hpos.ne']
      by_cases hnext : slot = p + k
      · subst hnext
        rw [if_neg (not_not.2 (hiff.2 rfl)), show k * pagesize + pagesize = (k + 1) * pagesize by ring]
        have hcount := (Taken.one hfree).count
        refine extend_spec maxcontig lenp hpos hwords n (k + 1) _ (h.more hfree) (by omega)
          (by omega) (.inr ?_)
        rw [Nat.add_sub_cancel]
        push Not at hstop
        exact hstop.1
      · have hslot : (slot * pagesize + sip.soff - (sip'.took slot).soff) / pagesize = slot := by
          change (slot * pagesize + sip.soff - sip'.soff) / pagesize = slot
          rw [h.same.2.1, Nat.add_sub_cancel, Nat.mul_div_cancel _ hpos]
        rw [if_pos (mt hiff.1 hnext), hslot]
        have hundo := h.undo hfree
        have hcount := hundo.count
        have hcount' := h.count
        refine ⟨k, _, rfl, hundo.nfpgs (n + 1), ?_, hk, hle⟩
        dsimp only at hcount ⊢
        omega

end

end Sol26.Swap
