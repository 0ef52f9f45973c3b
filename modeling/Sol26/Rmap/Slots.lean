import Sol26.Rmap.Release

/-!
# The segment array of a resource map

A pass of `rmfree` as the accesses that it makes to the array. An access to anything but the slots
0 to `m_size` fails, so that a pass that comes to an end has stayed inside the map. It then does what
`rmfree` does to the list of slots.
-/
namespace Sol26.Rmap

open Option (bind_some)
open List (append_assoc length_append length_cons)

namespace RMap

def slot (mp : RMap) (i : ℤ) : Option Slot :=
  if 0 ≤ i ∧ i ≤ mp.msize then mp.map[i.toNat]? else none

def setSlot (mp : RMap) (i : ℤ) (s : Slot) : Option RMap :=
  if 0 ≤ i ∧ i ≤ mp.msize then some { mp with map := mp.map.set i.toNat s } else none

/-- The two loops that only move the pointer on. -/
def advance (mp : RMap) (skip : Slot → Bool) : ℕ → ℤ → Option ℤ
  | 0, _ => none
  | n + 1, bp => (mp.slot bp).bind fun s =>
    if skip s then mp.advance skip n (bp + 1) else some bp

/-- The loop that moves the remaining pieces over. -/
def compress : ℕ → ℤ → RMap → Option RMap
  | 0, _, _ => none
  | n + 1, bp, mp => (mp.slot bp).bind fun s =>
    if s.size = 0 then some mp
    else (mp.slot (bp + 1)).bind fun next => (mp.setSlot bp next).bind (compress n (bp + 1))

/-- The loop that makes a new entry and pushes the remaining ones up. -/
def push : ℕ → ℕ → ℕ → ℤ → RMap → Option RMap
  | 0, _, _, _, _ => none
  | n + 1, size, addr, bp, mp => (mp.slot bp).bind fun s =>
    (mp.setSlot bp ⟨size, addr⟩).bind fun mp' =>
      if s.size = 0 then some mp' else push n s.size s.addr (bp + 1) mp'

/-- As many rounds as a loop over the array can take. -/
def rounds (mp : RMap) : ℕ := mp.msize + 1

/-- The piece on the left abuts. -/
def joinLeft (mp : RMap) (size addr : ℕ) (bp : ℤ) (left right : Slot) : Option Freed :=
  if left.stop > addr then some .panic
  else if right.size ≠ 0 ∧ w32 (addr + size) ≥ right.addr then
    if w32 (addr + size) > right.addr then some .panic
    else (mp.setSlot (bp - 1) ⟨w32 (w32 (left.size + size) + right.size), left.addr⟩).bind fun mp' =>
      (compress mp.rounds bp mp').map fun mp'' => .done { mp'' with mfree := mp.mfree + 1 }
  else (mp.setSlot (bp - 1) ⟨w32 (left.size + size), left.addr⟩).map .done

/-- The map is full: the smaller of the last two entries is destroyed. -/
def giveUp (mp : RMap) (bp : ℤ) : Option Freed :=
  (mp.advance (fun s => s.size ≠ 0) mp.rounds bp).bind fun firstbp =>
  (mp.slot (firstbp - 1)).bind fun last =>
  (mp.slot (firstbp - 1 - 1)).bind fun before =>
    let bp := if last.size > before.size then firstbp - 1 - 1 else firstbp - 1
    (mp.slot bp).bind fun victim =>
    (mp.slot (bp + 1)).bind fun next =>
    (mp.setSlot bp next).bind fun mp' =>
    (mp'.setSlot (bp + 1) { next with size := 0 }).map fun mp'' =>
      .retry { mp'' with mfree := mp.mfree + 1 } victim.addr victim.stop

/-- The piece on the left does not abut. -/
def joinRight (mp : RMap) (size addr : ℕ) (bp : ℤ) (right : Slot) : Option Freed :=
  if w32 (addr + size) ≥ right.addr ∧ right.size ≠ 0 then
    if w32 (addr + size) > right.addr then some .panic
    else (mp.setSlot bp ⟨w32 (right.size + size), sub32 right.addr size⟩).map .done
  else if mp.mfree = 0 then mp.giveUp bp
  else (push mp.rounds size addr bp mp).map fun mp' => .done { mp' with mfree := mp.mfree - 1 }

/-- One pass of `rmfree`. -/
def pass (mp : RMap) (size addr : ℕ) : Option Freed :=
  if addr = 0 ∨ badSize size then some .panic
  else
    (mp.advance (fun s => s.addr ≤ addr ∧ s.size ≠ 0) mp.rounds 0).bind fun bp =>
    (mp.slot bp).bind fun right =>
      if 0 < bp then (mp.slot (bp - 1)).bind fun left =>
        if left.stop ≥ addr then mp.joinLeft size addr bp left right
        else mp.joinRight size addr bp right
      else mp.joinRight size addr bp right

end RMap

section Loops

variable {mp : RMap} {pre rest l : List Slot} {s t z : Slot} {i : ℤ}

theorem slot_append (hmap : mp.map = pre ++ s :: rest) (hi : i = pre.length)
    (hlen : pre.length ≤ mp.msize) : mp.slot i = some s := by
  unfold RMap.slot
  rw [if_pos ⟨by omega, by omega⟩, hi, Int.toNat_natCast, hmap]
  simp

theorem setSlot_append (hmap : mp.map = pre ++ s :: rest) (hi : i = pre.length)
    (hlen : pre.length ≤ mp.msize) :
    mp.setSlot i t = some { mp with map := pre ++ t :: rest } := by
  unfold RMap.setSlot
  rw [if_pos ⟨by omega, by omega⟩, hi, Int.toNat_natCast, hmap]
  simp

theorem advance_spec (skip : Slot → Bool) {n : ℕ} (hmap : mp.map = pre ++ (l ++ t :: rest))
    (hskip : ∀ s ∈ l, skip s = true) (ht : skip t = false) (hi : i = pre.length)
    (hlen : pre.length + l.length ≤ mp.msize) (hn : l.length < n) :
    mp.advance skip n i = some (i + l.length) := by
  induction l generalizing pre n i with
  | nil =>
    obtain ⟨n, rfl⟩ := Nat.exists_eq_succ_of_ne_zero (by omega : n ≠ 0)
    rw [RMap.advance, slot_append hmap hi (by simpa using hlen)]
    simp [ht]
  | cons a l ih =>
    obtain ⟨n, rfl⟩ := Nat.exists_eq_succ_of_ne_zero (by omega : n ≠ 0)
    rw [length_cons] at hlen hn
    rw [RMap.advance, slot_append hmap hi (by omega), bind_some, if_pos (hskip a (by simp)),
      @ih (pre ++ [a]) (i + 1) n (by simp [hmap]) (fun s hs => hskip s (by simp [hs]))
        (by simp; omega) (by simp; omega) (by omega), length_cons]
    congr 1
    push_cast
    ring

theorem compress_spec {n : ℕ} (hmap : mp.map = pre ++ s :: (l ++ z :: rest)) (hs : s.size ≠ 0)
    (hl : ∀ t ∈ l, t.size ≠ 0) (hz : z.size = 0) (hi : i = pre.length)
    (hlen : pre.length + l.length + 1 ≤ mp.msize) (hn : l.length + 1 < n) :
    RMap.compress n i mp = some { mp with map := pre ++ (l ++ z :: z :: rest) } := by
  induction l generalizing pre s n i mp with
  | nil =>
    obtain ⟨n, rfl⟩ : ∃ m, n = m + 2 := ⟨n - 2, by simp at hn; omega⟩
    rw [RMap.compress, slot_append hmap hi (by omega), bind_some, if_neg hs,
      @slot_append mp (pre ++ [s]) rest z (i + 1) (by simp [hmap]) (by simp; omega)
        (by simpa using hlen),
      bind_some, setSlot_append hmap hi (by omega), bind_some, RMap.compress,
      @slot_append _ (pre ++ [z]) rest z (i + 1) (by simp) (by simp; omega) (by simpa using hlen)]
    simp [hz]
  | cons a l ih =>
    obtain ⟨n, rfl⟩ := Nat.exists_eq_succ_of_ne_zero (by omega : n ≠ 0)
    rw [length_cons] at hlen hn
    rw [RMap.compress, slot_append hmap hi (by omega), bind_some, if_neg hs,
      @slot_append mp (pre ++ [s]) (l ++ z :: rest) a (i + 1) (by simp [hmap]) (by simp; omega)
        (by simp; omega),
      bind_some, setSlot_append hmap hi (by omega), bind_some,
      @ih { mp with map := pre ++ a :: (a :: l ++ z :: rest) } (pre ++ [a]) a (i + 1) n (by simp)
        (hl a (by simp)) (fun t ht => hl t (by simp [ht])) (by simp; omega) (by simp; omega)
        (by omega)]
    simp

theorem push_spec {n size addr : ℕ} (hmap : mp.map = pre ++ (l ++ z :: rest))
    (hl : ∀ t ∈ l, t.size ≠ 0) (hz : z.size = 0) (hi : i = pre.length)
    (hlen : pre.length + l.length ≤ mp.msize) (hn : l.length < n) :
    RMap.push n size addr i mp = some { mp with map := pre ++ ⟨size, addr⟩ :: (l ++ rest) } := by
  induction l generalizing pre n i mp size addr with
  | nil =>
    obtain ⟨n, rfl⟩ := Nat.exists_eq_succ_of_ne_zero (by omega : n ≠ 0)
    rw [RMap.push, slot_append hmap hi (by simpa using hlen), bind_some,
      setSlot_append hmap hi (by simpa using hlen), bind_some, if_pos hz]
    rfl
  | cons a l ih =>
    obtain ⟨n, rfl⟩ := Nat.exists_eq_succ_of_ne_zero (by omega : n ≠ 0)
    rw [length_cons] at hlen hn
    rw [List.cons_append] at hmap
    rw [RMap.push, slot_append hmap hi (by omega), bind_some, setSlot_append hmap hi (by omega),
      bind_some, if_neg (hl a (by simp)),
      @ih { mp with map := pre ++ ⟨size, addr⟩ :: (l ++ z :: rest) } (pre ++ [⟨size, addr⟩]) (i + 1) n
        a.size a.addr (by simp) (fun t ht => hl t (by simp [ht])) (by simp; omega) (by simp; omega)
        (by omega)]
    simp

end Loops

section Pass

variable {mp : RMap} {segs zs pre post : List Slot} {size addr : ℕ} {i : ℤ}

/-- The loop to the final entry ends at the terminator. -/
theorem final_eq (h : Represents mp (pre ++ post) zs) (hi : i = pre.length) :
    mp.advance (fun s => s.size ≠ 0) mp.rounds i = some (((pre ++ post).length : ℕ) : ℤ) := by
  obtain ⟨z, u, zs', rfl, hz, -⟩ := h.terminator
  have hcount := h.count
  rw [length_append] at hcount
  have hne : ∀ s ∈ post, decide (s.size ≠ 0) = true := fun s hs => by
    simpa using h.ne_zero s (List.mem_append_right _ hs)
  rw [@advance_spec mp pre (u :: zs') post z i (fun s => s.size ≠ 0) mp.rounds
    (by rw [h.map, append_assoc]) hne (by simp [hz]) hi (by omega)
    (by unfold RMap.rounds; omega), hi, length_append, Nat.cast_add]

/-- The entry at `init` goes and the one after it takes its place. -/
theorem discard_eq {init rest : List Slot} {x y : Slot} (hmap : mp.map = init ++ x :: y :: rest)
    (hi : i = init.length) (hlen : init.length + 1 ≤ mp.msize) :
    ((mp.slot i).bind fun victim => (mp.slot (i + 1)).bind fun next =>
      (mp.setSlot i next).bind fun mp' => (mp'.setSlot (i + 1) { next with size := 0 }).map fun mp'' =>
        Freed.retry { mp'' with mfree := mp.mfree + 1 } victim.addr victim.stop) =
      some (.retry (mp.discard (init.length + 1)) x.addr x.stop) := by
  rw [slot_append hmap hi (by omega), bind_some,
    @slot_append mp (init ++ [x]) rest y (i + 1) (by simp [hmap]) (by simp; omega)
      (by simpa using hlen),
    bind_some, setSlot_append hmap hi (by omega), bind_some,
    @setSlot_append _ (init ++ [y]) rest y { y with size := 0 } (i + 1) (by simp) (by simp; omega)
      (by simpa using hlen), discard_slot hmap]
  simp

/-- The overflow branch, when there are two segments to compare. -/
theorem giveUp_eq (h : Represents mp (pre ++ post) zs) (hi : i = pre.length) {init : List Slot}
    {a b : Slot} (hsegs : pre ++ post = init ++ [a, b]) :
    mp.giveUp i = some (.retry
      (mp.discard (if b.size > a.size then init.length + 1 else init.length + 2))
      (if b.size > a.size then a else b).addr (if b.size > a.size then a else b).stop) := by
  have hcount := h.count
  obtain ⟨z, u, zs', rfl, -, -⟩ := h.terminator
  have hmap : mp.map = init ++ a :: b :: z :: u :: zs' := by rw [h.map, hsegs]; simp
  have hmap' : mp.map = (init ++ [a]) ++ b :: z :: u :: zs' := by rw [hmap]; simp
  have hlen : (pre ++ post).length = init.length + 2 := by rw [hsegs]; simp
  unfold RMap.giveUp
  rw [final_eq h hi, bind_some, hlen,
    slot_append hmap' (by push_cast; simp; omega) (by simp; omega), bind_some,
    slot_append hmap (by push_cast; omega) (by omega), bind_some]
  by_cases hlt : b.size > a.size
  · simp only [if_pos hlt]
    exact discard_eq hmap (by push_cast; omega) (by omega)
  · simp only [if_neg hlt]
    have := @discard_eq mp ((init.length + 2 : ℕ) - 1) (init ++ [a]) (u :: zs') b z hmap'
      (by simp; omega) (by simp; omega)
    simpa using this

/-- Which cell the overflow branch of the list takes. -/
theorem overflow_eq (h : Represents mp segs zs) {init : List Slot} {a b : Slot}
    (hsegs : segs = init ++ [a, b]) : mp.overflow = .retry
      (mp.discard (if b.size > a.size then init.length + 1 else init.length + 2))
      (if b.size > a.size then a else b).addr (if b.size > a.size then a else b).stop := by
  subst hsegs
  have ha : mp.cell (init.length + 1) = a := h.cell_eq
  have hb : mp.cell (init.length + 2) = b := by
    have := @Represents.cell_eq mp zs (init ++ [a]) [] b (by simpa using h)
    simpa using this
  have hsm := smaller_eq h
  rw [length_append] at hsm
  simp only [length_cons, List.length_nil] at hsm
  rw [show init.length + (0 + 1 + 1) - 1 = init.length + 1 by omega,
    show init.length + (0 + 1 + 1) = init.length + 2 by omega, ha, hb] at hsm
  unfold RMap.overflow
  by_cases hlt : b.size > a.size
  · rw [if_pos hlt] at hsm
    simp only [hsm, if_pos hlt, ha]
  · rw [if_neg hlt] at hsm
    simp only [hsm, if_neg hlt, hb]

theorem two_last {l : List Slot} (hl : 2 ≤ l.length) : ∃ init a b, l = init ++ [a, b] := by
  obtain ⟨l', b, rfl⟩ := List.eq_nil_or_concat l |>.resolve_left fun hnil => by
    rw [hnil, List.length_nil] at hl
    omega
  obtain ⟨init, a, rfl⟩ := List.eq_nil_or_concat l' |>.resolve_left fun hnil => by
    simp [hnil] at hl
  exact ⟨init, a, b, by simp⟩

theorem joinRight_eq (h : Represents mp (pre ++ post) zs) {bp : Slot} {rest : List Slot}
    (hbp : post ++ zs = bp :: rest) (hi : i = pre.length)
    (hslots : mp.mfree ≠ 0 ∨ 2 ≤ mp.msize) :
    mp.joinRight size addr i bp = some (
      if w32 (addr + size) ≥ bp.addr ∧ bp.size ≠ 0 then
        if w32 (addr + size) > bp.addr then .panic
        else .done { mp with map := pre ++ ⟨w32 (bp.size + size), sub32 bp.addr size⟩ :: rest }
      else if mp.mfree = 0 then mp.overflow
      else .done { mp with map := pre ++ pushUp size addr (bp :: rest), mfree := mp.mfree - 1 }) := by
  have hmap : mp.map = pre ++ bp :: rest := by rw [h.map, append_assoc, hbp]
  have hcount := h.count
  have hlen : pre.length ≤ mp.msize := by
    rw [length_append] at hcount
    omega
  unfold RMap.joinRight
  by_cases hright : w32 (addr + size) ≥ bp.addr ∧ bp.size ≠ 0
  · rw [if_pos hright, if_pos hright]
    by_cases hover : w32 (addr + size) > bp.addr
    · rw [if_pos hover, if_pos hover]
    · rw [if_neg hover, if_neg hover, setSlot_append hmap hi hlen]
      rfl
  rw [if_neg hright, if_neg hright]
  by_cases hfree : mp.mfree = 0
  · rw [if_pos hfree, if_pos hfree]
    obtain ⟨init, a, b, hsegs⟩ := @two_last (pre ++ post) (by omega)
    rw [giveUp_eq h hi hsegs, overflow_eq h hsegs]
  · rw [if_neg hfree, if_neg hfree]
    obtain ⟨z, u, zs', rfl, hz, -⟩ := h.terminator
    rw [length_append] at hcount
    have hpost : ∀ t ∈ post, t.size ≠ 0 := fun t ht => h.ne_zero t (List.mem_append_right _ ht)
    rw [push_spec (by rw [h.map, append_assoc]) hpost hz hi (by omega)
      (by unfold RMap.rounds; omega), ← hbp, pushUp_segments hpost hz]
    rfl

theorem joinLeft_eq {left : Slot} (h : Represents mp (pre ++ left :: post) zs) {bp : Slot}
    {rest : List Slot} (hbp : post ++ zs = bp :: rest) (hi : i = pre.length + 1) :
    mp.joinLeft size addr i left bp = some (
      if left.stop > addr then .panic
      else if bp.size ≠ 0 ∧ w32 (addr + size) ≥ bp.addr then
        if w32 (addr + size) > bp.addr then .panic
        else .done { mp with
          map := pre ++ ⟨w32 (w32 (left.size + size) + bp.size), left.addr⟩ :: shiftDown (bp :: rest)
          mfree := mp.mfree + 1 }
      else .done { mp with map := pre ++ ⟨w32 (left.size + size), left.addr⟩ :: bp :: rest }) := by
  have hmap : mp.map = pre ++ left :: bp :: rest := by
    rw [h.map, append_assoc, List.cons_append, hbp]
  have hcount := h.count
  rw [length_append, length_cons] at hcount
  unfold RMap.joinLeft
  by_cases hover : left.stop > addr
  · rw [if_pos hover, if_pos hover]
  rw [if_neg hover, if_neg hover]
  by_cases hright : bp.size ≠ 0 ∧ w32 (addr + size) ≥ bp.addr
  · rw [if_pos hright, if_pos hright]
    by_cases hover' : w32 (addr + size) > bp.addr
    · rw [if_pos hover', if_pos hover']
    rw [if_neg hover', if_neg hover', setSlot_append hmap (by omega) (by omega), bind_some]
    -- the piece on the right is a segment, so the terminator is behind it
    obtain ⟨z, u, zs', rfl, hz, -⟩ := h.terminator
    obtain ⟨post', rfl⟩ : ∃ post', post = bp :: post' := by
      cases post with
      | nil =>
        obtain ⟨rfl, -⟩ := List.cons.inj hbp
        exact absurd hz hright.1
      | cons a post' =>
        obtain ⟨rfl, -⟩ := List.cons.inj hbp
        exact ⟨post', rfl⟩
    obtain rfl : rest = post' ++ z :: u :: zs' := (List.cons.inj hbp).2.symm
    have hpost : ∀ t ∈ post', t.size ≠ 0 := fun t ht => h.ne_zero t (by simp [ht])
    rw [length_cons] at hcount
    rw [@compress_spec _ (pre ++ [⟨w32 (w32 (left.size + size) + bp.size), left.addr⟩]) (u :: zs')
      post' bp z i mp.rounds (by simp) hright.1 hpost hz (by simp; omega) (by simp; omega)
      (by unfold RMap.rounds; omega), shiftDown_segments hpost hz]
    simp
  · rw [if_neg hright, if_neg hright, setSlot_append hmap (by omega) (by omega)]
    rfl

/-- Where a pass goes from the place that its first loop finds. -/
theorem pass_at (h : Represents mp segs zs) (haddr : addr ≠ 0) (hbad : ¬ badSize size)
    (hdisj : Disjoint (Set.Ico addr (addr + size)) (cover segs)) :
    ∃ pre post bp rest, segs = pre ++ post ∧ post ++ zs = bp :: rest ∧
      mp.map.takeWhile (fun s => s.addr ≤ addr ∧ s.size ≠ 0) = pre ∧
      mp.map.dropWhile (fun s => s.addr ≤ addr ∧ s.size ≠ 0) = bp :: rest ∧
      (∀ s ∈ pre, s.addr + s.size ≤ addr) ∧ (∀ t ∈ post, addr + size ≤ t.addr) ∧
      mp.pass size addr =
        match pre.getLast?.filter fun left => left.stop ≥ addr with
        | some left => mp.joinLeft size addr pre.length left bp
        | none => mp.joinRight size addr pre.length bp := by
  have hpos : 0 < size := by
    unfold badSize at hbad
    omega
  obtain ⟨pre, post, rfl, htake, hdrop, hpre, hpost⟩ := h.gap hpos hdisj
  have hcount := h.count
  rw [length_append] at hcount
  obtain ⟨bp, rest, hbp⟩ : ∃ bp rest, post ++ zs = bp :: rest := by
    obtain ⟨z, u, zs', rfl, -, -⟩ := h.terminator
    cases post with
    | nil => exact ⟨z, u :: zs', rfl⟩
    | cons a post => exact ⟨a, post ++ z :: u :: zs', rfl⟩
  have hmap : mp.map = pre ++ bp :: rest := by rw [h.map, append_assoc, hbp]
  rw [hbp] at hdrop
  refine ⟨pre, post, bp, rest, rfl, hbp, htake, hdrop, hpre, hpost, ?_⟩
  set skip : Slot → Bool := fun s => s.addr ≤ addr ∧ s.size ≠ 0 with hskip
  have hadv : mp.advance skip mp.rounds 0 = some (pre.length : ℤ) := by
    have hin : ∀ s ∈ pre, skip s = true := fun s hs => by
      rw [← htake] at hs
      exact List.mem_takeWhile_imp hs
    have hout : skip bp = false := by
      have := List.head?_dropWhile_not skip mp.map
      rwa [hdrop] at this
    rw [@advance_spec mp [] rest pre bp 0 skip mp.rounds (by simpa using hmap) hin hout rfl
      (by simp; omega) (by unfold RMap.rounds; omega), zero_add]
  unfold RMap.pass
  rw [if_neg (by simp [haddr, hbad]), hadv, bind_some, slot_append hmap rfl (by omega), bind_some]
  rcases List.eq_nil_or_concat pre with rfl | ⟨pre', left, rfl⟩
  · rfl
  rw [List.concat_eq_append] at *
  have hmap' : mp.map = pre' ++ left :: bp :: rest := by rw [hmap]; simp
  have hlen : (((pre' ++ [left]).length : ℕ) : ℤ) - 1 = pre'.length := by simp
  have hslot : mp.slot (((pre' ++ [left]).length : ℕ) - 1) = some left :=
    slot_append hmap' hlen (by simp at hcount; omega)
  rw [if_pos (by simp), hslot, bind_some, List.getLast?_concat, Option.filter_some]
  by_cases habut : left.stop ≥ addr
  · rw [if_pos habut, if_pos (by simpa using habut)]
  · rw [if_neg habut, if_neg (by simpa using habut)]

/-- A pass stays inside the map and does what `rmfree` does, unless it finds a full map with one
segment. -/
theorem pass_eq (h : Represents mp segs zs) (haddr : addr ≠ 0) (hbad : ¬ badSize size)
    (hdisj : Disjoint (Set.Ico addr (addr + size)) (cover segs))
    (hslots : mp.mfree ≠ 0 ∨ 2 ≤ mp.msize) : mp.pass size addr = some (mp.rmfree size addr) := by
  obtain ⟨pre, post, bp, rest, rfl, hbp, htake, hdrop, -, -, hpass⟩ := pass_at h haddr hbad hdisj
  rw [hpass]
  unfold RMap.rmfree
  simp only [haddr, hbad, or_self, ↓reduceIte, htake, hdrop]
  cases hleft : pre.getLast?.filter fun left => left.stop ≥ addr with
  | none => exact joinRight_eq h hbp rfl hslots
  | some left =>
    obtain ⟨pre', rfl⟩ : ∃ pre', pre = pre' ++ [left] := by
      have hlast := (Option.filter_eq_some_iff.mp hleft).1
      exact ⟨pre.dropLast, (List.dropLast_append_getLast? left hlast).symm⟩
    rw [List.dropLast_concat]
    exact joinLeft_eq (by simpa using h) hbp (by simp)

/-- Space that abuts nothing leaves a full map to the overflow branch. -/
theorem pass_full (h : Represents mp segs zs) (haddr : addr ≠ 0) (hbad : ¬ badSize size)
    (hwrap : addr + size ≤ 2 ^ 32) (hdisj : Disjoint (Set.Ico addr (addr + size)) (cover segs))
    (hapart : ∀ s ∈ segs, s.addr + s.size ≠ addr ∧ addr + size ≠ s.addr) (hfull : mp.mfree = 0) :
    ∃ pre post, segs = pre ++ post ∧ mp.pass size addr = mp.giveUp pre.length := by
  have hpos : 0 < size := by
    unfold badSize at hbad
    omega
  obtain ⟨pre, post, bp, rest, rfl, hbp, -, -, hpre, hpost, hpass⟩ := pass_at h haddr hbad hdisj
  refine ⟨pre, post, rfl, ?_⟩
  rcases (layout_append.mp h.layout).1.left_cases hpre (by omega) with
    ⟨pre', left, rfl, hl, -, -⟩ | ⟨-, hfilter⟩
  · exact absurd hl (hapart left (by simp)).1
  rw [hpass, hfilter]
  rcases h.right_cases hpost hwrap with ⟨right, post', rfl, hr, -⟩ | ⟨-, bp', rest', hbp', hno⟩
  · exact absurd hr (hapart right (by simp)).2
  obtain ⟨rfl, -⟩ := List.cons.inj (hbp.symm.trans hbp')
  simp only [RMap.joinRight, and_comm.not.mp hno, ↓reduceIte, hfull]

end Pass

/-- Freeing `[addr, addr + size)` into a full map: the first pass gives up the smaller one of the
last two segments and nothing else, and the second one puts the space into the map. Neither makes
an access outside of the slots. -/
def OverflowInside (mp : RMap) (size addr : ℕ) : Prop :=
  ∃ init a b mp' mp'', mp.segments = init ++ [a, b] ∧
    mp.pass size addr = some (.retry mp' (if b.size > a.size then a else b).addr
      (if b.size > a.size then a else b).stop) ∧
    mp'.segments = init ++ [if b.size > a.size then b else a] ∧
    mp'.pass size addr = some (.done mp'') ∧
    cover mp''.segments = cover mp'.segments ∪ Set.Ico addr (addr + size)

/-- The handling of an overflow stays inside the map exactly when the map has two slots or more. -/
theorem overflowInside_iff (mp : RMap) (size addr : ℕ)
    (hrep : ∃ zs, Represents mp mp.segments zs) (hfull : mp.mfree = 0) (haddr : addr ≠ 0)
    (hbad : ¬ badSize size) (hwrap : addr + size ≤ 2 ^ 32)
    (hdisj : Disjoint (Set.Ico addr (addr + size)) (cover mp.segments))
    (hapart : ∀ s ∈ mp.segments, s.addr + s.size ≠ addr ∧ addr + size ≠ s.addr) :
    OverflowInside mp size addr ↔ 2 ≤ mp.msize := by
  obtain ⟨zs, h⟩ := hrep
  have hcount := h.count
  obtain ⟨pre, post, hsegs, hpass⟩ := pass_full h haddr hbad hwrap hdisj hapart hfull
  constructor
  · rintro ⟨init, a, b, mp', mp'', hab, -⟩
    rw [hab] at hcount
    simp at hcount
    omega
  · intro hslots
    obtain ⟨init, a, b, hab⟩ : ∃ init a b, mp.segments = init ++ [a, b] := two_last (by omega)
    have hrep : Represents mp (init ++ [a, b]) zs := hab ▸ h
    set mp' := mp.discard (if b.size > a.size then init.length + 1 else init.length + 2) with hmp'
    obtain ⟨zs', h'⟩ : ∃ zs', Represents mp' (init ++ [if b.size > a.size then b else a]) zs' := by
      by_cases hlt : b.size > a.size
      · rw [hmp', if_pos hlt, if_pos hlt]
        exact hrep.discard (by simp)
      · rw [hmp', if_neg hlt, if_neg hlt]
        have := @Represents.discard mp zs (init ++ [a]) [] b (by simpa using hrep) (by simp)
        simpa using this
    have hdisj' : Disjoint (Set.Ico addr (addr + size))
        (cover (init ++ [if b.size > a.size then b else a])) := by
      rw [hab] at hdisj
      apply hdisj.mono_right
      rintro x ⟨s, hs, hx⟩
      refine ⟨s, ?_, hx⟩
      split_ifs at hs <;> simp at hs ⊢ <;> tauto
    have hfree : mp'.mfree = 1 := by
      rw [hmp']
      simp [RMap.discard, hfull]
    have hsafe : mp'.FreeSafe size addr := fun s _ hzero => by omega
    obtain ⟨mp'', hdone, segs'', zs'', hrep'', hcover⟩ :=
      (rmfree_spec h' haddr hbad hwrap hdisj' hsafe).resolve_right fun hc => by omega
    refine ⟨init, a, b, mp', mp'', hab, ?_, h'.segments_eq, ?_, ?_⟩
    · rw [hpass]
      exact giveUp_eq (hsegs ▸ h) rfl (hsegs ▸ hab)
    · rw [pass_eq h' haddr hbad hdisj' (.inl (by omega)), hdone]
    · rw [hrep''.segments_eq, h'.segments_eq, hcover]

/-- A map of two slots with the segments [10, 12) and [20, 23): freeing [30, 31) gives up the
first one. -/
def twoSlots : RMap := ⟨0, 2, ⟨0, 0⟩, [⟨2, 10⟩, ⟨3, 20⟩, ⟨0, 0⟩, ⟨0, 0⟩]⟩

theorem twoSlots_represents : Represents twoSlots twoSlots.segments [⟨0, 0⟩, ⟨0, 0⟩] where
  map := rfl
  layout := layout_cons.mpr ⟨⟨by decide, by decide, by decide⟩, layout_cons.mpr
    ⟨⟨by decide, by decide, by decide⟩, .nil, by simp⟩, by simp [Slot.Before]⟩
  zero := by decide
  count := rfl
  length := rfl
  slots := by decide

theorem overflowInside_twoSlots : OverflowInside twoSlots 1 30 := by
  apply (overflowInside_iff twoSlots 1 30 ⟨_, twoSlots_represents⟩ rfl (by decide) (by decide)
    (by decide) ?_ (by decide)).mpr (by decide)
  rw [Set.disjoint_left]
  rintro x hx ⟨s, hs, hsx⟩
  simp [twoSlots, RMap.segments] at hs
  simp at hx
  rcases hs with rfl | rfl <;> simp at hsx <;> omega

/-- A map of one slot that holds [10, 11): freeing [20, 21) looks at the slot before the first one
and then writes it. -/
def oneSlot : RMap := ⟨0, 1, ⟨0, 0⟩, [⟨1, 10⟩, ⟨0, 0⟩, ⟨0, 0⟩]⟩

theorem oneSlot_represents : Represents oneSlot oneSlot.segments [⟨0, 0⟩, ⟨0, 0⟩] where
  map := rfl
  layout := layout_cons.mpr ⟨⟨by decide, by decide, by decide⟩, .nil, by simp⟩
  zero := by decide
  count := rfl
  length := rfl
  slots := by decide

/-- The pass makes an access outside of the slots, and what it does is to write the segment over
the header. -/
theorem oneSlot_not_overflowInside : (∃ zs, Represents oneSlot oneSlot.segments zs) ∧
    ¬ OverflowInside oneSlot 1 20 ∧ oneSlot.pass 1 20 = none ∧
    oneSlot.rmfree 1 20 = .retry ⟨1, 1, ⟨1, 10⟩, [⟨0, 10⟩, ⟨0, 0⟩, ⟨0, 0⟩]⟩ 0 0 := by
  have hpass : oneSlot.pass 1 20 = none := rfl
  refine ⟨⟨_, oneSlot_represents⟩, ?_, hpass, rfl⟩
  rintro ⟨init, a, b, mp', mp'', -, hretry, -⟩
  simp [hpass] at hretry

end Sol26.Rmap
