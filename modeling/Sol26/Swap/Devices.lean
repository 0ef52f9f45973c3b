import Sol26.Swap.Slots

/-!
# Allocation over all devices

`swap_phys_alloc` goes round the list of devices from `silast`. The operations keep the map of every
device; one that fails has seen that no device would do.
-/
namespace Sol26.Swap

/-- The device without the count that only moves `silast`. -/
def Swapinfo.bare (sip : Swapinfo) : Swapinfo := { sip with allocs := 0 }

/-- Where a device is. -/
def Swapinfo.key (sip : Swapinfo) : ℕ × ℕ × ℕ := (sip.vp, sip.soff, sip.eoff)

/-- Two places on one vnode do not overlap. -/
def Apart (a b : ℕ × ℕ × ℕ) : Prop := a.1 = b.1 → a.2.2 ≤ b.2.1 ∨ b.2.2 ≤ a.2.1

structure Swaps.Ok (pagesize : ℕ) (s : Swaps) : Prop where
  device : ∀ sip ∈ s.devices, sip.Ok pagesize
  silast : ∀ i, s.silast = some i → i < s.devices.length
  empty : s.silast = none → s.devices = []
  apart : (s.devices.map Swapinfo.key).Pairwise Apart

/-- A device from which `swap_phys_alloc` may take a slot. -/
def Swapinfo.Eligible (sip : Swapinfo) (w : Want) : Prop :=
  (sip.inDel = false ∧ 0 < sip.nfpgs) ∧ sip.Suits w

section

variable {pagesize : ℕ} {w : Want} {sip : Swapinfo} {devices : List Swapinfo} {silast : ℕ}

theorem Swapinfo.Ok.bare (h : sip.Ok pagesize) : sip.bare.Ok pagesize :=
  ⟨h.size, h.words, h.padding, h.count, h.hint⟩

variable {devices' : List Swapinfo} {sip' : Swapinfo} {s : Swaps} {i : ℕ}

theorem next_lt (h : i < devices.length) : Swaps.next devices i < devices.length := by
  unfold Swaps.next
  split_ifs <;> omega

/-- The devices that the loop comes to from `i` on, before it is back at `silast`. -/
def Ahead (silast i j : ℕ) : Prop := if i < silast then i ≤ j ∧ j < silast else i ≤ j ∨ j < silast

/-- The same devices but for `si_allocs`. -/
theorem exists_of_bare (h : devices'.map Swapinfo.bare = devices.map Swapinfo.bare) {j : ℕ}
    (hj : devices[j]? = some sip) : ∃ sip', devices'[j]? = some sip' ∧ sip'.bare = sip.bare := by
  have hmap := congrArg (·[j]?) h
  simp only [List.getElem?_map, hj, Option.map_some] at hmap
  exact Option.map_eq_some_iff.1 hmap

theorem eligible_of_bare (h : sip'.bare = sip.bare) : sip'.Eligible w ↔ sip.Eligible w := by
  change sip'.bare.Eligible w ↔ sip.bare.Eligible w
  rw [h]

theorem reset_bare (hi : i < devices.length) (c : Prop) [Decidable c] :
    (if c then devices.set i { devices[i] with allocs := 0 } else devices).map Swapinfo.bare =
      devices.map Swapinfo.bare := by
  split_ifs
  · rw [List.map_set]
    refine List.ext_getElem? fun j => ?_
    by_cases hj : i = j
    · subst hj
      rw [List.getElem?_set_self (by simpa using hi), List.getElem?_map,
        List.getElem?_eq_getElem hi]
      rfl
    · rw [List.getElem?_set_ne hj]
  · rfl

/-- The loop looks at every device, and only `si_allocs` changes. -/
theorem search_spec : ∀ (n i : ℕ) (devices : List Swapinfo), i < devices.length →
    silast < devices.length →
    n = (if i < silast then silast - i else devices.length - i + silast) →
    (search w silast n i devices).2.map Swapinfo.bare = devices.map Swapinfo.bare ∧
    (∀ j, (search w silast n i devices).1 = some j →
      ∃ sip, (search w silast n i devices).2[j]? = some sip ∧ sip.Eligible w) ∧
    ((search w silast n i devices).1 = none → ∀ j sip, Ahead silast i j →
      devices[j]? = some sip → ¬ sip.Eligible w)
  | 0, i, devices, hi, hs, hn => by
    split_ifs at hn <;> omega
  | n + 1, i, devices, hi, hs, hn => by
    rw [search, List.getElem?_eq_getElem hi]
    dsimp only
    by_cases he : (devices[i].inDel = false ∧ 0 < devices[i].nfpgs) ∧ devices[i].Suits w
    · rw [if_pos he]
      refine ⟨rfl, fun j hj => ?_, nofun⟩
      cases hj
      exact ⟨_, List.getElem?_eq_getElem hi, he⟩
    · rw [if_neg he]
      have hbare := reset_bare hi (devices[i].nfpgs = 0)
      generalize (if devices[i].nfpgs = 0 then devices.set i { devices[i] with allocs := 0 }
        else devices) = devices' at hbare ⊢
      have hlen : devices'.length = devices.length := by
        simpa using congrArg List.length hbare
      have hself : ∀ sip, devices[i]? = some sip → ¬ sip.Eligible w := by
        intro sip hsip
        rw [List.getElem?_eq_getElem hi] at hsip
        cases hsip
        exact he
      have hnext : Swaps.next devices' i = if i + 1 = devices.length then 0 else i + 1 := by
        rw [Swaps.next, hlen]
      by_cases hback : Swaps.next devices' i = silast
      · rw [if_pos hback]
        refine ⟨hbare, nofun, fun _ j sip hj hsip => ?_⟩
        have hlt := (List.getElem?_eq_some_iff.1 hsip).1
        obtain rfl : j = i := by
          unfold Ahead at hj
          split_ifs at hj hnext <;> omega
        exact hself sip hsip
      · rw [if_neg hback]
        obtain ⟨h1, h2, h3⟩ := search_spec n (Swaps.next devices' i) devices'
          (next_lt (by omega)) (by omega) (by split_ifs at hn hnext ⊢ <;> omega)
        refine ⟨h1.trans hbare, h2, fun hnone j sip hj hsip => ?_⟩
        have hlt := (List.getElem?_eq_some_iff.1 hsip).1
        by_cases hji : j = i
        · exact hself sip (hji ▸ hsip)
        · obtain ⟨sip', hsip', hb⟩ := exists_of_bare hbare hsip
          rw [← eligible_of_bare hb]
          refine h3 hnone j sip' ?_ hsip'
          unfold Ahead at hj ⊢
          split_ifs at hj hnext ⊢ <;> omega

theorem Taken.ok {p n : ℕ} (h : Taken sip p n sip') (hok : sip.Ok pagesize)
    (hcount : sip'.nfpgs = sip'.swapslots.count false) : sip'.Ok pagesize where
  size := by rw [h.same.2.2.1, h.same.2.1, h.same.2.2.2.1, hok.size]
  words := h.length ▸ hok.words
  padding i hi := by
    rw [h.same.2.2.2.1]
    by_cases hin : p ≤ i ∧ i < p + n
    · rw [h.now i hin.1 hin.2] at hi
      exact absurd (Option.some.inj hi).symm Bool.false_ne_true
    · rw [h.rest i (by omega)] at hi
      exact hok.padding i hi
  count := hcount
  hint := h.hint

/-- A set of slots given to the caller: slots of one device that is not being deleted and that suits
the caller, which follow each other, were free and are now taken, while nothing else is. -/
def Granted (pagesize : ℕ) (s : Swaps) (w : Want) (s' : Swaps) (vp off len : ℕ) : Prop :=
  ∃ (i p n : ℕ) (sip sip' : Swapinfo), s.devices[i]? = some sip ∧ s'.devices[i]? = some sip' ∧
    sip.inDel = false ∧ sip.Suits w ∧ vp = sip.vp ∧ off = p * pagesize + sip.soff ∧
    len = n * pagesize ∧ 1 ≤ n ∧ (n = 1 ∨ (n - 1) * pagesize < w.lenp) ∧
    sip.soff ≤ off ∧ off + len ≤ sip.eoff ∧
    (∀ j, p ≤ j → j < p + n → sip.swapslots[j]? = some false ∧ sip'.swapslots[j]? = some true) ∧
    (∀ j, j < p ∨ p + n ≤ j → sip'.swapslots[j]? = sip.swapslots[j]?) ∧
    ∀ k, k ≠ i → s'.devices[k]?.map Swapinfo.swapslots = s.devices[k]?.map Swapinfo.swapslots

theorem map_key_of_bare (h : devices'.map Swapinfo.bare = devices.map Swapinfo.bare) :
    devices'.map Swapinfo.key = devices.map Swapinfo.key := by
  have hcomp : Swapinfo.key = Swapinfo.key ∘ Swapinfo.bare := rfl
  rw [hcomp, ← List.map_map, ← List.map_map, h]

theorem map_key_set (h : devices[i]? = some sip)
    (hkey : sip'.key = sip.key) : (devices.set i sip').map Swapinfo.key =
      devices.map Swapinfo.key := by
  rw [List.map_set, hkey]
  refine List.ext_getElem? fun j => ?_
  have hlt := (List.getElem?_eq_some_iff.1 h).1
  by_cases hj : i = j
  · subst hj
    rw [List.getElem?_set_self (by simpa using hlt), List.getElem?_map, h]
    rfl
  · rw [List.getElem?_set_ne hj]

theorem Swaps.Ok.of_bare (h : s.Ok pagesize)
    (hb : devices'.map Swapinfo.bare = s.devices.map Swapinfo.bare) :
    ({ s with devices := devices' } : Swaps).Ok pagesize where
  device sip' hsip' := by
    obtain ⟨j, hj⟩ := List.mem_iff_getElem?.1 hsip'
    obtain ⟨sip, hsip, heq⟩ := exists_of_bare hb.symm hj
    have hok := (h.device sip (List.mem_of_getElem? hsip)).bare
    rw [heq] at hok
    exact ⟨hok.size, hok.words, hok.padding, hok.count, hok.hint⟩
  silast i hi := by
    have hlen : devices'.length = s.devices.length := by simpa using congrArg List.length hb
    exact hlen ▸ h.silast i hi
  empty hnone := by
    rw [h.empty hnone] at hb
    simpa using hb
  apart := by
    dsimp only
    rw [map_key_of_bare hb]
    exact h.apart

theorem Swaps.Ok.set (h : s.Ok pagesize) {k : ℕ} (hsip : s.devices[i]? = some sip)
    (hok : sip'.Ok pagesize) (hkey : sip'.key = sip.key) (hk : k < s.devices.length) :
    (⟨s.devices.set i sip', some k⟩ : Swaps).Ok pagesize where
  device d hd := by
    rcases List.mem_or_eq_of_mem_set hd with hd | rfl
    · exact h.device d hd
    · exact hok
  silast j hj := by
    cases hj
    rwa [List.length_set]
  empty := nofun
  apart := by
    dsimp only
    rw [map_key_set hsip hkey]
    exact h.apart

/-- What has been taken from one device is granted. -/
theorem Taken.granted (h : s.Ok pagesize) {sip0 : Swapinfo} {k p n a : ℕ}
    (hbare : devices.map Swapinfo.bare = s.devices.map Swapinfo.bare)
    (hsip0 : s.devices[i]? = some sip0) (hsip : devices[i]? = some sip)
    (heq : sip0.bare = sip.bare) (heli : sip.Eligible w) (htaken : Taken sip p n sip')
    (hn : 1 ≤ n) (hle : n = 1 ∨ (n - 1) * pagesize < w.lenp) :
    Granted pagesize s w ⟨devices.set i { sip' with allocs := a }, some k⟩ sip'.vp
      (p * pagesize + sip.soff) (n * pagesize) := by
  have hok := h.device sip0 (List.mem_of_getElem? hsip0)
  have hilt := (List.getElem?_eq_some_iff.1 hsip).1
  have hslots := congrArg Swapinfo.swapslots heq
  have hsoff := congrArg Swapinfo.soff heq
  change sip0.swapslots = sip.swapslots at hslots
  change sip0.soff = sip.soff at hsoff
  have hlast := hok.padding (p + n - 1)
    (by rw [hslots]; exact htaken.was _ (by omega) (by omega))
  have hend : (p + n) * pagesize ≤ sip0.npgs * pagesize :=
    Nat.mul_le_mul_right pagesize (by omega)
  refine ⟨i, p, n, sip0, { sip' with allocs := a }, hsip0, List.getElem?_set_self hilt,
    (congrArg Swapinfo.inDel heq).trans heli.1.1, ?_, ?_, by rw [hsoff], rfl, hn, hle,
    by rw [hsoff]; exact Nat.le_add_left .., ?_, fun j h1 h2 => ⟨?_, htaken.now j h1 h2⟩,
    fun j hj => ?_, fun j hj => ?_⟩
  · have hsuits := heli.2
    change sip0.bare.Suits w
    rw [heq]
    exact hsuits
  · exact htaken.same.1.trans (congrArg Swapinfo.vp heq).symm
  · rw [hok.size, hsoff]
    rw [add_mul] at hend
    omega
  · rw [hslots]
    exact htaken.was j h1 h2
  · rw [hslots]
    exact htaken.rest j hj
  · dsimp only
    rw [List.getElem?_set_ne hj.symm]
    have hmap := congrArg (fun l => (l[j]?).map Swapinfo.swapslots) hbare
    simp only [List.getElem?_map, Option.map_map] at hmap
    exact hmap

theorem swapPhysAlloc_spec (h : s.Ok pagesize) (hpos : 0 < pagesize)
    (swapMaxcontig maxcontig : ℕ) (w : Want) :
    ∃ s' r, swapPhysAlloc pagesize swapMaxcontig maxcontig s w = .ok (s', r) ∧ s'.Ok pagesize ∧
      (r = none ↔ ∀ sip ∈ s.devices, ¬ sip.Eligible w) ∧
      ∀ vp off len, r = some (vp, off, len) → Granted pagesize s w s' vp off len := by
  unfold swapPhysAlloc
  cases hs : s.silast with
  | none => exact ⟨s, none, rfl, h, by simp [h.empty hs], nofun⟩
  | some silast =>
    have hlt := h.silast silast hs
    obtain ⟨hbare, hfound, hnone⟩ := @search_spec w silast s.devices.length silast s.devices hlt hlt
      (by rw [if_neg (lt_irrefl _)]; omega)
    dsimp only
    generalize search w silast s.devices.length silast s.devices = r at *
    obtain ⟨found, devices⟩ := r
    dsimp only at *
    have hok := h.of_bare hbare
    cases found with
    | none =>
      refine ⟨_, none, rfl, hs ▸ hok, iff_of_true rfl fun sip hsip => ?_, nofun⟩
      obtain ⟨j, hj⟩ := List.mem_iff_getElem?.1 hsip
      have hjlt := (List.getElem?_eq_some_iff.1 hj).1
      exact hnone rfl j sip (by rw [Ahead, if_neg (lt_irrefl _)]; omega) hj
    | some i =>
      obtain ⟨sip, hsip, heli⟩ := hfound i rfl
      have hsipOk := hok.device sip (List.mem_of_getElem? hsip)
      dsimp only
      rw [hsip]
      dsimp only
      obtain ⟨p, hfree, hoff⟩ := @swapGetoff_spec pagesize sip hsipOk.words hsipOk.hint
        (by rw [← hsipOk.count]; exact heli.1.2)
      have hone := Taken.one hfree
      obtain ⟨n, sip', hext, htaken, hcount, hn, hle⟩ := extend_spec maxcontig w.lenp hpos
        hsipOk.words (sip.nfpgs - 1) 1 _ hone (by have := hone.count; have := hsipOk.count; omega)
        le_rfl (.inl rfl)
      rw [hoff]
      dsimp only [bind, Except.bind]
      rw [one_mul] at hext
      rw [show (sip.took p).nfpgs = sip.nfpgs from rfl, hext]
      have hilt := (List.getElem?_eq_some_iff.1 hsip).1
      have hlen : devices.length = s.devices.length := by simpa using congrArg List.length hbare
      obtain ⟨sip0, hsip0, heq⟩ := exists_of_bare hbare.symm hsip
      have hdone : ∀ a k, k < devices.length →
          (⟨devices.set i { sip' with allocs := a }, some k⟩ : Swaps).Ok pagesize ∧
          Granted pagesize s w ⟨devices.set i { sip' with allocs := a }, some k⟩ sip'.vp
            (p * pagesize + sip.soff) (n * pagesize) := by
        intro a k hk
        have hok' := htaken.ok hsipOk hcount
        refine ⟨hok.set hsip ⟨hok'.size, hok'.words, hok'.padding, hok'.count, hok'.hint⟩ ?_ hk,
          htaken.granted h hbare hsip0 hsip heq heli hn hle⟩
        exact Prod.ext htaken.same.1 (Prod.ext htaken.same.2.1 htaken.same.2.2.1)
      have hsome : ∀ g : ℕ × ℕ × ℕ, some g = none ↔ ∀ sip ∈ s.devices, ¬ sip.Eligible w :=
        fun g => iff_of_false nofun fun hall =>
          hall sip0 (List.mem_of_getElem? hsip0) ((eligible_of_bare heq).2 heli)
      dsimp only
      split_ifs
      · obtain ⟨h1, h2⟩ := hdone 0 (Swaps.next devices i) (next_lt hilt)
        refine ⟨_, _, rfl, h1, hsome _, fun vp off len he => ?_⟩
        cases he
        exact h2
      · obtain ⟨h1, h2⟩ := hdone _ silast (hlen ▸ hlt)
        refine ⟨_, _, rfl, h1, hsome _, fun vp off len he => ?_⟩
        cases he
        exact h2

/-! ### Giving slots back -/

/-- Slots of one device that are taken. -/
def Allocated (pagesize : ℕ) (s : Swaps) (vp off len : ℕ) : Prop :=
  ∃ (i p n : ℕ) (sip : Swapinfo), s.devices[i]? = some sip ∧ vp = sip.vp ∧
    off = p * pagesize + sip.soff ∧ len = n * pagesize ∧ 1 ≤ n ∧ p + n ≤ sip.npgs ∧
    ∀ j, p ≤ j → j < p + n → sip.swapslots[j]? = some true

theorem freeLoop_spec : ∀ (n p : ℕ) (sip : Swapinfo), sip.Ok pagesize → p + n ≤ sip.npgs →
    (∀ j, p ≤ j → j < p + n → sip.swapslots[j]? = some true) →
    ∃ sip', freeLoop n p sip = .ok sip' ∧ sip'.Ok pagesize ∧ sip'.key = sip.key
  | 0, p, sip, hok, _, _ => ⟨sip, rfl, hok, rfl⟩
  | n + 1, p, sip, hok, hle, hset => by
    have hp := hset p le_rfl (by omega)
    have hok' : ({ sip with
        swapslots := sip.swapslots.set p false, nfpgs := sip.nfpgs + 1 } : Swapinfo).Ok pagesize := by
      refine ⟨hok.size, ?_, fun j hj => ?_, ?_, ?_⟩
      · simpa using hok.words
      · by_cases hjp : p = j
        · dsimp only
          omega
        · rw [List.getElem?_set_ne hjp] at hj
          exact hok.padding j hj
      · dsimp only
        rw [count_set_false hp, hok.count]
      · simpa using hok.hint
    rw [freeLoop, testBit, hp]
    refine freeLoop_spec n (p + 1) _ hok' (by dsimp only; omega) fun j h1 h2 => ?_
    rw [List.getElem?_set_ne (by omega)]
    exact hset j (by omega) (by omega)

/-- The device is found, since the places of the devices are apart. -/
theorem swapPhysFree_spec (h : s.Ok pagesize) (hpos : 0 < pagesize) {vp off len : ℕ}
    (ha : Allocated pagesize s vp off len) :
    ∃ s', swapPhysFree pagesize s vp off len = .ok s' ∧ s'.Ok pagesize := by
  obtain ⟨i, p, n, sip, hsip, rfl, rfl, rfl, hn, hle, hset⟩ := ha
  have hok := h.device sip (List.mem_of_getElem? hsip)
  obtain ⟨hilt, hget⟩ := List.getElem?_eq_some_iff.1 hsip
  have hend : p * pagesize + sip.soff < sip.eoff := by
    have := Nat.mul_lt_mul_of_pos_right (show p < sip.npgs by omega) hpos
    rw [hok.size]
    omega
  have hidx : s.devices.findIdx? (fun d => d.vp = sip.vp ∧ d.soff ≤ p * pagesize + sip.soff ∧
      p * pagesize + sip.soff < d.eoff) = some i := by
    rw [List.findIdx?_eq_some_iff_getElem]
    refine ⟨hilt, ?_, fun k hk => ?_⟩
    · rw [hget]
      simpa using hend
    · have hap := List.pairwise_iff_getElem.1 h.apart k i (by simp; omega) (by simpa using hilt) hk
      rw [List.getElem_map, List.getElem_map, hget] at hap
      simp only [decide_eq_true_eq]
      rintro ⟨hv, h1, h2⟩
      have := hap hv
      dsimp only [Swapinfo.key] at this
      omega
  obtain ⟨sip', hfree, hok', hkey⟩ := freeLoop_spec n p sip hok hle hset
  unfold swapPhysFree
  rw [hidx]
  dsimp only
  rw [hsip]
  dsimp only
  rw [Nat.add_sub_cancel, Nat.mul_div_cancel _ hpos, Nat.mul_div_cancel _ hpos, hfree]
  cases hs : s.silast with
  | none => exact absurd (h.empty hs) (List.ne_nil_of_mem (List.mem_of_getElem? hsip))
  | some k =>
    exact ⟨_, rfl, h.set hsip hok' hkey (h.silast k hs)⟩

/-! ### Runs -/

/-- A device as `swapadd` sets it up, with the hint anywhere. -/
structure Swapinfo.New (pagesize : ℕ) (sip : Swapinfo) : Prop where
  size : sip.eoff = sip.soff + sip.npgs * pagesize
  slots : sip.swapslots = newSlots sip.npgs
  free : sip.nfpgs = sip.npgs
  hint : sip.hint ≤ sip.swapslots.length

theorem Swapinfo.New.ok (h : sip.New pagesize) : sip.Ok pagesize where
  size := h.size
  words := by
    rw [h.slots, newSlots, List.length_append, List.length_replicate, List.length_replicate]
    omega
  padding i hi := by
    rw [h.slots, newSlots, List.getElem?_append] at hi
    by_contra hge
    rw [List.length_replicate, if_neg hge, List.getElem?_replicate] at hi
    split_ifs at hi
    exact Bool.false_ne_true (Option.some.inj hi).symm
  count := by
    rw [h.slots, h.free, newSlots, List.count_append, List.count_replicate_self,
      List.count_replicate]
    simp
  hint := h.hint

/-- Hints, deletion flags and counts of a device as they may be otherwise. -/
def Swapinfo.Moved (sip sip' : Swapinfo) : Prop :=
  ∃ hint inDel allocs, hint ≤ sip.swapslots.length ∧
    sip' = { sip with hint := hint, inDel := inDel, allocs := allocs }

/-- The devices and `silast` in every state that can be reached. -/
inductive Reach (pagesize swapMaxcontig maxcontig : ℕ) : Swaps → Prop
  | init {s : Swaps} : (∀ sip ∈ s.devices, sip.New pagesize) →
      (∀ i, s.silast = some i → i < s.devices.length) → (s.silast = none → s.devices = []) →
      (s.devices.map Swapinfo.key).Pairwise Apart → Reach pagesize swapMaxcontig maxcontig s
  | move {s s' : Swaps} : Reach pagesize swapMaxcontig maxcontig s →
      List.Forall₂ Swapinfo.Moved s.devices s'.devices →
      (∀ i, s'.silast = some i → i < s'.devices.length) →
      (s'.silast = none → s'.devices = []) → Reach pagesize swapMaxcontig maxcontig s'
  | alloc {s s' : Swaps} {w : Want} {r : Option (ℕ × ℕ × ℕ)} :
      Reach pagesize swapMaxcontig maxcontig s →
      swapPhysAlloc pagesize swapMaxcontig maxcontig s w = .ok (s', r) →
      Reach pagesize swapMaxcontig maxcontig s'
  | free {s s' : Swaps} {vp off len : ℕ} : Reach pagesize swapMaxcontig maxcontig s →
      Allocated pagesize s vp off len → swapPhysFree pagesize s vp off len = .ok s' →
      Reach pagesize swapMaxcontig maxcontig s'

theorem moved_ok (h : List.Forall₂ Swapinfo.Moved devices devices')
    (hok : ∀ sip ∈ devices, sip.Ok pagesize) :
    (∀ sip ∈ devices', sip.Ok pagesize) ∧ devices'.map Swapinfo.key = devices.map Swapinfo.key := by
  induction h with
  | nil => exact ⟨by simp, rfl⟩
  | @cons a b l l' hab _ ih =>
    obtain ⟨ha, hl⟩ := List.forall_mem_cons.1 hok
    obtain ⟨h1, h2⟩ := ih hl
    obtain ⟨hint, inDel, allocs, hle, rfl⟩ := hab
    exact ⟨List.forall_mem_cons.2 ⟨⟨ha.size, ha.words, ha.padding, ha.count, hle⟩, h1⟩,
      by rw [List.map_cons, h2]; rfl⟩

theorem Reach.ok {swapMaxcontig maxcontig : ℕ} (hpos : 0 < pagesize)
    (h : Reach pagesize swapMaxcontig maxcontig s) : s.Ok pagesize := by
  induction h with
  | init hnew hsilast hempty hapart =>
    exact ⟨fun sip hsip => (hnew sip hsip).ok, hsilast, hempty, hapart⟩
  | move _ hmoved hsilast hempty ih =>
    obtain ⟨h1, h2⟩ := moved_ok hmoved ih.device
    exact ⟨h1, hsilast, hempty, h2 ▸ ih.apart⟩
  | alloc _ hrun ih =>
    obtain ⟨s', r, heq, hok, -⟩ := swapPhysAlloc_spec ih hpos swapMaxcontig maxcontig _
    rw [hrun] at heq
    cases heq
    exact hok
  | free _ hall hrun ih =>
    obtain ⟨s', heq, hok⟩ := swapPhysFree_spec ih hpos hall
    rw [hrun] at heq
    cases heq
    exact hok

/-- In every state reached, the number of free pages of a device is that of the clear bits of its
map. An allocation makes no access outside of a map; it fails exactly if no device that suits the
caller and is not being deleted has a free page; and what it grants was free, lies in a device and
is at least one page and no more than asked for. Slots that are taken can be given back. -/
theorem swapPhysAlloc_sound_complete {swapMaxcontig maxcontig : ℕ} (hpos : 0 < pagesize)
    (h : Reach pagesize swapMaxcontig maxcontig s) :
    (∀ sip ∈ s.devices, sip.nfpgs = sip.swapslots.count false) ∧
    (∀ w, ∃ s' r, swapPhysAlloc pagesize swapMaxcontig maxcontig s w = .ok (s', r) ∧
      (r = none ↔ ∀ sip ∈ s.devices, ¬ (sip.inDel = false ∧ sip.Suits w ∧ false ∈ sip.swapslots)) ∧
      ∀ vp off len, r = some (vp, off, len) → Granted pagesize s w s' vp off len) ∧
    ∀ vp off len, Allocated pagesize s vp off len →
      ∃ s', swapPhysFree pagesize s vp off len = .ok s' := by
  have hok := h.ok hpos
  refine ⟨fun sip hsip => (hok.device sip hsip).count, fun w => ?_, fun vp off len ha => ?_⟩
  · obtain ⟨s', r, hrun, -, hnone, hsome⟩ := swapPhysAlloc_spec hok hpos swapMaxcontig maxcontig w
    refine ⟨s', r, hrun, hnone.trans ?_, hsome⟩
    refine forall₂_congr fun sip hsip => not_congr ?_
    rw [Swapinfo.Eligible, (hok.device sip hsip).count, List.count_pos_iff]
    tauto
  · obtain ⟨s', hrun, -⟩ := swapPhysFree_spec hok hpos ha
    exact ⟨s', hrun⟩

end

/-- A device of two pages. -/
def twoPages : Swaps := ⟨[⟨7, 4096, 12288, 2, 2, 0, false, 0, newSlots 2⟩], some 0⟩

theorem twoPages_reach : Reach 4096 16 0 twoPages :=
  .init (by
      intro sip hsip
      obtain rfl := List.mem_singleton.1 hsip
      exact ⟨rfl, rfl, rfl, Nat.zero_le _⟩)
    (by
      intro i hi
      cases hi
      decide)
    nofun (List.pairwise_singleton ..)

/-- A request of three pages gets the two that there are. -/
theorem swapPhysAlloc_sound_complete_twoPages :
    ∃ s', swapPhysAlloc 4096 16 0 twoPages ⟨false, 0, 0, 12288⟩ = .ok (s', some (7, 4096, 8192)) ∧
      Granted 4096 twoPages ⟨false, 0, 0, 12288⟩ s' 7 4096 8192 := by
  obtain ⟨s', r, hrun, -, hgrant⟩ := (swapPhysAlloc_sound_complete (by decide) twoPages_reach).2.1
    ⟨false, 0, 0, 12288⟩
  have hr : r = some (7, 4096, 8192) := by
    have h := congrArg (Except.map Prod.snd) hrun
    exact (Except.ok.inj h).symm
  exact ⟨s', hr ▸ hrun, hgrant 7 4096 8192 hr⟩

end Sol26.Swap
