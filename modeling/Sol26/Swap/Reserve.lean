import Mathlib.Tactic

/-!
# Reservation of swap space

Model of `anon_resvmem`, `anon_unresv`, `anon_swap_adjust` and `anon_swap_restore` from
`uts/common/vm/vm_anon.c` and of what `swapadd` in `vm_swap.c` does to the counters. Each runs with
`anoninfo_lock` held. The counters are integers, so that one which would wrap below zero shows as
negative. `ani_free` is left out: `swapadd` takes from it the memory that it returns, and `clock` and
`swapctl` read it to report it, but no other counter depends on it.
-/
namespace Sol26.Swap

/-- `k_anoninfo`, with the memory of the machine and the thresholds of swapfs. -/
structure Anoninfo where
  aniMax : ℤ
  aniPhysResv : ℤ
  aniMemResv : ℤ
  aniLockedSwap : ℤ
  availrmem : ℤ
  swapfsMinfree : ℤ
  swapfsDesfree : ℤ
  deriving DecidableEq

/-- `btopr`, for pages of `2 ^ shift` bytes. -/
def btopr (shift : ℕ) (x : BitVec 32) : ℤ :=
  ((x + BitVec.ofNat 32 (2 ^ shift - 1)) >>> shift).toNat

namespace Anoninfo

/-- `anon_resvmem` -/
def anonResvmem (k : Anoninfo) (npages : ℤ) (takemem : Bool) : Anoninfo × Bool :=
  let pswapPages := k.aniMax - k.aniPhysResv
  if npages ≤ pswapPages then
    (if takemem then { k with aniPhysResv := k.aniPhysResv + npages } else k, true)
  else
    -- use up the remainder of the disk swap
    let k := if 0 < pswapPages ∧ takemem then
        { k with aniPhysResv := k.aniPhysResv + pswapPages }
      else k
    let mswapPages := npages - pswapPages
    if k.availrmem < k.swapfsMinfree + mswapPages then
      (if takemem then { k with aniPhysResv := k.aniPhysResv - pswapPages } else k, false)
    else if takemem then
      ({ k with
        availrmem := k.availrmem - mswapPages
        aniMemResv := k.aniMemResv + mswapPages }, true)
    else (k, true)

/-- `anon_unresv` -/
def anonUnresv (k : Anoninfo) (npages : ℤ) : Anoninfo :=
  let memFreePages :=
    if k.aniLockedSwap < k.aniMemResv then min (k.aniMemResv - k.aniLockedSwap) npages else 0
  { k with
    availrmem := k.availrmem + memFreePages
    aniMemResv := k.aniMemResv - memFreePages
    aniPhysResv := k.aniPhysResv - (npages - memFreePages) }

/-- `anon_swap_adjust`; the result is `false` for `ENOMEM`. -/
def anonSwapAdjust (k : Anoninfo) (npages : ℤ) : Anoninfo × Bool :=
  let unlockedMemSwap := k.aniMemResv - k.aniLockedSwap
  if unlockedMemSwap < npages then
    let adjustedSwap := npages - unlockedMemSwap
    if k.availrmem < adjustedSwap + k.swapfsMinfree then (k, false)
    else
      ({ k with
        availrmem := k.availrmem - adjustedSwap
        aniMemResv := k.aniMemResv + adjustedSwap
        aniPhysResv := k.aniPhysResv - adjustedSwap
        aniLockedSwap := k.aniLockedSwap + npages }, true)
  else ({ k with aniLockedSwap := k.aniLockedSwap + npages }, true)

/-- `anon_swap_restore` -/
def anonSwapRestore (k : Anoninfo) (npages : ℤ) : Anoninfo :=
  { k with aniLockedSwap := k.aniLockedSwap - npages }

/-- What `swapadd` does for a device of the given number of pages. -/
def swapadd (k : Anoninfo) (pages : ℤ) : Anoninfo :=
  let k := { k with aniMax := k.aniMax + pages }
  let returnedMem :=
    if k.aniLockedSwap < k.aniMemResv then
      min (k.aniMemResv - k.aniLockedSwap) (k.aniMax - k.aniPhysResv)
    else 0
  let k := { k with
    aniMemResv := k.aniMemResv - returnedMem
    aniPhysResv := k.aniPhysResv + returnedMem
    availrmem := k.availrmem + returnedMem }
  if k.swapfsMinfree < k.swapfsDesfree ∧
      (k.swapfsDesfree < k.availrmem ∨ k.aniMemResv = 0) then
    { k with swapfsMinfree := k.swapfsDesfree }
  else k

end Anoninfo

/-- A step, with the number of pages that are reserved. A reservation is given back, or locked, only
as far as `mayUnresv` allows or it is reserved and not locked. -/
inductive Step (shift : ℕ) (mayUnresv : Anoninfo → ℤ → ℤ → Prop) :
    Anoninfo × ℤ → Anoninfo × ℤ → Prop
  | resvmem (k : Anoninfo) (r : ℤ) (size : BitVec 32) (takemem : Bool) :
      Step shift mayUnresv (k, r) ((k.anonResvmem (btopr shift size) takemem).1,
        if takemem ∧ (k.anonResvmem (btopr shift size) takemem).2 then r + btopr shift size else r)
  | unresv (k : Anoninfo) (r : ℤ) (size : BitVec 32) : mayUnresv k r (btopr shift size) →
      Step shift mayUnresv (k, r) (k.anonUnresv (btopr shift size), r - btopr shift size)
  | adjust (k : Anoninfo) (r npages : ℤ) : 0 ≤ npages → npages ≤ r - k.aniLockedSwap →
      Step shift mayUnresv (k, r) ((k.anonSwapAdjust npages).1, r)
  | restore (k : Anoninfo) (r npages : ℤ) : 0 ≤ npages → npages ≤ k.aniLockedSwap →
      Step shift mayUnresv (k, r) (k.anonSwapRestore npages, r)
  | swapadd (k : Anoninfo) (r pages : ℤ) : 0 ≤ pages →
      Step shift mayUnresv (k, r) (k.swapadd pages, r)

/-- Before the first reservation. -/
structure Anoninfo.Initial (k : Anoninfo) : Prop where
  max : 0 ≤ k.aniMax
  phys : k.aniPhysResv = 0
  mem : k.aniMemResv = 0
  locked : k.aniLockedSwap = 0
  avail : 0 ≤ k.availrmem
  minfree : 0 ≤ k.swapfsMinfree

/-- The counters after steps from `k0`, with `r` pages reserved. -/
structure Balanced (k0 k : Anoninfo) (r : ℤ) : Prop where
  phys : 0 ≤ k.aniPhysResv ∧ k.aniPhysResv ≤ k.aniMax
  locked : 0 ≤ k.aniLockedSwap ∧ k.aniLockedSwap ≤ k.aniMemResv
  reserved : k.aniPhysResv + k.aniMemResv = r
  memory : k.availrmem + k.aniMemResv = k0.availrmem + k0.aniMemResv
  avail : 0 ≤ k.availrmem
  minfree : 0 ≤ k.swapfsMinfree

theorem btopr_nonneg (shift : ℕ) (x : BitVec 32) : 0 ≤ btopr shift x := Int.natCast_nonneg _

section

variable {k k0 k' : Anoninfo} {r n : ℤ} {takemem : Bool} {shift : ℕ}

/-- What remains of the disk swap is used up first, and given back if there is not enough memory
for the rest. -/
theorem anonResvmem_eq (hp : k.aniPhysResv ≤ k.aniMax) :
    k.anonResvmem n takemem =
      if n ≤ k.aniMax - k.aniPhysResv then
        (if takemem then { k with aniPhysResv := k.aniPhysResv + n } else k, true)
      else if k.availrmem < k.swapfsMinfree + (n - (k.aniMax - k.aniPhysResv)) then (k, false)
      else (if takemem then { k with
          aniPhysResv := k.aniMax
          availrmem := k.availrmem - (n - (k.aniMax - k.aniPhysResv))
          aniMemResv := k.aniMemResv + (n - (k.aniMax - k.aniPhysResv)) } else k, true) := by
  have hmax : k.aniPhysResv + (k.aniMax - k.aniPhysResv) = k.aniMax := by ring
  have hback : k.aniMax - (k.aniMax - k.aniPhysResv) = k.aniPhysResv := by ring
  unfold Anoninfo.anonResvmem
  dsimp only
  by_cases h1 : n ≤ k.aniMax - k.aniPhysResv
  · rw [if_pos h1, if_pos h1]
  · rw [if_neg h1, if_neg h1]
    cases takemem with
    | false => simp
    | true =>
      by_cases h2 : 0 < k.aniMax - k.aniPhysResv
      · simp only [h2, and_self, if_true, hmax, hback]
      · -- there is no disk swap left
        obtain ⟨m, p, _, _, _, _, _⟩ := k
        dsimp only at *
        obtain rfl : m = p := by omega
        simp

/-- A reservation that fails, or is only tried, changes nothing. -/
theorem anonResvmem_unchanged (hp : k.aniPhysResv ≤ k.aniMax)
    (h : (k.anonResvmem n takemem).2 = false ∨ takemem = false) :
    (k.anonResvmem n takemem).1 = k := by
  rw [anonResvmem_eq hp] at h ⊢
  cases takemem with
  | false =>
    simp only [Bool.false_eq_true, if_false]
    split_ifs <;> rfl
  | true =>
    by_cases h1 : n ≤ k.aniMax - k.aniPhysResv
    · rw [if_pos h1] at h
      simp at h
    · rw [if_neg h1] at h ⊢
      by_cases h2 : k.availrmem < k.swapfsMinfree + (n - (k.aniMax - k.aniPhysResv))
      · rw [if_pos h2]
      · rw [if_neg h2] at h
        simp at h

theorem Balanced.resvmem (h : Balanced k0 k r) (hn : 0 ≤ n)
    (hok : (k.anonResvmem n true).2 = true) :
    Balanced k0 (k.anonResvmem n true).1 (r + n) := by
  obtain ⟨⟨hp0, hp⟩, ⟨hl0, hl⟩, hr, hm, ha, hf⟩ := h
  rw [anonResvmem_eq hp] at hok ⊢
  by_cases h1 : n ≤ k.aniMax - k.aniPhysResv
  · rw [if_pos h1, if_pos rfl]
    constructor <;> dsimp only <;> omega
  · rw [if_neg h1] at hok ⊢
    by_cases h2 : k.availrmem < k.swapfsMinfree + (n - (k.aniMax - k.aniPhysResv))
    · rw [if_pos h2] at hok
      exact absurd hok Bool.false_ne_true
    · rw [if_neg h2, if_pos rfl]
      constructor <;> dsimp only <;> omega

theorem Balanced.unresv (h : Balanced k0 k r) (hn : 0 ≤ n) (hle : n ≤ r - k.aniLockedSwap) :
    Balanced k0 (k.anonUnresv n) (r - n) := by
  obtain ⟨⟨hp0, hp⟩, ⟨hl0, hl⟩, hr, hm, ha, hf⟩ := h
  unfold Anoninfo.anonUnresv
  split_ifs <;> constructor <;> dsimp only <;> omega

theorem Balanced.adjust (h : Balanced k0 k r) (hn : 0 ≤ n) (hle : n ≤ r - k.aniLockedSwap) :
    Balanced k0 (k.anonSwapAdjust n).1 r := by
  have hkept := h
  obtain ⟨⟨hp0, hp⟩, ⟨hl0, hl⟩, hr, hm, ha, hf⟩ := h
  unfold Anoninfo.anonSwapAdjust
  dsimp only
  split_ifs
  · exact hkept
  all_goals constructor <;> dsimp only <;> omega

theorem Balanced.restore (h : Balanced k0 k r) (hn : 0 ≤ n) (hle : n ≤ k.aniLockedSwap) :
    Balanced k0 (k.anonSwapRestore n) r := by
  obtain ⟨⟨hp0, hp⟩, ⟨hl0, hl⟩, hr, hm, ha, hf⟩ := h
  unfold Anoninfo.anonSwapRestore
  constructor <;> dsimp only <;> omega

theorem Balanced.swapadd (h : Balanced k0 k r) (hn : 0 ≤ n) : Balanced k0 (k.swapadd n) r := by
  obtain ⟨⟨hp0, hp⟩, ⟨hl0, hl⟩, hr, hm, ha, hf⟩ := h
  unfold Anoninfo.swapadd
  dsimp only
  split_ifs
  all_goals constructor <;> dsimp only <;> omega

/-- A reservation is given back only as far as it is not locked. -/
def Unlocked (k : Anoninfo) (r npages : ℤ) : Prop := npages ≤ r - k.aniLockedSwap

theorem Balanced.step (h : Balanced k0 k r) {r' : ℤ} (hstep : Step shift Unlocked (k, r) (k', r')) :
    Balanced k0 k' r' := by
  cases hstep with
  | resvmem _ _ size takemem =>
    by_cases hok : takemem = true ∧ (k.anonResvmem (btopr shift size) takemem).2 = true
    · rw [if_pos hok]
      obtain ⟨rfl, hok⟩ := hok
      exact h.resvmem (btopr_nonneg shift size) hok
    · rw [if_neg hok, anonResvmem_unchanged h.phys.2 (by simpa [or_comm, imp_iff_not_or] using hok)]
      exact h
  | unresv _ _ size hle => exact h.unresv (btopr_nonneg shift size) hle
  | adjust _ _ npages hn hle => exact h.adjust hn hle
  | restore _ _ npages hn hle => exact h.restore hn hle
  | swapadd _ _ pages hn => exact h.swapadd hn

end

end Sol26.Swap
