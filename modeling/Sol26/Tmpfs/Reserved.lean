import Mathlib.Algebra.Order.BigOperators.Group.List
import Mathlib.Tactic.Ring
import Sol26.Tmpfs.Anon

/-!
# The reservation of tmpfs is exact

The pages that are reserved are those that cover the sizes of the files, the blocks of a file are
its slots that are in use, and no index falls outside of the anon array.
-/
namespace Sol26.Tmpfs.Anon

open Option (bind_eq_bind bind_some some_inj)
open Nat (add_comm le le_zero mod_eq_of_lt mod_lt zero_le)
open List (append_assoc length_append length_replicate length_take replicate set_cons_zero sum_cons)

variable {pg : Paging}

/-! ### Pages -/

theorem Paging.size_pos (pg : Paging) : 0 < pg.size := Nat.two_pow_pos _

theorem Paging.size_le (pg : Paging) : pg.size ≤ 2 ^ 26 :=
  Nat.pow_le_pow_right (by decide) pg.le

variable {app : List Bool} {a i n newsize stop x y : ℕ}

/-- The pages below which `x` bytes end. -/
theorem btopr_le_iff : pg.btopr x ≤ n ↔ x ≤ n * pg.size := by
  have hpos := pg.size_pos
  rw [Paging.btopr, ← Nat.lt_succ_iff, Nat.div_lt_iff_lt_mul hpos, Nat.succ_mul]
  omega

theorem lt_btopr_iff : n < pg.btopr x ↔ n * pg.size < x := by
  rw [← not_le, btopr_le_iff, not_le]

theorem btopr_mono (h : x ≤ y) : pg.btopr x ≤ pg.btopr y :=
  btopr_le_iff.mpr (h.trans (btopr_le_iff.mp (le_refl _)))

theorem btopr_mul (n : ℕ) : pg.btopr (n * pg.size) = n := by
  have hpos := pg.size_pos
  rw [Paging.btopr, add_comm, Nat.add_mul_div_right _ _ hpos, Nat.div_eq_of_lt (by omega),
    Nat.zero_add]

theorem roundup_eq (x : ℕ) : roundup x pg.size = pg.btopr x * pg.size := rfl

theorem btop_lt_btopr (h : x < y) : pg.btop x < pg.btopr y :=
  lt_btopr_iff.mpr (lt_of_le_of_lt (Nat.div_mul_le_self x pg.size) h)

/-- What lies beyond the pages of `x`, in pages. -/
theorem btopr_sub_roundup (x y : ℕ) : pg.btopr (y - roundup x pg.size) = pg.btopr y - pg.btopr x := by
  apply le_antisymm
  · rw [btopr_le_iff, Nat.sub_mul, roundup_eq]
    exact Nat.sub_le_sub_right (btopr_le_iff.mp (le_refl _)) _
  · rw [Nat.sub_le_iff_le_add, btopr_le_iff, Nat.add_mul]
    have h := btopr_le_iff.mp (le_refl (pg.btopr (y - roundup x pg.size)))
    rw [roundup_eq] at h ⊢
    omega

theorem btopr_roundup_sub (x y : ℕ) :
    pg.btopr (roundup y pg.size - roundup x pg.size) = pg.btopr y - pg.btopr x := by
  rw [btopr_sub_roundup, roundup_eq, btopr_mul]

theorem btopr_mul_size_le (x : ℕ) : pg.btopr x * pg.size ≤ x + (pg.size - 1) :=
  Nat.div_mul_le_self _ _

theorem btopr_le_of_le_maxOff (h : x ≤ maxOff) : pg.btopr x < 2 ^ 31 := by
  have hle : pg.btopr x ≤ x := btopr_le_iff.mpr (Nat.le_mul_of_pos_right x pg.size_pos)
  have hmax : maxOff < 2 ^ 31 := by decide
  omega

/-! ### The array -/

theorem copySlots_eq {oldapp newapp : List Bool} (hold : n ≤ oldapp.length)
    (hnew : n ≤ newapp.length) :
    copySlots oldapp n newapp = some (oldapp.take n ++ newapp.drop n) := by
  induction n with
  | zero => rfl
  | succ n ih =>
    have hlen : n < (oldapp.take n ++ newapp.drop n).length := by
      rw [length_append, length_take, List.length_drop]
      omega
    rw [copySlots, ih (by omega) (by omega), bind_eq_bind, bind_some,
      List.getElem?_eq_getElem (by omega), bind_eq_bind, bind_some, if_pos hlen]
    congr 1
    rw [List.set_append_right _ _ (by rw [length_take]; omega), length_take,
      min_eq_left (by omega), Nat.sub_self, List.drop_eq_getElem_cons (by omega), set_cons_zero,
      List.take_succ_eq_append_getElem (by omega), append_assoc, List.singleton_append]

theorem anonPages_eq (h : i + n ≤ app.length) :
    anonPages app i n = some (((app.drop i).take n).count true) := by
  induction n generalizing i with
  | zero => rfl
  | succ n ih =>
    rw [anonPages, List.getElem?_eq_getElem (by omega), bind_eq_bind, bind_some,
      ih (by omega), bind_eq_bind, bind_some,
      List.drop_eq_getElem_cons (show i < app.length by omega), List.take_succ_cons,
      List.count_cons]
    simp

theorem anonFree_eq (h : i + n ≤ app.length) :
    anonFree i n app = some (app.take i ++ replicate n false ++ app.drop (i + n)) := by
  induction n generalizing i app with
  | zero => simp [anonFree]
  | succ n ih =>
    have hlen : (app.take i).length = i := by
      rw [length_take]
      omega
    rw [anonFree, if_pos (by omega), ih (by rw [List.length_set]; omega)]
    congr 1
    rw [List.take_set, List.drop_set_of_lt (by omega), List.take_succ_eq_append_getElem (by omega),
      List.set_append_right _ _ (by omega), hlen, Nat.sub_self, set_cons_zero,
      List.replicate_succ, append_assoc, append_assoc, append_assoc,
      show i + 1 + n = i + (n + 1) by omega]
    rfl

/-! ### One file -/

/-- A file whose array covers it, with its blocks counted and none beyond its end. -/
structure Tmpnode.Good (pg : Paging) (tp : Tmpnode) : Prop where
  size_le : tp.size ≤ maxOff
  asize_le : tp.asize ≤ maxOff
  length : tp.anon.length = pg.btopr tp.asize
  covers : pg.btopr tp.size ≤ pg.btopr tp.asize
  nblocks : tp.nblocks = tp.anon.count true
  below : ∀ i : ℕ, tp.anon[i]? = some true → i < pg.btopr tp.size

/-- What has been done to a file and to the reservation. -/
structure Changes (pg : Paging) (tm : Tmount) (tp : Tmpnode) (tm' : Tmount) (tp' : Tmpnode) :
    Prop where
  good : tp'.Good pg
  pages : tm'.anonmem + pg.btopr tp.size = tm.anonmem + pg.btopr tp'.size
  max : tm'.anonmax = tm.anonmax
  le : tm'.anonmem ≤ tm'.anonmax

variable {tm tm' tm'' : Tmount} {tp tp' tp'' : Tmpnode}

theorem Changes.refl (h : tp.Good pg) (hle : tm.anonmem ≤ tm.anonmax) : Changes pg tm tp tm tp :=
  ⟨h, rfl, rfl, hle⟩

theorem Changes.trans (h : Changes pg tm tp tm' tp') (h' : Changes pg tm' tp' tm'' tp'') :
    Changes pg tm tp tm'' tp'' where
  good := h'.good
  pages := by
    have := h.pages
    have := h'.pages
    omega
  max := h'.max.trans h.max
  le := h'.le

/-- What a reservation that is granted adds. -/
theorem tmpResv_eq_some {room pagecreate : Bool} {delta : ℕ} (hle : tm.anonmem ≤ tm.anonmax)
    (hdelta : pg.btopr delta < 2 ^ 31) (h : tmpResv pg tm room delta pagecreate = some tm') :
    tm'.anonmax = tm.anonmax ∧ tm'.anonmem ≤ tm'.anonmax ∧
      tm'.anonmem = tm.anonmem + if pagecreate then pg.btopr delta else 0 := by
  have hmax := tm.le
  unfold tmpResv at h
  dsimp only at h
  rw [mod_eq_of_lt (by omega)] at h
  cases pagecreate with
  | false =>
    obtain rfl : tm = tm' := by simpa using h
    exact ⟨rfl, hle, by simp⟩
  | true =>
    by_cases hdeny : tm.anonmax < tm.anonmem + pg.btopr delta ∨ room = false
    · rw [if_pos ⟨rfl, hdeny⟩] at h
      exact absurd h (by simp)
    · rw [if_neg (fun hc => hdeny hc.2), if_pos rfl] at h
      cases h
      exact ⟨rfl, by simp only; omega, by simp⟩

theorem newAsize_spec {offset : ℕ} (h : offset ≤ maxOff) :
    offset ≤ newAsize pg offset ∧ newAsize pg offset ≤ maxOff := by
  have hpos := pg.size_pos
  have hle := pg.size_le
  have hmax : maxOff = 2 ^ 31 - 1 := rfl
  have ha : tmapAlloc pg = 32 * pg.size := rfl
  unfold newAsize
  dsimp only
  rw [mod_eq_of_lt (by omega)]
  have hdiv := Nat.div_add_mod (offset + tmapAlloc pg) (tmapAlloc pg)
  have hmod := mod_lt (offset + tmapAlloc pg) (show tmapAlloc pg > 0 by omega)
  rw [Nat.mul_comm] at hdiv
  by_cases hneg : 2 ^ 31 ≤ (offset + tmapAlloc pg) / tmapAlloc pg * tmapAlloc pg
  · rw [if_pos hneg]
    exact ⟨h, le_refl _⟩
  · rw [if_neg hneg]
    omega

/-- The array has slots up to `offset` afterwards, and the new ones are empty. -/
theorem growmap_spec (h : tp.Good pg) {offset : ℕ} (hoff : offset ≤ maxOff) :
    ∃ k asize, growmap pg tp offset =
        some { tp with asize := asize, anon := tp.anon ++ replicate k false } ∧
      asize ≤ maxOff ∧ tp.anon.length + k = pg.btopr asize ∧ pg.btopr offset ≤ pg.btopr asize := by
  have hlen := h.length
  unfold growmap
  by_cases hroom : offset < tp.asize
  · rw [if_pos hroom]
    refine ⟨0, tp.asize, ?_, h.asize_le, h.length, btopr_mono hroom.le⟩
    rw [List.replicate_zero, List.append_nil]
  · rw [if_neg hroom]
    obtain ⟨hge, hle⟩ := @newAsize_spec pg offset hoff
    have hmono : pg.btopr tp.asize ≤ pg.btopr (newAsize pg offset) := btopr_mono (by omega)
    refine ⟨pg.btopr (newAsize pg offset) - pg.btopr tp.asize, newAsize pg offset, ?_, hle,
      by omega, btopr_mono hge⟩
    have hcopy := @copySlots_eq (pg.btopr tp.asize) tp.anon
      (replicate (pg.btopr (newAsize pg offset)) false) (by omega)
      (by rw [length_replicate]; exact hmono)
    dsimp only
    rw [hcopy, List.drop_replicate, ← hlen, List.take_length]
    rfl

/-- An array with empty slots added to it. -/
theorem getElem?_append_replicate {k : ℕ}
    (h : (app ++ replicate k false)[i]? = some true) : app[i]? = some true := by
  rw [List.getElem?_append] at h
  by_cases hi : i < app.length
  · rwa [if_pos hi] at h
  · rw [if_neg hi, List.getElem?_replicate] at h
    split_ifs at h
    exact absurd h (by decide)

theorem count_append_replicate (app : List Bool) (k : ℕ) :
    (app ++ replicate k false).count true = app.count true := by
  rw [List.count_append, List.count_replicate]
  simp

/-- A file that has been given an array for the size `stop`, and may then get it. -/
theorem Tmpnode.Good.grow (h : tp.Good pg) {k asize : ℕ} (hstop : stop ≤ maxOff)
    (hasize : asize ≤ maxOff) (hlen : tp.anon.length + k = pg.btopr asize)
    (hcovers : pg.btopr stop ≤ pg.btopr asize) (hgrow : tp.size ≤ stop) :
    Good pg { tp with size := stop, asize := asize, anon := tp.anon ++ replicate k false } where
  size_le := hstop
  asize_le := hasize
  length := by
    rw [length_append, length_replicate]
    exact hlen
  covers := hcovers
  nblocks := by
    rw [count_append_replicate]
    exact h.nblocks
  below := fun i hi => (h.below i (getElem?_append_replicate hi)).trans_le (btopr_mono hgrow)

theorem wordSub_eq {w b : ℕ} (hb : b ≤ a) (ha : a < 2 ^ w) : wordSub w a b = a - b := by
  rw [wordSub, show a + 2 ^ w - b = a - b + 2 ^ w by omega, Nat.add_mod_right,
    mod_eq_of_lt (by omega)]

theorem tmpUnresv_anonmax (delta : ℕ) : (tmpUnresv pg tm delta).anonmax = tm.anonmax := by
  unfold tmpUnresv
  rfl

theorem tmpUnresv_anonmem (hres : pg.btopr x ≤ tm.anonmem) (hle : tm.anonmem ≤ tm.anonmax) :
    (tmpUnresv pg tm (roundup x pg.size - roundup y pg.size)).anonmem =
      tm.anonmem - (pg.btopr x - pg.btopr y) := by
  have hmax := tm.le
  rw [← btopr_roundup_sub]
  have hsub : pg.btopr (roundup x pg.size - roundup y pg.size) ≤ tm.anonmem := by
    rw [btopr_roundup_sub]
    omega
  exact wordSub_eq hsub (by omega)

/-- The slots from `i` on are freed. -/
theorem count_freed (app : List Bool) (i n : ℕ) :
    (app.take i ++ replicate n false ++ app.drop (i + n)).count true +
      ((app.drop i).take n).count true = app.count true := by
  have happ : app.count true =
      (app.take i ++ ((app.drop i).take n ++ app.drop (i + n))).count true := by
    rw [← List.drop_drop, List.take_append_drop, List.take_append_drop]
  rw [happ]
  simp only [List.count_append, List.count_replicate]
  simp
  omega

theorem getElem?_freed {j : ℕ} (hi : i ≤ app.length)
    (h : (app.take i ++ replicate n false ++ app.drop (i + n))[j]? = some true) :
    app[j]? = some true ∧ (j < i ∨ i + n ≤ j) := by
  have hlen : (app.take i).length = i := by
    rw [length_take]
    omega
  rw [append_assoc, List.getElem?_append, hlen] at h
  by_cases hj : j < i
  · rw [if_pos hj, List.getElem?_take_of_lt hj] at h
    exact ⟨h, .inl hj⟩
  · rw [if_neg hj, List.getElem?_append, length_replicate] at h
    by_cases hj' : j - i < n
    · rw [if_pos hj', List.getElem?_replicate, if_pos hj'] at h
      exact absurd h (by decide)
    · rw [if_neg hj', List.getElem?_drop, show i + n + (j - i - n) = j by omega] at h
      exact ⟨h, .inr (by omega)⟩

theorem Tmpnode.Good.nblocks_lt (h : tp.Good pg) : tp.nblocks < 2 ^ 31 := by
  rw [h.nblocks]
  refine List.count_le_length.trans_lt ?_
  rw [h.length]
  exact btopr_le_of_le_maxOff h.asize_le

/-- The file after the pages beyond the new size are freed. -/
theorem Tmpnode.Good.freed (h : tp.Good pg) (hnew : newsize < tp.size) :
    Good pg
      { tp with
        size := newsize
        nblocks := wordSub 64 tp.nblocks (((tp.anon.drop (pg.btopr newsize)).take
          (pg.btopr tp.size - pg.btopr newsize)).count true)
        anon := tp.anon.take (pg.btopr newsize) ++
          replicate (pg.btopr tp.size - pg.btopr newsize) false ++
          tp.anon.drop (pg.btopr newsize + (pg.btopr tp.size - pg.btopr newsize)) } where
  size_le := hnew.le.trans h.size_le
  asize_le := h.asize_le
  length := by
    have hmono : pg.btopr newsize ≤ pg.btopr tp.size := btopr_mono hnew.le
    have hcovers := h.covers
    rw [← h.length] at hcovers ⊢
    simp only [length_append, length_take, length_replicate, List.length_drop]
    omega
  covers := (btopr_mono hnew.le).trans h.covers
  nblocks := by
    have hcount := count_freed tp.anon (pg.btopr newsize) (pg.btopr tp.size - pg.btopr newsize)
    rw [← h.nblocks] at hcount
    have hwords : (2 : ℕ) ^ 31 ≤ 2 ^ 64 := Nat.pow_le_pow_right (by decide) (by decide)
    rw [wordSub_eq (le.intro ((add_comm _ _).trans hcount)) (h.nblocks_lt.trans_le hwords)]
    exact Nat.sub_eq_of_eq_add hcount.symm
  below := by
    intro i hi
    have hmono : pg.btopr newsize ≤ pg.btopr tp.size := btopr_mono hnew.le
    have hlen : pg.btopr newsize ≤ tp.anon.length := by
      rw [h.length]
      exact hmono.trans h.covers
    obtain ⟨hslot, hplace⟩ := getElem?_freed hlen hi
    have hlt := h.below i hslot
    rw [Nat.add_sub_cancel' hmono] at hplace
    exact hplace.resolve_right (not_le.mpr hlt)

/-- The bytes of the slots that are counted fit into a word. -/
theorem freed_eq (h : tp.Good pg) (hn : n ≤ pg.btopr tp.size) :
    pg.btop (((tp.anon.drop i).take n).count true * pg.size % 2 ^ 32) =
      ((tp.anon.drop i).take n).count true := by
  have hcnt : ((tp.anon.drop i).take n).count true ≤ n :=
    List.count_le_length.trans (List.length_take_le _ _)
  have hbytes : pg.btopr tp.size * pg.size < 2 ^ 32 := by
    have hround := @btopr_mul_size_le pg tp.size
    have hpg := pg.size_le
    have hoff : maxOff < 2 ^ 31 := by decide
    have hsize_le := h.size_le
    omega
  rw [mod_eq_of_lt, Paging.btop, Nat.mul_div_cancel _ pg.size_pos]
  exact (Nat.mul_le_mul_right _ (hcnt.trans hn)).trans_lt hbytes

theorem freePages_eq (h : tp.Good pg) (hnew : newsize < tp.size)
    (hpages : pg.btopr newsize ≠ pg.btopr tp.size) :
    freePages pg tm tp newsize =
      some (tmpUnresv pg tm (roundup tp.size pg.size - roundup newsize pg.size), { tp with
          nblocks := wordSub 64 tp.nblocks (((tp.anon.drop (pg.btopr newsize)).take
            (pg.btopr tp.size - pg.btopr newsize)).count true)
          anon := tp.anon.take (pg.btopr newsize) ++
            replicate (pg.btopr tp.size - pg.btopr newsize) false ++
            tp.anon.drop (pg.btopr newsize + (pg.btopr tp.size - pg.btopr newsize)) }) := by
  have hin : pg.btopr newsize + (pg.btopr tp.size - pg.btopr newsize) ≤ tp.anon.length := by
    have hmono : pg.btopr newsize ≤ pg.btopr tp.size := btopr_mono hnew.le
    rw [h.length, Nat.add_sub_cancel' hmono]
    exact h.covers
  unfold freePages
  rw [if_pos hpages]
  dsimp only
  rw [btopr_roundup_sub, anonPages_eq hin, anonFree_eq hin, bind_eq_bind, bind_some,
    freed_eq h (Nat.sub_le _ _)]
  rfl

/-- The state after the pages beyond the new size are freed. -/
theorem freePages_spec (h : tp.Good pg) (hle : tm.anonmem ≤ tm.anonmax)
    (hres : pg.btopr tp.size ≤ tm.anonmem) (hnew : newsize < tp.size) :
    ∃ tm' tp', freePages pg tm tp newsize = some (tm', tp') ∧ tp'.asize = tp.asize ∧
      Changes pg tm tp tm' { tp' with size := newsize } := by
  have hmono : pg.btopr newsize ≤ pg.btopr tp.size := btopr_mono hnew.le
  by_cases hpages : pg.btopr newsize ≠ pg.btopr tp.size
  · have hmem := tmpUnresv_anonmem (y := newsize) hres hle
    refine ⟨_, _, freePages_eq h hnew hpages, rfl, h.freed hnew, ?_, tmpUnresv_anonmax _, ?_⟩
    · rw [hmem]
      dsimp only
      omega
    · rw [hmem, tmpUnresv_anonmax]
      omega
  · have hsame : pg.btopr newsize = pg.btopr tp.size := not_not.mp hpages
    have hgood : Tmpnode.Good pg { tp with size := newsize } :=
      { size_le := hnew.le.trans h.size_le
        asize_le := h.asize_le
        length := h.length
        covers := hmono.trans h.covers
        nblocks := h.nblocks
        below := fun i hi => (h.below i hi).trans_le hsame.ge }
    exact ⟨tm, tp, if_neg hpages, rfl, hgood, by rw [hsame], rfl, hle⟩

/-- A file that gets smaller. -/
theorem shrink_spec (h : tp.Good pg) (hle : tm.anonmem ≤ tm.anonmax)
    (hres : pg.btopr tp.size ≤ tm.anonmem) (hnew : newsize < tp.size) :
    ∃ tm' tp', shrink pg tm tp newsize = some (tm', tp') ∧ Changes pg tm tp tm' tp' ∧
      tp'.size = newsize := by
  obtain ⟨tm', tp', hfree, hasize, hchange⟩ := freePages_spec h hle hres hnew
  have hgood := hchange.good
  have hlen : tp'.anon.length = pg.btopr tp'.asize := hgood.length
  have hslot : pg.btop newsize < tp'.anon.length := by
    rw [hlen, hasize]
    exact (btop_lt_btopr hnew).trans_le h.covers
  unfold shrink
  rw [hfree]
  simp only [bind_eq_bind, bind_some, List.getElem?_eq_getElem hslot]
  by_cases hzero : newsize = 0
  · rw [if_pos hzero]
    refine ⟨_, _, rfl, ⟨?_, hchange.pages, hchange.max, hchange.le⟩, rfl⟩
    have hbtopr : pg.btopr 0 = 0 := le_zero.mp (btopr_le_iff.mpr (zero_le _))
    -- no slot is in use, so that the array can go
    have hempty : tp'.anon.count true = 0 := by
      rw [List.count_eq_zero]
      intro hmem
      obtain ⟨i, hi⟩ := List.getElem?_of_mem hmem
      have hlt := hgood.below i hi
      simp only [hzero, hbtopr] at hlt
      exact Nat.not_lt_zero i hlt
    exact
      { size_le := hgood.size_le
        asize_le := zero_le _
        length := hbtopr.symm
        covers := by simp only [hzero]; exact le_refl _
        nblocks := by
          rw [List.count_nil, ← hempty]
          exact hgood.nblocks
        below := fun i hi => by simp at hi }
  · rw [if_neg hzero]
    exact ⟨_, _, rfl, hchange, rfl⟩

/-- The pages that are reserved for a file are among those of the file system. -/
theorem Changes.reserved (h : Changes pg tm tp tm' tp') (hres : pg.btopr tp.size ≤ tm.anonmem) :
    pg.btopr tp'.size ≤ tm'.anonmem := by
  have := h.pages
  omega

/-- Memory and an array for a file that is to end at `stop`. -/
theorem grow_changes (h : tp.Good pg) {delta : ℕ} {room pagecreate : Bool}
    (hle : tm.anonmem ≤ tm.anonmax) (hstop : stop ≤ maxOff) (hgrow : tp.size ≤ stop)
    (hdelta : pg.btopr delta = pg.btopr stop - pg.btopr tp.size)
    (hcreate : pagecreate = false → pg.btopr stop = pg.btopr tp.size)
    (hresv : tmpResv pg tm room delta pagecreate = some tm') :
    ∃ tp', growmap pg tp stop = some tp' ∧ tp'.size = tp.size ∧
      Changes pg tm tp tm' { tp' with size := stop } := by
  have hmono : pg.btopr tp.size ≤ pg.btopr stop := btopr_mono hgrow
  have hbound := @btopr_le_of_le_maxOff pg stop hstop
  obtain ⟨hmax, hle', hmem⟩ := tmpResv_eq_some hle (by omega) hresv
  obtain ⟨k, asize, hmap, hasize, hlen, hcovers⟩ := growmap_spec h hstop
  refine ⟨_, hmap, rfl, h.grow hstop hasize hlen hcovers hgrow, ?_, hmax, hle'⟩
  rw [hmem, hdelta]
  cases pagecreate with
  | false =>
    rw [hcreate rfl]
    simp
  | true =>
    rw [if_pos rfl]
    dsimp only
    omega

theorem tmpnodeTrunc_spec (h : tp.Good pg) (hle : tm.anonmem ≤ tm.anonmax)
    (hres : pg.btopr tp.size ≤ tm.anonmem) (hnew : newsize ≤ maxOff) (room : Bool) :
    ∃ tm' tp' error, tmpnodeTrunc pg tm tp room newsize = some (tm', tp', error) ∧
      Changes pg tm tp tm' tp' ∧ (newsize ≤ tp.size → tp'.size = newsize) := by
  unfold tmpnodeTrunc
  by_cases hsame : newsize = tp.size
  · rw [if_pos hsame]
    exact ⟨tm, tp, none, rfl, .refl h hle, fun _ => hsame.symm⟩
  · rw [if_neg hsame]
    by_cases hgrow : tp.size < newsize
    · rw [if_pos hgrow]
      dsimp only
      cases hresv : tmpResv pg tm room (roundup newsize pg.size - roundup tp.size pg.size)
          (decide (pg.btopr newsize ≠ pg.btopr tp.size)) with
      | none =>
        exact ⟨tm, tp, some .enospc, rfl, .refl h hle, fun hle' => absurd hgrow (not_lt.mpr hle')⟩
      | some tm' =>
        have hcreate : decide (pg.btopr newsize ≠ pg.btopr tp.size) = false →
            pg.btopr newsize = pg.btopr tp.size := by
          intro hfalse
          exact not_not.mp (of_decide_eq_false hfalse)
        obtain ⟨tp', hmap, -, hchange⟩ :=
          grow_changes h hle hnew hgrow.le (btopr_roundup_sub _ _) hcreate hresv
        dsimp only
        rw [hmap]
        exact ⟨tm', _, none, rfl, hchange, fun _ => rfl⟩
    · rw [if_neg hgrow]
      obtain ⟨tm', tp', hshrink, hchange, hsize⟩ :=
        shrink_spec h hle hres (show newsize < tp.size by omega)
      rw [hshrink]
      exact ⟨tm', tp', none, rfl, hchange, fun _ => hsize⟩

/-! ### Writes -/

theorem reserve_spec (h : tp.Good pg) (hle : tm.anonmem ≤ tm.anonmax)
    (hstop : stop ≤ maxOff) (room : Bool) :
    reserve pg tm tp room stop = some none ∨
      ∃ tm' tp', reserve pg tm tp room stop = some (some (tm', tp')) ∧ tp'.size = tp.size ∧
        Changes pg tm tp tm' { tp' with size := max tp.size stop } := by
  unfold reserve
  by_cases hmore : roundup tp.size pg.size < stop
  · rw [if_pos hmore]
    have hsize : tp.size ≤ roundup tp.size pg.size := by
      rw [roundup_eq, ← btopr_le_iff]
    cases hresv : tmpResv pg tm room (stop - roundup tp.size pg.size) true with
    | none => exact .inl rfl
    | some tm' =>
      obtain ⟨tp', hmap, hsame, hchange⟩ := grow_changes h hle hstop (by omega)
        (btopr_sub_roundup _ _) (fun hfalse => absurd hfalse (by decide)) hresv
      rw [max_eq_right (by omega)]
      dsimp only
      rw [hmap]
      exact .inr ⟨tm', tp', rfl, hsame, hchange⟩
  · rw [if_neg hmore]
    -- the file stays within its last page
    have hpages : pg.btopr (max tp.size stop) = pg.btopr tp.size := by
      apply le_antisymm
      · rw [btopr_le_iff, max_le_iff, ← roundup_eq]
        exact ⟨by rw [roundup_eq, ← btopr_le_iff], not_lt.mp hmore⟩
      · exact btopr_mono (le_max_left _ _)
    refine .inr ⟨tm, tp, rfl, rfl, ?_, by rw [hpages], rfl, hle⟩
    exact
      { size_le := max_le h.size_le hstop
        asize_le := h.asize_le
        length := h.length
        covers := hpages.le.trans h.covers
        nblocks := h.nblocks
        below := fun i hi => (h.below i hi).trans_le hpages.ge }

theorem fillSlot_spec (h : tp.Good pg) (hi : i < pg.btopr tp.size) :
    ∃ tp', fillSlot tp i = some tp' ∧ tp'.Good pg ∧ tp'.size = tp.size := by
  have hlen : i < tp.anon.length := by
    rw [h.length]
    exact hi.trans_le h.covers
  unfold fillSlot
  rw [List.getElem?_eq_getElem hlen, bind_eq_bind, bind_some]
  cases hslot : tp.anon[i] with
  | true => exact ⟨tp, rfl, h, rfl⟩
  | false =>
    have hcount : (tp.anon.set i true).count true = tp.nblocks + 1 := by
      rw [List.count_set hlen, hslot, h.nblocks]
      simp
    have hwords : (2 : ℕ) ^ 31 + 1 ≤ 2 ^ 64 :=
      Nat.succ_le_of_lt (Nat.pow_lt_pow_right (by decide) (by decide))
    refine ⟨_, rfl, ?_, rfl⟩
    constructor
    · exact h.size_le
    · exact h.asize_le
    · rw [List.length_set]
      exact h.length
    · exact h.covers
    · rw [hcount]
      exact mod_eq_of_lt ((Nat.succ_lt_succ h.nblocks_lt).trans_le hwords)
    · intro j hj
      by_cases hij : i = j
      · rw [← hij]
        exact hi
      · rw [List.getElem?_set_ne hij] at hj
        exact h.below j hj

/-- What is known in a loop over the pages of a write. -/
structure Passed (pg : Paging) (tm : Tmount) (tp : Tmpnode) (w : Wstate) : Prop where
  changes : Changes pg tm tp w.tm w.tp
  oldSize : ∀ size, w.oldSize = some size → size ≤ maxOff

/-- One copy, of a file with memory and an array for it. -/
theorem copyPage_spec {w : Wstate} {bytes : ℕ} (env : Env)
    (hres : pg.btopr tp.size ≤ tm.anonmem) (hpos : 0 < bytes)
    (hchange : Changes pg tm tp w.tm { w.tp with size := max w.tp.size (w.offset + bytes) })
    (hsize : w.tp.size ≤ maxOff) (hold : ∀ size, w.oldSize = some size → size ≤ maxOff) :
    ∃ w' error, copyPage pg env w bytes = some (w', error) ∧ Passed pg tm tp w' := by
  unfold copyPage
  dsimp only
  have htp : (if w.tp.size < w.offset + bytes then { w.tp with size := w.offset + bytes } else w.tp) =
      { w.tp with size := max w.tp.size (w.offset + bytes) } := by
    by_cases hgrow : w.tp.size < w.offset + bytes
    · rw [if_pos hgrow, max_eq_right hgrow.le]
    · rw [if_neg hgrow, max_eq_left (by omega)]
  have hold' : ∀ size, (if w.tp.size < w.offset + bytes then some w.tp.size else w.oldSize) =
      some size → size ≤ maxOff := by
    intro size
    by_cases hgrow : w.tp.size < w.offset + bytes
    · rw [if_pos hgrow, some_inj]
      intro heq
      rwa [← heq]
    · rw [if_neg hgrow]
      exact hold size
  have hpage : pg.btop w.offset < pg.btopr (max w.tp.size (w.offset + bytes)) :=
    btop_lt_btopr (lt_max_of_lt_right (by omega))
  obtain ⟨tp', hfill, hgood, hsize'⟩ := fillSlot_spec hchange.good hpage
  have hchange' : Changes pg tm tp w.tm tp' :=
    ⟨hgood, by rw [hsize']; exact hchange.pages, hchange.max, hchange.le⟩
  rw [htp, hfill, bind_eq_bind, bind_some]
  cases env.fault w.offset with
  | none => exact ⟨_, none, rfl, hchange', hold'⟩
  | some m =>
    dsimp only
    cases hcase : (if w.tp.size < w.offset + bytes then some w.tp.size else w.oldSize) with
    | none => exact ⟨_, some .efault, rfl, hchange', fun size hsize => absurd hsize (by simp)⟩
    | some size =>
      obtain ⟨tm'', tp'', error, htrunc, hcut, -⟩ := tmpnodeTrunc_spec hgood hchange'.le
        (hchange'.reserved hres) (hold' size hcase) true
      dsimp only
      rw [htrunc]
      refine ⟨_, some .efault, rfl, hchange'.trans hcut, ?_⟩
      intro size' hsize''
      exact hold' size' (hcase.trans hsize'')

/-- One pass of the loop. -/
theorem wrtmpPass_spec {w : Wstate} {limit : ℕ} (env : Env) (hlimit : limit ≤ maxOff)
    (hres : pg.btopr tp.size ≤ tm.anonmem) (hresid : 0 < w.resid) (h : Passed pg tm tp w) :
    ∃ w' error, wrtmpPass pg env limit w = some (w', error) ∧ Passed pg tm tp w' := by
  have hgood := h.changes.good
  have hmod := mod_lt w.offset pg.size_pos
  unfold wrtmpPass
  dsimp only
  generalize hbytes : min (pg.size - w.offset % pg.size) w.resid = bytes
  have hpos : 0 < bytes := by
    rw [← hbytes, lt_min_iff]
    omega
  by_cases hover : limit ≤ w.offset + bytes ∧ limit ≤ w.offset
  · rw [if_pos hover]
    exact ⟨w, some .efbig, rfl, h⟩
  · rw [if_neg hover]
    generalize hbytes' : (if limit ≤ w.offset + bytes then limit - w.offset else bytes) = bytes'
    have hcopy : 0 < bytes' ∧ w.offset + bytes' ≤ limit := by
      rw [← hbytes']
      split_ifs <;> omega
    rcases reserve_spec hgood h.changes.le (hcopy.2.trans hlimit) (env.room w.offset) with
      hdeny | ⟨tm', tp', hresv, hsize, hchange⟩
    · rw [hdeny]
      exact ⟨w, some .enospc, rfl, h⟩
    · rw [hresv]
      rw [← hsize] at hchange
      exact copyPage_spec env hres hcopy.1 (h.changes.trans hchange)
        (by rw [hsize]; exact hgood.size_le) h.oldSize

theorem wrtmpLoop_spec {limit : ℕ} (env : Env) (hlimit : limit ≤ maxOff)
    (hres : pg.btopr tp.size ≤ tm.anonmem) (fuel : ℕ) {w : Wstate} (hresid : 0 < w.resid)
    (h : Passed pg tm tp w) :
    ∃ w' error, wrtmpLoop pg env limit fuel w = some (w', error) ∧ Passed pg tm tp w' := by
  induction fuel generalizing w with
  | zero => exact ⟨w, none, rfl, h⟩
  | succ fuel ih =>
    obtain ⟨w', error, hpass, h'⟩ := wrtmpPass_spec env hlimit hres hresid h
    rw [wrtmpLoop, hpass, bind_eq_bind, bind_some]
    cases error with
    | some e => exact ⟨w', some e, rfl, h'⟩
    | none =>
      dsimp only
      by_cases hmore : 0 < w'.resid
      · rw [if_pos hmore]
        exact ih hmore h'
      · rw [if_neg hmore]
        exact ⟨w', none, rfl, h'⟩

theorem wrtmp_spec (h : tp.Good pg) (hle : tm.anonmem ≤ tm.anonmax)
    (hres : pg.btopr tp.size ≤ tm.anonmem) (env : Env) (offset resid limit : ℕ) :
    ∃ tm' tp' error, wrtmp pg env tm tp offset resid limit = some (tm', tp', error) ∧
      Changes pg tm tp tm' tp' := by
  unfold wrtmp
  dsimp only
  by_cases hbig : min limit maxOff ≤ offset
  · rw [if_pos hbig]
    exact ⟨tm, tp, some .efbig, rfl, .refl h hle⟩
  · rw [if_neg hbig]
    by_cases hzero : resid = 0
    · rw [if_pos hzero]
      exact ⟨tm, tp, none, rfl, .refl h hle⟩
    · rw [if_neg hzero]
      have hstart : Passed pg tm tp ⟨tm, tp, offset, resid, none⟩ :=
        ⟨.refl h hle, fun size hsize => absurd hsize (by simp)⟩
      obtain ⟨w', error, hloop, h'⟩ := wrtmpLoop_spec env (min_le_right limit maxOff) hres resid
        (Nat.pos_of_ne_zero hzero) hstart
      rw [hloop]
      exact ⟨_, _, _, rfl, h'.changes⟩

/-! ### File systems -/

/-- The reservation is the pages of the files, and each file is as it should be. -/
structure Fs.Exact (pg : Paging) (fs : Fs) : Prop where
  anonmem : fs.tm.anonmem = (fs.files.map fun tp => pg.btopr tp.size).sum
  le : fs.tm.anonmem ≤ fs.tm.anonmax
  good : ∀ tp ∈ fs.files, tp.Good pg

/-- The sizes that a file is truncated to are those of files. -/
def Op.InRange : Op → Prop
  | .trunc _ _ newsize => newsize ≤ maxOff
  | _ => True

theorem sum_set {l : List ℕ} (b : ℕ) (h : l[i]? = some a) : (l.set i b).sum + a = l.sum + b := by
  induction l generalizing i with
  | nil => simp at h
  | cons c l ih =>
    cases i with
    | zero =>
      obtain rfl : c = a := by simpa using h
      rw [set_cons_zero, sum_cons, sum_cons]
      omega
    | succ i =>
      have hrest := ih (i := i) (by simpa using h)
      rw [List.set_cons_succ, sum_cons, sum_cons]
      omega

theorem sum_eraseIdx {l : List ℕ} (h : l[i]? = some a) : (l.eraseIdx i).sum + a = l.sum := by
  induction l generalizing i with
  | nil => simp at h
  | cons c l ih =>
    cases i with
    | zero =>
      obtain rfl : c = a := by simpa using h
      rw [List.eraseIdx_cons_zero, sum_cons, add_comm]
    | succ i =>
      have hrest := ih (i := i) (by simpa using h)
      rw [List.eraseIdx_cons_succ, sum_cons, sum_cons]
      omega

variable {fs : Fs}

/-- The pages of one file are among those of all. -/
theorem Fs.Exact.reserved (h : fs.Exact pg) (hmem : tp ∈ fs.files) :
    pg.btopr tp.size ≤ fs.tm.anonmem := by
  rw [h.anonmem]
  exact List.single_le_sum (fun _ _ => zero_le _) _ (List.mem_map_of_mem hmem)

/-- One file is changed. -/
theorem Fs.Exact.set (h : fs.Exact pg) (hi : fs.files[i]? = some tp)
    (hchange : Changes pg fs.tm tp tm' tp') :
    Exact pg { tm := tm', files := fs.files.set i tp' } where
  anonmem := by
    have hslot : (fs.files.map fun tp => pg.btopr tp.size)[i]? = some (pg.btopr tp.size) := by
      rw [List.getElem?_map, hi]
      rfl
    have hsum := sum_set (pg.btopr tp'.size) hslot
    have hpages := hchange.pages
    have hmem := h.anonmem
    rw [List.map_set]
    dsimp only
    omega
  le := hchange.le
  good := by
    intro t ht
    rcases List.mem_or_eq_of_mem_set ht with hmem | rfl
    · exact h.good t hmem
    · exact hchange.good

/-- One file is freed. -/
theorem Fs.Exact.erase (h : fs.Exact pg) (hi : fs.files[i]? = some tp)
    (hchange : Changes pg fs.tm tp tm' tp') (hzero : tp'.size = 0) :
    Exact pg { tm := tm', files := fs.files.eraseIdx i } where
  anonmem := by
    have hslot : (fs.files.map fun tp => pg.btopr tp.size)[i]? = some (pg.btopr tp.size) := by
      rw [List.getElem?_map, hi]
      rfl
    have hsum := sum_eraseIdx hslot
    have hpages := hchange.pages
    have hmem := h.anonmem
    have hnone : pg.btopr 0 = 0 := le_zero.mp (btopr_le_iff.mpr (zero_le _))
    rw [hzero, hnone] at hpages
    rw [← List.eraseIdx_map]
    dsimp only
    omega
  le := hchange.le
  good := fun t ht => h.good t (List.mem_of_mem_eraseIdx ht)

/-- Every operation keeps the reservation exact and stays inside the arrays. -/
theorem Fs.Exact.exec (h : fs.Exact pg) {op : Op} (hop : op.InRange) :
    ∃ fs', fs.exec pg op = some fs' ∧ fs'.Exact pg := by
  cases op with
  | create =>
    have hnone : pg.btopr 0 = 0 := le_zero.mp (btopr_le_iff.mpr (zero_le _))
    refine ⟨_, rfl, ?_, h.le, ?_⟩
    · rw [List.map_append, List.sum_append, h.anonmem]
      simp [Tmpnode.alloc, hnone]
    · intro tp htp
      rcases List.mem_append.mp htp with hmem | hnew
      · exact h.good tp hmem
      · obtain rfl := List.mem_singleton.mp hnew
        exact ⟨zero_le _, zero_le _, hnone.symm, le_refl _, rfl, fun i hi => by
          simp [Tmpnode.alloc] at hi⟩
  | write i env offset resid limit =>
    unfold Fs.exec
    dsimp only
    cases hi : fs.files[i]? with
    | none => exact ⟨fs, rfl, h⟩
    | some tp =>
      have hmem := List.mem_of_getElem? hi
      obtain ⟨tm', tp', error, hwrite, hchange⟩ :=
        wrtmp_spec (h.good tp hmem) h.le (h.reserved hmem) env offset resid limit
      dsimp only
      rw [hwrite]
      exact ⟨_, rfl, h.set hi hchange⟩
  | trunc i room newsize =>
    unfold Fs.exec
    dsimp only
    cases hi : fs.files[i]? with
    | none => exact ⟨fs, rfl, h⟩
    | some tp =>
      have hmem := List.mem_of_getElem? hi
      obtain ⟨tm', tp', error, htrunc, hchange, -⟩ :=
        tmpnodeTrunc_spec (h.good tp hmem) h.le (h.reserved hmem) hop room
      dsimp only
      rw [htrunc]
      exact ⟨_, rfl, h.set hi hchange⟩
  | free i =>
    unfold Fs.exec
    dsimp only
    cases hi : fs.files[i]? with
    | none => exact ⟨fs, rfl, h⟩
    | some tp =>
      have hmem := List.mem_of_getElem? hi
      obtain ⟨tm', tp', error, htrunc, hchange, hsize⟩ :=
        tmpnodeTrunc_spec (h.good tp hmem) h.le (h.reserved hmem) (zero_le maxOff) true
      dsimp only
      rw [htrunc]
      exact ⟨_, rfl, h.erase hi hchange (hsize (zero_le _))⟩

theorem Fs.Exact.run (h : fs.Exact pg) {ops : List Op} (hops : ∀ op ∈ ops, op.InRange) :
    ∃ fs', fs.run pg ops = some fs' ∧ fs'.Exact pg := by
  induction ops generalizing fs with
  | nil => exact ⟨fs, rfl, h⟩
  | cons op ops ih =>
    obtain ⟨fs', hexec, h'⟩ := h.exec (hops op List.mem_cons_self)
    rw [Fs.run, hexec]
    exact ih h' fun op' hop' => hops op' (List.mem_cons_of_mem op hop')

/-- After every sequence of operations on a new file system the pages reserved are those that cover
the files, and not more than allowed. The blocks of every file are its slots in use, all of them
below its end, and every index that was used was inside the array. -/
theorem reservation_exact (anonmax : ℕ) (hmax : anonmax < 2 ^ 31) (ops : List Op)
    (hops : ∀ op ∈ ops, op.InRange) :
    ∃ fs, Fs.run pg { tm := ⟨anonmax, 0, hmax⟩, files := [] } ops = some fs ∧
      fs.tm.anonmem = (fs.files.map fun tp => pg.btopr tp.size).sum ∧
      fs.tm.anonmem ≤ fs.tm.anonmax ∧
      ∀ tp ∈ fs.files, tp.nblocks = tp.anon.count true ∧
        (∀ i : ℕ, tp.anon[i]? = some true → i < pg.btopr tp.size) ∧
        tp.anon.length = pg.btopr tp.asize := by
  have hstart : Fs.Exact pg { tm := ⟨anonmax, 0, hmax⟩, files := [] } :=
    ⟨rfl, zero_le _, fun tp htp => absurd htp List.not_mem_nil⟩
  obtain ⟨fs, hrun, h⟩ := hstart.run hops
  refine ⟨fs, hrun, h.anonmem, h.le, fun tp htp => ?_⟩
  have hgood := h.good tp htp
  exact ⟨hgood.nblocks, hgood.below, hgood.length⟩

theorem smallPages_shift_le : 12 ≤ 26 := by omega

/-- A page of 4096 bytes. -/
def smallPages : Paging := ⟨12, smallPages_shift_le⟩

/-- A file is written beyond its end, extended, and written again by a copy that fails. -/
def growOps : List Op :=
  [.create, .write 0 ⟨fun _ => true, fun _ => none⟩ 100 10 1000000, .trunc 0 true 5000,
    .write 0 ⟨fun _ => true, fun _ => some 1⟩ 9000 10 1000000]

theorem growOps_inRange : ∀ op ∈ growOps, op.InRange := by
  intro op hop
  simp only [growOps, List.mem_cons, List.not_mem_nil, or_false] at hop
  rcases hop with rfl | rfl | rfl | rfl
  · trivial
  · trivial
  · exact show 5000 ≤ maxOff by decide
  · trivial

theorem reservation_exact_growOps :
    (Fs.run smallPages { tm := ⟨100, 0, by decide⟩, files := [] } growOps).map
        (fun fs => (fs.tm.anonmem, fs.files.map fun tp => (tp.size, tp.nblocks))) =
      some (2, [(5000, 1)]) ∧
    ∃ fs, Fs.run smallPages { tm := ⟨100, 0, by decide⟩, files := [] } growOps = some fs ∧
      fs.tm.anonmem = (fs.files.map fun tp => smallPages.btopr tp.size).sum ∧
      fs.tm.anonmem ≤ fs.tm.anonmax ∧
      ∀ tp ∈ fs.files, tp.nblocks = tp.anon.count true ∧
        (∀ i : ℕ, tp.anon[i]? = some true → i < smallPages.btopr tp.size) ∧
        tp.anon.length = smallPages.btopr tp.asize :=
  ⟨by decide, reservation_exact 100 (by decide) growOps growOps_inRange⟩

end Sol26.Tmpfs.Anon
