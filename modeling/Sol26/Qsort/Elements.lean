import Sol26.Lib.Rearrange
import Sol26.Qsort.Qsort

/-!
# Elements of bytes

The loops over bytes and words exchange two elements, and those of the insertion sort put an
element before others, as long as all of them are elements of the array.
-/
namespace Sol26.Qsort

open Function (update update_of_ne update_self)
open Option (bind_eq_bind bind_some)

variable {β : Type} {A : Args β} {m : ℕ → β} {q t b i j k x : ℕ}

/-! ### Addresses -/

theorem div_block (hb : b < q) : (t * q + b) / q = t := by
  rw [mul_comm, Nat.mul_add_div (by omega), Nat.div_eq_of_lt hb, add_zero]

theorem mod_block (hb : b < q) : (t * q + b) % q = b := by
  rw [mul_comm, Nat.mul_add_mod, Nat.mod_eq_of_lt hb]

theorem block_lt (hb : b < q) (ht : t < k) : t * q + b < k * q := by
  have := Nat.mul_le_mul_right q (show t + 1 ≤ k from ht)
  rw [Nat.succ_mul] at this
  omega

/-- An address within an element tells the element. -/
theorem mem_block (hb : b < q) : (i * q ≤ t * q + b ∧ t * q + b < i * q + q) ↔ t = i := by
  constructor
  · rintro ⟨hle, hlt⟩
    by_contra hne
    rcases Nat.lt_or_gt_of_ne hne with h | h
    · have := block_lt hb h
      omega
    · have := Nat.mul_le_mul_right q (show i + 1 ≤ t from h)
      rw [Nat.succ_mul] at this
      omega
  · rintro rfl
    omega

theorem exists_block (hq : 0 < q) (x : ℕ) : ∃ t b, b < q ∧ x = t * q + b :=
  ⟨x / q, x % q, Nat.mod_lt x hq, (Nat.div_add_mod' x q).symm⟩

theorem block_inj {t' b' : ℕ} (hb : b < q) (hb' : b' < q) :
    t * q + b = t' * q + b' ↔ t = t' ∧ b = b' := by
  constructor
  · intro heq
    have hdiv := congrArg (· / q) heq
    have hmod := congrArg (· % q) heq
    simp only [div_block hb, div_block hb', mod_block hb, mod_block hb'] at hdiv hmod
    exact ⟨hdiv, hmod⟩
  · rintro ⟨rfl, rfl⟩
    rfl

theorem elem_congr {m' : ℕ → β} (h : ∀ b < q, m (i * q + b) = m' (j * q + b)) :
    elem q m i = elem q m' j := by
  apply List.map_congr_left
  intro b hb
  exact h b (List.mem_range.1 hb)

theorem load_of_lt (h : x < A.n * A.qsz) (m : ℕ → β) : A.load m x = some (m x) := if_pos h

theorem store_of_lt (h : x < A.n * A.qsz) (m : ℕ → β) (c : β) :
    A.store m x c = some (update m x c) :=
  if_pos h

theorem loadWord_of_le (h : x + 4 ≤ A.n * A.qsz) (m : ℕ → β) :
    A.loadWord m x = some fun k => m (x + k) :=
  if_pos h

theorem storeWord_of_le (h : x + 4 ≤ A.n * A.qsz) (m w : ℕ → β) :
    A.storeWord m x w = some fun y => if x ≤ y ∧ y < x + 4 then w (y - x) else m y :=
  if_pos h

/-! ### Exchanges -/

/-- The bytes at two addresses are exchanged, `k` of them. -/
def exchanged (k i j : ℕ) (m : ℕ → β) (x : ℕ) : β :=
  if i ≤ x ∧ x < i + k then m (j + (x - i))
  else if j ≤ x ∧ x < j + k then m (i + (x - j))
  else m x

theorem exchanged_zero (i j : ℕ) (m : ℕ → β) : exchanged 0 i j m = m := by
  funext x
  rw [exchanged, if_neg (by omega), if_neg (by omega)]

/-- First some bytes, then the rest. -/
theorem exchanged_add {k' : ℕ} (h : i + k + k' ≤ j ∨ j + k + k' ≤ i) (m : ℕ → β) :
    exchanged k' (i + k) (j + k) (exchanged k i j m) = exchanged (k + k') i j m := by
  funext x
  simp only [exchanged]
  split_ifs <;> first | rfl | omega | (congr 1; omega)

theorem swapChars_spec (hi : i + k ≤ A.n * A.qsz) (hj : j + k ≤ A.n * A.qsz)
    (hd : i + k ≤ j ∨ j + k ≤ i) (m : ℕ → β) :
    A.swapChars k i j m = some (exchanged k i j m) := by
  induction k generalizing i j m with
  | zero => rw [exchanged_zero]; rfl
  | succ k ih =>
    have hfirst : update (update m i (m j)) j (m i) = exchanged 1 i j m := by
      funext x
      by_cases hxj : x = j
      · subst hxj
        rw [update_self, exchanged, if_neg (by omega), if_pos (by omega), Nat.sub_self, add_zero]
      · rw [update_of_ne hxj]
        by_cases hxi : x = i
        · subst hxi
          rw [update_self, exchanged, if_pos (by omega), Nat.sub_self, add_zero]
        · rw [update_of_ne hxi, exchanged, if_neg (by omega), if_neg (by omega)]
    have hlt : i < A.n * A.qsz := by omega
    have hlt' : j < A.n * A.qsz := by omega
    simp only [Args.swapChars, load_of_lt hlt, load_of_lt hlt', store_of_lt hlt,
      store_of_lt hlt', bind_eq_bind, bind_some, hfirst]
    rw [ih (by omega) (by omega) (by omega), exchanged_add (by omega), add_comm 1]

theorem swapWords_spec (hi : i + 4 * k ≤ A.n * A.qsz) (hj : j + 4 * k ≤ A.n * A.qsz)
    (hd : i + 4 * k ≤ j ∨ j + 4 * k ≤ i) (m : ℕ → β) :
    A.swapWords k i j m = some (exchanged (4 * k) i j m) := by
  induction k generalizing i j m with
  | zero => rw [Nat.mul_zero, exchanged_zero]; rfl
  | succ k ih =>
    have hfirst : (fun x => if j ≤ x ∧ x < j + 4 then m (i + (x - j))
        else if i ≤ x ∧ x < i + 4 then m (j + (x - i)) else m x) = exchanged 4 i j m := by
      funext x
      rw [exchanged]
      split_ifs with h1 h2
      · omega
      · rfl
      · rfl
      · rfl
    have hle : i + 4 ≤ A.n * A.qsz := by omega
    have hle' : j + 4 ≤ A.n * A.qsz := by omega
    simp only [Args.swapWords, loadWord_of_le hle, loadWord_of_le hle', storeWord_of_le hle,
      storeWord_of_le hle', bind_eq_bind, bind_some, hfirst]
    rw [ih (by omega) (by omega) (by omega), exchanged_add (by omega), Nat.mul_succ, add_comm 4]

theorem elem_exchanged (hne : i ≠ j) :
    elem q (exchanged q (i * q) (j * q) m) = fun t => elem q m (Equiv.swap i j t) := by
  funext t
  apply elem_congr
  intro b hb
  rw [exchanged]
  by_cases hti : t = i
  · subst hti
    rw [if_pos ((mem_block hb).2 rfl), Equiv.swap_apply_left, Nat.add_sub_cancel_left]
  · rw [if_neg (fun h => hti ((mem_block hb).1 h))]
    by_cases htj : t = j
    · subst htj
      rw [if_pos ((mem_block hb).2 rfl), Equiv.swap_apply_right, Nat.add_sub_cancel_left]
    · rw [if_neg (fun h => htj ((mem_block hb).1 h)), Equiv.swap_apply_of_ne_of_ne hti htj]

theorem exchanged_outside (hi : i + k ≤ x) (hj : j + k ≤ x) : exchanged k i j m x = m x := by
  rw [exchanged, if_neg (by omega), if_neg (by omega)]

/-- The array is another one in its elements, and as it was behind them. -/
structure Becomes (A : Args β) (a : ℕ → List β) (m m' : ℕ → β) : Prop where
  elems : elem A.qsz m' = a
  rest : ∀ x, A.n * A.qsz ≤ x → m' x = m x

theorem block_le {t k : ℕ} (q : ℕ) (h : t < k) : t * q + q ≤ k * q := by
  have := Nat.mul_le_mul_right q (show t + 1 ≤ k from h)
  rwa [Nat.succ_mul] at this

theorem blocks_disjoint (q : ℕ) (hne : i ≠ j) : i * q + q ≤ j * q ∨ j * q + q ≤ i * q := by
  rcases Nat.lt_or_gt_of_ne hne with h | h
  · exact .inl (block_le q h)
  · exact .inr (block_le q h)

theorem becomes_exchanged (hi : i < A.n) (hj : j < A.n) (hne : i ≠ j) (m : ℕ → β) :
    Becomes A (fun t => elem A.qsz m (Equiv.swap i j t)) m
      (exchanged A.qsz (i * A.qsz) (j * A.qsz) m) := by
  refine ⟨elem_exchanged hne, ?_⟩
  intro x hx
  have hni := block_le A.qsz hi
  have hnj := block_le A.qsz hj
  exact exchanged_outside (by omega) (by omega)

theorem swapChars_elems (hi : i < A.n) (hj : j < A.n) (hne : i ≠ j) (m : ℕ → β) :
    ∃ m', A.swapChars A.qsz (i * A.qsz) (j * A.qsz) m = some m' ∧
      Becomes A (fun t => elem A.qsz m (Equiv.swap i j t)) m m' :=
  ⟨_, swapChars_spec (block_le _ hi) (block_le _ hj) (blocks_disjoint _ hne) m,
    becomes_exchanged hi hj hne m⟩

theorem swap_elems (hi : i < A.n) (hj : j < A.n) (hne : i ≠ j) (m : ℕ → β) :
    ∃ m', A.swap i j m = some m' ∧ Becomes A (fun t => elem A.qsz m (Equiv.swap i j t)) m m' := by
  rw [Args.swap]
  split_ifs with hw
  · -- by words, of which an element has a whole number
    have hq : 4 * (A.qsz / 4) = A.qsz := by
      rw [Args.words, Bool.and_eq_true, decide_eq_true_eq] at hw
      omega
    have hspec := swapWords_spec (i := i * A.qsz) (j := j * A.qsz) (k := A.qsz / 4)
      (by rw [hq]; exact block_le _ hi) (by rw [hq]; exact block_le _ hj)
      (by rw [hq]; exact blocks_disjoint _ hne) m
    rw [hq] at hspec
    exact ⟨_, hspec, becomes_exchanged hi hj hne m⟩
  · exact swapChars_elems hi hj hne m

/-! ### Insertions -/

/-- The bytes of one column between two elements move up by one element. -/
def shifted (q h k b : ℕ) (m : ℕ → β) (x : ℕ) : β :=
  if x % q = b ∧ h < x / q ∧ x / q ≤ k then m (x - q) else m x

/-- The last byte of a column moves first. -/
theorem shifted_succ {h : ℕ} (hb : b < q) (hle : h ≤ k) (m : ℕ → β) :
    shifted q h k b (update m ((k + 1) * q + b) (m (k * q + b))) = shifted q h (k + 1) b m := by
  funext x
  obtain ⟨t, c, hc, rfl⟩ := exists_block (show 0 < q by omega) x
  simp only [shifted, div_block hc, mod_block hc]
  by_cases hcb : c = b
  · subst hcb
    by_cases hk : t = k + 1
    · subst hk
      rw [if_neg (by omega), if_pos (by omega), update_self]
      congr 1
      rw [Nat.succ_mul]
      omega
    · by_cases ht : h < t ∧ t ≤ k
      · obtain ⟨t, rfl⟩ : ∃ t', t = t' + 1 := ⟨t - 1, by omega⟩
        have haddr : (t + 1) * q + c - q = t * q + c := by
          rw [Nat.succ_mul]
          omega
        rw [if_pos ⟨rfl, ht⟩, if_pos (by omega), haddr, update_of_ne]
        rw [Ne, block_inj hc hc]
        omega
      · rw [if_neg (by omega), if_neg (by omega), update_of_ne]
        rw [Ne, block_inj hc hc]
        omega
  · rw [if_neg (by omega), if_neg (by omega), update_of_ne]
    rw [Ne, block_inj hc hb]
    omega

theorem shift_spec {h fuel : ℕ} (hb : b < A.qsz) (hle : h ≤ k) (hk : k < A.n)
    (hfuel : k - h < fuel) (m : ℕ → β) :
    A.shift (h * A.qsz) fuel (k * A.qsz + b) m = some (h * A.qsz + b, shifted A.qsz h k b m) := by
  induction fuel generalizing k m with
  | zero => omega
  | succ fuel ih =>
    rw [Args.shift]
    by_cases heq : k = h
    · subst heq
      have hsame : shifted A.qsz k k b m = m := by
        funext x
        rw [shifted, if_neg (by omega)]
      rw [if_neg (by omega), hsame]
    · obtain ⟨k, rfl⟩ : ∃ k', k = k' + 1 := ⟨k - 1, by omega⟩
      have haddr : (k + 1) * A.qsz + b - A.qsz = k * A.qsz + b := by
        rw [Nat.succ_mul]
        omega
      have hstop : h * A.qsz + A.qsz ≤ (k + 1) * A.qsz + b := by
        have := block_le A.qsz (show h < k + 1 by omega)
        omega
      have hlt := block_lt hb hk
      have hlt' := block_lt hb (show k < A.n by omega)
      rw [if_pos hstop, haddr]
      simp only [load_of_lt hlt', store_of_lt hlt, bind_eq_bind, bind_some]
      rw [ih (by omega) (by omega) (by omega), shifted_succ hb (by omega)]

/-- The first `k` columns are rotated, so that the element at `hi` comes before the others. -/
def rotatedColumns (q lo hi k : ℕ) (m : ℕ → β) (x : ℕ) : β :=
  if x % q < k then rotated lo hi (fun t => m (t * q + x % q)) (x / q) else m x

theorem rotatedColumns_succ {lo hi : ℕ} (hk : k < q) (m : ℕ → β) :
    rotatedColumns q lo hi k (update (shifted q lo hi k m) (lo * q + k) (m (hi * q + k))) =
      rotatedColumns q lo hi (k + 1) m := by
  funext x
  obtain ⟨t, c, hc, rfl⟩ := exists_block (show 0 < q by omega) x
  have hother : c ≠ k → ∀ t, update (shifted q lo hi k m) (lo * q + k) (m (hi * q + k))
      (t * q + c) = m (t * q + c) := by
    intro hck t
    rw [update_of_ne (by rw [Ne, block_inj hc hk]; omega), shifted, mod_block hc, if_neg (by omega)]
  simp only [rotatedColumns, div_block hc, mod_block hc]
  by_cases hck : c < k
  · rw [if_pos hck, if_pos (by omega)]
    congr 1
    funext t
    exact hother (by omega) t
  · rw [if_neg hck]
    by_cases heq : c = k
    · subst heq
      rw [if_pos (by omega), rotated]
      by_cases ht : t = lo
      · rw [if_pos ht, ht, update_self]
      · rw [if_neg ht, update_of_ne (by rw [Ne, block_inj hc hc]; omega), shifted,
          div_block hc, mod_block hc]
        by_cases hin : lo < t ∧ t ≤ hi
        · obtain ⟨t, rfl⟩ : ∃ t', t = t' + 1 := ⟨t - 1, by omega⟩
          rw [if_pos ⟨rfl, hin⟩, if_pos hin, Nat.add_sub_cancel]
          congr 1
          rw [Nat.succ_mul]
          omega
        · rw [if_neg (by omega), if_neg hin]
    · rw [if_neg (by omega), hother heq]

theorem insert_spec {hi min : ℕ} (hk : k ≤ A.qsz) (hle : hi ≤ min) (hmin : min < A.n)
    (m : ℕ → β) : A.insert hi min k m = some (rotatedColumns A.qsz hi min k m) := by
  induction k generalizing m with
  | zero =>
    rw [Args.insert]
    congr 1
  | succ k ih =>
    have hlt := block_lt (show k < A.qsz by omega) hmin
    have hlt' := block_lt (show k < A.qsz by omega) (show hi < A.n by omega)
    simp only [Args.insert, load_of_lt hlt, bind_eq_bind, bind_some,
      shift_spec (show k < A.qsz by omega) hle hmin (show min - hi < min + 1 by omega),
      store_of_lt hlt']
    rw [ih (by omega), rotatedColumns_succ (by omega)]

theorem insert_elems {hi min : ℕ} (hle : hi ≤ min) (hmin : min < A.n) (m : ℕ → β) :
    ∃ m', A.insert hi min A.qsz m = some m' ∧ Becomes A (rotated hi min (elem A.qsz m)) m m' := by
  refine ⟨_, insert_spec le_rfl hle hmin m, ?_, ?_⟩
  · funext t
    rw [rotated]
    split_ifs with ht hin
    all_goals
      apply elem_congr
      intro b hb
      simp only [rotatedColumns, mod_block hb, div_block hb, if_pos hb, rotated]
    · rw [if_pos ht]
    · rw [if_neg ht, if_pos hin]
    · rw [if_neg ht, if_neg hin]
  · intro x hx
    rw [rotatedColumns]
    split_ifs with hq
    · have hge : A.n ≤ x / A.qsz := (Nat.le_div_iff_mul_le (by omega)).2 hx
      rw [rotated, if_neg (by omega), if_neg (by omega), Nat.div_add_mod']
    · rfl

end Sol26.Qsort
