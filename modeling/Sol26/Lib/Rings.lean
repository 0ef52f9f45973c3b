import Mathlib.Tactic

/-!
# Doubly linked rings

Cells with a link to the next one and a link to the one before. A ring is given by its cells in the
order of the links, from any of them.
-/
namespace Sol26.Rings

open Function
open List (append_assoc cons_append nodup_cons)

variable {α : Type*} {next prev next' prev' : α → α} {p q x y : α} {l l1 l2 : List α}

/-- The links lead around the cells `l`. -/
def Ring (next prev : α → α) (l : List α) : Prop :=
  Cycle.Chain (fun a b => next a = b ∧ prev b = a) (l : Cycle α)

theorem ring_cons : Ring next prev (x :: l) ↔
    List.IsChain (fun a b => next a = b ∧ prev b = a) (x :: (l ++ [x])) :=
  Cycle.chain_coe_cons _ _ _

/-- A ring may be entered at any cell. -/
theorem Ring.rotate (h : Ring next prev (l1 ++ l2)) : Ring next prev (l2 ++ l1) := by
  have he : ((l2 ++ l1 : List α) : Cycle α) = (l1 ++ l2 : List α) :=
    Cycle.coe_eq_coe.mpr List.isRotated_append
  unfold Ring
  rw [he]
  exact h

theorem Ring.congr (h : Ring next prev l) (hnext : ∀ a ∈ l, next' a = next a)
    (hprev : ∀ a ∈ l, prev' a = prev a) : Ring next' prev' l := by
  cases l with
  | nil => exact h
  | cons x l =>
    rw [ring_cons] at h ⊢
    have hmem : ∀ a ∈ x :: (l ++ [x]), a ∈ x :: l := by
      intro a ha
      simpa [or_comm] using ha
    apply h.imp_of_mem_imp
    intro a b ha hb hab
    rw [hnext a (hmem a ha), hprev b (hmem b hb)]
    exact hab

theorem ring_singleton : Ring next prev [x] ↔ next x = x ∧ prev x = x := by
  rw [ring_cons, List.nil_append, List.isChain_pair]

/-- Around the ring, the last cell comes before the first. -/
theorem Ring.last (h : Ring next prev (l ++ [y])) {l' : List α} (hl : l ++ [y] = x :: l') :
    next y = x ∧ prev x = y := by
  rw [hl, ring_cons, ← cons_append, ← hl, append_assoc] at h
  exact (List.isChain_append_cons_cons.mp h).2.1

theorem Ring.step (h : Ring next prev (l1 ++ x :: y :: l2)) : next x = y ∧ prev y = x := by
  have hr : Ring next prev (x :: y :: l2 ++ l1) := h.rotate
  rw [cons_append, cons_append, ring_cons] at hr
  exact (List.isChain_cons_cons.mp hr).1

/-- The links of a cell stay on the ring. -/
theorem Ring.next_mem (h : Ring next prev l) (hx : x ∈ l) : next x ∈ l := by
  obtain ⟨a, b, rfl⟩ := List.append_of_mem hx
  have hr : Ring next prev (x :: b ++ a) := h.rotate
  rw [cons_append] at hr
  cases hba : b ++ a with
  | nil =>
    rw [hba, ring_singleton] at hr
    rw [hr.1]
    exact hx
  | cons y l =>
    rw [hba] at hr
    have hs : Ring next prev ([] ++ x :: y :: l) := hr
    rw [hs.step.1]
    have hy : y ∈ b ++ a := by simp [hba]
    rcases List.mem_append.mp hy with hy | hy <;> simp [hy]

/-- The cell `p` is put before `q`. -/
def insertNext [DecidableEq α] (next prev : α → α) (p q : α) : α → α :=
  update (update next p q) (prev q) p

def insertPrev [DecidableEq α] (prev : α → α) (p q : α) : α → α :=
  update (update prev p (prev q)) q p

/-- The cell `p` is taken out. -/
def removeNext [DecidableEq α] (next prev : α → α) (p : α) : α → α :=
  update next (prev p) (next p)

def removePrev [DecidableEq α] (next prev : α → α) (p : α) : α → α :=
  update prev (next p) (prev p)

variable [DecidableEq α]

/-- A cell that is put before the first one is the last. -/
theorem Ring.insert (h : Ring next prev (q :: l)) (hnd : (q :: l).Nodup) (hp : p ∉ q :: l) :
    Ring (insertNext next prev p q) (insertPrev prev p q) (q :: (l ++ [p])) := by
  obtain ⟨l0, b, hl⟩ : ∃ l0 b, q :: l = l0 ++ [b] := by
    have := List.eq_nil_or_concat (q :: l)
    simpa [List.concat_eq_append] using this
  obtain ⟨hnb, hpq⟩ := (hl ▸ h).last hl.symm
  have hb : b ∈ q :: l := by simp [hl]
  have hpb : p ≠ b := fun he => hp (he ▸ hb)
  have hpq' : p ≠ q := fun he => hp (he ▸ List.mem_cons_self)
  have hqtail : q ∉ l := (nodup_cons.mp hnd).1
  rw [ring_cons] at h ⊢
  have hchain : List.IsChain (fun a b => next a = b ∧ prev b = a) (l0 ++ [b]) := by
    rw [← cons_append, hl, append_assoc] at h
    exact (List.isChain_append_cons_cons.mp h).1
  have hgoal : q :: (l ++ [p] ++ [q]) = l0 ++ b :: p :: [q] := by
    rw [append_assoc, ← cons_append, hl]
    simp
  rw [hgoal, List.isChain_append_cons_cons, List.isChain_pair]
  refine ⟨?_, ⟨?_, ?_⟩, ?_, ?_⟩
  · rw [← hl] at hchain ⊢
    apply hchain.imp_of_mem_tail_imp
    intro a y ha hy hay
    have hyq : y ≠ q := fun he => hqtail (he ▸ hy)
    have hab : a ≠ b := fun he => hyq (hay.1.symm.trans (he ▸ hnb))
    have hap : a ≠ p := fun he => hp (he ▸ ha)
    have hyp : y ≠ p := fun he => hp (he ▸ List.mem_cons_of_mem _ hy)
    unfold insertNext insertPrev
    rw [hpq, update_of_ne hab, update_of_ne hap, update_of_ne hyq, update_of_ne hyp]
    exact hay
  · unfold insertNext
    rw [hpq, update_self]
  · unfold insertPrev
    rw [update_of_ne hpq', update_self, hpq]
  · unfold insertNext
    rw [hpq, update_of_ne hpb, update_self]
  · unfold insertPrev
    rw [update_self]

/-- The first cell is taken out. -/
theorem Ring.remove (h : Ring next prev (x :: y :: l)) (hnd : (x :: y :: l).Nodup) :
    Ring (removeNext next prev x) (removePrev next prev x) (y :: l) := by
  obtain ⟨l0, b, hl⟩ : ∃ l0 b, y :: l = l0 ++ [b] := by
    have := List.eq_nil_or_concat (y :: l)
    simpa [List.concat_eq_append] using this
  have hb : b ∈ y :: l := by simp [hl]
  have hs : Ring next prev ([] ++ x :: y :: l) := h
  have hxy := hs.step
  have hlast : next b = x ∧ prev x = b := by
    have hr : Ring next prev ((x :: l0) ++ [b]) := by
      rw [cons_append, ← hl]
      exact h
    exact hr.last rfl
  have hytail : y ∉ l := (nodup_cons.mp (nodup_cons.mp hnd).2).1
  have hxmem : x ∉ y :: l := (nodup_cons.mp hnd).1
  rw [ring_cons] at h ⊢
  have hchain : List.IsChain (fun a b => next a = b ∧ prev b = a) (l0 ++ [b]) := by
    rw [hl, append_assoc] at h
    exact (List.isChain_cons_append_cons_cons.mp h).1.tail
  rw [← cons_append, hl, append_assoc]
  refine List.isChain_append_cons_cons.mpr ⟨?_, ⟨?_, ?_⟩, List.isChain_singleton _⟩
  · rw [← hl] at hchain ⊢
    apply hchain.imp_of_mem_tail_imp
    intro a z ha hz haz
    have hzy : z ≠ y := fun he => hytail (he ▸ hz)
    have hab : a ≠ b := by
      intro he
      have hzx : z = x := haz.1.symm.trans (he ▸ hlast.1)
      exact hxmem (hzx ▸ List.mem_cons_of_mem _ hz)
    unfold removeNext removePrev
    rw [hlast.2, hxy.1, update_of_ne hab, update_of_ne hzy]
    exact haz
  · unfold removeNext
    rw [hlast.2, update_self, hxy.1]
  · unfold removePrev
    rw [hxy.1, update_self, hlast.2]

end Sol26.Rings
