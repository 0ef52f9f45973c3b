import Sol26.Lib.Linked

/-!
# The disk queue is a one-way elevator

Model of `disksort` from `uts/common/os/bdev_dsort.c`. The queue holds two lists of requests in
ascending order of their cylinders, and the second one begins where the cylinders fall. A loop along
the queue takes as much fuel as it has requests.
-/
namespace Sol26.Disk

open Function (update update_of_ne update_self)
open Option (bind_eq_some_iff some_inj)
open List (append_assoc append_nil cons_append cons_ne_nil mem_append_left mem_append_right mem_cons
  mem_cons_self nil_append nodup_append nodup_cons pairwise_cons)

open Linked

variable {P C : Type}

/-- The head of the queue, and the requests: `av_forw` and `b_cylin`, the cylinder in `b_resid`. -/
structure Queue (P C : Type) where
  actf : Option P
  actl : Option P
  forw : P → Option P
  cylin : P → C

/-- `while (ap->av_forw)`, until a request and the one after it satisfy `stop`. -/
def Queue.seek (dp : Queue P C) (stop : P → P → Prop) [DecidableRel stop] : ℕ → P → Option P
  | 0, _ => none
  | fuel + 1, ap =>
    match dp.forw ap with
    | none => some ap
    | some next => if stop ap next then some ap else dp.seek stop fuel next

/-! ### The loop along the queue -/

section Seek

variable {dp : Queue P C} {stop : P → P → Prop} [DecidableRel stop] {ap b : P} {l : List P}

/-- The loop stops at a request with which `stop` holds of the next one, or at the last one. -/
theorem Queue.seek_spec {fuel : ℕ} (hl : Links some dp.forw (some ap) (ap :: l) none)
    (h : dp.seek stop fuel ap = some b) :
    ∃ l1 l2, ap :: l = l1 ++ b :: l2 ∧ (l1 ++ [b]).IsChain (fun x y => ¬ stop x y) ∧
      ∀ x ∈ l2.head?, stop b x := by
  induction fuel generalizing ap l with
  | zero => exact absurd h (by simp [seek])
  | succ fuel ih =>
    rw [seek] at h
    cases l with
    | nil =>
      rw [show dp.forw ap = none from hl.2] at h
      cases h
      exact ⟨[], [], rfl, by simp, by simp⟩
    | cons next l =>
      have hnext : dp.forw ap = some next := hl.2.1
      rw [hnext] at h
      dsimp only at h
      by_cases hstop : stop ap next
      · rw [if_pos hstop] at h
        cases h
        exact ⟨[], next :: l, rfl, by simp, by simpa using hstop⟩
      · rw [if_neg hstop] at h
        have hrest := hl.2
        rw [hnext] at hrest
        obtain ⟨l1, l2, heq, hchain, hend⟩ := ih hrest h
        refine ⟨ap :: l1, l2, by rw [heq]; rfl, ?_, hend⟩
        cases l1 with
        | nil =>
          obtain ⟨rfl, -⟩ := List.cons.inj heq
          simpa using hstop
        | cons c l1 =>
          obtain ⟨rfl, -⟩ := List.cons.inj heq
          exact List.IsChain.cons_cons hstop hchain

theorem Queue.seek_total {fuel : ℕ} (hl : Links some dp.forw (some ap) (ap :: l) none)
    (hfuel : l.length < fuel) : ∃ b, dp.seek stop fuel ap = some b := by
  induction fuel generalizing ap l with
  | zero => exact absurd hfuel (Nat.not_lt_zero _)
  | succ fuel ih =>
    rw [seek]
    cases l with
    | nil =>
      rw [show dp.forw ap = none from hl.2]
      exact ⟨ap, rfl⟩
    | cons next l =>
      have hnext : dp.forw ap = some next := hl.2.1
      have hrest := hl.2
      rw [hnext] at hrest ⊢
      dsimp only
      by_cases hstop : stop ap next
      · rw [if_pos hstop]
        exact ⟨ap, rfl⟩
      · rw [if_neg hstop]
        exact ih hrest (Nat.lt_of_succ_lt_succ hfuel)

end Seek

/-! ### Inserting a request -/

variable [DecidableEq P] [LinearOrder C]

/-- The label `insert`. -/
def Queue.insert (dp : Queue P C) (ap bp : P) : Queue P C :=
  { dp with
    forw := update (update dp.forw bp (dp.forw ap)) ap (some bp)
    actl := if dp.actl = some ap then some bp else dp.actl }

/-- `disksort` -/
def Queue.disksort (dp : Queue P C) (fuel : ℕ) (bp : P) : Option (Queue P C) :=
  match dp.actf with
  | none =>
    some { dp with actf := some bp, actl := some bp, forw := update dp.forw bp none }
  | some ap =>
    if dp.cylin bp < dp.cylin ap then do
      -- look for an inversion, which is the start of the second request list
      let ap ← dp.seek (fun ap next => dp.cylin next < dp.cylin ap) fuel ap
      -- then for the first request of that list at a larger cylinder; at the end there is none
      let ap ← dp.seek (fun _ next => dp.cylin bp < dp.cylin next) fuel ap
      return dp.insert ap bp
    else do
      let ap ← dp.seek (fun ap next => dp.cylin next < dp.cylin ap ∨ dp.cylin bp < dp.cylin next)
        fuel ap
      return dp.insert ap bp

/-- A driver takes the first request. -/
def Queue.remove (dp : Queue P C) : Queue P C :=
  match dp.actf with
  | none => dp
  | some bp => { dp with actf := dp.forw bp }

/-! ### Runs -/

/-- A queue with the requests that are outstanding and the times at which they came. -/
structure System (P C : Type) where
  queue : Queue P C
  outstanding : List P
  arrival : P → ℕ
  now : ℕ

/-- A request for the cylinder `c` has been put in `bp`. -/
def Queue.request (dp : Queue P C) (bp : P) (c : C) : Queue P C :=
  { dp with cylin := update dp.cylin bp c }

inductive Run : System P C → Prop
  | start (forw : P → Option P) (cylin : P → C) (arrival : P → ℕ) :
      Run ⟨⟨none, none, forw, cylin⟩, [], arrival, 0⟩
  | insert {s : System P C} {fuel : ℕ} {bp : P} {c : C} {dp : Queue P C} (h : Run s)
      (hnew : bp ∉ s.outstanding) (hdp : (s.queue.request bp c).disksort fuel bp = some dp) :
      Run ⟨dp, bp :: s.outstanding, update s.arrival bp s.now, s.now + 1⟩
  | remove {s : System P C} {bp : P} (h : Run s) (hbp : s.queue.actf = some bp) :
      Run ⟨s.queue.remove, s.outstanding.erase bp, s.arrival, s.now⟩

/-- The order within a list: by cylinder, then by arrival. -/
def System.Before (s : System P C) (a b : P) : Prop :=
  s.queue.cylin a < s.queue.cylin b ∨
    s.queue.cylin a = s.queue.cylin b ∧ s.arrival a < s.arrival b

/-- The two request lists. -/
structure Elevator (s : System P C) (first second : List P) : Prop where
  links : Links some s.queue.forw s.queue.actf (first ++ second) none
  perm : (first ++ second).Perm s.outstanding
  first_ne : first = [] → second = []
  sorted : first.Pairwise s.Before
  sorted' : second.Pairwise s.Before
  below : ∀ a ∈ first, ∀ b ∈ second, s.queue.cylin b < s.queue.cylin a
  last : first ≠ [] → s.queue.actl = (first ++ second).getLast?

/-! ### Two lists -/

section Lists

variable {R : P → P → Prop} {key : P → C} {l l1 l2 first second : List P} {a b : P}

omit [DecidableEq P] in
theorem pairwise_insert (h : (l1 ++ l2).Pairwise R) (hbefore : ∀ x ∈ l1, R x a)
    (hafter : ∀ y ∈ l2, R a y) : (l1 ++ a :: l2).Pairwise R := by
  rw [List.pairwise_append] at h ⊢
  refine ⟨h.1, pairwise_cons.mpr ⟨hafter, h.2.1⟩, ?_⟩
  intro x hx y hy
  rcases mem_cons.mp hy with rfl | hy
  · exact hbefore x hx
  · exact h.2.2 x hx y hy

omit [DecidableEq P] in
/-- What holds of the second of any two neighbours holds of all but the first. -/
theorem forall_of_isChain {q : P → Prop} (h : (a :: l).IsChain R) (hq : ∀ x y, R x y → q y) :
    ∀ y ∈ l, q y := by
  induction l generalizing a with
  | nil => simp
  | cons b l ih =>
    obtain ⟨hab, hl⟩ := List.isChain_cons_cons.mp h
    intro y hy
    rcases mem_cons.mp hy with rfl | hy
    · exact hq a y hab
    · exact ih hl y hy

omit [DecidableEq P] in
/-- A part without an inversion ends in the first list. -/
theorem split_first (hne : first ≠ []) (hbelow : ∀ a ∈ first, ∀ b ∈ second, key b < key a)
    (heq : first ++ second = l1 ++ b :: l2)
    (hchain : (l1 ++ [b]).IsChain fun x y => ¬ key y < key x) :
    ∃ l, first = (l1 ++ [b]) ++ l ∧ l2 = l ++ second := by
  rw [show l1 ++ b :: l2 = (l1 ++ [b]) ++ l2 by simp] at heq
  rcases List.append_eq_append_iff.mp heq with ⟨l, hl, hsecond⟩ | ⟨l, hfirst, hl2⟩
  · cases l with
    | nil =>
      refine ⟨[], ?_, ?_⟩
      · rw [append_nil] at hl ⊢
        exact hl.symm
      · rw [hsecond, nil_append, nil_append]
    | cons x l =>
      -- the last request of the first list and the first one of the second are an inversion
      obtain ⟨front, z, rfl⟩ := List.eq_nil_or_concat first |>.resolve_left hne
      rw [hl, List.concat_eq_append, append_assoc] at hchain
      have hpair := (List.isChain_append.mp hchain).2.1
      have hinv := hbelow z (by simp) x (by simp [hsecond])
      exact absurd hinv (List.isChain_cons_cons.mp hpair).1
  · exact ⟨l, hfirst, hl2⟩

end Lists

section Insert

variable {dp : Queue P C} {b bp : P} {l1 l2 : List P}

omit [LinearOrder C] in
theorem Queue.insert_forw : (dp.insert b bp).forw =
    update (update dp.forw bp (dp.forw b)) b (some bp) := rfl

omit [LinearOrder C] in
theorem Queue.insert_links (h : Links some dp.forw dp.actf (l1 ++ b :: l2) none)
    (hnd : (l1 ++ b :: l2).Nodup) (hnew : bp ∉ l1 ++ b :: l2) :
    Links some (dp.insert b bp).forw dp.actf (l1 ++ b :: bp :: l2) none := by
  have hne : ∀ x ∈ l1 ++ b :: l2, x ≠ bp := fun x hx heq => hnew (heq ▸ hx)
  have hbp : bp ≠ b := (hne b (by simp)).symm
  have hb1 : ∀ x ∈ l1, x ≠ b := by
    intro x hx heq
    exact (nodup_append.mp hnd).2.2 x hx b mem_cons_self heq
  have hb2 : ∀ x ∈ l2, x ≠ b := by
    intro x hx heq
    exact (nodup_cons.mp (nodup_append.mp hnd).2.1).1 (heq ▸ hx)
  apply h.redirect
  · intro x hx
    rw [insert_forw, update_of_ne (hb1 x hx), update_of_ne (hne x (mem_append_left _ hx))]
  · refine ⟨update_self .., ?_⟩
    have hfrom : (dp.insert b bp).forw bp = dp.forw b := by
      rw [insert_forw, update_of_ne hbp, update_self]
    rw [hfrom]
    apply Links.congr (linked_append.mp h).2.2
    intro x hx
    rw [insert_forw, update_of_ne (hb2 x hx), update_of_ne (hne x (by simp [hx]))]

omit [LinearOrder C] in
theorem Queue.insert_actl (h : dp.actl = (l1 ++ b :: l2).getLast?) (hnd : (l1 ++ b :: l2).Nodup) :
    (dp.insert b bp).actl = (l1 ++ b :: bp :: l2).getLast? := by
  rw [insert]
  dsimp only
  cases l2 using List.reverseRecOn with
  | nil =>
    rw [List.getLast?_concat] at h
    rw [if_pos h]
    simp
  | append_singleton l z =>
    rw [← cons_append, ← append_assoc, List.getLast?_concat] at h
    have hz : z ≠ b := by
      intro heq
      exact (nodup_cons.mp (nodup_append.mp hnd).2.1).1 (by simp [heq])
    rw [h, if_neg (fun heq => hz (some_inj.mp heq)),
      show l1 ++ b :: bp :: (l ++ [z]) = (l1 ++ b :: bp :: l) ++ [z] by simp, List.getLast?_concat]

end Insert

/-! ### Steps -/

variable {s : System P C} {first second : List P} {bp : P}

/-- Every outstanding request is there once, and came before now. -/
structure Known (s : System P C) : Prop where
  nodup : s.outstanding.Nodup
  arrived : ∀ a ∈ s.outstanding, s.arrival a < s.now

/-- A new request does not matter before it is in the queue. -/
theorem Elevator.request (h : Elevator s first second) (hnew : bp ∉ s.outstanding) (c : C) :
    Elevator ⟨s.queue.request bp c, s.outstanding, update s.arrival bp s.now, s.now + 1⟩
      first second := by
  have hne : ∀ a ∈ first ++ second, a ≠ bp := by
    intro a ha heq
    exact hnew (heq ▸ h.perm.subset ha)
  have hcylin : ∀ a ∈ first ++ second, (s.queue.request bp c).cylin a = s.queue.cylin a :=
    fun a ha => update_of_ne (hne a ha) ..
  have harrival : ∀ a ∈ first ++ second, update s.arrival bp s.now a = s.arrival a :=
    fun a ha => update_of_ne (hne a ha) ..
  have hbefore : ∀ a ∈ first ++ second, ∀ b ∈ first ++ second, s.Before a b →
      System.Before ⟨s.queue.request bp c, s.outstanding, update s.arrival bp s.now,
        s.now + 1⟩ a b := by
    intro a ha b hb hab
    unfold System.Before
    dsimp only
    rw [hcylin a ha, hcylin b hb, harrival a ha, harrival b hb]
    exact hab
  constructor
  · exact h.links
  · exact h.perm
  · exact h.first_ne
  · exact h.sorted.imp_of_mem fun ha hb =>
      hbefore _ (mem_append_left _ ha) _ (mem_append_left _ hb)
  · exact h.sorted'.imp_of_mem fun ha hb =>
      hbefore _ (mem_append_right _ ha) _ (mem_append_right _ hb)
  · intro a ha b hb
    dsimp only
    rw [hcylin a (mem_append_left _ ha), hcylin b (mem_append_right _ hb)]
    exact h.below a ha b hb
  · exact h.last

/-- A request is linked in behind `b`. -/
theorem Elevator.insert {l1 l2 first' second' : List P} {b : P} (h : Elevator s first second)
    (hnd : s.outstanding.Nodup) (hnew : bp ∉ s.outstanding) (hne : first ≠ [])
    (heq : first ++ second = l1 ++ b :: l2) (heq' : first' ++ second' = l1 ++ b :: bp :: l2)
    (hne' : first' ≠ []) (hsorted : first'.Pairwise s.Before)
    (hsorted' : second'.Pairwise s.Before)
    (hbelow : ∀ x ∈ first', ∀ y ∈ second', s.queue.cylin y < s.queue.cylin x) :
    Elevator ⟨s.queue.insert b bp, bp :: s.outstanding, s.arrival, s.now⟩ first' second' := by
  have hlinks := h.links
  have hperm := h.perm
  have hlast := h.last hne
  have hnd' := hperm.nodup_iff.mpr hnd
  rw [heq] at hlinks hperm hlast hnd'
  have hnew' : bp ∉ l1 ++ b :: l2 := fun hmem => hnew (hperm.subset hmem)
  constructor
  · rw [heq']
    exact Queue.insert_links hlinks hnd' hnew'
  · rw [heq', show l1 ++ b :: bp :: l2 = (l1 ++ [b]) ++ bp :: l2 by simp]
    refine List.perm_middle.trans (List.Perm.cons bp ?_)
    rw [show (l1 ++ [b]) ++ l2 = l1 ++ b :: l2 by simp]
    exact hperm
  · exact fun hnil => absurd hnil hne'
  · exact hsorted
  · exact hsorted'
  · exact hbelow
  · intro _
    rw [heq']
    exact Queue.insert_actl hlast hnd'

omit [DecidableEq P] in
/-- The first list has a request, which is the head of the queue. -/
theorem Elevator.head (h : Elevator s first second) {ap : P} (hap : s.queue.actf = some ap) :
    ∃ l, first = ap :: l := by
  cases first with
  | nil =>
    have hlinks := h.links
    rw [h.first_ne rfl, hap] at hlinks
    exact absurd hlinks (by simp [Links])
  | cons a l =>
    have heq : s.queue.actf = some a := h.links.1
    obtain rfl := some_inj.mp (hap.symm.trans heq)
    exact ⟨l, rfl⟩

omit [DecidableEq P] in
/-- The head is the lowest request of the first list. -/
theorem Elevator.head_le {ap : P} {l : List P} (h : Elevator s (ap :: l) second) :
    ∀ x ∈ ap :: l, s.queue.cylin ap ≤ s.queue.cylin x := by
  intro x hx
  rcases mem_cons.mp hx with rfl | hx
  · exact le_refl _
  · rcases (pairwise_cons.mp h.sorted).1 x hx with hlt | hsame
    · exact hlt.le
    · exact hsame.1.le

omit [DecidableEq P] in
/-- A request goes between those that are not beyond it and those that are. -/
theorem System.sorted_insert {l1 l2 : List P} (hsorted : (l1 ++ l2).Pairwise s.Before)
    (hlate : ∀ x ∈ l1, s.arrival x < s.arrival bp)
    (hle : ∀ x ∈ l1, s.queue.cylin x ≤ s.queue.cylin bp)
    (hgt : ∀ y ∈ l2.head?, s.queue.cylin bp < s.queue.cylin y) :
    (l1 ++ bp :: l2).Pairwise s.Before := by
  apply pairwise_insert hsorted
  · intro x hx
    rcases (hle x hx).lt_or_eq with hlt | hsame
    · exact .inl hlt
    · exact .inr ⟨hsame, hlate x hx⟩
  · cases l2 with
    | nil => simp
    | cons y l2 =>
      have hy := hgt y rfl
      intro z hz
      rcases mem_cons.mp hz with rfl | hz
      · exact .inl hy
      · rcases (pairwise_cons.mp (List.pairwise_append.mp hsorted).2.1).1 z hz with hlt | hsame
        · exact .inl (hy.trans hlt)
        · exact .inl (hsame.1 ▸ hy)

omit [DecidableEq P] in
/-- There is no inversion in a sorted list. -/
theorem System.not_inversion {l1 l2 : List P} {b y : P}
    (hsorted : ((l1 ++ [b]) ++ y :: l2).Pairwise s.Before) :
    ¬ s.queue.cylin y < s.queue.cylin b := by
  rcases (List.pairwise_append.mp hsorted).2.2 b (by simp) y mem_cons_self with hlt | hsame
  · exact not_lt.mpr hlt.le
  · exact not_lt.mpr hsame.1.le

/-- A request at or after the head goes to the first list. -/
theorem Elevator.insert_first {fuel : ℕ} {ap b : P} (h : Elevator s first second)
    (hnd : s.outstanding.Nodup) (hnew : bp ∉ s.outstanding)
    (hlate : ∀ a ∈ s.outstanding, s.arrival a < s.arrival bp) (hap : s.queue.actf = some ap)
    (hc : ¬ s.queue.cylin bp < s.queue.cylin ap)
    (hseek : s.queue.seek (fun ap next => s.queue.cylin next < s.queue.cylin ap ∨
      s.queue.cylin bp < s.queue.cylin next) fuel ap = some b) :
    ∃ first' second', Elevator
      ⟨s.queue.insert b bp, bp :: s.outstanding, s.arrival, s.now⟩ first' second' := by
  obtain ⟨l, rfl⟩ := h.head hap
  have hlinks := h.links
  rw [hap] at hlinks
  obtain ⟨l1, l2, heq, hchain, hend⟩ := Queue.seek_spec hlinks hseek
  obtain ⟨f, hfirst, hl2⟩ := split_first (cons_ne_nil _ _) h.below heq
    (hchain.imp fun _ _ hstop => (not_or.mp hstop).1)
  -- the requests before the place are not beyond the new one
  have hle : ∀ x ∈ l1 ++ [b], s.queue.cylin x ≤ s.queue.cylin bp := by
    obtain ⟨m, hm⟩ : ∃ m, l1 ++ [b] = ap :: m := by
      cases l1 with
      | nil => exact ⟨[], by rw [(List.cons.inj heq).1]; rfl⟩
      | cons a l1 => exact ⟨l1 ++ [b], by rw [(List.cons.inj heq).1]; rfl⟩
    rw [hm] at hchain ⊢
    intro x hx
    rcases mem_cons.mp hx with rfl | hx
    · exact not_lt.mp hc
    · exact forall_of_isChain hchain (fun _ _ hstop => not_lt.mp (not_or.mp hstop).2) x hx
  have hsub : ∀ x ∈ (l1 ++ [b]) ++ f, x ∈ s.outstanding := by
    intro x hx
    rw [← hfirst] at hx
    exact h.perm.subset (mem_append_left _ hx)
  have hsorted := h.sorted
  rw [hfirst] at hsorted
  have hgt : ∀ y ∈ f.head?, s.queue.cylin bp < s.queue.cylin y := by
    cases f with
    | nil => simp
    | cons y f =>
      intro z hz
      cases hz
      exact (hend y (by rw [hl2]; rfl)).resolve_left (System.not_inversion hsorted)
  have hsorted' := System.sorted_insert hsorted
    (fun x hx => hlate x (hsub x (mem_append_left _ hx))) hle hgt
  refine ⟨(l1 ++ [b]) ++ bp :: f, second, h.insert hnd hnew (cons_ne_nil _ _) heq ?_ (by simp)
    hsorted' h.sorted' ?_⟩
  · rw [hl2]
    simp
  · intro x hx y hy
    have hhead := h.below ap mem_cons_self y hy
    rcases List.mem_append.mp hx with hx | hx
    · exact h.below x (by rw [hfirst]; exact mem_append_left _ hx) y hy
    · rcases mem_cons.mp hx with rfl | hx
      · exact hhead.trans_le (not_lt.mp hc)
      · exact h.below x (by rw [hfirst]; exact mem_append_right _ hx) y hy

/-- A request before the head goes to the second list. -/
theorem Elevator.insert_second {fuel : ℕ} {ap b e : P} (h : Elevator s first second)
    (hnd : s.outstanding.Nodup) (hnew : bp ∉ s.outstanding)
    (hlate : ∀ a ∈ s.outstanding, s.arrival a < s.arrival bp) (hap : s.queue.actf = some ap)
    (hc : s.queue.cylin bp < s.queue.cylin ap)
    (hseek : s.queue.seek (fun ap next => s.queue.cylin next < s.queue.cylin ap) fuel ap = some b)
    (hseek' : s.queue.seek (fun _ next => s.queue.cylin bp < s.queue.cylin next) fuel b = some e) :
    ∃ first' second', Elevator
      ⟨s.queue.insert e bp, bp :: s.outstanding, s.arrival, s.now⟩ first' second' := by
  obtain ⟨l, rfl⟩ := h.head hap
  have hlinks := h.links
  rw [hap] at hlinks
  obtain ⟨l1, l2, heq, hchain, hend⟩ := Queue.seek_spec hlinks hseek
  obtain ⟨f, hfirst, hl2⟩ := split_first (cons_ne_nil _ _) h.below heq hchain
  -- the inversion is where the first list ends
  obtain rfl : f = [] := by
    cases f with
    | nil => rfl
    | cons y f =>
      have hsorted := h.sorted
      rw [hfirst] at hsorted
      exact absurd (hend y (by rw [hl2]; rfl)) (System.not_inversion hsorted)
  rw [append_nil] at hfirst
  rw [nil_append] at hl2
  have hlinks' : Links some s.queue.forw (some b) (b :: second) none := by
    have hall := h.links
    rw [hfirst, append_assoc, List.singleton_append] at hall
    exact (linked_append.mp hall).2
  obtain ⟨m1, m2, hsplit, hchain', hend'⟩ := Queue.seek_spec hlinks' hseek'
  obtain ⟨g, hg, hsecond⟩ : ∃ g, m1 ++ [e] = b :: g ∧ second = g ++ m2 := by
    cases m1 with
    | nil => exact ⟨[], by rw [(List.cons.inj hsplit).1]; rfl, (List.cons.inj hsplit).2⟩
    | cons a m1 =>
      exact ⟨m1 ++ [e], by rw [(List.cons.inj hsplit).1]; rfl, by simpa using (List.cons.inj hsplit).2⟩
  rw [hg] at hchain'
  have hle : ∀ x ∈ g, s.queue.cylin x ≤ s.queue.cylin bp :=
    forall_of_isChain hchain' fun _ _ hstop => not_lt.mp hstop
  have hsub : ∀ x ∈ g, x ∈ s.outstanding := by
    intro x hx
    refine h.perm.subset (mem_append_right _ ?_)
    rw [hsecond]
    exact mem_append_left _ hx
  have hsorted := System.sorted_insert (hsecond ▸ h.sorted') (fun x hx => hlate x (hsub x hx)) hle
    hend'
  refine ⟨ap :: l, g ++ bp :: m2, @Elevator.insert _ _ _ _ _ _ _ _ (l1 ++ m1) m2 _ _ e h hnd hnew
    (cons_ne_nil _ _) ?_ ?_ (cons_ne_nil _ _) h.sorted hsorted ?_⟩
  · rw [hfirst, append_assoc, List.singleton_append, hsplit, append_assoc]
  · calc (ap :: l) ++ (g ++ bp :: m2) = l1 ++ (b :: g) ++ bp :: m2 := by simp [hfirst]
      _ = l1 ++ m1 ++ e :: bp :: m2 := by simp [← hg]
  · intro x hx y hy
    rcases List.mem_append.mp hy with hy | hy
    · exact h.below x hx y (by rw [hsecond]; exact mem_append_left _ hy)
    · rcases mem_cons.mp hy with rfl | hy
      · exact hc.trans_le (h.head_le x hx)
      · exact h.below x hx y (by rw [hsecond]; exact mem_append_right _ hy)

omit [DecidableEq P] in
/-- Without a head the queue is empty. -/
theorem Elevator.empty (h : Elevator s first second) (hactf : s.queue.actf = none) :
    first = [] ∧ second = [] := by
  cases first with
  | nil => exact ⟨rfl, h.first_ne rfl⟩
  | cons a l => exact absurd (hactf.symm.trans h.links.1) (by simp)

/-- `disksort` keeps the two lists, and the head if there is one. -/
theorem Elevator.disksort {fuel : ℕ} {c : C} {dp : Queue P C} (h : Elevator s first second)
    (hk : Known s) (hnew : bp ∉ s.outstanding)
    (hdp : (s.queue.request bp c).disksort fuel bp = some dp) :
    (∃ first' second', Elevator
      ⟨dp, bp :: s.outstanding, update s.arrival bp s.now, s.now + 1⟩ first' second') ∧
    (s.outstanding ≠ [] → dp.actf = s.queue.actf) := by
  have h0 := h.request hnew c
  have hlate : ∀ a ∈ s.outstanding,
      update s.arrival bp s.now a < update s.arrival bp s.now bp := by
    intro a ha
    have hne : a ≠ bp := fun heq => hnew (heq ▸ ha)
    rw [update_self, update_of_ne hne]
    exact hk.arrived a ha
  unfold Queue.disksort at hdp
  cases hactf : (s.queue.request bp c).actf with
  | none =>
    rw [hactf] at hdp
    cases hdp
    obtain ⟨rfl, rfl⟩ := h0.empty hactf
    have hnil : s.outstanding = [] := h.perm.symm.eq_nil
    rw [hnil]
    refine ⟨⟨[bp], [], ⟨rfl, ?_⟩, List.Perm.refl _, by simp, by simp, by simp, by simp, by simp⟩,
      by simp⟩
    exact update_self ..
  | some ap =>
    rw [hactf] at hdp
    dsimp only at hdp
    by_cases hc : (s.queue.request bp c).cylin bp < (s.queue.request bp c).cylin ap
    · rw [if_pos hc] at hdp
      obtain ⟨b, hseek, hdp⟩ := bind_eq_some_iff.mp hdp
      obtain ⟨e, hseek', hdp⟩ := bind_eq_some_iff.mp hdp
      cases hdp
      exact ⟨h0.insert_second hk.nodup hnew hlate hactf hc hseek hseek', fun _ => rfl⟩
    · rw [if_neg hc] at hdp
      obtain ⟨b, hseek, hdp⟩ := bind_eq_some_iff.mp hdp
      cases hdp
      exact ⟨h0.insert_first hk.nodup hnew hlate hactf hc hseek, fun _ => rfl⟩

/-- The loops end when the fuel exceeds the number of requests. -/
theorem Elevator.disksort_total {fuel : ℕ} (h : Elevator s first second)
    (hnew : bp ∉ s.outstanding) (c : C) (hfuel : s.outstanding.length ≤ fuel) :
    ∃ dp, (s.queue.request bp c).disksort fuel bp = some dp := by
  have h0 := h.request hnew c
  have hlinks := h0.links
  have hlen := h0.perm.length_eq
  unfold Queue.disksort
  cases hactf : (s.queue.request bp c).actf with
  | none => exact ⟨_, rfl⟩
  | some ap =>
    obtain ⟨l, rfl⟩ := h0.head hactf
    rw [hactf, cons_append] at hlinks
    rw [cons_append, List.length_cons] at hlen
    dsimp only at hlen ⊢
    by_cases hc : (s.queue.request bp c).cylin bp < (s.queue.request bp c).cylin ap
    · rw [if_pos hc]
      obtain ⟨b, hb⟩ := @Queue.seek_total _ _ _ (fun ap next =>
        (s.queue.request bp c).cylin next < (s.queue.request bp c).cylin ap) _ _ _ fuel hlinks
        (by omega)
      obtain ⟨l1, l2, heq, -, -⟩ := Queue.seek_spec hlinks hb
      have hlinks' : Links some (s.queue.request bp c).forw (some b) (b :: l2) none := by
        rw [heq] at hlinks
        exact (linked_append.mp hlinks).2
      have hlen' := congrArg List.length heq
      simp only [List.length_cons, List.length_append] at hlen hlen'
      obtain ⟨e, he⟩ := @Queue.seek_total _ _ _ (fun _ next =>
        (s.queue.request bp c).cylin bp < (s.queue.request bp c).cylin next) _ _ _ fuel hlinks'
        (by omega)
      rw [hb, Option.bind_eq_bind, Option.bind_some, he]
      exact ⟨_, rfl⟩
    · rw [if_neg hc]
      obtain ⟨b, hb⟩ := @Queue.seek_total _ _ _ (fun ap next =>
        (s.queue.request bp c).cylin next < (s.queue.request bp c).cylin ap ∨
          (s.queue.request bp c).cylin bp < (s.queue.request bp c).cylin next) _ _ _ fuel hlinks
        (by omega)
      rw [hb]
      exact ⟨_, rfl⟩

/-- When the first list is used up, the second one takes its place. -/
theorem Elevator.remove (h : Elevator s first second) (hbp : s.queue.actf = some bp) :
    ∃ first' second',
      Elevator ⟨s.queue.remove, s.outstanding.erase bp, s.arrival, s.now⟩ first' second' := by
  obtain ⟨l, rfl⟩ := h.head hbp
  have hqueue : s.queue.remove = { s.queue with actf := s.queue.forw bp } := by
    rw [Queue.remove, hbp]
  have hlinks := h.links.2
  have hperm : (l ++ second).Perm (s.outstanding.erase bp) := by
    have := h.perm.erase bp
    rwa [cons_append, List.erase_cons_head] at this
  have hlast := h.last (cons_ne_nil _ _)
  rw [hqueue]
  cases l with
  | nil =>
    refine ⟨second, [], ?_, ?_, fun _ => rfl, h.sorted', List.Pairwise.nil, by simp, ?_⟩
    · rw [append_nil]
      exact hlinks
    · rw [append_nil]
      exact hperm
    · intro hne
      obtain ⟨a, l, rfl⟩ := List.exists_cons_of_ne_nil hne
      simpa using hlast
  | cons a l =>
    refine ⟨a :: l, second, hlinks, hperm, by simp, (pairwise_cons.mp h.sorted).2, h.sorted',
      fun x hx => h.below x (List.mem_cons_of_mem _ hx), ?_⟩
    intro _
    simpa using hlast

theorem Run.known (h : Run s) : Known s := by
  induction h with
  | start forw cylin arrival => exact ⟨List.nodup_nil, by simp⟩
  | @insert s fuel bp c dp h hnew hdp ih =>
    refine ⟨nodup_cons.mpr ⟨hnew, ih.nodup⟩, ?_⟩
    intro a ha
    dsimp only
    rcases mem_cons.mp ha with rfl | ha
    · rw [update_self]
      omega
    · have hne : a ≠ bp := fun heq => hnew (heq ▸ ha)
      rw [update_of_ne hne]
      have := ih.arrived a ha
      omega
  | @remove s bp h hbp ih =>
    exact ⟨ih.nodup.erase bp, fun a ha => ih.arrived a (List.mem_of_mem_erase ha)⟩

theorem Run.elevator (h : Run s) : ∃ first second, Elevator s first second := by
  induction h with
  | start forw cylin arrival =>
    exact ⟨[], [], rfl, List.Perm.refl _, by simp, List.Pairwise.nil, List.Pairwise.nil, by simp,
      by simp⟩
  | @insert s fuel bp c dp h hnew hdp ih =>
    obtain ⟨first, second, he⟩ := ih
    exact (he.disksort h.known hnew hdp).1
  | @remove s bp h hbp ih =>
    obtain ⟨first, second, he⟩ := ih
    exact he.remove hbp

/-- In every run the queue holds the outstanding requests in two lists, each ascending by cylinder
and then by arrival, with the second below the first. `b_actl` is the last request. An insertion
ends, and leaves the head where it is. -/
theorem disksort_elevator (h : Run s) :
    (∃ first second, Links some s.queue.forw s.queue.actf (first ++ second) none ∧
      (first ++ second).Perm s.outstanding ∧
      first.Pairwise s.Before ∧ second.Pairwise s.Before ∧
      (∀ a ∈ first, ∀ b ∈ second, s.queue.cylin b < s.queue.cylin a) ∧
      (first ++ second ≠ [] → s.queue.actl = (first ++ second).getLast?)) ∧
    ∀ bp c, bp ∉ s.outstanding → ∀ fuel, s.outstanding.length ≤ fuel →
      ∃ dp, (s.queue.request bp c).disksort fuel bp = some dp ∧
        (s.outstanding ≠ [] → dp.actf = s.queue.actf) := by
  obtain ⟨first, second, he⟩ := h.elevator
  constructor
  · refine ⟨first, second, he.links, he.perm, he.sorted, he.sorted', he.below, fun hne => ?_⟩
    apply he.last
    intro hnil
    rw [hnil, he.first_ne hnil] at hne
    exact hne rfl
  · intro bp c hnew fuel hfuel
    obtain ⟨dp, hdp⟩ := he.disksort_total hnew c hfuel
    exact ⟨dp, hdp, (he.disksort h.known hnew hdp).2⟩

/-- Requests for the cylinders 5, 2, 7, 3 and 7 make two lists. -/
theorem disksort_elevator_fiveRequests : ∃ s : System (Fin 5) ℕ,
    Links some s.queue.forw s.queue.actf [0, 2, 4, 1, 3] none ∧
    ∃ first second, Links some s.queue.forw s.queue.actf (first ++ second) none ∧
      (first ++ second).Perm s.outstanding ∧ first.Pairwise s.Before ∧ second.Pairwise s.Before ∧
      ∀ a ∈ first, ∀ b ∈ second, s.queue.cylin b < s.queue.cylin a := by
  have h0 : Run (⟨⟨none, none, fun _ => none, fun _ => 0⟩, [], fun _ => 0, 0⟩ :
      System (Fin 5) ℕ) := .start _ _ _
  have h1 := @Run.insert _ _ _ _ _ 5 0 5 _ h0 (by decide) rfl
  have h2 := @Run.insert _ _ _ _ _ 5 1 2 _ h1 (by decide) rfl
  have h3 := @Run.insert _ _ _ _ _ 5 2 7 _ h2 (by decide) rfl
  have h4 := @Run.insert _ _ _ _ _ 5 3 3 _ h3 (by decide) rfl
  have h5 := @Run.insert _ _ _ _ _ 5 4 7 _ h4 (by decide) rfl
  obtain ⟨⟨first, second, hl, hp, h1, h2, hb, -⟩, -⟩ := disksort_elevator h5
  exact ⟨_, by exact ⟨rfl, rfl, rfl, rfl, rfl, rfl⟩, first, second, hl, hp, h1, h2, hb⟩

end Sol26.Disk
