import Sol26.Callo.Table
import Sol26.Lib.Linked

/-!
# Suspending the callout table

`callout_save` sets the callouts of a table aside before a checkpoint, and `callout_restore` puts
them back.  Both tables link the same callout structures, so that a link can lead to a bucket head
of either.
-/
namespace Sol26.Callo.Suspend
open Function Linked

inductive Which
  | live | saved
deriving DecidableEq

/-- A `callout_t *`: a callout structure, or a bucket head of one of the tables. -/
inductive Ptr
  | node (a : ℕ)
  | head (w : Which) (i : ℕ)
deriving DecidableEq

/-- `cs_runtime` and `cs_busyticks`. -/
structure Ticks where
  runtime : ℤ
  busyticks : ℤ

/-- The two tables.  `next` is `c_next` of a callout, and `b_first` of a bucket head. -/
structure Tables where
  next : Ptr → Ptr
  xid : ℕ → BitVec 32
  ncallout : ℕ
  live : Ticks
  saved : Ticks
  cprStopCallout : Bool

namespace Tables

def executing (s : Tables) (a : ℕ) : Bool := s.xid a &&& CALLOUT_EXECUTING != 0#32

def setNext (s : Tables) (p q : Ptr) : Tables := { s with next := update s.next p q }

/-- The loop of `callout_save` over bucket `i`. -/
def saveLoop (i : ℕ) : ℕ → Tables → Ptr → Ptr → Option Tables
  | 0, _, _, _ => none
  | fuel + 1, s, prev, cp =>
    if cp = .head .live i then some s
    else
      match cp with
      | .head _ _ => none
      | .node a =>
        if s.xid a ||| CALLOUT_EXECUTING ≠ 0#32 then saveLoop i fuel s cp (s.next cp)
        else
          let s := s.setNext prev (s.next cp)
          let s := s.setNext cp (s.next (.head .saved i))
          let s := s.setNext (.head .saved i) cp
          saveLoop i fuel s prev (s.next prev)

def saveBucket (i : ℕ) (s : Tables) : Option Tables :=
  let s := s.setNext (.head .saved i) (.head .saved i)
  saveLoop i (s.ncallout + 1) s (.head .live i) (s.next (.head .live i))

def saveBuckets : ℕ → Tables → Option Tables
  | 0, s => some s
  | i + 1, s => do
    let s ← saveBuckets i s
    saveBucket i s

/-- The copy of the table, pointers included. -/
def copied (s : Tables) : Tables :=
  { s with
    saved := s.live
    next := fun p => match p with
      | .head .saved i => s.next (.head .live i)
      | p => s.next p }

/-- Move all the callouts from the current table into a save table. -/
def calloutSave (s : Tables) : Option Tables :=
  let s := { s with cprStopCallout := true }.copied
  saveBuckets CALLOUT_BUCKETS { s with live := { s.live with busyticks := 0 } }

/-- "insert the old callouts into the current ones" -/
def restoreLoop (i : ℕ) : ℕ → Tables → Ptr → Option Tables
  | 0, _, _ => none
  | fuel + 1, s, cp =>
    if cp = .head .saved i then some s
    else
      let next := s.next cp
      let s := s.setNext cp (s.next (.head .live i))
      restoreLoop i fuel (s.setNext (.head .live i) cp) next

def restoreBuckets : ℕ → Tables → Option Tables
  | 0, s => some s
  | i + 1, s => do
    let s ← restoreBuckets i s
    restoreLoop i (s.ncallout + 1) s (s.next (.head .saved i))

/-- Restore the old context of the callout table. -/
def calloutRestore (s : Tables) : Option Tables := do
  let s ← restoreBuckets CALLOUT_BUCKETS s
  return { s with
    live := ⟨s.saved.runtime, s.live.busyticks + s.saved.busyticks⟩
    cprStopCallout := false }

/-! ### Buckets -/

/-- The bucket holds the callouts `l`. -/
def Holds (s : Tables) (w : Which) (i : ℕ) (l : List ℕ) : Prop :=
  Chain Ptr.node Ptr.node s.next (.head w i) l (.head w i)

theorem node_injective : Injective Ptr.node := fun _ _ h => Ptr.node.inj h

variable {s : Tables} {i : ℕ}

theorem Holds.unique {w : Which} {l l' : List ℕ} (h : s.Holds w i l)
    (h' : s.Holds w i l') : l = l' :=
  Links.unique node_injective (fun _ he => Ptr.noConfusion he) h h'

theorem Holds.congr {s' : Tables} {w : Which} {l : List ℕ} (h : s.Holds w i l)
    (hhead : s'.next (.head w i) = s.next (.head w i))
    (hnode : ∀ a ∈ l, s'.next (.node a) = s.next (.node a)) : s'.Holds w i l := by
  refine Chain.congr h fun p hp => ?_
  rw [List.mem_cons, List.mem_map] at hp
  obtain rfl | ⟨a, ha, rfl⟩ := hp
  · exact hhead
  · exact hnode a ha

/-- The callouts of the live table are in the buckets `l`, each in one place. -/
structure Filled (s : Tables) (l : ℕ → List ℕ) : Prop where
  holds : ∀ i < CALLOUT_BUCKETS, s.Holds .live i (l i)
  nodup : ∀ i < CALLOUT_BUCKETS, (l i).Nodup
  apart : ∀ i < CALLOUT_BUCKETS, ∀ j < CALLOUT_BUCKETS, i ≠ j → (l i).Disjoint (l j)
  bounded : ∀ i < CALLOUT_BUCKETS, ∀ a ∈ l i, a < s.ncallout

theorem Filled.length_le {l : ℕ → List ℕ} (h : s.Filled l)
    (hi : i < CALLOUT_BUCKETS) : (l i).length ≤ s.ncallout := by
  have hsub : (l i).Subperm (List.range s.ncallout) :=
    (h.nodup i hi).subperm fun a ha => List.mem_range.mpr (h.bounded i hi a ha)
  simpa using hsub.length_le

/-! ### `callout_save` -/

/-- The test that was to find the callouts that are executing. -/
theorem xid_or_executing (x : BitVec 32) : x ||| CALLOUT_EXECUTING ≠ 0#32 := by
  intro h
  have hbit := congrArg (fun v => v.getLsbD 31) h
  simp [CALLOUT_EXECUTING] at hbit

/-- Every callout passes it, so that nothing is moved. -/
theorem saveLoop_eq {l : List ℕ} {prev cp : Ptr} {fuel : ℕ}
    (h : Links Ptr.node (fun a => s.next (.node a)) cp l (.head .live i)) (hfuel : l.length < fuel) :
    saveLoop i fuel s prev cp = some s := by
  induction l generalizing prev cp fuel with
  | nil =>
    obtain ⟨fuel, rfl⟩ := Nat.exists_eq_succ_of_ne_zero (Nat.ne_of_gt hfuel)
    have hcp : cp = .head .live i := h
    simp [saveLoop, hcp]
  | cons a l ih =>
    obtain ⟨fuel, rfl⟩ := Nat.exists_eq_succ_of_ne_zero (by omega : fuel ≠ 0)
    obtain ⟨rfl, hrest⟩ := h
    have hne : Ptr.node a ≠ .head .live i := by simp
    have hrec : saveLoop i fuel s (.node a) (s.next (.node a)) = some s :=
      ih hrest (by simpa using hfuel)
    simpa only [saveLoop, if_neg hne, if_pos (xid_or_executing (s.xid a))] using hrec

/-- The save table is emptied, bucket by bucket. -/
def emptied (s : Tables) (k : ℕ) : Tables :=
  { s with next := fun p => match p with
      | .head .saved i => if i < k then .head .saved i else s.next p
      | p => s.next p }

theorem emptied_succ (s : Tables) (k : ℕ) :
    (s.emptied k).setNext (.head .saved k) (.head .saved k) = s.emptied (k + 1) := by
  have hnext : update (s.emptied k).next (.head .saved k) (.head .saved k) =
      (s.emptied (k + 1)).next := by
    ext1 p
    by_cases hp : p = .head .saved k
    · subst hp
      simp [emptied]
    · rw [update_of_ne hp]
      match p with
      | .node _ => rfl
      | .head .live _ => rfl
      | .head .saved i =>
        have hik : i ≠ k := fun he => hp (by rw [he])
        have hle : i ≤ k ↔ i < k := by omega
        simp [emptied, hle]
  exact congrArg (fun f => { s with next := f }) hnext

theorem saveBuckets_eq {l : ℕ → List ℕ} (h : s.Filled l) :
    ∀ k ≤ CALLOUT_BUCKETS, saveBuckets k s = some (s.emptied k) := by
  intro k
  induction k with
  | zero =>
    intro _
    have hzero : s.emptied 0 = s := by
      have hnext : (s.emptied 0).next = s.next := by
        ext1 p
        match p with
        | .node _ => rfl
        | .head .live _ => rfl
        | .head .saved i => simp [emptied]
      exact congrArg (fun f => { s with next := f }) hnext
    rw [hzero]
    rfl
  | succ k ih =>
    intro hk
    have hlen := h.length_le (Nat.lt_of_succ_le hk)
    have hholds := h.holds k (Nat.lt_of_succ_le hk)
    rw [saveBuckets, ih (by omega)]
    change saveBucket k (s.emptied k) = _
    rw [saveBucket, emptied_succ]
    exact saveLoop_eq hholds (Nat.lt_succ_of_le hlen)

/-- After `callout_save`: the live table as it was, and an empty save table. -/
theorem calloutSave_eq {l : ℕ → List ℕ} (h : s.Filled l) :
    ∃ s', calloutSave s = some s' ∧ s'.saved = s.live ∧ s'.ncallout = s.ncallout ∧
      s'.xid = s.xid ∧ s'.live.busyticks = 0 ∧ s'.Filled l ∧
      ∀ i < CALLOUT_BUCKETS, s'.Holds .saved i [] := by
  have hcopy : Filled
      { { s with cprStopCallout := true }.copied with live := { s.live with busyticks := 0 } } l :=
    ⟨fun i hi => (h.holds i hi).congr rfl fun _ _ => rfl, h.nodup, h.apart, h.bounded⟩
  refine ⟨_, saveBuckets_eq hcopy CALLOUT_BUCKETS le_rfl, rfl, rfl, rfl, rfl, ?_, fun i hi => ?_⟩
  · exact ⟨fun i hi => (hcopy.holds i hi).congr rfl fun _ _ => rfl, h.nodup, h.apart, h.bounded⟩
  · exact if_pos hi

/-! ### `callout_restore` -/

/-- The callouts of a bucket are put in front of the live one, the last one first. -/
theorem restoreLoop_spec {l b : List ℕ} {cp : Ptr} {fuel : ℕ}
    (hlive : s.Holds .live i l)
    (h : Links Ptr.node (fun a => s.next (.node a)) cp b (.head .saved i))
    (hnodup : (b ++ l).Nodup) (hfuel : b.length < fuel) :
    ∃ s', restoreLoop i fuel s cp = some s' ∧ s'.Holds .live i (b.reverse ++ l) ∧
      { s' with next := s.next } = s ∧
      ∀ p, p ≠ .head .live i → (∀ a ∈ b, p ≠ .node a) → s'.next p = s.next p := by
  induction b generalizing s l cp fuel with
  | nil =>
    obtain ⟨fuel, rfl⟩ := Nat.exists_eq_succ_of_ne_zero (Nat.ne_of_gt hfuel)
    have hcp : cp = .head .saved i := h
    exact ⟨s, by rw [restoreLoop, if_pos hcp], by simpa using hlive, rfl, fun _ _ _ => rfl⟩
  | cons a b ih =>
    obtain ⟨fuel, rfl⟩ := Nat.exists_eq_succ_of_ne_zero (by omega : fuel ≠ 0)
    obtain ⟨rfl, hrest⟩ := h
    have hne : Ptr.node a ≠ .head .saved i := by simp
    rw [List.cons_append] at hnodup
    obtain ⟨ha, hnd⟩ := List.nodup_cons.mp hnodup
    rw [List.mem_append, not_or] at ha
    rw [restoreLoop, if_neg hne]
    set t := (s.setNext (.node a) (s.next (.head .live i))).setNext (.head .live i) (.node a)
      with ht
    have hnext : ∀ p, p ≠ .head .live i → p ≠ .node a → t.next p = s.next p := by
      intro p hp hp'
      rw [ht]
      simp [setNext, update_of_ne hp, update_of_ne hp']
    have hlive' : t.Holds .live i (a :: l) := by
      have hlive0 : Chain Ptr.node Ptr.node s.next (.head .live i) ([] ++ l) (.head .live i) := hlive
      refine Chain.insert hlive0 ?_ ?_ ?_ ?_
      · exact List.nodup_cons.mpr
          ⟨by simp, (List.Nodup.of_append_right hnd).map node_injective⟩
      · simp [ht, setNext]
      · simp [ht, setNext]
      · intro p hp hp'
        refine hnext p hp' fun he => ?_
        subst he
        simp [ha.2] at hp
    have hrest' : Links Ptr.node (fun a => t.next (.node a)) (s.next (.node a)) b
        (.head .saved i) := by
      refine hrest.congr fun c hc => hnext _ (by simp) ?_
      intro he
      exact ha.1 (Ptr.node.inj he ▸ hc)
    have hnodup' : (b ++ a :: l).Nodup := by
      have hperm : (b ++ a :: l).Perm (a :: (b ++ l)) := List.perm_middle
      exact hperm.nodup_iff.mpr hnodup
    obtain ⟨s', hrun, hholds, hsame, hframe⟩ :=
      ih hlive' hrest' hnodup' (by simpa using hfuel)
    refine ⟨s', hrun, by simpa using hholds, ?_, fun p hp hp' => ?_⟩
    · have heq := congrArg (fun v : Tables => { v with next := s.next }) hsame
      exact heq
    · rw [hframe p hp fun c hc => hp' c (List.mem_cons_of_mem a hc)]
      exact hnext p hp (hp' a List.mem_cons_self)

/-- The callouts of the save table, too, are each in one place. -/
structure SetAside (s : Tables) (l o : ℕ → List ℕ) : Prop extends s.Filled l where
  saved : ∀ i < CALLOUT_BUCKETS, s.Holds .saved i (o i)
  apart2 : ∀ i < CALLOUT_BUCKETS, ∀ j < CALLOUT_BUCKETS, i ≠ j → (o i).Disjoint (o j)
  across : ∀ i < CALLOUT_BUCKETS, ∀ j < CALLOUT_BUCKETS, (o i).Disjoint (l j)
  nodup2 : ∀ i < CALLOUT_BUCKETS, (o i).Nodup
  length_le2 : ∀ i < CALLOUT_BUCKETS, (o i).length ≤ s.ncallout

theorem restoreBuckets_spec {l o : ℕ → List ℕ} (h : s.SetAside l o) :
    ∀ k ≤ CALLOUT_BUCKETS, ∃ s', restoreBuckets k s = some s' ∧
      { s' with next := s.next } = s ∧
      (∀ i < k, s'.Holds .live i ((o i).reverse ++ l i)) ∧
      ∀ i < CALLOUT_BUCKETS, k ≤ i → s'.Holds .live i (l i) ∧ s'.Holds .saved i (o i) := by
  intro k
  induction k with
  | zero => exact fun _ => ⟨s, rfl, rfl, by simp, fun i hi _ => ⟨h.holds i hi, h.saved i hi⟩⟩
  | succ k ih =>
    intro hk
    have hkB : k < CALLOUT_BUCKETS := hk
    obtain ⟨s1, hrun, hsame, hdone, hleft⟩ := ih (by omega)
    have hn : s1.ncallout = s.ncallout := by
      have heq := congrArg Tables.ncallout hsame
      exact heq
    obtain ⟨hlive, hsaved⟩ := hleft k hkB le_rfl
    have hnodup : (o k ++ l k).Nodup :=
      (h.nodup2 k hkB).append (h.nodup k hkB) (h.across k hkB k hkB)
    have hlen := h.length_le2 k hkB
    obtain ⟨s2, hloop, hholds, hsame2, hframe⟩ :=
      restoreLoop_spec hlive hsaved hnodup (by omega : (o k).length < s1.ncallout + 1)
    -- what the loop of this bucket leaves alone
    have hkeep : ∀ {w : Which} {i : ℕ} {m : List ℕ}, Ptr.head w i ≠ .head .live k →
        m.Disjoint (o k) → s1.Holds w i m → s2.Holds w i m := by
      intro w i m hhead hdis hm
      refine hm.congr (hframe _ hhead fun _ _ => by simp) fun a ha => ?_
      exact hframe _ (by simp) fun b hb he => hdis ha (Ptr.node.inj he ▸ hb)
    refine ⟨s2, ?_, ?_, fun i hi => ?_, fun i hi hki => ?_⟩
    · rw [restoreBuckets, hrun]
      exact hloop
    · have heq := congrArg (fun v : Tables => { v with next := s.next }) hsame2
      exact heq.trans hsame
    · obtain hlt | rfl := Nat.lt_succ_iff_lt_or_eq.mp hi
      · have hiB : i < CALLOUT_BUCKETS := hlt.trans hkB
        refine hkeep (by simpa using hlt.ne) ?_ (hdone i hlt)
        rw [List.disjoint_append_left, List.disjoint_reverse_left]
        exact ⟨h.apart2 i hiB k hkB hlt.ne, (h.across k hkB i hiB).symm⟩
      · exact hholds
    · obtain ⟨hl, ho⟩ := hleft i hi (by omega)
      have hik : i ≠ k := by omega
      exact ⟨hkeep (by simpa using hik) (h.across k hkB i hi).symm hl,
        hkeep (by simp) (h.apart2 i hi k hkB hik) ho⟩

/-- `callout_restore` adds the callouts set aside to each bucket. -/
theorem calloutRestore_spec {l o : ℕ → List ℕ} (h : s.SetAside l o) :
    ∃ s', calloutRestore s = some s' ∧ s'.live.runtime = s.saved.runtime ∧
      s'.live.busyticks = s.live.busyticks + s.saved.busyticks ∧
      ∀ i < CALLOUT_BUCKETS, s'.Holds .live i ((o i).reverse ++ l i) := by
  obtain ⟨s1, hrun, hsame, hdone, -⟩ := restoreBuckets_spec h CALLOUT_BUCKETS le_rfl
  refine ⟨_, by rw [calloutRestore, hrun]; rfl, ?_, ?_, fun i hi => ?_⟩
  · have heq := congrArg (fun v : Tables => v.saved.runtime) hsame
    exact heq
  · have heq := congrArg (fun v : Tables => v.live.busyticks + v.saved.busyticks) hsame
    exact heq
  · exact (hdone i hi).congr rfl fun _ _ => rfl

/-! ### What suspending should do -/

/-- The live table keeps the callouts that are executing, the save table gets the others. -/
structure SavedExactly (s s' : Tables) (l : ℕ → List ℕ) : Prop where
  live : ∀ i < CALLOUT_BUCKETS, ∃ m, s'.Holds .live i m ∧ m.Perm ((l i).filter s.executing)
  saved : ∀ i < CALLOUT_BUCKETS,
    ∃ m, s'.Holds .saved i m ∧ m.Perm ((l i).filter fun a => !s.executing a)

/-- The table is the same again. -/
structure RestoredExactly (s s' : Tables) (l : ℕ → List ℕ) : Prop where
  live : ∀ i < CALLOUT_BUCKETS, ∃ m, s'.Holds .live i m ∧ m.Perm (l i)
  runtime : s'.live.runtime = s.live.runtime

/-- The table is set aside as it should be if and only if all its callouts are executing, so that
there is nothing to set aside.  It is always restored. -/
theorem suspend_iff {l : ℕ → List ℕ} (h : s.Filled l) :
    ∃ s1 s2, calloutSave s = some s1 ∧ calloutRestore s1 = some s2 ∧ RestoredExactly s s2 l ∧
      (SavedExactly s s1 l ↔ ∀ i < CALLOUT_BUCKETS, ∀ a ∈ l i, s.executing a = true) := by
  obtain ⟨s1, hsave, hsaved, hn, -, -, hfilled, hempty⟩ := calloutSave_eq h
  have haside : s1.SetAside l fun _ => [] :=
    ⟨hfilled, hempty, by simp, by simp, by simp, by simp⟩
  obtain ⟨s2, hrestore, hruntime, -, hholds⟩ := calloutRestore_spec haside
  refine ⟨s1, s2, hsave, hrestore, ⟨fun i hi => ⟨l i, by simpa using hholds i hi, .refl _⟩, ?_⟩,
    fun hex i hi a ha => ?_, fun hall => ⟨fun i hi => ?_, fun i hi => ?_⟩⟩
  · rw [hruntime, hsaved]
  · obtain ⟨m, hm, hperm⟩ := hex.live i hi
    obtain rfl := hm.unique (hfilled.holds i hi)
    have hmem := hperm.mem_iff.mp ha
    exact (List.mem_filter.mp hmem).2
  · refine ⟨l i, hfilled.holds i hi, ?_⟩
    rw [List.filter_eq_self.mpr (hall i hi)]
  · refine ⟨[], hempty i hi, ?_⟩
    rw [List.filter_eq_nil_iff.mpr fun a ha => by simp [hall i hi a ha]]

/-- One callout in bucket 3, with the extended identifier `xid`. -/
def single (xid : BitVec 32) : Tables where
  next p := match p with
    | .node _ => .head .live 3
    | .head .live i => if i = 3 then .node 0 else .head .live i
    | .head .saved _ => .head .saved 0
  xid _ := xid
  ncallout := 1
  live := ⟨40, 2⟩
  saved := ⟨0, 0⟩
  cprStopCallout := false

theorem single_filled (xid : BitVec 32) :
    (single xid).Filled fun i => if i = 3 then [0] else [] := by
  refine ⟨fun i hi => ?_, fun i hi => ?_, fun i hi j hj hij => ?_, fun i hi a ha => ?_⟩
  · by_cases h : i = 3
    · subst h
      exact ⟨rfl, rfl⟩
    · rw [if_neg h]
      exact if_neg h
  · split_ifs <;> simp
  · by_cases h : i = 3 <;> by_cases h' : j = 3 <;> simp_all
  · split_ifs at ha with h
    · rw [List.mem_singleton.mp ha]
      exact Nat.one_pos
    · simp at ha

/-- A callout that is executing stays, as it should. -/
theorem suspend_single_executing :
    ∃ s1 s2, calloutSave (single 0x90000003) = some s1 ∧ calloutRestore s1 = some s2 ∧
      SavedExactly (single 0x90000003) s1 fun i => if i = 3 then [0] else [] := by
  obtain ⟨s1, s2, hsave, hrestore, -, hiff⟩ := suspend_iff (single_filled 0x90000003)
  exact ⟨s1, s2, hsave, hrestore, hiff.mpr fun _ _ _ _ =>
    show ((0x90000003 : BitVec 32) &&& CALLOUT_EXECUTING != 0#32) = true by decide⟩

/-- A callout that is waiting stays as well, and would fire during the checkpoint. -/
theorem suspend_single_waiting :
    ∃ s1, calloutSave (single 0x10000003) = some s1 ∧ s1.Holds .live 3 [0] ∧
      (single 0x10000003).executing 0 = false ∧
      ¬SavedExactly (single 0x10000003) s1 fun i => if i = 3 then [0] else [] := by
  obtain ⟨s1, hsave, -, -, -, -, hfilled, -⟩ := calloutSave_eq (single_filled 0x10000003)
  have hlive : s1.Holds .live 3 [0] := hfilled.holds 3 (by decide)
  refine ⟨s1, hsave, hlive, rfl, fun hex => ?_⟩
  obtain ⟨m, hm, hperm⟩ := hex.live 3 (by decide)
  obtain rfl := hm.unique hlive
  have hlen := hperm.length_eq
  exact absurd hlen (by decide)

end Tables

end Sol26.Callo.Suspend
