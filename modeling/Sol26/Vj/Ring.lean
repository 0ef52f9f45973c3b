import Sol26.Lib.Linked

/-!
# The ring of connection states

Model of `vjcompress_init`, `vjsetoutparms` and `vjcompress_tcp` from `uts/common/io/vjcomp.c`, as
far as the states of connections go. A slot is known by its place in `tstate`, which is its `cs_id`.
The header of a packet is a sequence of words. Whether a packet goes out compressed, and what is
sent, is left out: in either case its header is stored in the slot.
-/
namespace Sol26.Vj

open Function (update update_of_ne update_self)
open List (find?_cons_of_neg mem_cons range)
open Linked

def maxStates : ℕ := 16

/-- A message: its length, and the words from the IP header on. -/
structure Packet where
  mlen : ℕ
  words : ℕ → BitVec 32

/-- `ip_hl` -/
def ipHl (words : ℕ → BitVec 32) : ℕ := ((words 0 >>> 24) &&& 15#32).toNat

namespace Packet

/-- `ip_off` without its upper bits. -/
def ipOff (p : Packet) : BitVec 32 := p.words 1 &&& 0x3fff#32

/-- `ip_p` -/
def ipP (p : Packet) : BitVec 32 := (p.words 2 >>> 16) &&& 0xff#32

/-- `th_flags`, of which SYN, FIN, RST and ACK are looked at. -/
def thFlags (p : Packet) : BitVec 32 := (p.words (ipHl p.words + 3) >>> 16) &&& 0x17#32

/-- `th_off` -/
def thOff (p : Packet) : ℕ := (p.words (ipHl p.words + 3) >>> 28).toNat

/-- Bail if this is a fragment, or not TCP, or not compressible. -/
def bails (p : Packet) : Bool :=
  p.ipOff ≠ 0 || p.mlen < 40 || p.ipP ≠ 6 || p.thFlags ≠ 0x10

/-- The stored header is that of the packet's connection. -/
def sameAs (p : Packet) (hdr : ℕ → BitVec 32) : Bool :=
  p.words 3 = hdr 3 && p.words 4 = hdr 4 && p.words (ipHl p.words) = hdr (ipHl hdr)

/-- What is stored after the packet: its header, if it has all of it. -/
def stores (p : Packet) (hdr : ℕ → BitVec 32) : ℕ → BitVec 32 :=
  let words := ipHl p.words + p.thOff
  if p.mlen < 4 * words then hdr else fun i => if i < words then p.words i else hdr i

end Packet

/-- `vjstruct_t`: `cs_next` and `cs_hdr` of each slot, and `last_cs`. -/
structure Comp where
  next : ℕ → ℕ
  hdr : ℕ → ℕ → BitVec 32
  lastCs : ℕ

def vjcompressInit : Comp where
  next i := if i = 0 then maxStates - 1 else i - 1
  hdr _ _ := 0
  lastCs := 0

def vjsetoutparms (comp : Comp) (maxslot : ℕ) : Comp where
  next := update comp.next 0 (maxslot - 1)
  hdr := comp.hdr
  lastCs := if maxslot ≤ comp.lastCs then 0 else comp.lastCs

/-- The slot is that of the packet's connection. -/
def Comp.matches (comp : Comp) (p : Packet) (cs : ℕ) : Bool := p.sameAs (comp.hdr cs)

/-- The search, with whether the slot is found, and `lcs` and `cs`. -/
def Comp.search (comp : Comp) (p : Packet) : ℕ → ℕ → Option (Bool × ℕ × ℕ)
  | 0, _ => none
  | fuel + 1, lcs =>
    let cs := comp.next lcs
    if comp.matches p cs then some (true, lcs, cs)
    else if cs = comp.lastCs then some (false, lcs, cs)
    else comp.search p fuel cs

/-- Move to the front on the connection list. -/
def Comp.toFront (comp : Comp) (lcs cs : ℕ) : Comp :=
  if cs = comp.lastCs then { comp with lastCs := lcs }
  else
    let next := update comp.next lcs (comp.next cs)
    let next := update next cs (next comp.lastCs)
    { comp with next := update next comp.lastCs cs }

def Comp.store (comp : Comp) (p : Packet) (cs : ℕ) : Comp :=
  { comp with hdr := update comp.hdr cs (p.stores (comp.hdr cs)) }

/-- The slot that a call picks. -/
inductive Pick
  | nothing
  | hit (cs : ℕ)
  | miss (cs : ℕ)

/-- `vjcompress_tcp`; `none` if the search goes around more often than there are slots. -/
def vjcompressTcp (comp : Comp) (p : Packet) : Option (Comp × Pick) :=
  if p.bails then some (comp, .nothing)
  else
    let cs := comp.next comp.lastCs
    if comp.matches p cs then some (comp.store p cs, .hit cs)
    else
      match comp.search p maxStates cs with
      | none => none
      | some (true, lcs, cs) => some ((comp.toFront lcs cs).store p cs, .hit cs)
      | some (false, lcs, cs) => some ({ comp with lastCs := lcs }.store p cs, .miss cs)

def run (comp : Comp) : List Packet → Option (Comp × List Pick)
  | [] => some (comp, [])
  | p :: rest => do
    let (comp, pick) ← vjcompressTcp comp p
    let (comp, picks) ← run comp rest
    return (comp, pick :: picks)

/-! ### The order of use -/

/-- The header of each slot, and the slots in the order of their last use. -/
structure Table where
  hdr : ℕ → ℕ → BitVec 32
  order : List ℕ

/-- What a packet does to the table. A packet that is not compressible picks nothing, and another one
the slot of its connection that was used last. If there is none, it takes the slot that was used
least recently. Its header is stored in the slot. -/
inductive Uses (p : Packet) : Table → Pick → Table → Prop
  | nothing {t : Table} : p.bails = true → Uses p t .nothing t
  | hit {hdr : ℕ → ℕ → BitVec 32} {order : List ℕ} {cs : ℕ} : p.bails = false →
    order.find? (fun c => p.sameAs (hdr c)) = some cs →
    Uses p ⟨hdr, order⟩ (.hit cs) ⟨update hdr cs (p.stores (hdr cs)), cs :: order.erase cs⟩
  | miss {hdr : ℕ → ℕ → BitVec 32} {l : List ℕ} {cs : ℕ} : p.bails = false →
    (∀ c ∈ l ++ [cs], p.sameAs (hdr c) = false) →
    Uses p ⟨hdr, l ++ [cs]⟩ (.miss cs) ⟨update hdr cs (p.stores (hdr cs)), cs :: l⟩

def UsesAll : Table → List Packet → List Pick → Table → Prop
  | t, [], [], t' => t' = t
  | t, p :: packets, pick :: picks, t' => ∃ mid, Uses p t pick mid ∧ UsesAll mid packets picks t'
  | _, _, _, _ => False

theorem Uses.perm {p : Packet} {t t' : Table} {pick : Pick} (h : Uses p t pick t') :
    t'.order.Perm t.order := by
  cases h with
  | nothing => exact .refl _
  | hit _ hcs => exact (List.perm_cons_erase (List.mem_of_find?_eq_some hcs)).symm
  | miss => exact (List.perm_append_singleton _ _).symm

/-- From `last_cs` the links lead through the slots in order, and around. -/
structure Ring (comp : Comp) (order : List ℕ) : Prop where
  nodup : order.Nodup
  links : Links id comp.next (comp.next comp.lastCs) order (comp.next comp.lastCs)
  last : ∃ l, order = l ++ [comp.lastCs]

variable {comp : Comp} {p : Packet} {order pre post : List ℕ} {lcs cs : ℕ}

theorem Ring.store (h : Ring comp order) : Ring (comp.store p cs) order :=
  ⟨h.nodup, h.links, h.last⟩

/-- The search from a slot on: it finds the first one that matches, or comes to the last one. -/
theorem search_spec {q : ℕ} {l : List ℕ} {lcs fuel : ℕ}
    (hlinks : Links id comp.next (comp.next lcs) l q) {l' : List ℕ} (hl : l = l' ++ [comp.lastCs])
    (hlast : comp.lastCs ∉ l') (hfuel : l.length ≤ fuel) :
    (∃ pre lcs' cs post, lcs :: l = pre ++ lcs' :: cs :: post ∧
        l.find? (comp.matches p) = some cs ∧ comp.search p fuel lcs = some (true, lcs', cs)) ∨
      ∃ pre lcs', lcs :: l = pre ++ [lcs', comp.lastCs] ∧ l.find? (comp.matches p) = none ∧
        comp.search p fuel lcs = some (false, lcs', comp.lastCs) := by
  induction l generalizing lcs l' fuel with
  | nil => simp at hl
  | cons c rest ih =>
    obtain ⟨fuel, rfl⟩ : ∃ n, fuel = n + 1 := ⟨fuel - 1, by simp at hfuel; omega⟩
    obtain ⟨hc, hrest⟩ := hlinks
    have hc : comp.next lcs = c := hc
    unfold Comp.search
    rw [hc]
    dsimp only
    by_cases hm : comp.matches p c = true
    · rw [if_pos hm]
      exact .inl ⟨[], lcs, c, rest, rfl, List.find?_cons_of_pos hm, rfl⟩
    · rw [if_neg hm]
      by_cases hend : c = comp.lastCs
      · rw [if_pos hend]
        have hnil : l' = [] := by
          cases l' with
          | nil => rfl
          | cons x xs =>
            have hx : c = x := (List.cons.inj hl).1
            exact absurd (mem_cons.2 (.inl (hend.symm.trans hx))) hlast
        subst hnil
        right
        refine ⟨[], lcs, ?_, ?_, by rw [hend]⟩
        · rw [hl]
          rfl
        · obtain ⟨-, rfl⟩ := List.cons.inj hl
          exact find?_cons_of_neg hm
      · rw [if_neg hend]
        obtain ⟨x, xs, rfl⟩ : ∃ x xs, l' = x :: xs := by
          cases l' with
          | nil => exact absurd (List.cons.inj hl).1 hend
          | cons x xs => exact ⟨x, xs, rfl⟩
        have hfuel' : rest.length ≤ fuel := by simpa using hfuel
        rcases ih hrest (List.cons.inj hl).2 (fun hm => hlast (List.mem_cons_of_mem _ hm)) hfuel'
          with ⟨pre, lcs', cs, post, heq, hfind, hs⟩ | ⟨pre, lcs', heq, hfind, hs⟩
        · exact .inl ⟨lcs :: pre, lcs', cs, post, by rw [heq]; rfl,
            (find?_cons_of_neg hm).trans hfind, hs⟩
        · exact .inr ⟨lcs :: pre, lcs', by rw [heq]; rfl, (find?_cons_of_neg hm).trans hfind, hs⟩

/-- The last slot is taken to the front by turning the ring. -/
theorem Ring.turn (h : Ring comp (pre ++ [lcs, comp.lastCs])) :
    Ring { comp with lastCs := lcs } (comp.lastCs :: (pre ++ [lcs])) := by
  have hsplit : pre ++ [lcs, comp.lastCs] = (pre ++ [lcs]) ++ [comp.lastCs] := by simp
  have hlinks := h.links
  rw [hsplit] at hlinks
  have h1 := (linked_append.1 hlinks).1
  have hlcs : comp.next lcs = comp.lastCs := (linked_append.1 h1).2.2
  refine ⟨?_, ?_, comp.lastCs :: pre, rfl⟩
  · have hnodup := h.nodup
    rw [hsplit] at hnodup
    exact (List.perm_append_singleton _ _).nodup_iff.1 hnodup
  · dsimp only
    rw [hlcs]
    exact ⟨rfl, h1⟩

/-- A slot in the middle is taken out and linked in behind the last one. -/
theorem Ring.relink (h : Ring comp (pre ++ lcs :: cs :: post)) (hcs : cs ≠ comp.lastCs) :
    Ring (comp.toFront lcs cs) (cs :: (pre ++ lcs :: post)) := by
  obtain ⟨post, rfl⟩ : ∃ l, post = l ++ [comp.lastCs] := by
    obtain ⟨l, hl⟩ := h.last
    cases post using List.reverseRecOn with
    | nil =>
      have hend : pre ++ [lcs] ++ [cs] = l ++ [comp.lastCs] := by
        rw [← hl]
        simp
      exact absurd (List.append_singleton_inj.1 hend).2 hcs
    | append_singleton post x =>
      have hend : pre ++ lcs :: cs :: post ++ [x] = l ++ [comp.lastCs] := by
        rw [← hl]
        simp
      exact ⟨post, by rw [(List.append_singleton_inj.1 hend).2]⟩
  have hnodup := h.nodup
  have hperm : (cs :: (pre ++ lcs :: (post ++ [comp.lastCs]))).Perm
      (pre ++ lcs :: cs :: (post ++ [comp.lastCs])) := by
    have hmid : (pre ++ [lcs] ++ cs :: (post ++ [comp.lastCs])).Perm
        (cs :: (pre ++ [lcs] ++ (post ++ [comp.lastCs]))) := List.perm_middle
    simpa using hmid.symm
  have hnd := hperm.nodup_iff.2 hnodup
  simp only [List.nodup_cons, List.nodup_append, List.mem_append, mem_cons, List.not_mem_nil,
    or_false, not_or] at hnd
  obtain ⟨⟨hpre, hclcs, hpost, -⟩, -, ⟨⟨hlpost, hllast⟩, -, -, hplast⟩, hdis⟩ := hnd
  have hnext : (comp.toFront lcs cs).next = update (update (update comp.next lcs (comp.next cs)) cs
      (comp.next comp.lastCs)) comp.lastCs cs := by
    unfold Comp.toFront
    rw [if_neg hcs]
    dsimp only
    rw [update_of_ne (Ne.symm hllast)]
  have hlast : (comp.toFront lcs cs).lastCs = comp.lastCs := by
    unfold Comp.toFront
    rw [if_neg hcs]
  have hkeep : ∀ a, a ≠ lcs → a ≠ cs → a ≠ comp.lastCs →
      (comp.toFront lcs cs).next a = comp.next a := by
    intro a h1 h2 h3
    rw [hnext, update_of_ne h3, update_of_ne h2, update_of_ne h1]
  refine ⟨hperm.nodup_iff.2 hnodup, ?_, cs :: (pre ++ lcs :: post), by rw [hlast]; simp⟩
  have hatLast : (comp.toFront lcs cs).next comp.lastCs = cs := by
    rw [hnext, update_self]
  have hatCs : (comp.toFront lcs cs).next cs = comp.next comp.lastCs := by
    rw [hnext, update_of_ne hcs, update_self]
  have hatLcs : (comp.toFront lcs cs).next lcs = comp.next cs := by
    rw [hnext, update_of_ne hllast, update_of_ne (Ne.symm hclcs), update_self]
  rw [hlast, hatLast]
  refine ⟨rfl, ?_⟩
  rw [hatCs]
  apply h.links.redirect
  · intro a ha
    exact hkeep a (hdis a ha lcs (.inl rfl)) (fun he => hpre (he ▸ ha))
      (hdis a ha _ (.inr (.inr rfl)))
  · rw [hatLcs]
    have hrest := (linked_append.1 h.links).2.2.2
    apply hrest.redirect
    · intro a ha
      exact hkeep a (fun he => hlpost (he ▸ ha)) (fun he => hpost (he ▸ ha)) (hplast a ha _ rfl)
    · exact hatLast

theorem erase_middle (h : (pre ++ lcs :: cs :: post).Nodup) :
    (pre ++ lcs :: cs :: post).erase cs = pre ++ lcs :: post := by
  have hsplit : pre ++ lcs :: cs :: post = (pre ++ [lcs]) ++ cs :: post := by simp
  rw [hsplit] at h ⊢
  have hcs : cs ∉ pre ++ [lcs] := by
    intro hmem
    exact List.disjoint_of_nodup_append h hmem List.mem_cons_self
  rw [List.erase_append_right _ hcs, List.erase_cons_head]
  simp

/-- Whatever slot the search comes back with, it is taken to the front. -/
theorem Ring.toFront (h : Ring comp (pre ++ lcs :: cs :: post)) :
    Ring (comp.toFront lcs cs) (cs :: (pre ++ lcs :: cs :: post).erase cs) := by
  rw [erase_middle h.nodup]
  by_cases hcs : cs = comp.lastCs
  · obtain ⟨l, hl⟩ := h.last
    have hpost : post = [] := by
      cases post using List.reverseRecOn with
      | nil => rfl
      | append_singleton post x =>
        have hend : pre ++ lcs :: cs :: post ++ [x] = l ++ [comp.lastCs] := by
          rw [← hl]
          simp
        have hx : x = cs := (List.append_singleton_inj.1 hend).2.trans hcs.symm
        have hnodup := h.nodup
        simp [hx, List.nodup_append] at hnodup
    subst hpost hcs
    unfold Comp.toFront
    rw [if_pos rfl]
    exact h.turn
  · exact h.relink hcs

theorem toFront_hdr (comp : Comp) (lcs cs : ℕ) : (comp.toFront lcs cs).hdr = comp.hdr := by
  unfold Comp.toFront
  split_ifs <;> rfl

theorem Uses.of_find_none (hb : p.bails = false) {l : List ℕ}
    (hfind : (l ++ [cs]).find? (comp.matches p) = none) :
    Uses p ⟨comp.hdr, l ++ [cs]⟩ (.miss cs) ⟨(comp.store p cs).hdr, cs :: l⟩ := by
  refine .miss hb fun c hc => ?_
  exact Bool.eq_false_iff.2 (List.find?_eq_none.1 hfind c hc)

theorem vjcompressTcp_spec (h : Ring comp order) (hlen : order.length ≤ maxStates) (p : Packet) :
    ∃ comp' pick order', vjcompressTcp comp p = some (comp', pick) ∧ Ring comp' order' ∧
      Uses p ⟨comp.hdr, order⟩ pick ⟨comp'.hdr, order'⟩ := by
  unfold vjcompressTcp
  by_cases hbail : p.bails = true
  · rw [if_pos hbail]
    exact ⟨comp, .nothing, order, rfl, h, .nothing hbail⟩
  rw [if_neg hbail]
  have hb : p.bails = false := Bool.eq_false_iff.2 hbail
  dsimp only
  obtain ⟨l, hl⟩ := h.last
  obtain ⟨a, rest, rfl⟩ : ∃ a rest, order = a :: rest :=
    List.exists_cons_of_ne_nil (by rw [hl]; simp)
  have ha : comp.next comp.lastCs = a := h.links.1
  rw [ha]
  by_cases hm : comp.matches p a = true
  · rw [if_pos hm]
    refine ⟨_, _, a :: rest, rfl, h.store, ?_⟩
    have huse : Uses p ⟨comp.hdr, a :: rest⟩ _ _ := .hit hb (List.find?_cons_of_pos hm)
    rwa [List.erase_cons_head] at huse
  rw [if_neg hm]
  have hskip : ∀ l, (a :: l).find? (comp.matches p) = l.find? (comp.matches p) := fun l =>
    find?_cons_of_neg hm
  cases l with
  | nil =>
    -- there is one slot only, and the search comes back to it
    cases hl
    have hs : comp.search p maxStates comp.lastCs = some (false, comp.lastCs, comp.lastCs) := by
      unfold maxStates Comp.search
      rw [ha]
      dsimp only
      rw [if_neg hm, if_pos rfl]
    rw [hs]
    exact ⟨_, _, [comp.lastCs], rfl, h.store, .of_find_none (l := []) hb (hskip [])⟩
  | cons b l =>
    obtain ⟨rfl, hrest⟩ := List.cons.inj hl
    have hnotMem : comp.lastCs ∉ l := by
      intro hmem
      have hnodup := (List.nodup_cons.1 h.nodup).2
      rw [hrest] at hnodup
      exact List.disjoint_of_nodup_append hnodup hmem (List.mem_singleton_self _)
    have hfuel : rest.length ≤ maxStates := (Nat.le_succ _).trans hlen
    rcases search_spec (p := p) h.links.2 hrest hnotMem hfuel with
      ⟨pre, lcs, cs, post, heq, hfind, hs⟩ | ⟨pre, lcs, heq, hfind, hs⟩
    · rw [← hskip, heq] at hfind
      rw [hs, heq]
      rw [heq] at h
      refine ⟨_, _, _, rfl, h.toFront.store, ?_⟩
      unfold Comp.store
      rw [toFront_hdr]
      exact .hit hb hfind
    · rw [← hskip, heq] at hfind
      rw [hs, heq]
      rw [heq] at h
      have hsplit : pre ++ [lcs, comp.lastCs] = pre ++ [lcs] ++ [comp.lastCs] := by simp
      refine ⟨_, _, _, rfl, h.turn.store, ?_⟩
      rw [hsplit] at hfind ⊢
      exact .of_find_none hb hfind

/-! ### From the start on -/

theorem init_links (k : ℕ) {next : ℕ → ℕ} (hnext : ∀ i, 0 < i → i ≤ k → next i = i - 1) :
    Links id next k (range (k + 1)).reverse (next 0) := by
  induction k with
  | zero => exact ⟨rfl, rfl⟩
  | succ k ih =>
    rw [List.range_succ, List.reverse_append]
    refine ⟨rfl, ?_⟩
    have hk : next (k + 1) = k := hnext (k + 1) (by omega) le_rfl
    rw [hk]
    apply ih
    intro i hi hik
    exact hnext i hi (by omega)

theorem ring_init {m : ℕ} (hm : 1 ≤ m) (hmax : m ≤ maxStates) :
    Ring (vjsetoutparms vjcompressInit m) (range m).reverse := by
  obtain ⟨k, rfl⟩ : ∃ k, m = k + 1 := ⟨m - 1, by omega⟩
  have hlast : (vjsetoutparms vjcompressInit (k + 1)).lastCs = 0 := by
    simp [vjsetoutparms, vjcompressInit]
  have hzero : (vjsetoutparms vjcompressInit (k + 1)).next 0 = k := by
    simp [vjsetoutparms]
  refine ⟨List.nodup_reverse.2 List.nodup_range, ?_, ?_⟩
  · have hnext : ∀ i, 0 < i → i ≤ k → (vjsetoutparms vjcompressInit (k + 1)).next i = i - 1 := by
      intro i hi _
      simp [vjsetoutparms, vjcompressInit, hi.ne']
    have hlinks := init_links k hnext
    rw [hlast]
    rwa [hzero] at hlinks ⊢
  · rw [hlast, List.range_succ_eq_map, List.reverse_cons]
    exact ⟨_, rfl⟩

theorem run_ring (h : Ring comp order) (hlen : order.length ≤ maxStates) (packets : List Packet) :
    ∃ comp' picks order', run comp packets = some (comp', picks) ∧ Ring comp' order' ∧
      order'.Perm order ∧ UsesAll ⟨comp.hdr, order⟩ packets picks ⟨comp'.hdr, order'⟩ := by
  induction packets generalizing comp order with
  | nil => exact ⟨comp, [], order, rfl, h, .refl _, rfl⟩
  | cons p packets ih =>
    obtain ⟨comp1, pick, mid, hcall, hmid, huse⟩ := vjcompressTcp_spec h hlen p
    obtain ⟨comp2, picks, order', hrun, hring, hperm, huses⟩ :=
      ih hmid (huse.perm.length_eq.trans_le hlen)
    refine ⟨comp2, pick :: picks, order', ?_, hring, hperm.trans huse.perm, _, huse, huses⟩
    simp [run, hcall, hrun]

/-- The cells of a walk are those that the links lead to, one after the other. -/
theorem Links.eq_iterate {next : ℕ → ℕ} {p q : ℕ} {l : List ℕ} (h : Links id next p l q) :
    l = (range l.length).map (fun k => next^[k] p) := by
  induction l generalizing p with
  | nil => rfl
  | cons a l ih =>
    obtain ⟨hp, hrest⟩ := h
    obtain rfl : p = a := hp
    rw [List.length_cons, List.range_succ_eq_map, List.map_cons, List.map_map]
    exact congrArg (p :: ·) (ih hrest)

theorem Ring.visits (h : Ring comp order) :
    order = (range order.length).map (fun k => comp.next^[k + 1] comp.lastCs) ∧
      comp.next^[order.length] comp.lastCs = comp.lastCs := by
  have heq := Links.eq_iterate h.links
  refine ⟨heq, ?_⟩
  obtain ⟨l, hl⟩ := h.last
  have hlen : order.length = l.length + 1 := by simp [hl]
  have hget : order[l.length]? = some comp.lastCs := by simp [hl]
  rw [heq, List.getElem?_map, List.getElem?_range (by omega)] at hget
  rw [hlen]
  exact Option.some.inj hget

/-- Every call comes back, and after any calls the links lead from `last_cs` through each slot once,
in the order in which the packets used them, and back. A packet of a connection without a slot takes
the one that was used least recently. -/
theorem slots_in_order_of_use {m : ℕ} (hm : 1 ≤ m) (hmax : m ≤ maxStates) (packets : List Packet) :
    ∃ comp picks order, run (vjsetoutparms vjcompressInit m) packets = some (comp, picks) ∧
      order.Perm (range m) ∧
      order = (range m).map (fun k => comp.next^[k + 1] comp.lastCs) ∧
      comp.next^[m] comp.lastCs = comp.lastCs ∧
      UsesAll ⟨vjcompressInit.hdr, (range m).reverse⟩ packets picks ⟨comp.hdr, order⟩ := by
  have hlen : (range m).reverse.length ≤ maxStates := by simpa using hmax
  obtain ⟨comp, picks, order, hrun, hring, hperm, huses⟩ :=
    run_ring (ring_init hm hmax) hlen packets
  have hm' : order.length = m := by
    rw [hperm.length_eq]
    simp
  have hvisits := hring.visits
  rw [hm'] at hvisits
  exact ⟨comp, picks, order, hrun, hperm.trans (List.reverse_perm _), hvisits.1, hvisits.2, huses⟩

/-- An acknowledgement without options. -/
def ack (src dst ports : BitVec 32) : Packet where
  mlen := 40
  words := fun
    | 0 => 0x45000028
    | 2 => 0x40060000
    | 3 => src
    | 4 => dst
    | 5 => ports
    | 8 => 0x50100000
    | _ => 0

/-- Three connections take turns on two slots. -/
theorem slots_in_order_of_use_three : 1 ≤ 2 ∧ 2 ≤ maxStates ∧
    ∃ comp picks order,
      run (vjsetoutparms vjcompressInit 2) [ack 1 2 3, ack 4 5 6, ack 7 8 9, ack 4 5 6] =
        some (comp, picks) ∧
      order.Perm (range 2) ∧
      order = (range 2).map (fun k => comp.next^[k + 1] comp.lastCs) ∧
      comp.next^[2] comp.lastCs = comp.lastCs ∧
      UsesAll ⟨vjcompressInit.hdr, (range 2).reverse⟩
        [ack 1 2 3, ack 4 5 6, ack 7 8 9, ack 4 5 6] picks ⟨comp.hdr, order⟩ :=
  ⟨by decide, by decide, slots_in_order_of_use (by decide) (by decide) _⟩

end Sol26.Vj
