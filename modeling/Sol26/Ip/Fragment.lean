import Sol26.Ip.Pieces

/-!
# Fragments and what has been received of them

A fragment comes in one block, its header at the beginning. The queue is made of parts of the
fragments.
-/
namespace Sol26.Ip

open Gaps
open Option (bind_eq_bind bind_eq_some_iff bind_some pure_def)

section Fields

theorem htons_append {b c : List UInt8} {i v : ℕ} (h : i + 1 < b.length) :
    htons (b ++ c) i v = htons b i v ++ c := by
  unfold htons
  rw [List.set_append_left _ _ (by omega), List.set_append_left _ _ (by simpa using h)]

@[simp] theorem htons_length {b : List UInt8} {i v : ℕ} : (htons b i v).length = b.length := by
  simp [htons]

theorem length_of_ntohs {b : List UInt8} {i v : ℕ} (h : ntohs b i = some v) : i + 1 < b.length := by
  unfold ntohs at h
  simp only [pure_def, bind_eq_bind, bind_eq_some_iff] at h
  obtain ⟨x, -, y, hy, -⟩ := h
  exact (List.getElem?_eq_some_iff.mp hy).choose

theorem ntohs_append {b c : List UInt8} {i v : ℕ} (h : ntohs b i = some v) :
    ntohs (b ++ c) i = some v := by
  unfold ntohs at *
  simp only [pure_def, bind_eq_bind, bind_eq_some_iff] at h ⊢
  obtain ⟨x, hx, y, hy, hv⟩ := h
  have hget : ∀ {j : ℕ} {z : UInt8}, b[j]? = some z → (b ++ c)[j]? = some z := by
    intro j z hz
    rw [List.getElem?_append_left (List.getElem?_eq_some_iff.mp hz).choose, hz]
  exact ⟨x, hget hx, y, hget hy, hv⟩

theorem ntohs_lt {b : List UInt8} {i v : ℕ} (h : ntohs b i = some v) : v < 65536 := by
  unfold ntohs at h
  simp only [pure_def, bind_eq_bind, bind_eq_some_iff, Option.some.injEq] at h
  obtain ⟨x, -, y, -, hv⟩ := h
  have := x.toNat_lt
  have := y.toNat_lt
  omega

end Fields

/-- A packet that is a fragment and has data, in one block. -/
structure Frag where
  hdr : List UInt8
  payload : List UInt8
  field : ℕ
  hdrLength : iphHdrLength hdr = some hdr.length
  length : ntohs hdr 2 = some (hdr.length + payload.length)
  flags : ntohs hdr 6 = some field
  nonempty : payload ≠ []
  fragment : field &&& (iphMf ||| iphOffset) ≠ 0

namespace Frag

/-- The offset and the flag, without the other bits of the field. -/
def u1 (f : Frag) : ℕ := f.field &&& (iphMf ||| iphOffset)

def more (f : Frag) : Bool := f.u1 &&& iphMf ≠ 0

def start (f : Frag) : ℕ := (f.u1 &&& iphOffset) <<< 3

def stop (f : Frag) : ℕ := f.start + f.payload.length

def bytes (f : Frag) : List UInt8 := f.hdr ++ f.payload

/-- The block that is queued: the header is stripped if it is not the first piece. -/
def block (f : Frag) : Mblk :=
  ⟨if f.start = 0 then f.bytes else f.payload, f.start, f.stop⟩

variable (f : Frag)

theorem start_lt_stop : f.start < f.stop := by
  have := List.length_pos_iff.mpr f.nonempty
  unfold stop
  omega

theorem hdr_ne_nil : f.hdr ≠ [] := by
  intro h
  have := f.hdrLength
  simp [h, iphHdrLength] at this

theorem iphHdrLength_bytes : iphHdrLength f.bytes = some f.hdr.length := by
  have hlen := f.hdrLength
  unfold bytes
  cases hh : f.hdr with
  | nil => exact absurd hh f.hdr_ne_nil
  | cons b l =>
    rw [hh] at hlen
    exact hlen

theorem sub32_length : sub32 (f.hdr.length + f.payload.length) f.hdr.length = f.payload.length := by
  have := ntohs_lt f.length
  unfold sub32
  omega

/-- The first piece has the flag, or it would not be a fragment. -/
theorem more_of_start (h : f.start = 0) : f.more = true := by
  by_contra hm
  have h1 : f.u1 &&& iphMf = 0 := by simpa [more] using hm
  have h2 : f.u1 &&& iphOffset = 0 := by
    unfold start at h
    rw [Nat.shiftLeft_eq] at h
    omega
  have h3 : f.u1 &&& (iphMf ||| iphOffset) = 0 := by
    rw [Nat.and_or_distrib_left, h1, h2]
    rfl
  apply f.fragment
  rw [← h3, u1, Nat.and_assoc, Nat.and_self]

theorem offset_eq : (f.u1 <<< 3) &&& 0xFFFF = f.start := by
  have h1 : (f.u1 <<< 3) &&& 0xFFFF = f.u1 * 8 % 2 ^ 16 := by
    rw [Nat.shiftLeft_eq]
    exact Nat.and_two_pow_sub_one_eq_mod _ 16
  have h2 : f.u1 &&& iphOffset = f.u1 % 2 ^ 13 := Nat.and_two_pow_sub_one_eq_mod _ 13
  rw [h1, start, h2, Nat.shiftLeft_eq]
  omega

theorem u1_and_mf : (f.u1 &&& iphMf ≠ 0) ↔ f.more = true := by
  simp [more]

theorem blockEnd_block : blockEnd f.start f.block.data = some f.stop := by
  unfold blockEnd block
  dsimp only
  split_ifs with h
  · rw [iphHdrLength_bytes, Option.map_some, bytes, List.length_append, sub32_length, stop, h,
      zero_add]
  · rfl

/-- The call of `ip_reassemble` for a fragment. -/
theorem ipReassemble_block (ipf : Ipf) :
    ipReassemble [f.block.data] ipf f.u1 = do
      let ipf ← ipf.harden
      let ipf ← ipf.add f.more f.block false
      return (ipf, ipf.holeCnt = 0) := by
  have hne : f.start ≠ f.stop := f.start_lt_stop.ne
  have hall : ∀ ipf : Ipf, ipf.addAll f.more f.start [f.block.data] =
      ipf.add f.more f.block false := by
    intro ipf
    simp only [Ipf.addAll, blockEnd_block, bind_eq_bind, bind_some, hne, if_false,
      List.isEmpty_nil, Bool.not_true]
    exact Option.bind_fun_some _
  unfold ipReassemble
  cases ipf.harden with
  | none => rfl
  | some ipf =>
    simp only [bind_eq_bind, bind_some]
    rw [← hall]
    rfl

/-- The call of `ip_rput_local` for a fragment. -/
theorem ipRputLocal_bytes (q : Option Ipf) :
    ipRputLocal q [f.bytes] =
      match q with
      | none =>
        if f.start = 0 then some (some ⟨blocks [f.block.data], 0, f.stop⟩, none)
        else (ipReassemble [f.block.data] ⟨[], 0, 0⟩ f.u1).bind fun r => some (some r.1, none)
      | some ipf =>
        if f.start ≠ 0 ∧ ipf.last = f.start then
          if f.more then
            some (some ⟨ipf.queue ++ blocks [f.block.data], ipf.holeCnt, f.stop⟩, none)
          else (complete (ipf.queue ++ blocks [f.block.data])).bind fun m => some (none, some m)
        else (ipReassemble [f.block.data] ipf f.u1).bind fun r =>
          if r.2 then (complete r.1.queue).bind fun m => some (none, some m)
          else some (some r.1, none) := by
  have hu1 : f.field &&& (iphMf ||| iphOffset) = f.u1 := rfl
  have hne : f.u1 ≠ 0 := f.fragment
  have hflags : ntohs f.bytes 6 = some f.field := ntohs_append f.flags
  have hlength : ntohs f.bytes 2 = some (f.hdr.length + f.payload.length) := ntohs_append f.length
  have hlen : f.payload.length ≠ 0 := by simpa using f.nonempty
  have hmp : (if f.start ≠ 0 then f.bytes.drop f.hdr.length :: [f.bytes].tail else [f.bytes]) =
      [f.block.data] := by
    unfold block bytes
    by_cases hs : f.start = 0 <;> simp [hs]
  have hstop : (if f.start ≠ 0 then f.payload.length + f.start else f.payload.length) = f.stop := by
    unfold stop
    split_ifs <;> omega
  unfold ipRputLocal
  simp only [List.head?_cons, bind_eq_bind, bind_some]
  rw [hflags]
  simp only [bind_some, hu1]
  rw [if_neg hne]
  rw [iphHdrLength_bytes, bind_some, hlength, bind_some, sub32_length, if_neg hlen,
    offset_eq, hmp, hstop]
  cases q with
  | none => rfl
  | some ipf =>
    dsimp only
    by_cases hm : f.more = true
    · rw [if_pos (f.u1_and_mf.mpr hm), if_pos hm]
      rfl
    · rw [if_neg (mt f.u1_and_mf.mp hm), if_neg hm]
      rfl

end Frag

/-- The bytes that have been received. -/
def received (got : List Frag) : Set ℕ := { x | ∃ f ∈ got, f.start ≤ x ∧ x < f.stop }

/-- Everything is there up to the end of a fragment with `IPH_MF` clear. -/
def Complete (got : List Frag) : Prop :=
  ∃ f ∈ got, f.more = false ∧ ∀ x < f.stop, x ∈ received got

/-- One for the hole after the last byte, as long as all fragments have `IPH_MF` set. -/
def missingTail (got : List Frag) : ℕ := if got.all Frag.more then 1 else 0

/-- The byte is at the position in one of the fragments. -/
def Provides (got : List Frag) (x : ℕ) (b : UInt8) : Prop :=
  ∃ f ∈ got, f.start ≤ x ∧ f.payload[x - f.start]? = some b

/-- The block is a part of one of the fragments; the one for the beginning has the header. -/
structure PartOf (f : Frag) (m : Mblk) : Prop where
  start : f.start ≤ m.start
  stop : m.stop ≤ f.stop
  data : m.data = (if m.start = 0 then f.hdr else []) ++
    (f.payload.drop (m.start - f.start)).take (m.stop - m.start)

/-- The queue stands for what has been received. -/
structure Queued (got : List Frag) (l : List Mblk) : Prop where
  pieces : Pieces 0 (spans l)
  cover : ∀ x, x ∈ cover (spans l) ↔ x ∈ received got
  parts : ∀ m ∈ l, ∃ f ∈ got, PartOf f m

section Received

variable {got : List Frag} {f : Frag} {m : Mblk} {l : List Mblk} {x : ℕ}

@[simp] theorem mem_received_append :
    x ∈ received (got ++ [f]) ↔ x ∈ received got ∨ (f.start ≤ x ∧ x < f.stop) := by
  simp [received, or_and_right, exists_or]

theorem missingTail_append : missingTail (got ++ [f]) = if f.more then missingTail got else 0 := by
  unfold missingTail
  cases h : f.more <;> simp [h]

theorem missingTail_eq_zero : missingTail got = 0 ↔ ∃ f ∈ got, f.more = false := by
  unfold missingTail
  simp

/-- A cut of a fragment's block is a part of it, unless it begins past the header. -/
theorem partOf_cut {lo hi : ℕ} (hlo : f.start ≤ lo) (hhi : hi ≤ f.stop) (hlt : lo < hi)
    (hhdr : f.start = 0 → lo = 0) : PartOf f (f.block.cut lo hi) := by
  refine ⟨hlo, hhi, ?_⟩
  unfold Mblk.cut Frag.block
  dsimp only
  have hstop : f.stop = f.start + f.payload.length := rfl
  by_cases hs : f.start = 0
  · have hl := hhdr hs
    have hsub : f.hdr.length + f.payload.length - 0 - (f.stop - hi) = f.hdr.length + hi := by omega
    simp only [hs, hl, if_true, Frag.bytes, List.length_append, Nat.sub_zero, List.drop_zero]
    rw [Nat.sub_zero] at hsub
    rw [hsub, List.take_length_add_append]
  · have hl : lo ≠ 0 := by omega
    have hsub : f.payload.length - (lo - f.start) - (f.stop - hi) = hi - lo := by omega
    simp only [hs, hl, if_false, List.nil_append, hsub]

/-- A new block goes into the queue. -/
theorem Queued.added (h : Queued got l) {more : Bool} {l' : List Mblk} {holes holes' : ℤ}
    (ha : Added 0 more f.block l holes l' holes')
    (hhdr : f.start = 0 → lead 0 (spans l) = 0 ∨ f.stop ≤ lead 0 (spans l)) :
    Queued (got ++ [f]) l' := by
  refine ⟨ha.pieces, fun x => ?_, fun m hm => ?_⟩
  · rw [ha.cover x, mem_received_append, h.cover x, or_comm]
    rfl
  · cases ha.blocks m hm with
    | inl hm =>
      obtain ⟨g, hg, hpart⟩ := h.parts m hm
      exact ⟨g, by simp [hg], hpart⟩
    | inr hm =>
      obtain ⟨hi, h1, h2, rfl⟩ := hm
      refine ⟨f, by simp, partOf_cut le_lead h2 h1 fun hs => ?_⟩
      have hs' : f.block.start = 0 := hs
      rw [hs'] at h1 ⊢
      cases hhdr hs with
      | inl h => exact h
      | inr h =>
        have h2' : hi ≤ f.stop := h2
        omega

theorem PartOf.length (h : PartOf f m) (hm : m.start ≤ m.stop) (hs : m.start ≠ 0) :
    m.data.length = m.stop - m.start := by
  have h1 := h.start
  have h2 := h.stop
  have hstop : f.stop = f.start + f.payload.length := rfl
  rw [h.data, if_neg hs, List.nil_append, List.length_take, List.length_drop]
  omega

theorem PartOf.provides (h : PartOf f m) (hf : f ∈ got) {n : ℕ} {b : UInt8}
    (hb : ((f.payload.drop (m.start - f.start)).take (m.stop - m.start))[n]? = some b) :
    Provides got (m.start + n) b := by
  have h1 := h.start
  have hn : n < m.stop - m.start := by
    have := (List.getElem?_eq_some_iff.mp hb).choose
    rw [List.length_take] at this
    omega
  rw [List.getElem?_take_of_lt hn, List.getElem?_drop] at hb
  refine ⟨f, hf, by omega, ?_⟩
  rw [← hb]
  congr 1
  omega

end Received

end Sol26.Ip
