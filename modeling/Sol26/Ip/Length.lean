import Sol26.Ip.Complete
import Sol26.Ip.Tiles

/-!
# The length of a reassembled datagram

`ip_rput_local` stores the number of bytes of a complete queue in `ipha_length`, which has 16 bits.
Nothing keeps the offset and the length of a fragment within what they can hold together.
-/
namespace Sol26.Ip

open Option (bind_eq_some_iff)
open List (flatten_cons length_append length_replicate)

/-- The header at the beginning of a message has its number of bytes. -/
def LengthStored (msg : List (List UInt8)) : Prop :=
  ntohs msg.flatten 2 = some msg.flatten.length

/-- The bytes of the blocks of a queue. -/
def queued (l : List Mblk) : ℕ := (l.map fun m => m.data.length).sum

@[simp] theorem queued_nil : queued [] = 0 := rfl

@[simp] theorem queued_cons (m : Mblk) (l : List Mblk) :
    queued (m :: l) = m.data.length + queued l := by
  simp [queued]

@[simp] theorem queued_append (l l' : List Mblk) : queued (l ++ l') = queued l + queued l' := by
  simp [queued]

@[simp] theorem queued_blocks (mp : List (List UInt8)) :
    queued (blocks mp) = mp.flatten.length := by
  induction mp with
  | nil => rfl
  | cons data mp ih =>
    have hcons : blocks (data :: mp) = ⟨data, 0, 0⟩ :: blocks mp := rfl
    rw [hcons, queued_cons, ih, flatten_cons, length_append]

theorem queued_eq_flatten (l : List Mblk) : queued l = (l.map Mblk.data).flatten.length := by
  induction l with
  | nil => rfl
  | cons m l ih => rw [queued_cons, ih, List.map_cons, flatten_cons, length_append]

section Growth

variable {more next : Bool} {mp mp1 : Mblk} {l : List Mblk} {holes : ℤ} {ipf q : Ipf}

theorem Mblk.trimFront_length_le (u1 : ℕ) : (mp.trimFront u1).data.length ≤ mp.data.length := by
  simp [trimFront]

theorem Mblk.trimBack_length_le (u1 : ℕ) : (mp.trimBack u1).data.length ≤ mp.data.length := by
  simp [trimBack]

/-- What is cut off at an overlap is not queued. -/
theorem queued_clip_le (l : List Mblk) (holes : ℤ) :
    (clip more mp l holes).1.data.length + queued (clip more mp l holes).2.1 ≤
      mp.data.length + queued l := by
  induction l generalizing holes with
  | nil => exact le_refl _
  | cons mp1 rest ih =>
    rw [queued_cons]
    unfold clip
    by_cases hstart : mp.stop > mp1.start
    · rw [if_pos hstart]
      by_cases hstop : mp.stop < mp1.stop
      · have := mp.trimBack_length_le mp1.start
        rw [if_pos hstop, queued_cons]
        dsimp only
        omega
      · rw [if_neg hstop]
        have := ih (if coversHole more mp.stop mp1 rest then holes - 1 else holes)
        omega
    · rw [if_neg hstart, queued_cons]

theorem queued_fill_le (next : Mblk) :
    queued (fill more mp mp1 next l holes).1 ≤ mp.data.length + queued (mp1 :: next :: l) := by
  unfold fill
  dsimp only
  by_cases hstop : mp.stop ≥ next.start
  · rw [if_pos hstop]
    have := @queued_clip_le more mp (next :: l)
      ((if mp.start > mp1.stop then holes + 1 else holes) - 1)
    simp only [queued_cons] at this ⊢
    omega
  · rw [if_neg hstop]
    simp only [queued_cons]
    omega

theorem queued_place_le {r : List Mblk × ℤ} (h : place more mp l holes = some r) :
    queued r.1 ≤ mp.data.length + queued l := by
  induction l generalizing mp r with
  | nil =>
    cases h
    exact Nat.zero_le _
  | cons mp1 rest ih =>
    have htrim : (if mp.start < mp1.stop then mp.trimFront mp1.stop else mp).data.length ≤
        mp.data.length := by
      split_ifs
      · exact mp.trimFront_length_le mp1.stop
      · exact le_refl _
    unfold place at h
    by_cases hold : mp.start < mp1.stop ∧ mp.stop ≤ mp1.stop
    · rw [if_pos hold] at h
      cases h
      exact Nat.le_add_left _ _
    · rw [if_neg hold] at h
      dsimp only at h
      generalize (if mp.start < mp1.stop then mp.trimFront mp1.stop else mp) = trimmed at h htrim
      cases rest with
      | nil =>
        by_cases hover : mp.start < mp1.stop
        · simp only [if_pos hover, Option.some.injEq] at h
          obtain rfl := h
          simp only [queued_cons, queued_nil]
          omega
        · simp only [if_neg hover] at h
          exact absurd h (by simp)
      | cons next rest' =>
        dsimp only at h
        by_cases hnext : trimmed.start ≥ next.start
        · rw [if_pos hnext] at h
          obtain ⟨r', hr', hr⟩ := bind_eq_some_iff.mp h
          cases hr
          have := ih hr'
          rw [queued_cons, queued_cons]
          omega
        · rw [if_neg hnext] at h
          cases h
          have := @queued_fill_le more trimmed mp1 rest' holes next
          omega

theorem queued_add_le (h : ipf.add more mp next = some q) :
    queued q.queue ≤ mp.data.length + queued ipf.queue := by
  unfold Ipf.add at h
  cases hq : ipf.queue with
  | nil =>
    rw [hq] at h
    cases h
    simp
  | cons mp1 rest =>
    rw [hq] at h
    dsimp only at h
    by_cases htail : mp.start ≥ (rest.getLastD mp1).stop
    · rw [if_pos htail] at h
      cases h
      simp only [queued_cons, queued_append, queued_nil, List.cons_append]
      omega
    · rw [if_neg htail] at h
      by_cases hfront : mp.start < mp1.start
      · rw [if_pos hfront] at h
        cases h
        exact queued_clip_le (mp1 :: rest) (frontHoles mp mp1.start ipf.holeCnt)
      · rw [if_neg hfront] at h
        obtain ⟨r, hr, hr'⟩ := bind_eq_some_iff.mp h
        cases hr'
        exact queued_place_le hr

theorem queued_addAll_le {start : ℕ} {datas : List (List UInt8)}
    (h : ipf.addAll more start datas = some q) :
    queued q.queue ≤ datas.flatten.length + queued ipf.queue := by
  induction datas generalizing ipf start with
  | nil =>
    cases h
    exact Nat.le_add_left _ _
  | cons data rest ih =>
    unfold Ipf.addAll at h
    obtain ⟨stop, -, h⟩ := bind_eq_some_iff.mp h
    rw [flatten_cons, length_append]
    split_ifs at h with hempty
    · have := ih h
      omega
    · obtain ⟨ipf', hadd, h⟩ := bind_eq_some_iff.mp h
      have hstep := queued_add_le hadd
      have := ih h
      dsimp only at hstep
      omega

theorem queued_harden (h : ipf.harden = some q) : queued q.queue = queued ipf.queue := by
  unfold Ipf.harden at h
  split_ifs at h with hlast
  · obtain ⟨l, hl, h⟩ := bind_eq_some_iff.mp h
    cases h
    rw [queued_eq_flatten, queued_eq_flatten, mark_data hl]
  · cases h
    rfl

theorem queued_ipReassemble_le {mp : List (List UInt8)} {field : ℕ} {done : Bool}
    (h : ipReassemble mp ipf field = some (q, done)) :
    queued q.queue ≤ mp.flatten.length + queued ipf.queue := by
  obtain ⟨ipf', hhard, h⟩ := bind_eq_some_iff.mp h
  obtain ⟨ipf'', hadd, h⟩ := bind_eq_some_iff.mp h
  cases h
  rw [← queued_harden hhard]
  exact queued_addAll_le hadd

/-- The bytes that wait for the rest of a datagram. -/
def held (ipf : Option Ipf) : ℕ := ipf.elim 0 fun q => queued q.queue

/-- `(ntohs(ipha->ipha_fragment_offset_and_flags) & (IPH_MF | IPH_OFFSET)) != 0` -/
def IsFragment (mp : List (List UInt8)) : Prop :=
  ∃ ipha field, mp.head? = some ipha ∧ ntohs ipha 6 = some field ∧
    field &&& (iphMf ||| iphOffset) ≠ 0

/-- A datagram is made of blocks of the queue and of the fragment that completes it. -/
theorem ipRputLocal_complete {held' : Option Ipf} {mp msg : List (List UInt8)} {r : Option Ipf}
    (hfrag : IsFragment mp) (h : ipRputLocal held' mp = some (r, some msg)) :
    ∃ l, complete l = some msg ∧ queued l ≤ mp.flatten.length + held held' := by
  obtain ⟨ipha, field, hhead, hfield, hne⟩ := hfrag
  cases mp with
  | nil => exact absurd hhead (by simp)
  | cons first tail =>
    obtain rfl := Option.some.inj hhead
    simp only [ipRputLocal, List.head?_cons, hfield, Option.bind_eq_bind, Option.bind_some,
      if_neg hne, Option.pure_def, List.tail_cons] at h
    obtain ⟨hdrLength, -, h⟩ := bind_eq_some_iff.mp h
    obtain ⟨length, -, h⟩ := bind_eq_some_iff.mp h
    generalize field &&& (iphMf ||| iphOffset) = u1 at h
    generalize hoff : u1 <<< 3 &&& 65535 = offset at h
    by_cases hempty : sub32 length hdrLength = 0
    · rw [if_pos hempty] at h
      exact absurd h (by simp)
    rw [if_neg hempty] at h
    have hmp : (if offset ≠ 0 then first.drop hdrLength :: tail
        else first :: tail).flatten.length ≤ (first :: tail).flatten.length := by
      split_ifs
      · simp
      · exact le_refl _
    generalize (if offset ≠ 0 then first.drop hdrLength :: tail else first :: tail) = mp at h hmp
    generalize (if offset ≠ 0 then sub32 length hdrLength + offset else _) = stop at h
    cases held' with
    | none =>
      dsimp only at h
      by_cases hfirst : offset = 0
      · rw [if_pos hfirst] at h
        exact absurd h (by simp)
      · rw [if_neg hfirst] at h
        obtain ⟨q, -, hq⟩ := bind_eq_some_iff.mp h
        exact absurd hq (by simp)
    | some ipf =>
      dsimp only at h
      by_cases heasy : offset ≠ 0 ∧ ipf.last = offset
      · rw [if_pos heasy] at h
        by_cases hmore : u1 &&& iphMf ≠ 0
        · rw [if_pos hmore] at h
          exact absurd h (by simp)
        · rw [if_neg hmore] at h
          obtain ⟨m, hm, h⟩ := bind_eq_some_iff.mp h
          cases h
          refine ⟨_, hm, ?_⟩
          rw [queued_append, queued_blocks]
          exact (Nat.add_comm _ _).trans_le (Nat.add_le_add_right hmp _)
      · rw [if_neg heasy] at h
        obtain ⟨⟨q, done⟩, hq, h⟩ := bind_eq_some_iff.mp h
        have hle := queued_ipReassemble_le hq
        cases done with
        | false => exact absurd h (by simp)
        | true =>
          obtain ⟨m, hm, h⟩ := bind_eq_some_iff.mp h
          cases h
          exact ⟨_, hm, hle.trans (Nat.add_le_add_right hmp _)⟩

theorem complete_length {msg : List (List UInt8)} (h : complete l = some msg) :
    msg.flatten.length = queued l := by
  cases l with
  | nil => exact absurd h (by simp [complete])
  | cons m l =>
    cases h
    rw [flatten_cons, length_append, htons_length, htons_length, queued_cons,
      queued_eq_flatten]

/-- The field has the number of bytes modulo 65536. -/
theorem complete_stored {msg : List (List UInt8)} (h : complete l = some msg)
    (hfirst : ∀ b ∈ msg.head?, 4 ≤ b.length) :
    ntohs msg.flatten 2 = some (msg.flatten.length % 65536) := by
  rw [complete_length h]
  cases l with
  | nil => exact absurd h (by simp [complete])
  | cons m l =>
    cases h
    have hlen := hfirst _ rfl
    rw [htons_length, htons_length] at hlen
    have hfield : ntohs (htons (htons m.data 2 (queued (m :: l))) 6 0) 2 =
        some (queued (m :: l) % 65536) := by
      rw [ntohs_htons_ne (by omega), ntohs_htons (by omega)]
    exact ntohs_append hfield

theorem lengthStored_iff {msg : List (List UInt8)} (h : complete l = some msg)
    (hfirst : ∀ b ∈ msg.head?, 4 ≤ b.length) :
    LengthStored msg ↔ msg.flatten.length ≤ 65535 := by
  rw [LengthStored, complete_stored h hfirst, Option.some.injEq]
  omega

end Growth

section Fit

variable {got : List Frag} {msg : List (List UInt8)}

/-- The datagram ends where the fragment that reaches furthest does. -/
theorem payload_le_iff {payload : List UInt8} {f : Frag} (hf : f ∈ got)
    (hmem : ∀ x, x ∈ received got ↔ x < payload.length) (n : ℕ) :
    payload.length ≤ n ↔ ∀ g ∈ got, g.stop ≤ n := by
  constructor
  · intro hle g hg
    have hlast : g.stop - 1 ∈ received got := by
      have := g.start_lt_stop
      exact ⟨g, hg, by omega, by omega⟩
    have := (hmem _).mp hlast
    omega
  · intro hall
    have hpos : 0 < payload.length := by
      have hstart : f.start ∈ received got := ⟨f, hf, le_refl _, f.start_lt_stop⟩
      exact Nat.zero_lt_of_lt ((hmem _).mp hstart)
    obtain ⟨g, hg, -, hlt⟩ := (hmem (payload.length - 1)).mpr (by omega)
    have := hall g hg
    omega

/-- A datagram has its length if and only if no fragment reaches too far. -/
theorem Delivered.lengthStored_iff (h : Delivered got msg) :
    ∃ f ∈ got, f.start = 0 ∧ iphHdrLength msg.flatten = some f.hdr.length ∧
      (LengthStored msg ↔ ∀ g ∈ got, f.hdr.length + g.stop ≤ 65535) := by
  obtain ⟨f, hf, hstart, payload, hflat, hmem, -⟩ := h
  have hlen : msg.flatten.length = f.hdr.length + payload.length := by
    rw [hflat, length_append, htons_length, htons_length]
  have hhdr : iphHdrLength msg.flatten = some f.hdr.length := by
    rw [hflat]
    apply iphHdrLength_append
    rw [iphHdrLength_htons (by omega), iphHdrLength_htons (by omega)]
    exact f.hdrLength
  have hfield : ntohs msg.flatten 2 = some ((f.hdr.length + payload.length) % 65536) := by
    rw [hflat]
    apply ntohs_append
    have := length_of_ntohs f.flags
    rw [ntohs_htons_ne (by omega), ntohs_htons (by omega)]
  have hbound : f.hdr.length ≤ 65535 := by
    have := ntohs_lt f.length
    omega
  refine ⟨f, hf, hstart, hhdr, ?_⟩
  calc LengthStored msg
    _ ↔ f.hdr.length + payload.length ≤ 65535 := by
      rw [LengthStored, hfield, hlen, Option.some.injEq]
      omega
    _ ↔ payload.length ≤ 65535 - f.hdr.length := by omega
    _ ↔ ∀ g ∈ got, g.stop ≤ 65535 - f.hdr.length := payload_le_iff hf hmem _
    _ ↔ ∀ g ∈ got, f.hdr.length + g.stop ≤ 65535 := by
      refine forall₂_congr fun g _ => ?_
      omega

end Fit

/-- In a run without the other defects, the length in the header of a datagram is the number of its
bytes if and only if the header and the end of every fragment stay within 65535. In any state, it is
if the bytes held and those of the fragment do. -/
theorem reassembled_length (msg : List (List UInt8)) :
    (∀ s, Run Sound s → s.out = some msg →
      ∃ f ∈ s.got, f.start = 0 ∧ iphHdrLength msg.flatten = some f.hdr.length ∧
        (LengthStored msg ↔ ∀ g ∈ s.got, f.hdr.length + g.stop ≤ 65535)) ∧
    ∀ ipf mp r, IsFragment mp → ipRputLocal ipf mp = some (r, some msg) →
      (∀ b ∈ msg.head?, 4 ≤ b.length) → held ipf + mp.flatten.length ≤ 65535 →
      LengthStored msg := by
  constructor
  · intro s hrun hout
    exact (hrun.valid.delivered msg hout).2.lengthStored_iff
  · intro ipf mp r hfrag h hfirst hfit
    obtain ⟨l, hl, hle⟩ := ipRputLocal_complete hfrag h
    rw [lengthStored_iff hl hfirst, complete_length hl]
    omega

/-- The two fragments of 8 bytes make a datagram of 36 bytes. -/
theorem reassembled_length_swapped :
    ∀ msg, swappedDone.out = some msg → LengthStored msg ∧ msg.flatten.length = 36 := by
  intro msg hout
  obtain ⟨f, hf, -, -, hiff⟩ := (reassembled_length msg).1 swappedDone swappedDone_run hout
  have hlen : ∀ g ∈ swappedDone.got, g.hdr.length = 20 ∧ g.stop ≤ 16 := by decide
  constructor
  · apply hiff.mpr
    intro g hg
    have h1 := hlen f hf
    have h2 := hlen g hg
    omega
  · cases hout
    rfl

theorem more_isFragment : 0x2000 &&& (iphMf ||| iphOffset) ≠ 0 := by decide

/-- The first 65512 bytes of a datagram. -/
def bigHead : Frag :=
  ⟨plainHdr 65512 0x2000, List.replicate 65512 0, 0x2000, by decide,
    by rw [length_replicate]; decide, by decide,
    List.ne_nil_of_length_pos (by rw [length_replicate]; decide), more_isFragment⟩

/-- Another 100 bytes, at the largest offset that follows. -/
def farTail : Frag :=
  ⟨plainHdr 100 8189, List.replicate 100 0, 8189, by decide,
    by rw [length_replicate]; decide, by decide, by simp, by decide⟩

/-- The two fragments make a datagram of 65632 bytes, whose header says 96. -/
theorem reassembled_length_exceeds :
    ∃ s msg, Run (fun _ _ => True) s ∧ s.out = some msg ∧ msg.flatten.length = 65632 ∧
      ntohs msg.flatten 2 = some 96 := by
  have hstart : bigHead.start = 0 := by decide
  have hpay : bigHead.payload.length = 65512 := by
    unfold bigHead
    rw [length_replicate]
  have hpay' : farTail.payload.length = 100 := by
    unfold farTail
    rw [length_replicate]
  have hstop : bigHead.stop = 65512 := by rw [Frag.stop, hstart, hpay]
  have hstart' : farTail.start = 65512 := by decide
  have hmore : farTail.more = false := by decide
  have h1 : Run (fun _ _ => True)
      ⟨[bigHead], some ⟨blocks [bigHead.block.data], 0, bigHead.stop⟩, none⟩ := by
    apply Run.start.frag (f := bigHead) trivial
    rw [bigHead.ipRputLocal_bytes, if_pos hstart]
  obtain ⟨msg, hmsg⟩ : ∃ msg, complete (blocks [bigHead.block.data] ++ blocks [farTail.block.data]) =
      some msg := ⟨_, rfl⟩
  have h2 : Run (fun _ _ => True) ⟨[bigHead, farTail], none, some msg⟩ := by
    apply h1.frag (f := farTail) trivial
    have heasy : farTail.start ≠ 0 ∧ bigHead.stop = farTail.start := by
      rw [hstop, hstart']
      decide
    rw [farTail.ipRputLocal_bytes]
    dsimp only
    rw [if_pos heasy, hmore, hmsg]
    rfl
  have hhead : bigHead.block.data.length = 65532 := by
    have hhdr : bigHead.hdr.length = 20 := rfl
    rw [Frag.block, if_pos hstart, Frag.bytes, length_append, hhdr, hpay]
  have hlen : msg.flatten.length = 65632 := by
    have htail : farTail.block.data.length = 100 := by
      rw [Frag.block, if_neg (by rw [hstart']; decide), hpay']
    rw [complete_length hmsg, queued_append, queued_blocks, queued_blocks, List.flatten_singleton,
      List.flatten_singleton, hhead, htail]
  refine ⟨_, msg, h2, rfl, hlen, ?_⟩
  rw [complete_stored hmsg, hlen]
  intro b hb
  cases hmsg
  cases hb
  rw [htons_length, htons_length]
  dsimp only
  omega

end Sol26.Ip
