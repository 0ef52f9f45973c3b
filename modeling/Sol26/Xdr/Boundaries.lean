import Sol26.Xdr.Mblk

/-!
# Block boundaries

The decoder finds byte strings wherever the blocks end, and words as long as none is divided.  The
encoder never divides a word.
-/

namespace Sol26.Xdr.Mblk

open List (append_assoc flatten_cons length_append length_drop map_cons replicate)

/-! ### The decoder -/

/-- The decoder has read the first `k` bytes of the chain. -/
structure At (c : List Bytes) (k : ℕ) (d : Dec) : Prop where
  nonnull : d.m ≠ []
  handy_eq : d.handy = handyOf d.m
  left : d.m.flatten = c.flatten.drop k
  room_eq : ∀ o, room d.m o = room c (k + o)

variable {s : Bytes} {d : Dec} {e : Enc} {c : List Bytes} {count k : ℕ}

theorem at_init (hc : c ≠ []) : At c 0 (Dec.init c) :=
  ⟨hc, rfl, by simp [Dec.init], by simp [Dec.init]⟩

theorem At.trans {j : ℕ} {d' : Dec} (h : At c k d) (h' : At d.m j d') : At c (k + j) d' := by
  refine ⟨h'.nonnull, h'.handy_eq, ?_, fun o => ?_⟩
  · rw [h'.left, h.left, List.drop_drop]
  · rw [h'.room_eq, h.room_eq, Nat.add_assoc]

theorem at_drop {b : Bytes} (rest : List Bytes) (hk : k ≤ b.length) :
    At (b :: rest) k ⟨(b.length : ℤ) - k, b.drop k :: rest⟩ := by
  refine ⟨by simp, ?_, ?_, fun o => ?_⟩
  · simp only [handyOf, length_drop]
    omega
  · simp [List.drop_append_of_le_length hk]
  · simp only [room, length_drop]
    by_cases ho : k + o < b.length
    · rw [if_pos (by omega), if_pos ho]
      omega
    · rw [if_neg (by omega), if_neg ho]
      congr 1
      omega

/-- A block that has been read to its end. -/
theorem At.cons {b : Bytes} {rest : List Bytes} (h : At rest k d) :
    At (b :: rest) (b.length + k) d := by
  refine ⟨h.nonnull, h.handy_eq, ?_, fun o => ?_⟩
  · rw [h.left, flatten_cons, List.drop_append]
    simp
  · rw [h.room_eq, room, if_neg (by omega)]
    congr 1
    omega

theorem getbytesLoop_spec {m : List Bytes} {len : ℕ} (addr : Bytes) (hm : m ≠ [])
    (hlen : len ≤ m.flatten.length) :
    ∃ d, getbytesLoop (handyOf m) m len addr = (d, some (addr ++ m.flatten.take len)) ∧
      At m len d := by
  induction m generalizing len addr with
  | nil => exact absurd rfl hm
  | cons b rest ih =>
    rw [flatten_cons, length_append] at hlen
    rw [getbytesLoop, handyOf]
    by_cases hfit : len ≤ b.length
    · rw [if_neg (by omega)]
      refine ⟨_, ?_, at_drop rest hfit⟩
      rw [flatten_cons, List.take_append_of_le_length hfit]
    · have hrest : rest ≠ [] := by
        rintro rfl
        simp at hlen
        omega
      obtain ⟨d, hd, hat⟩ := ih (addr ++ b) hrest (by omega : len - b.length ≤ rest.flatten.length)
      have hlen' : b.length + (len - b.length) = len := by omega
      have hcons := hat.cons (b := b)
      rw [hlen'] at hcons
      refine ⟨d, ?_, hcons⟩
      rw [flatten_cons, List.take_append, List.take_of_length_le (by omega : b.length ≤ len),
        ← append_assoc, ← hd, if_pos (by omega)]
      by_cases hb : 0 < (b.length : ℤ)
      · rw [if_pos hb, Int.toNat_natCast, List.take_length]
      · have hnil : b = [] := List.eq_nil_of_length_eq_zero (by omega)
        rw [if_neg hb, hnil]
        simp

theorem getbytes_spec (h : At c k d) (len : ℕ) (hlen : k + len ≤ c.flatten.length) :
    ∃ d', d.getbytes len = (d', some ((c.flatten.drop k).take len)) ∧ At c (k + len) d' := by
  have hleft : len ≤ d.m.flatten.length := by
    rw [h.left, length_drop]
    omega
  obtain ⟨d', hd, hat⟩ := getbytesLoop_spec [] h.nonnull hleft
  refine ⟨d', ?_, h.trans hat⟩
  rw [Dec.getbytes, if_neg h.nonnull, h.handy_eq, hd, h.left]
  rfl

/-- Nothing but whole words is accepted. -/
theorem getlongLoop_spec {m : List Bytes} (hm : m ≠ []) :
    (4 ≤ room m 0 → ∃ d, getlongLoop (handyOf m) m = (d, some (ntohl (m.flatten.take 4))) ∧
      At m 4 d) ∧
    (room m 0 < 4 → (getlongLoop (handyOf m) m).2 = none) := by
  induction m with
  | nil => exact absurd rfl hm
  | cons b rest ih =>
    rw [getlongLoop, handyOf]
    by_cases hzero : b.length = 0
    · have hroom : room (b :: rest) 0 = room rest 0 := by simp [room, hzero]
      have hnil : b = [] := List.eq_nil_of_length_eq_zero hzero
      rw [hroom, if_pos (by omega), if_neg (by omega)]
      by_cases hrest : rest = []
      · subst hrest
        simp [room, getlongLoop]
      · obtain ⟨hgood, hbad⟩ := ih hrest
        refine ⟨fun h => ?_, hbad⟩
        obtain ⟨d, hd, hat⟩ := hgood h
        have hcons := hat.cons (b := b)
        rw [hzero, Nat.zero_add] at hcons
        exact ⟨d, by rw [hd, hnil]; rfl, hcons⟩
    · have hroom : room (b :: rest) 0 = b.length := by
        rw [room, if_pos (by omega), Nat.sub_zero]
      rw [hroom]
      constructor
      · intro h
        rw [if_neg (by omega)]
        refine ⟨_, ?_, at_drop rest h⟩
        rw [flatten_cons, List.take_append_of_le_length h]
        rfl
      · intro h
        rw [if_pos (by omega), if_pos (by omega)]

theorem getlong_spec (h : At c k d) :
    (4 ≤ room c k → ∃ d', d.getlong = (d', some (ntohl ((c.flatten.drop k).take 4))) ∧
      At c (k + 4) d') ∧
    (room c k < 4 → d.getlong.2 = none) := by
  obtain ⟨hgood, hbad⟩ := getlongLoop_spec h.nonnull
  rw [Dec.getlong, if_neg h.nonnull, h.handy_eq]
  have hroom := h.room_eq 0
  rw [Nat.add_zero] at hroom
  rw [hroom] at hgood hbad
  refine ⟨fun hr => ?_, hbad⟩
  obtain ⟨d', hd, hat⟩ := hgood hr
  exact ⟨d', by rw [hd, h.left], h.trans hat⟩

/-- A byte string is read wherever the blocks end. -/
theorem get_bytes (h : At c k d) {rest : Bytes}
    (hleft : c.flatten.drop k = (Item.bytes s).wire ++ rest) :
    ∃ d', d.get (.bytes s.length) = some (.bytes s, d') ∧
      At c (k + s.length + pad s.length) d' := by
  have hlen := congrArg List.length hleft
  rw [length_drop, length_append, length_wire_bytes] at hlen
  by_cases hs : s.length = 0
  · have hnil : s = [] := List.eq_nil_of_length_eq_zero hs
    subst hnil
    exact ⟨d, rfl, h⟩
  · rw [Dec.get, if_neg hs]
    obtain ⟨d1, hd1, hat1⟩ := getbytes_spec h s.length (by omega)
    have htake : (c.flatten.drop k).take s.length = s := by
      rw [hleft, Item.wire, append_assoc, List.take_left]
    rw [htake] at hd1
    rw [hd1]
    dsimp only
    by_cases hp : pad s.length = 0
    · rw [if_pos hp]
      refine ⟨d1, rfl, ?_⟩
      rw [hp]
      exact hat1
    · rw [if_neg hp]
      obtain ⟨d2, hd2, hat2⟩ := getbytes_spec hat1 (pad s.length) (by omega)
      rw [hd2]
      exact ⟨d2, rfl, hat2⟩

/-- From any division of the bytes into blocks, the items are decoded if and only if no word is
divided. -/
theorem decode_iff (h : At c k d) {xs : List Item}
    {rest : Bytes} (hleft : c.flatten.drop k = wires xs ++ rest) :
    decode (xs.map Item.kind) d = some xs ↔ ∀ o ∈ longsAt k xs, 4 ≤ room c o := by
  induction xs generalizing k d with
  | nil => simp [decode, longsAt]
  | cons x xs ih =>
    have hsplit : c.flatten.drop k = x.wire ++ (wires xs ++ rest) := by
      rw [hleft, wires, List.flatMap_cons, append_assoc]
      rfl
    have hnext : c.flatten.drop (k + x.wire.length) = wires xs ++ rest := by
      rw [← List.drop_drop, hsplit, List.drop_left]
    -- once the first item has been read, the rest decides
    have hgo : ∀ d', d.get x.kind = some (x, d') → At c (k + x.wire.length) d' →
        (decode ((x :: xs).map Item.kind) d = some (x :: xs) ↔
          ∀ o ∈ longsAt (k + x.wire.length) xs, 4 ≤ room c o) := by
      intro d' hget hat
      rw [← ih hat hnext, map_cons, decode, hget]
      simp only [Option.bind_eq_bind, Option.bind_some, Option.pure_def]
      cases decode (xs.map Item.kind) d' <;> simp
    cases x with
    | bytes s =>
      obtain ⟨d', hget, hat⟩ := get_bytes h hsplit
      rw [Nat.add_assoc, ← length_wire_bytes s] at hat
      rw [hgo d' hget hat, longsAt, Nat.add_assoc, ← length_wire_bytes s]
    | long w =>
      obtain ⟨hgood, hbad⟩ := getlong_spec h
      rw [longsAt, List.forall_mem_cons]
      by_cases hr : 4 ≤ room c k
      · obtain ⟨d', hd, hat⟩ := hgood hr
        have hword : (c.flatten.drop k).take 4 = bigEndian w := by
          rw [hsplit]
          rfl
        rw [hword, ntohl_bigEndian] at hd
        have hget : d.get .long = some (.long w, d') := by
          rw [Dec.get, hd]
        rw [hgo d' hget hat]
        exact ⟨fun hall => ⟨hr, hall⟩, And.right⟩
      · refine iff_of_false ?_ fun hall => hr hall.1
        have hnone : d.get .long = none := by
          rw [Dec.get]
          have hbad' := hbad (by omega)
          cases hg : d.getlong with
          | mk d' r =>
            rw [hg] at hbad'
            dsimp only at hbad'
            rw [hbad']
        rw [map_cons, decode, Item.kind, hnone]
        simp

/-- `XDR_SKIPBYTES` goes as far as `xdrmblk_getbytes` would. -/
theorem skipLoop_eq (handy : ℤ) (m : List Bytes) (len : ℕ) (addr : Bytes) :
    skipLoop handy m len =
      ((getbytesLoop handy m len addr).1, (getbytesLoop handy m len addr).2.isSome) := by
  induction m generalizing handy len addr with
  | nil => rfl
  | cons b rest ih =>
    rw [skipLoop, getbytesLoop]
    split_ifs
    · exact ih _ _ _
    · exact ih _ _ _
    · rfl

theorem skipbytes_eq (d : Dec) (len : ℕ) :
    d.skipbytes len = ((d.getbytes (rndup len)).1, (d.getbytes (rndup len)).2.isSome) := by
  rw [Dec.skipbytes, Dec.getbytes]
  split_ifs
  · rfl
  · exact skipLoop_eq _ _ _ _

/-! ### The encoder -/

/-- The chain `c'` continues the chain `c` by the bytes `s`. -/
structure Grows (c c' : List Bytes) (s : Bytes) : Prop where
  flatten_eq : c'.flatten = c.flatten ++ s
  room_le : ∀ o, room c o ≤ room c' o

theorem Grows.refl (c : List Bytes) : Grows c c [] := ⟨by simp, fun _ => le_rfl⟩

theorem Grows.trans {c' c'' : List Bytes} {t : Bytes} (h : Grows c c' s)
    (h' : Grows c' c'' t) : Grows c c'' (s ++ t) :=
  ⟨by rw [h'.flatten_eq, h.flatten_eq, append_assoc], fun o => (h.room_le o).trans (h'.room_le o)⟩

theorem grows_block (done : List Bytes) (cur s : Bytes) :
    Grows (done ++ [cur]) (done ++ [cur ++ s]) s := by
  refine ⟨by simp, fun o => ?_⟩
  rw [room_append, room_append]
  split_ifs with h
  · exact le_rfl
  · simp only [room, length_append]
    split_ifs <;> omega

theorem grows_next (c : List Bytes) : Grows c (c ++ [[]]) [] := by
  refine ⟨by simp, fun o => ?_⟩
  rw [room_append]
  split_ifs with h
  · exact le_rfl
  · rw [room_eq_zero c (not_lt.mp h)]
    exact Nat.zero_le _

/-- Blocks with room for a word, as many as bytes may come. -/
structure Enough (e : Enc) (count : ℕ) : Prop where
  handy_nonneg : 0 ≤ e.handy
  rooms : ∀ x ∈ e.next, ∃ r, x.room e.bufLen = some r ∧ 4 ≤ r
  many : count ≤ e.next.length

theorem store_spec (h : Enough e count) (hs : (s.length : ℤ) ≤ e.handy) :
    ∃ e', e.store s = some e' ∧ Grows e.chain e'.chain s ∧ Enough e' count ∧
      s.length ≤ room e'.chain e.chain.flatten.length := by
  refine ⟨_, if_neg (not_lt.mpr hs), grows_block _ _ _, ⟨?_, h.rooms, h.many⟩, ?_⟩
  · dsimp only
    omega
  · simp only [Enc.chain]
    rw [room_append, if_neg (by simp)]
    simp only [List.flatten_append, length_append, room, flatten_cons, List.flatten_nil,
      List.length_nil]
    split_ifs <;> omega

theorem advance_spec (h : Enough e (count + 1)) :
    ∃ e', e.advance = some e' ∧ e'.chain = e.chain ++ [[]] ∧ 4 ≤ e'.handy ∧ Enough e' count := by
  obtain ⟨hpos, hrooms, hmany⟩ := h
  cases hnext : e.next with
  | nil =>
    rw [hnext] at hmany
    simp at hmany
  | cons n next =>
    rw [hnext] at hrooms hmany
    obtain ⟨r, hr, hr4⟩ := hrooms n List.mem_cons_self
    refine ⟨{ e with done := e.done ++ [e.cur], cur := [], handy := r, next := next }, ?_, rfl,
      Int.ofNat_le.mpr hr4, ⟨by simp, fun x hx => hrooms x (List.mem_cons_of_mem n hx), ?_⟩⟩
    · rw [Enc.advance, hnext]
      simp [hr]
    · simpa using hmany

theorem putlong_spec (h : Enough e (count + 1)) (w : BitVec 32) :
    ∃ e', e.putlong w = some e' ∧ Grows e.chain e'.chain (bigEndian w) ∧ Enough e' count ∧
      4 ≤ room e'.chain e.chain.flatten.length := by
  rw [Enc.putlong]
  by_cases hfit : e.handy - 4 < 0
  · rw [if_pos hfit]
    obtain ⟨e1, hadv, hchain, hhandy, henough⟩ := advance_spec h
    obtain ⟨e2, hst, hgrow, henough2, hroom⟩ := store_spec henough (s := bigEndian w) hhandy
    have hflat : e1.chain.flatten = e.chain.flatten := by rw [hchain]; simp
    rw [hflat] at hroom
    refine ⟨e2, by rw [hadv]; exact hst, ?_, henough2, hroom⟩
    have hnext := grows_next e.chain
    rw [← hchain] at hnext
    exact hnext.trans hgrow
  · rw [if_neg hfit]
    have henough : Enough e count := ⟨h.handy_nonneg, h.rooms, by have := h.many; omega⟩
    refine store_spec henough ?_
    rw [length_bigEndian]
    push_cast
    omega

theorem putbytesLoop_spec {bufLen : ℕ} (next : List Next) (done : List Bytes) (cur : Bytes)
    {handy : ℤ} {addr : Bytes} (hpos : 0 ≤ handy)
    (hrooms : ∀ x ∈ next, ∃ r, x.room bufLen = some r ∧ 4 ≤ r)
    (hmany : count + (addr.length - handy.toNat) ≤ next.length) :
    ∃ e', putbytesLoop bufLen next done cur handy addr = some e' ∧
      Grows (done ++ [cur]) e'.chain addr ∧ Enough e' count := by
  induction next generalizing done cur handy addr with
  | nil =>
    rw [List.length_nil] at hmany
    rw [putbytesLoop, if_neg (by omega)]
    refine ⟨_, rfl, grows_block _ _ _, ⟨?_, hrooms, ?_⟩⟩
    · dsimp only
      omega
    · dsimp only
      omega
  | cons n next ih =>
    rw [putbytesLoop]
    by_cases hfit : handy - addr.length < 0
    · rw [if_pos hfit]
      obtain ⟨r, hr, hr4⟩ := hrooms n List.mem_cons_self
      have hk : (if 0 < handy then handy.toNat else 0) = handy.toNat := by
        split_ifs <;> omega
      have hdrop : (addr.drop handy.toNat).length = addr.length - handy.toNat := length_drop
      rw [List.length_cons] at hmany
      -- the next block takes four bytes at least, or all the rest
      obtain ⟨e', hrun, hgrow, henough⟩ := ih (done ++ [cur ++ addr.take handy.toNat]) []
        (Int.natCast_nonneg r) (fun x hx => hrooms x (List.mem_cons_of_mem n hx))
        (by rw [hdrop, Int.toNat_natCast]; omega)
      refine ⟨e', ?_, ?_, henough⟩
      · simp only [hk, hr, Option.bind_eq_bind, Option.bind_some]
        exact hrun
      · have hfirst := grows_block done cur (addr.take handy.toNat)
        have hall := (hfirst.trans (grows_next _)).trans hgrow
        rw [List.append_nil, List.take_append_drop] at hall
        exact hall
    · rw [if_neg hfit]
      refine ⟨_, rfl, grows_block _ _ _, ⟨?_, hrooms, ?_⟩⟩
      · dsimp only
        omega
      · dsimp only
        omega

theorem putbytes_spec {addr : Bytes} (h : Enough e (count + addr.length)) :
    ∃ e', e.putbytes addr = some e' ∧ Grows e.chain e'.chain addr ∧ Enough e' count :=
  putbytesLoop_spec e.next e.done e.cur h.handy_nonneg h.rooms (by have := h.many; omega)

/-- An item is put on the chain, a word in one piece. -/
theorem put_spec {x : Item} (h : Enough e (count + x.wire.length)) :
    ∃ e', e.put x = some e' ∧ Grows e.chain e'.chain x.wire ∧ Enough e' count ∧
      ∀ o ∈ longsAt e.chain.flatten.length [x], 4 ≤ room e'.chain o := by
  cases x with
  | long w =>
    have hfour : (Item.long w).wire.length = 4 := length_bigEndian w
    have henough : Enough e (count + 1) :=
      ⟨h.handy_nonneg, h.rooms, by have hm := h.many; rw [hfour] at hm; omega⟩
    obtain ⟨e', hput, hgrow, henough', hroom⟩ := putlong_spec henough w
    refine ⟨e', hput, hgrow, henough', fun o ho => ?_⟩
    obtain rfl : o = e.chain.flatten.length := by simpa [longsAt] using ho
    exact hroom
  | bytes s =>
    rw [length_wire_bytes] at h
    rw [Enc.put]
    by_cases hs : s.length = 0
    · have hnil : s = [] := List.eq_nil_of_length_eq_zero hs
      subst hnil
      exact ⟨e, rfl, Grows.refl _, h, by simp [longsAt]⟩
    · rw [if_neg hs]
      have hsum : count + (s.length + pad s.length) = count + pad s.length + s.length := by omega
      rw [hsum] at h
      obtain ⟨e1, hput1, hgrow1, henough1⟩ := putbytes_spec h
      rw [hput1]
      simp only [Option.bind_eq_bind, Option.bind_some, Option.pure_def]
      by_cases hp : pad s.length = 0
      · rw [if_pos hp]
        rw [hp] at henough1
        refine ⟨e1, rfl, ?_, henough1, by simp [longsAt]⟩
        simpa [Item.wire, hp] using hgrow1
      · rw [if_neg hp]
        have hrep : (replicate (pad s.length) (0 : UInt8)).length = pad s.length :=
          List.length_replicate
        rw [← hrep] at henough1
        obtain ⟨e2, hput2, hgrow2, henough2⟩ := putbytes_spec henough1
        exact ⟨e2, hput2, hgrow1.trans hgrow2, henough2, by simp [longsAt]⟩

theorem longsAt_cons (k : ℕ) (x : Item) (xs : List Item) :
    longsAt k (x :: xs) = longsAt k [x] ++ longsAt (k + x.wire.length) xs := by
  cases x with
  | long w => rfl
  | bytes s => simp [longsAt, length_wire_bytes, Nat.add_assoc]

/-- The encoder puts the items on its chain, and divides no word. -/
theorem encode_spec {xs : List Item} (h : Enough e (count + (wires xs).length)) :
    ∃ e', encode xs e = some e' ∧ Grows e.chain e'.chain (wires xs) ∧
      ∀ o ∈ longsAt e.chain.flatten.length xs, 4 ≤ room e'.chain o := by
  induction xs generalizing e with
  | nil => exact ⟨e, rfl, Grows.refl _, by simp [longsAt]⟩
  | cons x xs ih =>
    have hwires : wires (x :: xs) = x.wire ++ wires xs := List.flatMap_cons
    have hsum : count + (wires (x :: xs)).length =
        count + (wires xs).length + x.wire.length := by
      rw [hwires, length_append]
      omega
    rw [hsum] at h
    obtain ⟨e1, hput, hgrow1, henough, hlong⟩ := put_spec h
    obtain ⟨e2, henc, hgrow2, hlongs⟩ := ih henough
    have hlen : e1.chain.flatten.length = e.chain.flatten.length + x.wire.length := by
      rw [hgrow1.flatten_eq, length_append]
    refine ⟨e2, ?_, ?_, fun o ho => ?_⟩
    · rw [encode, hput]
      exact henc
    · rw [hwires]
      exact hgrow1.trans hgrow2
    · rw [longsAt_cons, List.mem_append] at ho
      obtain ho | ho := ho
      · exact (hlong o ho).trans (hgrow2.room_le o)
      · rw [← hlen] at ho
        exact hlongs o ho

/-! ### There and back -/

/-- `xdrmblk_init` for `XDR_ENCODE`. -/
def Enc.init (first bufLen : ℕ) (next : List Next) : Enc := ⟨[], [], first, next, bufLen⟩

/-- Items that are encoded into buffers with room for a word are decoded again from the encoder's
own chain, and from any other that has the same bytes and divides no word.  `XDR_SKIPBYTES` skips
what would be read. -/
theorem decode_encoded (xs : List Item) (first bufLen : ℕ) (next : List Next)
    (hrooms : ∀ x ∈ next, ∃ r, x.room bufLen = some r ∧ 4 ≤ r)
    (hmany : (wires xs).length ≤ next.length) :
    (∃ e, encode xs (Enc.init first bufLen next) = some e ∧
      decode (xs.map Item.kind) (Dec.init e.chain) = some xs ∧
      ∀ c, c ≠ [] → c.flatten = e.chain.flatten →
        (decode (xs.map Item.kind) (Dec.init c) = some xs ↔ Unsplit xs c)) ∧
    ∀ (d : Dec) (len : ℕ),
      d.skipbytes len = ((d.getbytes (rndup len)).1, (d.getbytes (rndup len)).2.isSome) := by
  refine ⟨?_, skipbytes_eq⟩
  have henough : Enough (Enc.init first bufLen next) (0 + (wires xs).length) :=
    ⟨Int.natCast_nonneg first, hrooms, by rw [Nat.zero_add]; exact hmany⟩
  obtain ⟨e, henc, hgrow, hlongs⟩ := encode_spec henough
  have hbytes : e.chain.flatten = wires xs := by
    rw [hgrow.flatten_eq]
    rfl
  have hother : ∀ c, c ≠ [] → c.flatten = e.chain.flatten →
      (decode (xs.map Item.kind) (Dec.init c) = some xs ↔ Unsplit xs c) := by
    intro c hc hflat
    have hleft : c.flatten.drop 0 = wires xs ++ [] := by
      rw [List.drop_zero, List.append_nil, hflat, hbytes]
    exact decode_iff (at_init hc) hleft
  have hown : e.chain ≠ [] := by simp [Enc.chain]
  exact ⟨e, henc, (hother e.chain hown rfl).mpr hlongs, hother⟩

/-- Two words around a string of three bytes, into blocks of six and ten bytes. -/
theorem decode_encoded_three :
    decode [.long, .bytes 3, .long]
      (Dec.init [[0, 0, 0, 1], [9], [], [8, 7, 0], [0, 0, 0, 2]]) =
        some [.long 1, .bytes [9, 8, 7], .long 2] := by
  have hspec := decode_encoded [.long 1, .bytes [9, 8, 7], .long 2] 6 10
    (replicate 12 (.alloc (some 16)))
    (fun x hx => ⟨10, by rw [List.eq_of_mem_replicate hx]; rfl, by decide⟩) (by decide)
  obtain ⟨e, henc, -, hother⟩ := hspec.1
  have hchain : e.chain.flatten = [0, 0, 0, 1, 9, 8, 7, 0, 0, 0, 0, 2] := by
    have hrun : (encode [.long 1, .bytes [9, 8, 7], .long 2]
        (Enc.init 6 10 (replicate 12 (.alloc (some 16))))).map (fun e => e.chain.flatten) =
          some [0, 0, 0, 1, 9, 8, 7, 0, 0, 0, 0, 2] := by decide
    rw [henc] at hrun
    exact Option.some.inj hrun
  exact (hother _ (by simp) (by rw [hchain]; rfl)).mpr (by decide)

/-- A word that is divided between two blocks is not found. -/
theorem decode_divided_word :
    (encode [.long 1] (Enc.init 4 4 [])).map Enc.chain = some [[0, 0, 0, 1]] ∧
      decode [.long] (Dec.init [[0, 0, 0, 1]]) = some [.long 1] ∧
      decode [.long] (Dec.init [[0, 0], [0, 1]]) = none := by
  refine ⟨by decide, by decide, by decide⟩

end Sol26.Xdr.Mblk
