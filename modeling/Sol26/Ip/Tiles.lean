import Mathlib.Data.Nat.Bitwise
import Sol26.Ip.Wput

/-!
# The fragments of a datagram

The fragments that are sent cover the payload one after the other.
-/
namespace Sol26.Ip

open List (flatten flatten_cons getElem?_set_ne length_append length_cons length_drop length_set
  length_take map_cons mem_cons)
open Option (bind_eq_bind bind_some)

section Fields

variable {b : List UInt8} {i j v : ℕ}

theorem ntohs_htons (h : i + 1 < b.length) : ntohs (htons b i v) i = some (v % 65536) := by
  have h1 : (htons b i v)[i]? = some (UInt8.ofNat (v / 256)) := by
    unfold htons
    rw [getElem?_set_ne (by omega), List.getElem?_set_self (by omega)]
  have h2 : (htons b i v)[i + 1]? = some (UInt8.ofNat v) := by
    unfold htons
    rw [List.getElem?_set_self (by simpa using h)]
  unfold ntohs
  simp only [h1, h2, bind_eq_bind, bind_some, Option.pure_def, Option.some.injEq,
    UInt8.toNat_ofNat']
  omega

theorem ntohs_htons_ne (h : j + 1 < i ∨ i + 1 < j) : ntohs (htons b i v) j = ntohs b j := by
  unfold ntohs htons
  rw [getElem?_set_ne (by omega), getElem?_set_ne (by omega),
    getElem?_set_ne (by omega), getElem?_set_ne (by omega)]

theorem iphHdrLength_htons (h : 0 < i) : iphHdrLength (htons b i v) = iphHdrLength b := by
  cases b with
  | nil => rfl
  | cons x b =>
    obtain ⟨i, rfl⟩ : ∃ k, i = k + 1 := ⟨i - 1, by omega⟩
    rfl

/-- A header that knows its length. -/
structure IsHdr (hdr : List UInt8) : Prop where
  length : iphHdrLength hdr = some hdr.length
  simple : ipSimpleHdrLength ≤ hdr.length

theorem IsHdr.htons {hdr : List UInt8} (h : IsHdr hdr) (hi : 0 < i) : IsHdr (htons hdr i v) := by
  refine ⟨?_, by simpa using h.simple⟩
  rw [iphHdrLength_htons hi, h.length, htons_length]

variable {hdr : List UInt8} {field length : ℕ}

@[simp] theorem stampHdr_length : (stampHdr hdr field length).length = hdr.length := by
  simp [stampHdr]

theorem IsHdr.stampHdr (h : IsHdr hdr) : IsHdr (stampHdr hdr field length) :=
  ((h.htons (by omega)).htons (by omega)).htons (by omega)

theorem IsHdr.stampHdr_field (h : IsHdr hdr) (field length : ℕ) :
    ntohs (Ip.stampHdr hdr field length) 6 = some (field % 65536) := by
  have hs := h.simple
  unfold ipSimpleHdrLength at hs
  unfold Ip.stampHdr
  dsimp only
  rw [ntohs_htons_ne (by omega), ntohs_htons_ne (by omega), ntohs_htons (by omega)]

theorem IsHdr.stampHdr_len (h : IsHdr hdr) (field length : ℕ) :
    ntohs (Ip.stampHdr hdr field length) 2 = some (length % 65536) := by
  have hs := h.simple
  unfold ipSimpleHdrLength at hs
  unfold Ip.stampHdr
  dsimp only
  rw [ntohs_htons_ne (by omega), ntohs_htons (by simp; omega)]

end Fields

section Flags

variable {m k d : ℕ}

/-- The flag and the offset in a fragment field. -/
theorem field_and_mf (hk : k < 2 ^ 13) (hd : d = 0 ∨ d = iphDf) :
    ((m &&& iphMf ||| k ||| d) &&& (iphMf ||| iphOffset)) &&& iphMf = m &&& iphMf := by
  have hmask : (iphMf ||| iphOffset) &&& iphMf = iphMf := by decide
  have hk' : k &&& iphMf = 0 := by
    have : k &&& 2 ^ 13 = 0 := by
      rw [Nat.and_two_pow, Nat.testBit_lt_two_pow hk]
      rfl
    exact this
  have hd' : d &&& iphMf = 0 := by
    rcases hd with rfl | rfl <;> decide
  rw [Nat.and_assoc, hmask, Nat.and_or_distrib_right, Nat.and_or_distrib_right, hk', hd',
    Nat.and_assoc, Nat.and_self, Nat.or_zero, Nat.or_zero]

theorem field_and_offset (hk : k < 2 ^ 13) (hd : d = 0 ∨ d = iphDf) :
    ((m &&& iphMf ||| k ||| d) &&& (iphMf ||| iphOffset)) &&& iphOffset = k := by
  have hmask : (iphMf ||| iphOffset) &&& iphOffset = iphOffset := by decide
  have hk' : k &&& iphOffset = k := by
    have : k &&& 2 ^ 13 - 1 = k := by rw [Nat.and_two_pow_sub_one_eq_mod, Nat.mod_eq_of_lt hk]
    exact this
  have hd' : d &&& iphOffset = 0 := by
    rcases hd with rfl | rfl <;> decide
  have hm' : iphMf &&& iphOffset = 0 := by decide
  rw [Nat.and_assoc, hmask, Nat.and_or_distrib_right, Nat.and_or_distrib_right, hk', hd',
    Nat.and_assoc, hm', Nat.and_zero, Nat.or_zero, Nat.zero_or]

theorem field_lt (hk : k < 2 ^ 13) (hd : d = 0 ∨ d = iphDf) : m &&& iphMf ||| k ||| d < 65536 := by
  have hm' : m &&& iphMf < 2 ^ 16 := Nat.and_lt_two_pow m (by decide)
  have hd' : d < 2 ^ 16 := by
    rcases hd with rfl | rfl <;> decide
  exact Nat.or_lt_two_pow (Nat.or_lt_two_pow hm' (by omega)) hd'

end Flags

/-- The fragment that is sent for `payload` at the offset `8 * k`. -/
theorem exists_frag {hdr : List UInt8} (payload : List UInt8) (m : ℕ) {k d : ℕ} (hhdr : IsHdr hdr)
    (hne : payload ≠ []) (hlen : payload.length + hdr.length < 65536) (hk : k < 2 ^ 13)
    (hd : d = 0 ∨ d = iphDf)
    (hfrag : m &&& iphMf ≠ 0 ∨ k ≠ 0) :
    ∃ f : Frag, f.bytes =
        stampHdr hdr (m &&& iphMf ||| k ||| d) (payload.length + hdr.length) ++ payload ∧
      f.hdr.length = hdr.length ∧ f.payload = payload ∧ f.start = 8 * k ∧
      (f.more = true ↔ m &&& iphMf ≠ 0) := by
  have hmf := field_and_mf (m := m) hk hd
  have hoff := field_and_offset (m := m) hk hd
  have hfield := hhdr.stampHdr_field (m &&& iphMf ||| k ||| d) (payload.length + hdr.length)
  have hlength := hhdr.stampHdr_len (m &&& iphMf ||| k ||| d) (payload.length + hdr.length)
  rw [Nat.mod_eq_of_lt (field_lt hk hd)] at hfield
  rw [Nat.mod_eq_of_lt hlen] at hlength
  refine ⟨⟨stampHdr hdr (m &&& iphMf ||| k ||| d) (payload.length + hdr.length), payload, _,
    hhdr.stampHdr.length, by rw [stampHdr_length, hlength, Nat.add_comm], hfield, hne,
    fun h0 => ?_⟩, rfl,
    stampHdr_length, rfl, ?_, ?_⟩
  · rw [h0, Nat.zero_and] at hmf hoff
    omega
  · change ((_ &&& _) &&& _) <<< 3 = _
    rw [hoff, Nat.shiftLeft_eq]
    omega
  · rw [← Frag.u1_and_mf]
    exact iff_of_eq (congrArg (· ≠ 0) hmf)

section Carve

theorem carve_spec {mp : List (List UInt8)} {len : ℕ} (h : len ≤ mp.flatten.length) :
    ∃ r, carve len mp = some r ∧ r.1.flatten = mp.flatten.take len ∧
      r.2.flatten = mp.flatten.drop len := by
  induction mp generalizing len with
  | nil =>
    obtain rfl : len = 0 := by simpa using h
    exact ⟨_, rfl, rfl, rfl⟩
  | cons m mp ih =>
    cases len with
    | zero => exact ⟨_, rfl, by simp, by simp⟩
    | succ len =>
      unfold carve
      rw [flatten_cons, length_append] at h
      by_cases hm : m.length > len + 1
      · rw [if_pos hm]
        refine ⟨_, rfl, ?_, ?_⟩
        · simp [List.take_append_of_le_length hm.le]
        · rw [flatten_cons, flatten_cons, List.drop_append_of_le_length hm.le]
      · have hle : len + 1 - m.length ≤ mp.flatten.length := by omega
        obtain ⟨r, hr, h1, h2⟩ := ih hle
        rw [if_neg hm, hr]
        refine ⟨_, rfl, ?_, ?_⟩
        · rw [flatten_cons, h1, flatten_cons, List.take_append,
            List.take_of_length_le (not_lt.mp hm)]
        · rw [h2, flatten_cons, List.drop_append, List.drop_of_length_le (not_lt.mp hm),
            List.nil_append]

theorem ipCarveMp_spec (mp : List (List UInt8)) {len : ℕ} (hpos : 0 < len)
    (h : len ≤ mp.flatten.length) :
    ∃ r, ipCarveMp mp len = some r ∧ r.1.flatten = mp.flatten.take len ∧
      r.2.flatten = mp.flatten.drop len := by
  unfold ipCarveMp
  rw [if_neg (by omega)]
  exact carve_spec h

end Carve

/-- The fragments one after the other from an offset on. All but the last have a multiple of
8 bytes and `IPH_MF` set; the last has `IPH_MF` as `m` says. -/
inductive Tiles (m : Bool) : ℕ → List UInt8 → List Frag → Prop
  | last {f : Frag} (hm : f.more = m) : Tiles m f.start f.payload [f]
  | cons {f : Frag} {p : List UInt8} {fs : List Frag} (hm : f.more = true)
      (h8 : 8 ∣ f.payload.length) (h : Tiles m f.stop p fs) :
      Tiles m f.start (f.payload ++ p) (f :: fs)

theorem Tiles.le_start {m : Bool} {o : ℕ} {p : List UInt8} {fs : List Frag} (h : Tiles m o p fs) :
    ∀ f ∈ fs, o ≤ f.start := by
  induction h with
  | last hm => simp
  | @cons f p fs hm h8 h ih =>
    intro g hg
    cases mem_cons.mp hg with
    | inl hg => rw [hg]
    | inr hg =>
      have := ih g hg
      have := f.start_lt_stop
      omega

theorem fragLoop_tiles {hdr : List UInt8} {m d len : ℕ} (hhdr : IsHdr hdr)
    (hd : d = 0 ∨ d = iphDf) (hlen : 0 < len) (h8 : 8 ∣ len) (hmax : len + hdr.length < 65536)
    {stop o : ℕ} (hstop : stop ≤ 65536) (ho : 0 < o) (ho8 : 8 ∣ o) (hlt : o < stop)
    {mp : List (List UInt8)} (hmp : mp.flatten.length = stop - o) :
    ∃ fs, (fragLoop hdr (m &&& iphMf) d stop len o mp).map flatten = fs.map Frag.bytes ∧
      Tiles (decide (m &&& iphMf ≠ 0)) o mp.flatten fs := by
  induction hn : stop - o using Nat.strong_induction_on generalizing o mp with
  | _ n ih =>
    obtain ⟨k, rfl⟩ := ho8
    have hk : k < 2 ^ 13 := by omega
    have hshift : (8 * k) >>> 3 = k := by
      rw [Nat.shiftRight_eq_div_pow]
      omega
    unfold fragLoop
    by_cases hmore : stop > 8 * k + len
    · obtain ⟨⟨data, rest⟩, hr, hdata, hrest⟩ := ipCarveMp_spec mp hlen (by omega)
      dsimp only at hdata hrest
      have hdlen : data.flatten.length = len := by
        rw [hdata, length_take]
        omega
      obtain ⟨f, hbytes, -, hpay, hstart, hmf⟩ := exists_frag data.flatten iphMf hhdr
        (fun h0 => by simp [h0] at hdlen; omega)
        (by omega) hk hd (.inl (by decide))
      have hfstop : f.stop = 8 * k + len := by rw [Frag.stop, hstart, hpay, hdlen]
      have hrlen : rest.flatten.length = stop - (8 * k + len) := by
        rw [hrest, length_drop]
        omega
      obtain ⟨fs, hfs, htiles⟩ := ih (stop - (8 * k + len)) (by omega) (by omega)
        (Dvd.dvd.add (Dvd.intro k rfl) h8) (by omega) hrlen rfl
      have hself : iphMf &&& iphMf = iphMf := Nat.and_self _
      rw [hself] at hbytes hmf
      refine ⟨f :: fs, ?_, ?_⟩
      · rw [if_pos hmore, if_neg (by omega), hr]
        simp only [hfs, map_cons, flatten_cons, hbytes, hdlen, hshift]
      · have := Tiles.cons (f := f) (hmf.mpr (by decide)) (by rw [hpay, hdlen]; exact h8)
          (hfstop ▸ htiles)
        rwa [hstart, hpay, hdata, hrest, List.take_append_drop] at this
    · obtain ⟨⟨data, rest⟩, hr, hdata, -⟩ :=
        ipCarveMp_spec mp (show 0 < stop - 8 * k by omega) (by omega)
      dsimp only at hdata
      rw [List.take_of_length_le (by omega)] at hdata
      obtain ⟨f, hbytes, -, hpay, hstart, hmf⟩ := exists_frag data.flatten m hhdr
        (fun h0 => by simp [← hdata, h0] at hmp; omega)
        (by rw [hdata]; omega) hk hd (.inr (by omega))
      have hflag : f.more = decide (m &&& iphMf ≠ 0) := by
        rw [Bool.eq_iff_iff, hmf, decide_eq_true_iff]
      refine ⟨[f], ?_, ?_⟩
      · rw [if_neg hmore, hr]
        simp only [map_cons, List.map_nil, flatten_cons, hbytes, hdata, hmp, hshift]
      · have := Tiles.last hflag
        rwa [hstart, hpay, hdata] at this

section Copyhdr

variable {hdr opts copied : List UInt8}

theorem copyOptions_length (h : copyOptions opts = some copied) : copied.length ≤ opts.length := by
  fun_induction copyOptions opts generalizing copied with
  | case1 | case2 => simp_all
  | case3 rest _ ih =>
    have := ih h
    rw [length_cons]
    omega
  | case4 | case5 | case6 | case7 => simp_all
  | case8 optval rest h1 h2 optlen h3 h4 h5 ih =>
    obtain ⟨more, hmore, rfl⟩ := Option.map_eq_some_iff.mp h
    have hlen := ih hmore
    rw [length_drop, length_cons] at hlen
    rw [length_cons]
    split_ifs
    · rw [length_append, length_take, length_cons]
      omega
    · omega

theorem padOptions_length (opts : List UInt8) :
    (padOptions opts).length % 4 = 0 ∧ opts.length ≤ (padOptions opts).length ∧
      (padOptions opts).length < opts.length + 4 := by
  unfold padOptions
  rw [length_append, List.length_replicate]
  omega

theorem IsHdr.length_le (h : IsHdr hdr) : hdr.length % 4 = 0 ∧ hdr.length ≤ 60 := by
  have hl := h.length
  unfold iphHdrLength at hl
  cases hdr with
  | nil => simp at hl
  | cons b hdr =>
    have hb : (b &&& 0xF).toNat ≤ 15 := by
      rw [UInt8.toNat_and]
      exact Nat.and_le_right
    simp only [Option.some.injEq, Nat.shiftLeft_eq] at hl
    rw [← hl]
    omega

/-- The byte with the version and the length. -/
theorem iphHdrLength_set {n : ℕ} (h0 : hdr ≠ []) (h4 : n % 4 = 0) (hn : n ≤ 60) :
    iphHdrLength (hdr.set 0 (UInt8.ofNat (4 <<< 4 ||| n >>> 2))) = some n := by
  cases hdr with
  | nil => exact absurd rfl h0
  | cons b hdr =>
    have hw : ∀ w < 16, (UInt8.ofNat (4 <<< 4 ||| w) &&& 0xF).toNat = w := by decide
    have hdiv : n >>> 2 = n / 4 := Nat.shiftRight_eq_div_pow n 2
    rw [List.set_cons_zero, iphHdrLength, hdiv, hw _ (by omega), Nat.shiftLeft_eq]
    congr 1
    omega

theorem ipWputFragCopyhdr_isHdr {offset : ℕ} (h : IsHdr hdr)
    (hc : ipWputFragCopyhdr hdr offset = some copied) :
    IsHdr copied ∧ copied.length ≤ hdr.length := by
  unfold ipWputFragCopyhdr at hc
  split_ifs at hc with hs
  · cases hc
    exact ⟨h, le_rfl⟩
  · obtain ⟨opts, hopts, rfl⟩ := Option.map_eq_some_iff.mp hc
    have hlen := copyOptions_length hopts
    obtain ⟨h4, h5, h6⟩ := padOptions_length opts
    obtain ⟨h1, h2⟩ := h.length_le
    have hsimple := h.simple
    unfold ipSimpleHdrLength at *
    rw [length_drop] at hlen
    have htotal : (hdr.take 20 ++ padOptions opts).length = 20 + (padOptions opts).length := by
      rw [length_append, length_take]
      omega
    dsimp only
    rw [htotal]
    refine ⟨⟨?_, ?_⟩, ?_⟩
    · rw [length_set, htotal]
      apply iphHdrLength_set _ (by omega) (by omega)
      intro hnil
      rw [hnil, List.length_nil] at htotal
      omega
    · rw [length_set, htotal]
      unfold ipSimpleHdrLength
      omega
    · rw [length_set, htotal]
      omega

end Copyhdr

/-- A message that is a datagram: a header in its first block, and the payload. -/
structure IsDatagram (mp : List (List UInt8)) (hdr payload : List UInt8) (field : ℕ) : Prop where
  isHdr : IsHdr hdr
  blocks : ∃ d rest, mp = (hdr ++ d) :: rest ∧ d ++ rest.flatten = payload
  length : ntohs hdr 2 = some (hdr.length + payload.length)
  flags : ntohs hdr 6 = some field

theorem iphHdrLength_append {b c : List UInt8} {n : ℕ} (h : iphHdrLength b = some n) :
    iphHdrLength (b ++ c) = some n := by
  cases b with
  | nil => simp [iphHdrLength] at h
  | cons x b => exact h

/-- A datagram that is longer than `max_frag` is sent as fragments that cover it. -/
theorem ipWputFrag_tiles {mp : List (List UInt8)} {hdr payload copied : List UInt8}
    {field maxFrag d : ℕ} (h : IsDatagram mp hdr payload field) (hdf : field &&& iphDf = 0)
    (hd : d = 0 ∨ d = iphDf) (hmin : hdr.length + 8 ≤ maxFrag)
    (hmax : maxFrag < hdr.length + payload.length)
    (hcopy : ipWputFragCopyhdr (htons hdr 10 0) (field &&& iphOffset) = some copied)
    (hend : 8 * (field &&& iphOffset) + payload.length ≤ 65536) :
    ∃ msgs fs, ipWputFrag mp maxFrag d = some msgs ∧ msgs.map flatten = fs.map Frag.bytes ∧
      Tiles (decide (field &&& iphMf ≠ 0)) (8 * (field &&& iphOffset)) payload fs ∧
      ∀ f ∈ fs, f.start = 8 * (field &&& iphOffset) → f.hdr.length = hdr.length := by
  obtain ⟨d0, rest, rfl, hpay⟩ := h.blocks
  have htotal := ntohs_lt h.length
  have hhdr : IsHdr (htons hdr 10 0) := h.isHdr.htons (by omega)
  have hlen : (htons hdr 10 0).length = hdr.length := htons_length
  obtain ⟨hcopied, hcle⟩ := ipWputFragCopyhdr_isHdr hhdr hcopy
  generalize hk : field &&& iphOffset = k at *
  generalize hl : (maxFrag - hdr.length) / 8 * 8 = len
  have hk13 : k < 2 ^ 13 := by
    rw [← hk]
    exact Nat.and_lt_two_pow _ (by decide)
  have hcheck : ¬ sub32 maxFrag (hdr.length + payload.length) / 8 * 8 < 8 := by
    unfold sub32
    omega
  -- the first fragment, with the header of the datagram
  have hfirst : (payload.take len).length = len := by
    rw [length_take]
    omega
  obtain ⟨f, hbytes, hfhdr, hfpay, hfstart, hfmore⟩ := exists_frag (payload.take len) iphMf hhdr
    (fun h0 => by rw [h0, List.length_nil] at hfirst; omega) (by omega) hk13 hd
    (.inl (by decide))
  rw [Nat.and_self, Nat.or_comm iphMf, hfirst, hlen] at hbytes
  have hflen : (stampHdr (htons hdr 10 0) (k ||| iphMf ||| d) (len + hdr.length)).length =
      hdr.length := by rw [stampHdr_length, hlen]
  generalize hfst : stampHdr (htons hdr 10 0) (k ||| iphMf ||| d) (len + hdr.length) = first
    at hbytes hflen
  have hflat : ((first ++ d0) :: rest).flatten = first ++ payload := by
    rw [flatten_cons, List.append_assoc, hpay]
  obtain ⟨⟨data, mp⟩, hcarve, hdata, hmp⟩ := ipCarveMp_spec ((first ++ d0) :: rest)
    (show 0 < len + hdr.length by omega) (by rw [hflat, length_append]; omega)
  dsimp only at hdata hmp
  have hcut : len + hdr.length = first.length + len := by omega
  rw [hflat, hcut, List.take_length_add_append] at hdata
  rw [hflat, hcut, List.drop_length_add_append] at hmp
  -- the others
  have hmplen : mp.flatten.length = (8 * k + payload.length) - (8 * k + len) := by
    rw [hmp, length_drop]
    omega
  obtain ⟨fs, hfs, htiles⟩ := fragLoop_tiles (m := field) hcopied hd (show 0 < len by omega)
    (show 8 ∣ len by omega) (by omega) hend (by omega) (by omega) (by omega) hmplen
  refine ⟨data :: fragLoop copied (field &&& iphMf) d (8 * k + payload.length) len (8 * k + len) mp,
    f :: fs, ?_, ?_, ?_, fun g hg hgs => ?_⟩
  · unfold ipWputFrag
    dsimp only [bind_eq_bind]
    rw [List.head?_cons, bind_some, ntohs_append h.flags, bind_some,
      if_neg (not_not.mpr hdf), ntohs_append h.length, bind_some, if_neg hcheck,
      iphHdrLength_append h.isHdr.length, bind_some, if_neg (by omega), List.take_left,
      List.drop_left, hk, hcopy, bind_some, hl, hfst, List.tail_cons, hcarve]
    have hshift : k <<< 3 = 8 * k := by rw [Nat.shiftLeft_eq, Nat.mul_comm]
    have hstop : 8 * k + (hdr.length + payload.length) - hdr.length = 8 * k + payload.length := by
      omega
    dsimp only
    rw [hshift, hstop]
    rfl
  · rw [map_cons, hfs, hdata, ← hbytes, map_cons]
  · have hfstop : f.stop = 8 * k + len := by rw [Frag.stop, hfstart, hfpay, hfirst]
    have := Tiles.cons (f := f) (hfmore.mpr (by decide)) (by rw [hfpay, hfirst]; omega)
      (hfstop ▸ htiles)
    rwa [hfstart, hfpay, hmp, List.take_append_drop] at this
  · cases mem_cons.mp hg with
    | inl hg => rw [hg, hfhdr, hlen]
    | inr hg =>
      have := htiles.le_start g hg
      omega

end Sol26.Ip
