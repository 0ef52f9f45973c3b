import Sol26.Ip.Fragment

/-!
# Fragmentation

Model of `ip_wput_frag`, `ip_wput_frag_copyhdr`, `ip_carve_mp` and `ip_csum_hdr`, with every
allocation successful. A result of `none` is a loop that does not end or an access outside the
header.
-/
namespace Sol26.Ip

def iphDf : ℕ := 0x4000

def ipoptEol : UInt8 := 0x00

def ipoptNop : UInt8 := 0x01

def ipoptCopy : UInt8 := 0x80

/-- The loop of `ip_carve_mp`. -/
def carve : ℕ → List (List UInt8) → Option (List (List UInt8) × List (List UInt8))
  | 0, rest => some ([], rest)
  | _ + 1, [] => none
  | len + 1, mp :: rest =>
    -- we will not consume the entire block
    if mp.length > len + 1 then some ([mp.take (len + 1)], mp.drop (len + 1) :: rest)
    else (carve (len + 1 - mp.length) rest).map fun r => (mp :: r.1, r.2)

/-- `ip_carve_mp`: the first bytes of a message, and the rest. -/
def ipCarveMp (mp : List (List UInt8)) (len : ℕ) :
    Option (List (List UInt8) × List (List UInt8)) :=
  if len = 0 then none else carve len mp

/-- The options with the copy bit. -/
def copyOptions (opts : List UInt8) : Option (List UInt8) :=
  match opts with
  | [] => some []
  | optval :: rest =>
    if optval = ipoptEol then some []
    else if optval = ipoptNop then copyOptions rest
    else
      match rest.head? with
      | none => none
      | some optlen =>
        if optlen.toNat = 0 then none
        else if rest.length + 1 < optlen.toNat then
          if optval &&& ipoptCopy ≠ 0 then none else some []
        else (copyOptions ((optval :: rest).drop optlen.toNat)).map fun copied =>
          if optval &&& ipoptCopy ≠ 0 then (optval :: rest).take optlen.toNat ++ copied else copied
termination_by opts.length

/-- Fill with `IPOPT_EOL` to the next word boundary. -/
def padOptions (opts : List UInt8) : List UInt8 :=
  opts ++ List.replicate ((4 - opts.length % 4) % 4) ipoptEol

/-- `ip_wput_frag_copyhdr`: the header of the later fragments. -/
def ipWputFragCopyhdr (hdr : List UInt8) (offset : ℕ) : Option (List UInt8) :=
  if hdr.length = ipSimpleHdrLength ∨ offset ≠ 0 then some hdr
  else (copyOptions (hdr.drop ipSimpleHdrLength)).map fun opts =>
    let copied := hdr.take ipSimpleHdrLength ++ padOptions opts
    copied.set 0 (UInt8.ofNat (4 <<< 4 ||| copied.length >>> 2))

/-- The sum of the 16-bit words. -/
def sumWords : List UInt8 → ℕ
  | a :: b :: rest => a.toNat * 256 + b.toNat + sumWords rest
  | _ => 0

/-- `ip_csum_hdr` -/
def ipCsumHdr (hdr : List UInt8) : ℕ :=
  let sum := sumWords hdr
  let sum := sum % 2 ^ 16 + sum / 2 ^ 16
  let sum := 2 ^ 16 - 1 - (sum + sum / 2 ^ 16) % 2 ^ 16
  if sum = 0xFFFF then 0 else sum

/-- The header with the fragment field, the length and the checksum. -/
def stampHdr (hdr : List UInt8) (field length : ℕ) : List UInt8 :=
  let hdr := htons (htons hdr 6 field) 2 length
  htons hdr 10 (ipCsumHdr hdr)

/-- The loop of `ip_wput_frag` from byte `offset` on; `mf` is the flag of the datagram. The blocks of
data have no room before them, so that each header is in a block of its own. -/
def fragLoop (hdr : List UInt8) (mf fragFlag dataEnd len offset : ℕ) (mp : List (List UInt8)) :
    List (List (List UInt8)) :=
  if dataEnd > offset + len then
    -- `ip_carve_mp` returns nil for no bytes
    if len = 0 then []
    else
      match ipCarveMp mp len with
      | none => []
      | some (data, mp) =>
        (stampHdr hdr (iphMf ||| offset >>> 3 ||| fragFlag) (len + hdr.length) :: data) ::
          fragLoop hdr mf fragFlag dataEnd len (offset + len) mp
  else
    match ipCarveMp mp (dataEnd - offset) with
    | none => []
    | some (data, _) =>
      [stampHdr hdr (mf ||| offset >>> 3 ||| fragFlag) (dataEnd - offset + hdr.length) :: data]
termination_by dataEnd - offset

/-- `ip_wput_frag`: the fragments of a message that are sent. -/
def ipWputFrag (mp : List (List UInt8)) (maxFrag fragFlag : ℕ) :
    Option (List (List (List UInt8))) := do
  let ipha ← mp.head?
  let field ← ntohs ipha 6
  -- an ICMP message is sent instead
  if field &&& iphDf ≠ 0 then return []
  let offset := field &&& iphOffset
  let length ← ntohs ipha 2
  if sub32 maxFrag length / 8 * 8 < 8 then return []
  let hdrLen ← iphHdrLength ipha
  if maxFrag < hdrLen then none
  else do
    let hdr := htons (ipha.take hdrLen) 10 0
    let copied ← ipWputFragCopyhdr hdr offset
    let len := (maxFrag - hdrLen) / 8 * 8
    let first := stampHdr hdr (offset ||| iphMf ||| fragFlag) (len + hdrLen)
    let start := offset <<< 3
    match ipCarveMp ((first ++ ipha.drop hdrLen) :: mp.tail) (len + hdrLen) with
    | none => return []
    | some (data, rest) =>
      return data :: fragLoop copied (field &&& iphMf) fragFlag (start + length - hdrLen)
        len (start + len) rest

end Sol26.Ip
