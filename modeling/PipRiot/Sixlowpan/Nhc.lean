import PipRiot.Sixlowpan.Iphc

/-!
# Compression of the next headers

The chain of headers behind the IPv6 header. The decoder goes from header to header in the
6LoWPAN snip and writes each protocol number to where the header in front of it left a
place. Of the encoder this is the compression of a UDP header.
-/

namespace PipRiot.Sixlowpan

open Ipv6 Reading

def be16 (hi lo : UInt8) : UInt16 := hi.toUInt16 <<< 8 ||| lo.toUInt16

def htons (x : UInt16) : List UInt8 := [(x >>> 8).toUInt8, x.toUInt8]

/-! ## Decoding -/

structure Rbuf where
  datagramSize : Nat
  pktSize : Nat

/-- The size of the 6LoWPAN snip, the buffers there are room for, and what the snip of
the decompressed packet holds before. -/
structure Recv where
  link : Link
  size : Nat
  rbuf : Option Rbuf
  room : Nat → Bool
  junk : Nat → UInt8

/-- The variables of `gnrc_sixlowpan_iphc_recv`; `ipv6` is the decompressed packet. -/
structure Nhc where
  payloadOffset : Nat
  prevNhOffset : Nat
  uncompHdrLen : Nat
  ipv6Size : Nat
  ipv6 : Nat → UInt8

variable (rx : Recv) (s : Nhc)

def realloc (size : Nat) : Reading UInt8 Nhc :=
  if s.ipv6Size < size then if rx.room size then pure { s with ipv6Size := size } else fail else pure s

def extProtnum (eid : UInt8) : Option UInt8 :=
  match eid with
  | 0x00 => some 0
  | 0x02 => some 43
  | 0x04 => some 44
  | 0x06 => some 60
  | 0x08 => some 135
  | _ => none

def extLenField (extLen : UInt8) : UInt8 := UInt8.ofNat ((2 + extLen.toNat + 4294967288) % 4294967296 / 8)

def nhcIpv6ExtDecode : Reading UInt8 Nhc := do
  let offset := s.payloadOffset
  let nhc ← byte offset
  let extLen ← byte (if nhc &&& 0x01 = 0 then offset + 2 else offset + 1)
  let s ← realloc rx s (s.uncompHdrLen + 2 + extLen.toNat)
  match extProtnum (nhc &&& 0x0e) with
  | none => fail
  | some protnum =>
    let ipv6 := put s.ipv6 s.prevNhOffset [protnum]
    let pos := s.uncompHdrLen
    if nhc &&& 0x01 = 0 then do
      let nh ← byte (offset + 1)
      let data ← bytes (offset + 3) extLen.toNat
      pure ⟨offset + 3 + extLen.toNat, 0, pos + 2 + extLen.toNat, s.ipv6Size,
        put ipv6 pos (nh :: extLenField extLen :: data)⟩
    else do
      -- the header behind this one writes the next header field
      let data ← bytes (offset + 2) extLen.toNat
      pure ⟨offset + 2 + extLen.toNat, pos, pos + 2 + extLen.toNat, s.ipv6Size,
        put ipv6 (pos + 1) (extLenField extLen :: data)⟩

def nhcIpv6HdrDecode : Reading UInt8 Nhc := do
  let offset := s.payloadOffset + 1
  let s ← realloc rx s (s.uncompHdrLen + 40)
  let (hdr, stop) ← ipv6Decode rx.link offset
  let b0 ← byte offset
  let pos := s.uncompHdrLen
  let payloadLen : UInt16 :=
    match rx.rbuf with
    | some rbuf => UInt16.ofNat rbuf.datagramSize - UInt16.ofNat (pos + 40)
    | none => UInt16.ofNat (rx.size + pos) - UInt16.ofNat (40 + stop)
  let ipv6 := put (put s.ipv6 pos { hdr with len := payloadLen }.bytes) s.prevNhOffset [41]
  pure ⟨stop, if b0 &&& 0x04 = 0 then 0 else pos + 6, pos + 40, s.ipv6Size, ipv6⟩

/-- `_iphc_nhc_ipv6_decode`: an extension header that it does not know is not consumed. -/
def nhcIpv6Decode : Reading UInt8 Nhc := do
  let nhc ← byte s.payloadOffset
  if (extProtnum (nhc &&& 0x0e)).isSome then nhcIpv6ExtDecode rx s
  else if nhc &&& 0x0e = 0x0e then nhcIpv6HdrDecode rx s
  else pure s

def udpPorts (nhc : UInt8) (p : Nat) : Reading UInt8 (List UInt8 × Nat) :=
  match nhc &&& 0x03 with
  | 0x00 => do
    let ports ← bytes p 4
    pure (ports, p + 4)
  | 0x01 => do
    let src ← bytes p 2
    let dst ← byte (p + 2)
    pure (src ++ htons (dst.toUInt16 + 0xF000), p + 3)
  | 0x02 => do
    let src ← byte p
    let dst ← bytes (p + 1) 2
    pure (htons (src.toUInt16 + 0xF000) ++ dst, p + 3)
  | _ => do
    let tmp ← byte p
    pure (htons ((tmp >>> 4).toUInt16 + 0xF0B0) ++ htons ((tmp &&& 0x0f).toUInt16 + 0xF0B0), p + 1)

def nhcUdpDecode : Reading UInt8 Nhc := do
  let nhc ← byte s.payloadOffset
  let s ← realloc rx s (s.uncompHdrLen + 8)
  let (ports, p) ← udpPorts nhc (s.payloadOffset + 1)
  if nhc &&& 0x04 ≠ 0 then fail
  else do
    let checksum ← bytes p 2
    let payloadLen : UInt16 :=
      match rx.rbuf with
      | some rbuf => UInt16.ofNat rbuf.datagramSize - UInt16.ofNat s.uncompHdrLen
      | none => UInt16.ofNat (rx.size + 8) - UInt16.ofNat (p + 2)
    let ipv6 := put (put s.ipv6 s.uncompHdrLen (ports ++ htons payloadLen ++ checksum)) s.prevNhOffset [17]
    pure ⟨p + 2, s.prevNhOffset, s.uncompHdrLen + 8, s.ipv6Size, ipv6⟩

def nhcRound : Reading UInt8 (Nhc ⊕ Nhc) := do
  let nhc ← byte s.payloadOffset
  if nhc &&& 0xf8 = 0xe0 ∨ nhc &&& 0xf8 = 0xe8 then do
    let t ← nhcIpv6Decode rx s
    if rx.size < t.payloadOffset then fail
    else if t.prevNhOffset > 0 then pure (.inl t) else pure (.inr t)
  else if nhc &&& 0xf8 = 0xf0 then do
    let t ← nhcUdpDecode rx s
    if rx.size < t.payloadOffset then fail else pure (.inr t)
  else pure (.inr s)

/-- The loop of `gnrc_sixlowpan_iphc_recv`, with at most so many rounds; `none` while it is
still going. -/
def nhcLoop (fuel : Nat) (s : Nhc) : Reading UInt8 (Option Nhc) := do
  let b0 ← byte 0
  if b0 &&& 0x04 = 0 then pure (some s) else loop (nhcRound rx) fuel s

def recvLen : UInt16 :=
  match rx.rbuf with
  | some rbuf => UInt16.ofNat rbuf.datagramSize - 40
  | none => UInt16.ofNat (rx.size + s.uncompHdrLen) - UInt16.ofNat (s.payloadOffset + 40)

def recvRoom : Reading UInt8 Nhc :=
  match rx.rbuf with
  | some _ => if s.ipv6Size < s.uncompHdrLen + (rx.size - s.payloadOffset) then fail else pure s
  | none =>
    let size := s.uncompHdrLen + (recvLen rx s).toNat
    if rx.room size then pure { s with ipv6Size := size } else fail

def iphcFinish : Reading UInt8 Nhc := do
  let s ← recvRoom rx s
  let data ← bytes s.payloadOffset (rx.size - s.payloadOffset)
  pure { s with ipv6 := put (put s.ipv6 4 (htons (recvLen rx s))) s.uncompHdrLen data }

def afterLoop : Option Nhc → Reading UInt8 (Option Nhc)
  | none => pure none
  | some s => do
    let s ← iphcFinish rx s
    pure (some s)

def iphcRecv (fuel : Nat) : Reading UInt8 (Option Nhc) :=
  if rx.size < 2 then fail
  else do
    let s ← realloc rx ⟨0, 6, 40, (rx.rbuf.map (·.pktSize)).getD 0, rx.junk⟩ 40
    let (hdr, offset) ← ipv6Decode rx.link 0
    if rx.size < offset then fail
    else do
      let t ← nhcLoop rx fuel { s with payloadOffset := offset, ipv6 := put s.ipv6 0 hdr.bytes }
      afterLoop rx t

/-! ## Encoding -/

def nhcUdpEncode (udp : List UInt8) : List UInt8 :=
  let u8 := fun k => udp.getD k 0
  let srcPort := be16 (u8 0) (u8 1)
  let dstPort := be16 (u8 2) (u8 3)
  (if srcPort &&& 0xFFF0 = 0xF0B0 ∧ dstPort &&& 0xFFF0 = 0xF0B0 then
    [0xf0 ||| 0x03, (dstPort - 0xF0B0 + (srcPort - 0xF0B0 : UInt16) <<< (4 : UInt16)).toUInt8]
  else if dstPort &&& 0xFF00 = 0xF000 then [0xf0 ||| 0x01, u8 0, u8 1, (dstPort - 0xF000).toUInt8]
  else if srcPort &&& 0xFF00 = 0xF000 then [0xf0 ||| 0x02, (srcPort - 0xF000).toUInt8, u8 2, u8 3]
  else [0xf0 ||| 0x00, u8 0, u8 1, u8 2, u8 3]) ++ [u8 6, u8 7]

end PipRiot.Sixlowpan
