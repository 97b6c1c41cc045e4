import PipRiot.Ipv6.Hdr
import PipRiot.Lib.Reading

/-!
# Compression of the IPv6 header

The decoder reads the bytes of the 6LoWPAN snip through `Reading`, since it may use bytes
that are not there. The encoder writes a buffer: its length is the inline position, and
`orAt` is an assignment with `|=`.
-/

namespace PipRiot.Sixlowpan

open Ipv6 Reading

/-- `gnrc_sixlowpan_ctx_t`; `pre` is its `prefix`, `comp` the flag of `flags_id`, whose other
bits are the index of the entry. -/
structure Ctx where
  pre : Addr
  prefixLen : Nat
  comp : Bool

/-- What both sides share: the contexts, the link-layer addresses and how interface
identifiers are derived from them. -/
structure Link where
  ctxs : Nat → Ctx
  iid : List UInt8 → Option (Vector UInt8 8)
  src : List UInt8
  dst : List UInt8

variable (link : Link)

namespace Link

def lookupLoop (link : Link) (addr : Addr) : List Nat → Nat → Option Nat → Option Nat
  | [], _, res => res
  | id :: l, best, res =>
    let ctx := link.ctxs id
    let n := ctx.pre.matchPrefix addr
    if ctx.prefixLen > 0 ∧ ctx.prefixLen ≤ n ∧ n > best then lookupLoop link addr l n (some id)
    else lookupLoop link addr l best res

def lookupAddr (addr : Addr) : Option Nat := link.lookupLoop addr (List.range 16) 0 none

def lookupId (id : Nat) : Option Ctx :=
  if id < 16 ∧ (link.ctxs id).prefixLen > 0 then some (link.ctxs id) else none

end Link

/-! ## Decoding -/

def decodeTf (b0 : UInt8) (p : Nat) : Reading UInt8 (VTcFl × Nat) :=
  match b0 &&& 0x18 with
  | 0x00 => do
    let tc ← byte p
    let f1 ← byte (p + 1)
    let f2 ← byte (p + 2)
    let f3 ← byte (p + 3)
    pure ((VTcFl.initial.setTc tc).orFl f1 f2 f3, p + 4)
  | 0x08 => do
    let f1 ← byte p
    let f2 ← byte (p + 1)
    let f3 ← byte (p + 2)
    pure (((VTcFl.initial.setTcEcn (f1 >>> 6)).setTcDscp 0).orFl f1 f2 f3, p + 3)
  | 0x10 => do
    let tc ← byte p
    pure ((VTcFl.initial.setTc tc).setFl 0, p + 1)
  | _ => pure ((VTcFl.initial.setTc 0).setFl 0, p)

def decodeNh (b0 : UInt8) (p : Nat) : Reading UInt8 (UInt8 × Nat) :=
  if b0 &&& 0x04 = 0 then do
    let nh ← byte p
    pure (nh, p + 1)
  else pure (0, p)

def decodeHl (b0 : UInt8) (p : Nat) : Reading UInt8 (UInt8 × Nat) :=
  match b0 &&& 0x03 with
  | 0x00 => do
    let hl ← byte p
    pure (hl, p + 1)
  | 0x01 => pure (1, p)
  | 0x02 => pure (64, p)
  | _ => pure (255, p)

def decodeCid (base : Nat) (b1 : UInt8) (nibble : UInt8 → UInt8) : Reading UInt8 UInt8 :=
  if b1 &&& 0x80 = 0 then pure 0
  else do
    let cid ← byte (base + 2)
    pure (nibble cid)

/-- A context that a header refers to: `needed` says whether it is looked up. -/
def decodeCtx (base : Nat) (b1 : UInt8) (nibble : UInt8 → UInt8) (needed : Bool) (ctx : Option Ctx) :
    Reading UInt8 (Option Ctx) := do
  let cid ← decodeCid base b1 nibble
  if needed then
    match link.lookupId cid.toNat with
    | some c => pure (some c)
    | none => fail
  else pure ctx

def decodeSrcCtx (base : Nat) (b1 : UInt8) : Reading UInt8 (Option Ctx) :=
  if b1 &&& 0x40 = 0 then pure none
  else decodeCtx link base b1 (· >>> 4) (b1 &&& 0x30 ≠ 0) none

def decodeDstCtx (base : Nat) (b1 : UInt8) (ctx : Option Ctx) : Reading UInt8 (Option Ctx) :=
  if b1 &&& 0x04 = 0 then pure ctx
  else decodeCtx link base b1 (· &&& 0x0f) (b1 &&& 0x0b ≠ 0) ctx

/-- A unicast address in full, or its last 64, 16 or no bits after the link-local prefix
or that of a context. -/
inductive AddrMode
  | full
  | iid64
  | iid16
  | l2
  | ctx64
  | ctx16
  | ctxL2

def shortIid : List UInt8 := [0, 0, 0, 0xff, 0xfe, 0]

def decodeAddr (iid : Option (Vector UInt8 8)) (ctx : Option Ctx) (p : Nat) : AddrMode → Reading UInt8 (Addr × Nat)
  | .full => do
    let l ← bytes p 16
    pure (Addr.zero.write 0 l, p + 16)
  | .iid64 => do
    let l ← bytes p 8
    pure (Addr.zero.setLinkLocalPrefix.write 8 l, p + 8)
  | .iid16 => do
    let l ← bytes p 2
    pure ((Addr.zero.setLinkLocalPrefix.write 8 shortIid).write 14 l, p + 2)
  | .l2 =>
    match iid with
    | some iid => pure ((Addr.zero.write 8 iid.toList).setLinkLocalPrefix, p)
    | none => fail
  | .ctx64 =>
    match ctx with
    | some c => do
      let l ← bytes p 8
      pure ((Addr.zero.write 8 l).initPrefix c.pre c.prefixLen, p + 8)
    | none => fail
  | .ctx16 =>
    match ctx with
    | some c => do
      let l ← bytes p 2
      pure (((Addr.zero.write 8 shortIid).write 14 l).initPrefix c.pre c.prefixLen, p + 2)
    | none => fail
  | .ctxL2 =>
    match ctx, iid with
    | some c, some iid => pure ((Addr.zero.write 8 iid.toList).initPrefix c.pre c.prefixLen, p)
    | _, _ => fail

def decodeSrc (b1 : UInt8) (ctx : Option Ctx) (p : Nat) : Reading UInt8 (Addr × Nat) :=
  let iid := link.iid link.src
  match b1 &&& 0x70 with
  | 0x00 => decodeAddr iid ctx p .full
  | 0x10 => decodeAddr iid ctx p .iid64
  | 0x20 => decodeAddr iid ctx p .iid16
  | 0x30 => decodeAddr iid ctx p .l2
  | 0x40 => pure (Addr.zero, p)
  | 0x50 => decodeAddr iid ctx p .ctx64
  | 0x60 => decodeAddr iid ctx p .ctx16
  | _ => decodeAddr iid ctx p .ctxL2

def decodeUcPrefix (ctx : Option Ctx) (p : Nat) : Reading UInt8 (Addr × Nat) :=
  match ctx with
  | some c => do
    let prefixLen := min c.prefixLen 64
    let x ← byte p
    let y ← byte (p + 1)
    let dst := Addr.zero.write 0 [0xff, x, y, UInt8.ofNat prefixLen]
    let pre := (Addr.ofBytes fun k => dst.u8 (4 + k)).initPrefix c.pre prefixLen
    let l ← bytes (p + 2 + 2) 4
    pure ((dst.write 4 (pre.slice 0 8)).write 12 l, p + 2 + 4)
  | none => fail

def decodeDst (b1 : UInt8) (ctx : Option Ctx) (p : Nat) : Reading UInt8 (Addr × Nat) :=
  let iid := link.iid link.dst
  match b1 &&& 0x0f with
  | 0x00 => decodeAddr iid ctx p .full
  | 0x08 => decodeAddr iid ctx p .full
  | 0x01 => decodeAddr iid ctx p .iid64
  | 0x02 => decodeAddr iid ctx p .iid16
  | 0x03 => decodeAddr iid ctx p .l2
  | 0x05 => decodeAddr iid ctx p .ctx64
  | 0x06 => decodeAddr iid ctx p .ctx16
  | 0x07 => decodeAddr iid ctx p .ctxL2
  | 0x09 => do
    let x ← byte p
    let l ← bytes (p + 1) 5
    pure ((Addr.zero.write 0 [0xff, x]).write 11 l, p + 6)
  | 0x0a => do
    let x ← byte p
    let l ← bytes (p + 1) 3
    pure ((Addr.zero.write 0 [0xff, x]).write 13 l, p + 4)
  | 0x0b => do
    let x ← byte p
    pure ((Addr.zero.write 0 [0xff, 0x02]).write 15 [x], p + 1)
  | 0x0c => decodeUcPrefix ctx p
  | _ => pure (Addr.zero, p)

/-- `_iphc_ipv6_decode`, for a header at `base`: it gives the index behind it. -/
def ipv6Decode (base : Nat) : Reading UInt8 (Hdr × Nat) := do
  let b0 ← byte base
  let b1 ← byte (base + 1)
  let (vTcFl, p) ← decodeTf b0 (base + if b1 &&& 0x80 = 0 then 2 else 3)
  let (nh, p) ← decodeNh b0 p
  let (hl, p) ← decodeHl b0 p
  let ctx ← decodeSrcCtx link base b1
  let (src, p) ← decodeSrc link b1 ctx p
  let ctx ← decodeDstCtx link base b1 ctx
  let (dst, p) ← decodeDst link b1 ctx p
  pure (⟨vTcFl, 0, nh, hl, src, dst⟩, p)

/-! ## Encoding -/

def orAt (buf : List UInt8) (i : Nat) (b : UInt8) : List UInt8 := buf.modify i (· ||| b)

def compressibleNh (nh : UInt8) : Bool := nh ∈ [0, 17, 41, 43, 44, 60, 135]

def encodeTf (v : VTcFl) (buf : List UInt8) : List UInt8 :=
  if v.getFl = 0 then
    if v.getTc = 0 then orAt buf 0 0x18
    else orAt buf 0 0x10 ++ [v.getTc]
  else
    (if v.getTcDscp = 0 then orAt buf 0 0x08 ++ [v.getTcEcn <<< 6 ||| UInt8.ofNat (v.getFl / 65536 % 16)]
    else orAt buf 0 0x00 ++ [v.getTc, UInt8.ofNat (v.getFl / 65536 % 16)]) ++
      [UInt8.ofNat (v.getFl / 256 % 256), UInt8.ofNat (v.getFl % 256)]

def encodeNh (nh : UInt8) (buf : List UInt8) : List UInt8 := if compressibleNh nh then orAt buf 0 0x04 else buf ++ [nh]

def encodeHl (hl : UInt8) (buf : List UInt8) : List UInt8 :=
  match hl with
  | 1 => orAt buf 0 0x01
  | 64 => orAt buf 0 0x02
  | 255 => orAt buf 0 0x03
  | _ => orAt buf 0 0x00 ++ [hl]

def contextOverlapsIid (ctx : Option Ctx) (addr : Addr) (iid : Vector UInt8 8) : Bool :=
  match ctx with
  | none => false
  | some c =>
    let mask : UInt8 := [0xff, 0x7f, 0x3f, 0x1f, 0x0f, 0x07, 0x03, 0x01].getD (c.prefixLen % 8) 0
    !c.comp ∧ (c.prefixLen = 128 ∨
      c.prefixLen > 64 ∧ addr.slice (c.prefixLen / 8 + 1) (15 - c.prefixLen / 8) =
        iid.toList.drop (c.prefixLen / 8 - 7) ∧
        addr.u8 (c.prefixLen / 8) &&& mask = iid.toList.getD (c.prefixLen / 8 - 8) 0 &&& mask)

def encodeIid (ctx : Option Ctx) (addr : Addr) (iid : Vector UInt8 8) : UInt8 × List UInt8 :=
  if addr.slice 8 8 = iid.toList ∨ contextOverlapsIid ctx addr iid then (3, [])
  else if addr.slice 8 6 = shortIid then (2, addr.slice 14 2)
  else (1, addr.slice 8 8)

namespace Link

def compCtx (addr : Addr) : Option Nat := (link.lookupAddr addr).filter fun id => (link.ctxs id).comp

def srcCtx (src : Addr) : Option Nat := if src.isUnspecified then none else link.compCtx src

def dstCtx (dst : Addr) : Option Nat := if dst.isMulticast then none else link.compCtx dst

def cidExt (h : Hdr) : Bool := (link.srcCtx h.src).any (· ≠ 0) ∨ (link.dstCtx h.dst).any (· ≠ 0)

end Link

def encodeSrc (src : Addr) (buf : List UInt8) : Option (List UInt8) :=
  if src.isUnspecified then some (orAt buf 1 0x40)
  else
    let ctx := link.srcCtx src
    let buf :=
      match ctx with
      | none => buf
      | some id => if id ≠ 0 then orAt (orAt buf 1 0x40) 2 (UInt8.ofNat id <<< 4) else orAt buf 1 0x40
    if ctx.isSome ∨ src.isLinkLocal then
      (link.iid link.src).map fun iid =>
        let (mode, l) := encodeIid (ctx.map link.ctxs) src iid
        orAt buf 1 (mode <<< 4) ++ l
    else some (orAt buf 1 0x00 ++ src.slice 0 16)

variable (junk : Nat → UInt8)

/-- For a multicast address with a unicast prefix; `junk` is what the local variable
holds behind the prefix. -/
def ucPrefixCtx (dst : Addr) : Option Nat :=
  (link.lookupAddr (Addr.ofBytes fun k => if k < 8 then dst.u8 (4 + k) else junk k)).filter fun id =>
    (link.ctxs id).comp ∧ (link.ctxs id).prefixLen = (dst.u8 3).toNat

def encodeMulticast (dst : Addr) (buf : List UInt8) : List UInt8 :=
  let buf := orAt buf 1 0x08
  if dst.isZero 2 2 ∧ dst.isZero 4 4 ∧ dst.isZero 8 2 then
    if dst.u8 1 = 0x02 ∧ dst.isZero 8 4 ∧ dst.isZero 12 2 ∧ dst.u8 14 = 0 then orAt buf 1 0x0b ++ [dst.u8 15]
    else if dst.isZero 10 2 ∧ dst.u8 12 = 0 then orAt buf 1 0x0a ++ [dst.u8 1] ++ dst.slice 13 3
    else if dst.u8 10 = 0 then orAt buf 1 0x09 ++ [dst.u8 1] ++ dst.slice 11 5
    else orAt buf 1 0x00 ++ dst.slice 0 16
  else
    match ucPrefixCtx link junk dst with
    | some id =>
      let buf := orAt buf 1 0x04
      (if id ≠ 0 then orAt buf 2 (UInt8.ofNat id) else buf) ++ [dst.u8 1, dst.u8 2] ++ dst.slice 12 4
    | none => orAt buf 1 0x00 ++ dst.slice 0 16

def encodeDst (dst : Addr) (buf : List UInt8) : Option (List UInt8) :=
  if dst.isMulticast then some (encodeMulticast link junk dst buf)
  else
    let ctx := link.dstCtx dst
    if (ctx.isSome ∨ dst.isLinkLocal) ∧ link.dst.length > 0 then
      let buf :=
        match ctx with
        | none => buf
        | some id => if id ≠ 0 then orAt (orAt buf 1 0x04) 2 (UInt8.ofNat id) else orAt buf 1 0x04
      (link.iid link.dst).map fun iid =>
        let (mode, l) := encodeIid (ctx.map link.ctxs) dst iid
        orAt buf 1 mode ++ l
    else some (orAt buf 1 0x00 ++ dst.slice 0 16)

def ipv6Encode (h : Hdr) : Option (List UInt8) :=
  let buf := if link.cidExt h then [0x60, 0x80, 0] else [0x60, 0]
  let buf := encodeHl h.hl (encodeNh h.nh (encodeTf h.vTcFl buf))
  (encodeSrc link h.src buf).bind (encodeDst link junk h.dst)

end PipRiot.Sixlowpan
