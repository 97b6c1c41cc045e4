import PipRiot.Lib.Reading

/-!
# CoAP messages

`nanocoap.c`: a message is built in a buffer and parsed from one. Pointers into the
message are indexes into the buffer, which begins with the header. A failed assertion
is `none`; what a call returns is kept beside the packet.
-/

namespace PipRiot.Coap

open Reading

def enoent : Int := 2

def enomem : Int := 12

def enospc : Int := 28

def ebadmsg : Int := 74

structure OptPos where
  optNum : Nat
  offset : Nat
  deriving DecidableEq

/-- `coap_pkt_t`; `options` are the entries up to `options_len`. -/
structure Pkt where
  hdr : Nat → UInt8
  payload : Nat
  payloadLen : Nat
  options : List OptPos

/-! ## Building -/

variable (m : Nat → UInt8)

def buildHdr (type : Nat) (token : List UInt8) (code id : Nat) : Option ((Nat → UInt8) × Nat) :=
  if type < 4 ∧ token.length < 32 then
    some (put (put m 0 [UInt8.ofNat (1 <<< 6 ||| type <<< 4 ||| token.length), UInt8.ofNat code,
      UInt8.ofNat (id / 256), UInt8.ofNat id]) 4 token, 4 + token.length)
  else none

/-- `coap_pkt_init`; `payload_len` has 16 bits. -/
def pktInit (len headerLen : Nat) : Pkt := ⟨m, headerLen, (2 ^ 32 + len - headerLen) % 2 ^ 16, []⟩

/-- `_put_delta_optlen`, with `base` for the index of byte 0 of the option. -/
def putDeltaOptlen (base offset shift val : Nat) : (Nat → UInt8) × Nat :=
  if val < 13 then (put m base [m base ||| UInt8.ofNat (val <<< shift)], offset)
  else if val < 256 + 13 then
    (put (put m base [m base ||| UInt8.ofNat (13 <<< shift)]) (base + offset) [UInt8.ofNat (val - 13)], offset + 1)
  else
    (put (put m base [m base ||| UInt8.ofNat (14 <<< shift)]) (base + offset) [UInt8.ofNat ((val - 269) / 256),
      UInt8.ofNat (val - 269)], offset + 2)

def putOption (base lastonum onum : Nat) (odata : List UInt8) : Option ((Nat → UInt8) × Nat) :=
  if lastonum ≤ onum then
    let r1 := putDeltaOptlen (put m base [0]) base 1 4 (onum - lastonum)
    let r2 := putDeltaOptlen r1.1 base r1.2 0 odata.length
    some (put r2.1 (base + r2.2) odata, r2.2 + odata.length)
  else none

variable (nopts : Nat) (pkt : Pkt)

/-- `_add_opt_pkt`, for `CONFIG_NANOCOAP_NOPTS_MAX` options. -/
def addOptPkt (optnum : Nat) (val : List UInt8) : Option (Int × Pkt) :=
  if nopts ≤ pkt.options.length then some (-enospc, pkt)
  else
    let lastonum := pkt.options.getLast?.elim 0 (·.optNum)
    if lastonum ≤ optnum then
      -- the lengths of the two extensions are taken from writes to a dummy
      let r1 := putDeltaOptlen (fun _ => 0) 0 1 4 (optnum - lastonum)
      let optlen := r1.2 + (putDeltaOptlen r1.1 0 0 0 val.length).2 + val.length
      if pkt.payloadLen < optlen then some (-enospc, pkt)
      else do
        let r ← putOption pkt.hdr pkt.payload lastonum optnum val
        some (optlen, ⟨r.1, pkt.payload + optlen, pkt.payloadLen - optlen,
          pkt.options ++ [⟨optnum, pkt.payload % 2 ^ 16⟩]⟩)
    else none

def optAddOpaque (optnum : Nat) (val : List UInt8) : Option (Int × Pkt) := addOptPkt nopts pkt optnum val

/-- `coap_opt_finish`; the flag is `COAP_OPT_FINISH_PAYLOAD`. -/
def optFinish (finishPayload : Bool) : Int × Pkt :=
  if finishPayload then
    if pkt.payloadLen = 0 then (-enospc, pkt)
    else
      ((pkt.payload + 1 : Nat),
        { pkt with hdr := put pkt.hdr pkt.payload [0xff], payload := pkt.payload + 1,
                   payloadLen := pkt.payloadLen - 1 })
  else (pkt.payload, { pkt with payloadLen := 0 })

def payloadPutBytes (data : List UInt8) : Int × Pkt :=
  if pkt.payloadLen < data.length then (-enospc, pkt)
  else (data.length, { pkt with hdr := put pkt.hdr pkt.payload data, payload := pkt.payload + data.length,
                                payloadLen := pkt.payloadLen - data.length })

/-! ## Parsing -/

def decodeValue (m : Nat → UInt8) (val pktPos pktEnd : Nat) : Int × Nat :=
  if val = 13 then
    if pktEnd - pktPos < 1 then (-enospc, pktPos) else (((m pktPos).toNat + 13 : Nat), pktPos + 1)
  else if val = 14 then
    if pktEnd - pktPos < 2 then (-enospc, pktPos)
    else ((256 * (m pktPos).toNat + (m (pktPos + 1)).toNat + 269 : Nat), pktPos + 2)
  else if val = 15 then (-ebadmsg, pktPos)
  else (val, pktPos)

structure Scan where
  pktPos : Nat
  payload : Option (Nat × Nat)
  options : List OptPos

def parseLoop (m : Nat → UInt8) (len : Nat) : Nat → Nat → Nat → List OptPos → Except Int Scan
  | 0, pktPos, _, options => .ok ⟨pktPos, none, options⟩
  | n + 1, pktPos, optionNr, options =>
    if pktPos < len then
      if m pktPos = 0xff then .ok ⟨pktPos + 1, some (pktPos + 1, (len - (pktPos + 1)) % 2 ^ 16), options⟩
      else
        let delta := decodeValue m ((m pktPos).toNat / 16) (pktPos + 1) len
        if delta.1 < 0 then .error (-ebadmsg)
        else
          let optLen := decodeValue m ((m pktPos).toNat % 16) delta.2 len
          if optLen.1 < 0 then .error (-ebadmsg)
          else
            let nr := (optionNr + delta.1.toNat) % 2 ^ 32
            if delta.1 = 0 then parseLoop m len n (optLen.2 + optLen.1.toNat) nr options
            else if nopts ≤ options.length then .error (-enomem)
            else parseLoop m len n (optLen.2 + optLen.1.toNat) nr (options ++ [⟨nr % 2 ^ 16, pktPos % 2 ^ 16⟩])
    else .ok ⟨pktPos, none, options⟩

def tokenLen (m : Nat → UInt8) : Nat := (m 0).toNat % 16

def parse (m : Nat → UInt8) (len : Nat) : Except Int Pkt :=
  if len < 4 then .error (-ebadmsg)
  else if m 1 = 0 ∧ 4 < len then .error (-ebadmsg)
  else if 8 < tokenLen m then .error (-ebadmsg)
  else do
    let s ← parseLoop nopts m len len (4 + tokenLen m) 0 []
    if len < s.pktPos then .error (-ebadmsg)
    else
      let (payload, payloadLen) := s.payload.getD (s.pktPos, 0)
      .ok ⟨m, payload, payloadLen, s.options⟩

def parseOption (pktPos : Nat) : Option (Nat × Nat × Int) :=
  if pkt.payload ≤ pktPos ∨ pktPos + 1 = pkt.payload ∧ pkt.hdr pktPos = 0xff then none
  else
    let delta := decodeValue pkt.hdr ((pkt.hdr pktPos).toNat / 16) (pktPos + 1) pkt.payload
    let optLen := decodeValue pkt.hdr ((pkt.hdr pktPos).toNat % 16) delta.2 pkt.payload
    some (optLen.2, (delta.1 % 2 ^ 16).toNat, optLen.1)

def optGetNext (opt : OptPos) (initOpt : Bool) : Int × OptPos × Nat :=
  let opt := if initOpt then ⟨0, 4 + tokenLen pkt.hdr⟩ else opt
  match parseOption pkt opt.offset with
  | none => (-enoent, opt, 0)
  | some (start, delta, len) => (len, ⟨(opt.optNum + delta) % 2 ^ 16, ((start + len) % 2 ^ 16).toNat⟩, start)

def bytesAt (m : Nat → UInt8) (i n : Nat) : List UInt8 := (List.range n).map fun k => m (i + k)

/-- Calls of `coap_opt_get_next` until it returns `-ENOENT`, at most as many as the first
argument says; `none` if it does not. -/
def optEnum (pkt : Pkt) : Nat → OptPos → Bool → Option (List (Nat × List UInt8))
  | 0, _, _ => none
  | n + 1, opt, initOpt =>
    match optGetNext pkt opt initOpt with
    | (len, opt', value) =>
      if len = -enoent then some []
      else if len < 0 then none
      else (optEnum pkt n opt' false).map ((opt'.optNum, bytesAt pkt.hdr value len.toNat) :: ·)

end PipRiot.Coap
