import PipRiot.Lib.Reading

/-!
# ISO-TP

`isotp.c`: messages of up to 4095 bytes over CAN frames of eight. A node is one bound
`struct isotp` with what it sees of the layers around it: the queue of the ISO-TP
thread, the frames handed to the CAN device and the messages given to the user.
-/

namespace PipRiot.Isotp

open Reading

inductive State
  | idle
  | waitFc
  | waitCf
  | sendingSf
  | sendingFf
  | sendingCf
  | sendingFc
  | sendingNextCf
  deriving DecidableEq

structure Frame where
  canId : Nat
  canDlc : Nat
  data : Nat → UInt8

/-- `struct isotp_options`, with the three flags that are used. -/
structure Options where
  txId : Nat
  rxId : Nat
  listenMode : Bool
  extendAddr : Bool
  txPadding : Bool
  extAddress : UInt8
  txpadContent : UInt8
  rxExtAddress : UInt8

structure FcOptions where
  bs : UInt8
  stmin : UInt8
  wftmax : UInt8

structure Tpcon where
  idx : Nat
  state : State
  bs : Nat
  sn : Nat
  txHandle : Int
  snip : Option (List UInt8)

inductive Msg
  | sendFrame
  | rxIndication (frame : Frame)
  | txConfirmation (handle : Int)
  | rxTimeout
  | txTimeout

inductive UserMsg
  | rxIndication (data : List UInt8)
  | txConfirmation
  | txError
  deriving DecidableEq

/-- `struct isotp`; `handle` is the next of `can_pkt`, `pending` the frames of the node
on the device's list. -/
structure Node where
  opt : Options
  rxfc : FcOptions
  txfc : FcOptions
  tx : Tpcon
  rx : Tpcon
  txTimer : Option Nat
  rxTimer : Option Nat
  txGap : Nat
  txWft : Nat
  handle : Nat
  pending : List (Nat × Frame)
  user : List UserMsg
  inbox : List Msg

structure Supply where
  snip : Nat → Bool
  packet : Bool
  user : Bool

def timeout : Nat := 1000000

def Options.ae (opt : Options) : Nat := if opt.extendAddr then 1 else 0

variable (supply : Supply) (junk : Frame)

/-! ## The layers around -/

variable (n : Node)

def dispatchRx : Node :=
  if supply.packet then
    if supply.user then { n with user := n.user ++ [.rxIndication (n.rx.snip.getD [])], rx.snip := none }
    else { n with rx.snip := none }
  else n

def dispatchTx (err : Bool) : Node :=
  { n with tx.snip := none,
           user := if supply.user then n.user ++ [if err then .txError else .txConfirmation] else n.user }

variable (frame : Frame)

/-- `raw_can_send`: the handle or an error. Handles are not zero. -/
def rawCanSend : Int × Node :=
  if supply.packet then
    (n.handle, { n with handle := if n.handle + 1 = 2147483647 then 1 else n.handle + 1,
                        pending := n.pending ++ [(n.handle, frame)] })
  else (-12, n)

def rawCanAbort (handle : Int) : Node := { n with pending := n.pending.filter fun p => (p.1 : Int) ≠ handle }

/-! ## Frames -/

variable (opt : Options)

def fcFrame (rxfc : FcOptions) (status : UInt8) : Frame :=
  let data := if opt.txPadding then put junk.data 0 (List.replicate 8 opt.txpadContent) else junk.data
  let data := put data opt.ae [0x30 ||| status, rxfc.bs, rxfc.stmin]
  ⟨opt.txId, if opt.txPadding then 8 else opt.ae + 3, if opt.extendAddr then put data 0 [opt.extAddress] else data⟩

def sendFc (status : UInt8) : Node :=
  let n := { n with rx.bs := 0, rxTimer := some timeout }
  let (txHandle, n) := rawCanSend supply n (fcFrame junk n.opt n.rxfc status)
  if 0 ≤ txHandle then { n with rx.txHandle := txHandle }
  else { n with rx.txHandle := txHandle, rx.state := .idle, rxTimer := none }

def ffFrame (snip : List UInt8) (idx : Nat) (frame : Frame) : Frame :=
  let data := if opt.extendAddr then put frame.data 0 [opt.extAddress] else frame.data
  let data := put data opt.ae [UInt8.ofNat (snip.length / 256) ||| 0x10, UInt8.ofNat snip.length]
  ⟨opt.txId, 8, put data (opt.ae + 2) ((List.range (6 - opt.ae)).map fun i => snip.getD (idx + i) 0)⟩

def createFf : Node × Frame :=
  ({ n with tx.idx := n.tx.idx + (6 - n.opt.ae), tx.sn := 1 }, ffFrame n.opt (n.tx.snip.getD []) n.tx.idx frame)

def numBytes (size idx : Nat) : Nat := min (7 - opt.ae) (size - idx)

def dataframe (snip : List UInt8) (idx : Nat) (frame : Frame) : Frame :=
  let k := numBytes opt snip.length idx
  let padded : Bool := decide (k < 7 - opt.ae) && opt.txPadding
  let data := if padded then put frame.data 0 (List.replicate 8 opt.txpadContent) else frame.data
  let data := put data (1 + opt.ae) ((List.range k).map fun i => snip.getD (idx + i) 0)
  ⟨opt.txId, if padded then 8 else k + (1 + opt.ae), if opt.extendAddr then put data 0 [opt.extAddress] else data⟩

def fillDataframe : Node × Frame :=
  ({ n with tx.idx := n.tx.idx + numBytes n.opt (n.tx.snip.getD []).length n.tx.idx },
    dataframe n.opt (n.tx.snip.getD []) n.tx.idx frame)

def setPci (frame : Frame) (b : UInt8) : Frame := { frame with data := put frame.data opt.ae [b] }

/-! ## Receiving -/

def rcvFc : Node :=
  let ae := n.opt.ae
  if n.tx.state ≠ .waitFc then n
  else if frame.canDlc < ae + 3 then { n with txTimer := none, tx.state := .idle }
  else
    let stmin := frame.data (ae + 2)
    let stmin := if 0x7F < stmin ∧ (stmin < 0xF1 ∨ 0xF9 < stmin) then 0x7F else stmin
    let txGap := if stmin < 0x80 then stmin.toNat * 1000 else (stmin.toNat - 0xF0) * 100
    let n := { n with txTimer := none, txfc.bs := frame.data (ae + 1), txfc.stmin := stmin, txGap := txGap }
    if frame.data ae &&& 0x0F = 0 then
      { n with txWft := 0, tx.bs := 0, tx.state := .sendingNextCf, txTimer := some txGap }
    else if frame.data ae &&& 0x0F = 1 then
      let m := { n with txWft := (n.txWft + 1) % 2 ^ 8 }
      if n.txfc.wftmax.toNat ≤ n.txWft then dispatchTx supply { m with tx.state := .idle } true
      else { m with txTimer := some timeout }
    else dispatchTx supply { n with tx.state := .idle } true

def rcvSf : Node :=
  let ae := n.opt.ae
  let n := { n with rxTimer := none, rx.state := .idle }
  let len := (frame.data ae &&& 0x0F).toNat
  if frame.canDlc < len + (1 + ae) then n
  else if supply.snip len then
    dispatchRx supply { n with rx.snip := some ((List.range len).map fun i => frame.data (1 + ae + i)), rx.idx := len }
  else n

def writeBytes (snip : List UInt8) (idx : Nat) : List UInt8 → List UInt8
  | [] => snip
  | b :: bytes => writeBytes (snip.set idx b) (idx + 1) bytes

def rcvFf : Node :=
  let ae := n.opt.ae
  let n := { n with rx.state := .idle }
  let len := (frame.data ae &&& 0x0F).toNat * 256 + (frame.data (ae + 1)).toNat
  if 4095 < len ∨ ¬ supply.snip len then if n.opt.listenMode then n else sendFc supply junk n 2
  else
    let bytes := (List.range (frame.canDlc - (ae + 2))).map fun i => frame.data (ae + 2 + i)
    let n := { n with rx.snip := some (writeBytes (List.replicate len 0) 0 bytes), rx.idx := bytes.length, rx.sn := 1 }
    if n.opt.listenMode then { n with rx.state := .waitCf } else sendFc supply junk { n with rx.state := .sendingFc } 0

def copyCf (size : Nat) : List UInt8 → Nat → List UInt8 → Nat × List UInt8
  | [], idx, snip => (idx, snip)
  | b :: bytes, idx, snip =>
    if size ≤ idx + 1 then (idx + 1, snip.set idx b) else copyCf size bytes (idx + 1) (snip.set idx b)

def rcvCf : Node :=
  let ae := n.opt.ae
  if n.rx.state ≠ .waitCf then n
  else if (frame.data ae &&& 0x0F).toNat ≠ n.rx.sn then { n with rxTimer := none, rx.state := .idle, rx.snip := none }
  else
    let size := (n.rx.snip.getD []).length
    let bytes := (List.range (frame.canDlc - (ae + 1))).map fun i => frame.data (ae + 1 + i)
    let (idx, snip) := copyCf size bytes n.rx.idx (n.rx.snip.getD [])
    let n := { n with rxTimer := none, rx.sn := (n.rx.sn + 1) % 16, rx.idx := idx, rx.snip := some snip }
    if size ≤ idx then dispatchRx supply { n with rx.state := .idle }
    else if n.opt.listenMode then n
    else if n.rxfc.bs = 0 then { n with rxTimer := some timeout }
    else
      let n := { n with rx.bs := (n.rx.bs + 1) % 2 ^ 8 }
      if n.rx.bs < n.rxfc.bs.toNat then { n with rxTimer := some timeout } else sendFc supply junk n 0

def rcv : Node :=
  if n.opt.extendAddr ∧ frame.data 0 ≠ n.opt.rxExtAddress then n
  else
    let nPciType := frame.data n.opt.ae &&& 0xF0
    if nPciType = 0x30 then rcvFc supply n frame
    else if nPciType = 0x00 then rcvSf supply n frame
    else if nPciType = 0x10 then rcvFf supply junk n frame
    else if nPciType = 0x20 then rcvCf supply junk n frame
    else n

/-! ## Sending -/

def txSend : Node :=
  let (txHandle, n) := rawCanSend supply { n with txTimer := some timeout } frame
  let n := { n with tx.txHandle := txHandle }
  if txHandle < 0 then dispatchTx supply { n with txTimer := none, tx.state := .idle } true else n

def sendSfFf : Node :=
  let size := (n.tx.snip.getD []).length
  if size ≤ 7 - n.opt.ae then
    let (n, frame) := fillDataframe n junk
    txSend supply { n with tx.state := .sendingSf } (setPci n.opt frame (UInt8.ofNat size))
  else
    let (n, frame) := createFf { n with tx.state := .sendingFf } junk
    txSend supply n frame

def txTimeoutTask : Node :=
  match n.tx.state with
  | .waitFc => dispatchTx supply { n with tx.state := .idle } true
  | .sendingNextCf =>
    let (n, frame) := fillDataframe n junk
    let frame := setPci n.opt frame (0x20 ||| UInt8.ofNat n.tx.sn)
    txSend supply { n with tx.sn := (n.tx.sn + 1) % 16, tx.bs := (n.tx.bs + 1) % 2 ^ 8, tx.state := .sendingCf } frame
  | .sendingCf | .sendingFf | .sendingSf =>
    dispatchTx supply (rawCanAbort { n with tx.state := .idle } n.tx.txHandle) true
  | _ => n

def txTxConf : Node :=
  let n := { n with txTimer := none, tx.txHandle := 0 }
  match n.tx.state with
  | .sendingSf => dispatchTx supply { n with tx.state := .idle } false
  | .sendingFf => { n with tx.state := .waitFc, txTimer := some timeout }
  | .sendingCf =>
    if (n.tx.snip.getD []).length ≤ n.tx.idx then dispatchTx supply { n with tx.state := .idle } false
    else if n.txfc.bs ≠ 0 ∧ n.txfc.bs.toNat ≤ n.tx.bs then { n with tx.state := .waitFc, txTimer := some timeout }
    else { n with tx.state := .sendingNextCf, txTimer := some n.txGap }
  | _ => n

def rxTimeoutTask : Node :=
  match n.rx.state with
  | .sendingFc => { rawCanAbort n n.rx.txHandle with rx.snip := none, rx.state := .idle }
  | .waitCf => { n with rx.snip := none, rx.state := .idle }
  | _ => n

def rxTxConf : Node :=
  let n := { n with rxTimer := none, rx.txHandle := 0 }
  match n.rx.state with
  | .sendingFc => { n with rx.state := .waitCf, rxTimer := some timeout }
  | _ => n

def isotpThread : Msg → Node
  | .sendFrame => sendSfFf supply junk n
  | .rxIndication frame => rcv supply junk n frame
  | .txConfirmation handle =>
    if n.tx.txHandle = handle then txTxConf supply n else if n.rx.txHandle = handle then rxTxConf n else n
  | .rxTimeout => rxTimeoutTask n
  | .txTimeout => txTimeoutTask supply junk n

def isotpSend (buf : List UInt8) : Option Node :=
  if n.tx.state ≠ .idle then none
  else if supply.snip buf.length then
    some { n with tx.snip := some buf, tx.idx := 0, txWft := 0, inbox := n.inbox ++ [.sendFrame] }
  else none

/-! ## Two nodes on a bus -/

structure System where
  a : Node
  b : Node

inductive Side
  | a
  | b

/-- A thread takes a message, a frame goes over the bus, or the gap before the next
frame is over. The other timers do not expire. -/
inductive Action
  | run (side : Side)
  | transmit (side : Side)
  | gap (side : Side)

def run : Option Node :=
  match n.inbox with
  | [] => none
  | msg :: inbox => some (isotpThread supply junk { n with inbox := inbox } msg)

/-- The end of a frame is its confirmation and the indication of the receiver, which
subscribed to one identifier. -/
def transmit (n peer : Node) : Option (Node × Node) :=
  match n.pending with
  | [] => none
  | (handle, frame) :: pending =>
    some ({ n with pending := pending, inbox := n.inbox ++ [.txConfirmation handle] },
      if frame.canId = peer.opt.rxId then { peer with inbox := peer.inbox ++ [.rxIndication frame] } else peer)

def gap : Option Node :=
  if n.txTimer.isSome ∧ n.tx.state = .sendingNextCf then
    some { n with txTimer := none, inbox := n.inbox ++ [.txTimeout] }
  else none

def step (s : System) : Action → Option System
  | .run .a => (run supply junk s.a).map fun a => ⟨a, s.b⟩
  | .run .b => (run supply junk s.b).map fun b => ⟨s.a, b⟩
  | .transmit .a => (transmit s.a s.b).map fun r => ⟨r.1, r.2⟩
  | .transmit .b => (transmit s.b s.a).map fun r => ⟨r.2, r.1⟩
  | .gap .a => (gap s.a).map fun a => ⟨a, s.b⟩
  | .gap .b => (gap s.b).map fun b => ⟨s.a, b⟩

end PipRiot.Isotp
