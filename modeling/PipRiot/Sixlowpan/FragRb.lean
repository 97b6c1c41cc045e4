import Mathlib.Tactic.Ring

/-!
# The reassembly buffer of 6LoWPAN

The intervals of all entries are slots of one array, linked by their indexes. What the
packet buffer, the clock and the reception of compressed headers return is given with
each frame. A loop over a list that does not end has no result.
-/

namespace PipRiot.Sixlowpan

structure FragConfig where
  -- the bits of `size_t`
  word : Nat
  -- `CONFIG_GNRC_SIXLOWPAN_FRAG_RBUF_SIZE`
  rbufSize : Nat
  -- `RBUF_INT_SIZE`
  intSize : Nat
  -- `CONFIG_GNRC_SIXLOWPAN_FRAG_RBUF_TIMEOUT_US`
  timeout : UInt32
  -- `CONFIG_GNRC_SIXLOWPAN_FRAG_RBUF_DEL_TIMER`
  delTimer : UInt32
  -- `CONFIG_GNRC_SIXLOWPAN_FRAG_RBUF_DO_NOT_OVERRIDE`
  doNotOverride : Bool
  -- `MODULE_GNRC_SIXLOWPAN_IPHC`
  iphc : Bool
  rbuf_pos : 0 < rbufSize
  word_ge : 16 ≤ word

structure Interval where
  next : Option Nat
  start : Nat
  last : Nat

structure Key where
  src : List UInt8
  dst : List UInt8
  tag : Nat
  size : Nat
  deriving DecidableEq

structure Entry where
  ints : Option Nat
  key : Key
  currentSize : Nat
  arrival : UInt32
  pkt : Option (List UInt8)

structure Delivery where
  key : Key
  data : List UInt8

structure Rb where
  ints : Nat → Interval
  rbuf : Nat → Entry
  -- history
  dispatched : List Delivery

/-- The link-layer addresses, the bytes of the 6LoWPAN snip, and the memory behind them.
-/
structure Frame where
  src : List UInt8
  dst : List UInt8
  data : List UInt8
  behind : Nat → UInt8

variable (cfg : FragConfig) (f : Frame)

namespace Frame

def byte (i : Nat) : UInt8 := f.data.getD i (f.behind i)

def isFrag1 : Bool := f.byte 0 &&& 0xf8 = 0xc0

def isFragN : Bool := f.byte 0 &&& 0xf8 = 0xe0

def datagramSize : Nat := ((f.byte 0).toNat * 256 + (f.byte 1).toNat) % 2048

def datagramTag : Nat := (f.byte 2).toNat * 256 + (f.byte 3).toNat

def key : Key := ⟨f.src, f.dst, f.datagramTag, f.datagramSize⟩

def offset : Nat := if f.isFragN then (f.byte 4).toNat * 8 else 0

def payload : Nat := if f.isFrag1 then 4 else 5

def uncomp : UInt8 := 0x41

def fragSize : Nat :=
  if f.offset = 0 then
    if f.data.length < 4 then 0
    else if f.byte f.payload = uncomp then (f.data.length - 4 + 2 ^ cfg.word - 1) % 2 ^ cfg.word
    else f.data.length - 4
  else if f.data.length < 5 then 0
  else f.data.length - 5

def isIphc : Bool := f.byte f.payload &&& 0xe0 = 0x60

def bytes (n : Nat) : List UInt8 :=
  let data := if f.offset = 0 ∧ f.byte f.payload = uncomp then f.payload + 1 else f.payload
  (List.range n).map fun i => f.byte (data + i)

end Frame

/-- What the clock, the packet buffer and `gnrc_sixlowpan_iphc_recv` answer, which does not
return, removes the entry, or changes its size and data. -/
structure Env where
  gcTime : UInt32
  getTime : UInt32
  alloc : Option (Nat → UInt8)
  markOk : Bool
  iphcRecv : Option (Option (Nat × List UInt8))

inductive Check
  | success
  | again
  | duplicate
  deriving DecidableEq

inductive AddResult
  | entry (i : Nat)
  | again
  | error

inductive Search
  | found (i : Nat)
  | missing (free oldest : Option Nat)

def overlapPartially (i : Interval) (start last : Nat) : Bool :=
  (i.start ≤ last ∧ start ≤ i.last) ∧ (start ≠ i.start ∨ last ≠ i.last)

def checkFragments (ints : Nat → Interval) (offset fragSize : Nat) : Nat → Option Nat → Option Check
  | _, none => some .success
  | 0, some _ => none
  | fuel + 1, some k =>
    if overlapPartially (ints k) (offset % 2 ^ 16) ((offset + fragSize - 1) % 2 ^ 16) then some .again
    else if (ints k).start = offset then some .duplicate
    else checkFragments ints offset fragSize fuel (ints k).next

def baseRm : Nat → (Nat → Interval) → Option Nat → Option (Nat → Interval)
  | _, ints, none => some ints
  | 0, _, some _ => none
  | fuel + 1, ints, some k => baseRm fuel (Function.update ints k ⟨none, 0, 0⟩) (ints k).next

namespace Rb

def init : Rb where
  ints _ := ⟨none, 0, 0⟩
  rbuf _ := ⟨none, ⟨[], [], 0, 0⟩, 0, 0, none⟩
  dispatched := []

variable (s : Rb)

def setEntry (i : Nat) (e : Entry) : Rb := { s with rbuf := Function.update s.rbuf i e }

def remove (i : Nat) : Option Rb :=
  (baseRm (cfg.intSize + 1) s.ints (s.rbuf i).ints).map fun ints =>
    ({ s with ints := ints } : Rb).setEntry i
      { s.rbuf i with ints := none, key := { (s.rbuf i).key with size := 0 }, pkt := none }

def intGetFree : Option Nat := (List.range cfg.intSize).find? fun k => (s.ints k).last == 0

def updateInts (i offset fragSize : Nat) : Option Rb :=
  (s.intGetFree cfg).map fun k =>
    let int : Interval := ⟨(s.rbuf i).ints, offset % 2 ^ 16, (offset + fragSize - 1) % 2 ^ 16⟩
    ({ s with ints := Function.update s.ints k int } : Rb).setEntry i { s.rbuf i with ints := some k }

def expired (now : UInt32) (i : Nat) : Bool :=
  (s.rbuf i).pkt.isSome ∧ now - (s.rbuf i).arrival > cfg.timeout

def gc (cfg : FragConfig) (now : UInt32) : List Nat → Rb → Option Rb
  | [], s => some s
  | i :: l, s => if s.expired cfg now i then (s.remove cfg i).bind (gc cfg now l) else gc cfg now l s

def getLoop (s : Rb) (key : Key) : List Nat → Option Nat → Option Nat → Search
  | [], res, oldest => .missing res oldest
  | i :: l, res, oldest =>
    if (s.rbuf i).pkt.isSome ∧ (s.rbuf i).key = key then .found i
    else
      getLoop s key l (if res = none ∧ (s.rbuf i).pkt = none then some i else res)
        (match oldest with
        | none => some i
        | some o => if (s.rbuf o).arrival - (s.rbuf i).arrival < 0xffffffff / 2 then some i else some o)

def create (key : Key) (env : Env) (i : Nat) : Rb × Option Nat :=
  match env.alloc with
  | none => (s.setEntry i { s.rbuf i with pkt := none }, none)
  | some mem =>
    let data := (List.range key.size).map fun j => if j < 8 then 0 else mem j
    (s.setEntry i ⟨(s.rbuf i).ints, key, 0, env.getTime, some data⟩, some i)

def get (key : Key) (env : Env) : Option (Rb × Option Nat) :=
  match s.getLoop key (List.range cfg.rbufSize) none none with
  | .found i =>
    if cfg.delTimer > 0 ∧ (s.rbuf i).currentSize = 0 then some (s, none)
    else some (s.setEntry i { s.rbuf i with arrival := env.getTime }, some i)
  | .missing (some i) _ => some (s.create key env i)
  | .missing none none => none
  | .missing none (some o) =>
    if !cfg.doNotOverride ∨ env.getTime - (s.rbuf o).arrival > cfg.timeout then
      (s.remove cfg o).map fun u => u.create key env o
    else some (s, none)

def store (f : Frame) (env : Env) (i : Nat) : Option (Rb × AddResult) :=
  let n := f.fragSize cfg
  let e := s.rbuf i
  let s1 := s.setEntry i { e with currentSize := (e.currentSize + n) % 2 ^ 16 }
  if f.offset = 0 ∧ cfg.iphc ∧ f.isIphc then
    if env.markOk then
      match env.iphcRecv with
      | none => none
      | some none => (s1.remove cfg i).map fun u => (u, .error)
      | some (some (more, data)) =>
        some (s1.setEntry i { s1.rbuf i with currentSize := ((s1.rbuf i).currentSize + more) % 2 ^ 16,
                                             pkt := some data }, .entry i)
    else (s1.remove cfg i).map fun u => (u, .error)
  else
    some (s1.setEntry i { s1.rbuf i with
      pkt := e.pkt.map fun l => l.take f.offset ++ f.bytes n ++ l.drop (f.offset + n) }, .entry i)

def addTo (f : Frame) (env : Env) (i : Nat) : Option (Rb × AddResult) :=
  let n := f.fragSize cfg
  if (f.offset + n) % 2 ^ cfg.word > (s.rbuf i).key.size then (s.remove cfg i).map fun u => (u, .error)
  else
    match checkFragments s.ints f.offset n (cfg.intSize + 1) (s.rbuf i).ints with
    | none => none
    | some .again => (s.remove cfg i).map fun u => (u, .again)
    | some .duplicate => some (s, .entry i)
    | some .success =>
      match s.updateInts cfg i f.offset n with
      | none => (s.remove cfg i).map fun u => (u, .error)
      | some u => u.store cfg f env i

def add (f : Frame) (env : Env) : Option (Rb × AddResult) :=
  if f.fragSize cfg = 0 then some (s, .error)
  else
    (gc cfg env.gcTime (List.range cfg.rbufSize) s).bind fun s1 =>
      match s1.get cfg f.key env with
      | none => none
      | some (s2, none) => some (s2, .error)
      | some (s2, some i) => s2.addTo cfg f env i

def rbAdd (f : Frame) (env env' : Env) : Option (Rb × AddResult) :=
  match s.add cfg f env with
  | some (s1, .again) => s1.add cfg f env'
  | r => r

def tmpRm (i : Nat) (now : UInt32) : Option Rb :=
  if cfg.delTimer > 0 then
    some (s.setEntry i { s.rbuf i with arrival := now - (cfg.timeout - cfg.delTimer), currentSize := 0 })
  else s.remove cfg i

def dispatchWhenComplete (i : Nat) (netif : Bool) (now : UInt32) : Option Rb :=
  if (s.rbuf i).currentSize = (s.rbuf i).key.size then
    let s1 := if netif then { s with dispatched := s.dispatched ++ [⟨(s.rbuf i).key, (s.rbuf i).pkt.getD []⟩] } else s
    s1.tmpRm cfg i now
  else some s

inductive Op
  | recv (f : Frame) (env env' : Env) (netif : Bool) (now : UInt32)
  | gc (now : UInt32)

def step : Op → Option Rb
  | .recv f env env' netif now =>
    if f.isFrag1 ∨ f.isFragN then
      match s.rbAdd cfg f env env' with
      | none => none
      | some (s1, .entry i) => s1.dispatchWhenComplete cfg i netif now
      | some (s1, _) => some s1
    else some s
  | .gc now => gc cfg now (List.range cfg.rbufSize) s

end Rb

end PipRiot.Sixlowpan
