import Mathlib.Data.BitVec

/-!
# The timers of a clock

A clock of 32 bits with its list of timers, of any type `τ`, each with its offset from
the timer before it. The hardware counts `now` without bound and shows its low 32 bits.
-/

namespace PipRiot.Sys

structure Arming where
  id : Nat
  setAt : Nat
  val : BitVec 32

def Arming.expiry (a : Arming) : Nat := a.setAt + a.val.toNat

structure Clock (τ : Type) where
  -- the timers from `list.next` on; the `next` of a timer outside the list is null
  list : List (τ × BitVec 32)
  -- `list.offset`
  offset : BitVec 32
  last : Option τ
  -- the timer whose callback the handler has called
  running : Option τ
  -- the hardware: its time, and the time armed by the last `ops->set`
  now : Nat
  armed : Option Nat
  -- history: the time behind `offset`, the calls of `ztimer_set` and what became of them
  base : Nat
  sets : Nat
  arming : τ → Arming
  fired : List (Arming × Nat)
  removed : List Arming
  replaced : List Arming

namespace Clock

def maxValue : BitVec 32 := 0xffffffff#32

def init {τ : Type} (start : Nat) : Clock τ where
  list := []
  offset := 0#32
  last := none
  running := none
  now := start
  armed := none
  base := 0
  sets := 0
  arming _ := ⟨0, 0, 0#32⟩
  fired := []
  removed := []
  replaced := []

variable (now64 : Bool)

section
variable {τ : Type} [DecidableEq τ]

def nextOf (t : τ) : List (τ × BitVec 32) → Option τ
  | [] => none
  | (e, _) :: l => if e = t then l.head?.map Prod.fst else nextOf t l

variable (s : Clock τ) (t : τ)

def isSet : Bool :=
  match s.list with
  | [] => false
  | _ :: _ => (nextOf t s.list).isSome || s.last = some t

def arm (val : BitVec 32) : Clock τ := { s with armed := some (s.now + val.toNat) }

def updateOffsets (skip : Bool) (diff : BitVec 32) : List (τ × BitVec 32) → List (τ × BitVec 32)
  | [] => []
  | (e, o) :: l =>
    if skip && o = 0#32 then (e, o) :: updateOffsets true diff l
    else if diff ≤ o then (e, o - diff) :: l
    else if diff - o = 0#32 then (e, 0#32) :: l
    else (e, 0#32) :: updateOffsets true (diff - o) l

def updateHeadOffset : Clock τ :=
  let now := BitVec.ofNat 32 s.now
  { s with list := updateOffsets false (now - s.offset) s.list, offset := now, base := s.now }

def addLoop (t : τ) (val delta : BitVec 32) (last : Option τ) : List (τ × BitVec 32) → List (τ × BitVec 32) × Option τ
  | [] => ([(t, val - delta)], some t)
  | (e, o) :: l =>
    if o + delta > val then ((t, val - delta) :: (e, o - (val - delta)) :: l, last)
    else
      let r := addLoop t val (delta + o) last l
      ((e, o) :: r.1, r.2)

def addEntryToList (val : BitVec 32) : Clock τ :=
  let r := addLoop t val 0#32 s.last s.list
  { s with list := r.1, last := r.2 }

def widen (o : BitVec 32) : List (τ × BitVec 32) → List (τ × BitVec 32)
  | [] => []
  | (e, p) :: l => (e, p + o) :: l

def delLoop (t : τ) (last : Option τ) : Option τ → List (τ × BitVec 32) → List (τ × BitVec 32) × Option τ × Bool
  | _, [] => ([], last, false)
  | prev, (e, o) :: l =>
    if e = t then (widen o l, if last = some t then prev else last, true)
    else
      let r := delLoop t last (some e) l
      ((e, o) :: r.1, r.2)

def delEntryFromList : Clock τ × Bool :=
  let r := delLoop t s.last none s.list
  ({ s with list := r.1, last := r.2.1 }, r.2.2)

def nowNext : Option (τ × Clock τ) :=
  match s.list with
  | (t, o) :: l => if o = 0#32 then some (t, { s with list := l, last := if l = [] then none else s.last }) else none
  | [] => none

/-- `_ztimer_update`; a call of the handler may still come after `ops->cancel`. -/
def ztimerUpdate : Clock τ :=
  match s.list with
  | (_, o) :: _ => s.arm o
  | [] => if now64 then s.arm (maxValue >>> 1) else s

def ztimerRemove : Clock τ × Bool :=
  if s.isSet t then
    let r := s.updateHeadOffset.delEntryFromList t
    let u := if r.2 then { r.1 with removed := r.1.removed ++ [r.1.arming t] } else r.1
    (u.ztimerUpdate now64, r.2)
  else (s, false)

def unset : Clock τ :=
  let u := s.updateHeadOffset
  if u.isSet t then { (u.delEntryFromList t).1 with replaced := u.replaced ++ [u.arming t] } else u

def noteSet (val : BitVec 32) : Clock τ :=
  { s with arming := Function.update s.arming t ⟨s.sets, s.now, val⟩, sets := s.sets + 1 }

def ztimerSet (val : BitVec 32) : Clock τ :=
  let u := ((s.unset t).addEntryToList t val).noteSet t val
  if u.list.head?.map Prod.fst = some t then u.arm val else u

def fire : Clock τ :=
  { s with running := some t, fired := s.fired ++ [(s.arming t, s.now)] }

def trigger : Clock τ :=
  match s.list with
  | (t, o) :: l =>
    let u := { s with offset := s.offset + o, base := s.base + o.toNat, list := (t, 0#32) :: l }
    match u.nowNext with
    | some (t, u) => u.fire t
    | none => u.ztimerUpdate now64
  | [] => s.ztimerUpdate now64

def ztimerHandler : Clock τ :=
  if now64 then
    match s.list with
    | (_, o) :: _ =>
      let diff := s.offset + o - BitVec.ofNat 32 s.now
      if 0 < diff.toInt then s.arm (if diff < maxValue >>> 1 then diff else maxValue >>> 1) else s.trigger now64
    | [] => s.arm (maxValue >>> 1)
  else s.trigger now64

/-- `ztimer_handler` from the return of a callback to the next one, or to its end. -/
def callbackReturns : Clock τ :=
  match s.nowNext with
  | some (t, u) => u.fire t
  | none =>
    let u := s.updateHeadOffset
    match u.nowNext with
    | some (t, u) => u.fire t
    | none => { u with running := none }.ztimerUpdate now64

inductive Op (τ : Type)
  | set (t : τ) (val : BitVec 32)
  | remove (t : τ)
  | advance (d : Nat)
  | handler
  | callbackReturns

/-- Threads and callbacks set and remove timers. While timers are set the clock advances
by less than its period between updates, and the handler is not called before the time it
was armed for. -/
def step : Op τ → Option (Clock τ)
  | .set t val => some (s.ztimerSet t val)
  | .remove t => some (s.ztimerRemove now64 t).1
  | .advance d => if s.list = [] ∨ s.now + d < s.base + 2 ^ 32 then some { s with now := s.now + d } else none
  | .handler => if s.running = none ∧ ∃ a ∈ s.armed, a ≤ s.now then some (s.ztimerHandler now64) else none
  | .callbackReturns => if s.running = none then none else some (s.callbackReturns now64)

end

end Clock

end PipRiot.Sys
