import PipRiot.Core.Cib
import PipRiot.Core.Mutex

/-!
# Messages

Threads are of any type `τ`, what a message carries of any type `β`. As with the
mutexes every function is one step up to the point where interrupts are enabled
again, and a call that blocks returns in a second step.
-/

namespace PipRiot.Core

open Function

/-- `sender_pid`: the pid of a thread, or `KERNEL_PID_ISR`. -/
inductive Sender (τ : Type)
  | thread (t : τ)
  | isr
  deriving DecidableEq, Repr

structure Msg (τ β : Type) where
  sender : Sender τ
  content : β
  -- history: the number of the call that sent it
  stamp : Nat

/-- `msg_array` is null for a thread without a queue, and its buffer has size 0. -/
structure MsgConfig (τ : Type) where
  priority : τ → Nat
  hasQueue : τ → Bool
  size : τ → Nat
  size_ok : ∀ t, Cib.Size (size t)
  size_none : ∀ t, hasQueue t = false → size t = 0

inductive MsgCall (τ β : Type)
  | idle
  | sending (target : τ) (m : Msg τ β)
  | receiving

def MsgCall.isIdle {τ β : Type} : MsgCall τ β → Bool
  | .idle => true
  | _ => false

structure Messaging (τ β : Type) where
  status : τ → Status
  call : τ → MsgCall τ β
  -- what `wait_data` points to: the message of a sender, the buffer of a receiver
  waitData : τ → Option (Msg τ β)
  waiters : τ → List τ
  queue : τ → Cib
  array : τ → Nat → Msg τ β
  -- history: the calls so far, the messages sent with result 1 and with another
  -- one, and the messages that receives have returned
  stamp : Nat
  accepted : List (τ × Msg τ β)
  rejected : List (Msg τ β)
  returned : τ → List (Msg τ β)

namespace Messaging

section
variable {τ β : Type} [DecidableEq τ]

def init (cfg : MsgConfig τ) (array : τ → Nat → Msg τ β) : Messaging τ β where
  status _ := .pending
  call _ := .idle
  waitData _ := none
  waiters _ := []
  queue t := Cib.init (BitVec.ofNat 32 (cfg.size t))
  array := array
  stamp := 0
  accepted := []
  rejected := []
  returned _ := []

variable (s : Messaging τ β) (t : τ)

def setStatus (st : Status) : Messaging τ β :=
  { s with status := update s.status t st }

def setCall (c : MsgCall τ β) : Messaging τ β :=
  { s with call := update s.call t c }

def setWaitData (m : Option (Msg τ β)) : Messaging τ β :=
  { s with waitData := update s.waitData t m }

def setWaiters (l : List τ) : Messaging τ β :=
  { s with waiters := update s.waiters t l }

def setQueue (c : Cib) : Messaging τ β :=
  { s with queue := update s.queue t c }

def setSlot (i : Nat) (m : Msg τ β) : Messaging τ β :=
  { s with array := update s.array t (update (s.array t) i m) }

def queueMsg (target : τ) (m : Msg τ β) : Option (Messaging τ β) :=
  let n := (s.queue target).put
  if n.2 < 0 then none else some ((s.setQueue target n.1).setSlot target n.2.toNat m)

def directCopy (target : τ) (m : Msg τ β) : Messaging τ β :=
  (s.setWaitData target (some m)).setStatus target .pending

variable (cfg : MsgConfig τ)

def blockSender (s : Messaging τ β) (me target : τ) (m : Msg τ β) : Messaging τ β :=
  let newstatus := if s.status me = .replyBlocked then Status.replyBlocked else .sendBlocked
  (((s.setWaitData me (some m)).setStatus me newstatus).setWaiters target
    (addRanked cfg.priority me (s.waiters target))).setCall me (.sending target m)

def msgSend (s : Messaging τ β) (me : τ) (target : Option τ) (block : Bool) (m : Msg τ β) :
    Messaging τ β × Option Int :=
  match target with
  | none => (s, some (-1))
  | some x =>
    if s.status x ≠ .receiveBlocked then
      match s.queueMsg x m with
      | some u => (u, some 1)
      | none => if block then (s.blockSender cfg me x m, none) else (s, some 0)
    else (s.directCopy x m, some 1)

def msgSendToSelf (me : τ) (m : Msg τ β) : Messaging τ β × Option Int :=
  match s.queueMsg me m with
  | some u => (u, some 1)
  | none => (s, some 0)

def msgSendOneway (target : Option τ) (m : Msg τ β) : Messaging τ β × Option Int :=
  match target with
  | none => (s, some (-1))
  | some x =>
    if s.status x = .receiveBlocked then (s.directCopy x m, some 1)
    else
      match s.queueMsg x m with
      | some u => (u, some 1)
      | none => (s, some 0)

def noteReturned (m : Msg τ β) : Messaging τ β :=
  { s with returned := update s.returned t (s.returned t ++ [m]) }

def wakeSender (x : τ) : Messaging τ β :=
  if s.status x ≠ .replyBlocked then (s.setWaitData x none).setStatus x .pending else s

def queueIndex (s : Messaging τ β) (me : τ) : Cib × Int :=
  if cfg.hasQueue me then (s.queue me).get else (s.queue me, -1)

def msgReceive (s : Messaging τ β) (me : τ) (block : Bool) : Option (Messaging τ β) :=
  let r := s.queueIndex cfg me
  let u := s.setQueue me r.1
  if block = false ∧ s.waiters me = [] ∧ r.2 = -1 then some u
  else
    match s.waiters me with
    | [] =>
      if r.2 < 0 then some (((u.setWaitData me none).setStatus me .receiveBlocked).setCall me .receiving)
      else some (u.noteReturned me (s.array me r.2.toNat))
    | x :: ws =>
      match s.waitData x with
      | none => none
      | some m =>
        if r.2 < 0 then
          some ((((u.setWaitData me none).setWaiters me ws).wakeSender x).noteReturned me m)
        else
          -- the place that has just become free is for the message of the waiter
          ((u.setWaiters me ws).queueMsg me m).map fun v =>
            (v.wakeSender x).noteReturned me (s.array me r.2.toNat)

def resume : Option (Messaging τ β) :=
  match s.call t with
  | .idle => none
  | .sending x m => some { s.setCall t .idle with accepted := s.accepted ++ [(x, m)] }
  | .receiving => (s.waitData t).map fun m => (s.setCall t .idle).noteReturned t m

def nextStamp : Messaging τ β := { s with stamp := s.stamp + 1 }

def noteSent (target : Option τ) (m : Msg τ β) : Option Int → Messaging τ β
  | none => s
  | some r =>
    if r = 1 then { s with accepted := s.accepted ++ target.toList.map (·, m) }
    else { s with rejected := s.rejected ++ [m] }

inductive Op (τ β : Type)
  | send (t : τ) (target : Option τ) (block : Bool) (content : β)
  | sendInt (target : Option τ) (content : β)
  | receive (t : τ) (block : Bool)
  | resume (t : τ)

def Free : Prop := (s.status t).onRunqueue = true ∧ (s.call t).isIdle = true

instance (s : Messaging τ β) (t : τ) : Decidable (s.Free t) := inferInstanceAs (Decidable (_ ∧ _))

/-- `msg_send` and `msg_try_send` are `send` with and without blocking. The target is
what `thread_get_unchecked` finds. -/
def step (s : Messaging τ β) : Op τ β → Option (Messaging τ β)
  | .send t target block content =>
    if s.Free t then
      let m : Msg τ β := ⟨.thread t, content, s.stamp⟩
      let r := if target = some t then s.nextStamp.msgSendToSelf t m else s.nextStamp.msgSend cfg t target block m
      some (r.1.noteSent target m r.2)
    else none
  | .sendInt target content =>
    let m : Msg τ β := ⟨.isr, content, s.stamp⟩
    let r := s.nextStamp.msgSendOneway target m
    some (r.1.noteSent target m r.2)
  | .receive t block => if s.Free t then s.msgReceive cfg t block else none
  | .resume t => if (s.status t).onRunqueue then s.resume t else none

end

end Messaging

end PipRiot.Core
