import PipRiot.Core.Cib
import PipRiot.Core.Mutex
import PipRiot.Lib.Slist

/-!
# Threads that wait

Messages, mutexes, mailboxes, condition variables and thread flags over one
scheduler. The field `rq_entry` of a thread links it into a run queue or into one
of the lists of `Wait`, so all lists share `next`. A function is one step up to
the point where interrupts are enabled again; a call to `thread_yield_higher` is
noted in `yielding`, and a step of the scheduler follows before the thread that
called it goes on. Interrupt handlers can come in between. What the messages
carry does not matter here and is left out, the priority inheritance of mutexes
is off, and a step that fails an assertion, reads through a null pointer or does
not end has no result.
-/

namespace PipRiot.Core

open Function

/-- `msg_waiters` of a thread, the queue of a mutex, readers and writers of a mailbox,
the queue of a condition variable. -/
inductive Wait (τ μ β γ : Type)
  | msgs (t : τ)
  | mutex (m : μ)
  | readers (b : β)
  | writers (b : β)
  | cond (c : γ)
  deriving DecidableEq

/-- The first pointer of a list; `MUTEX_LOCKED` is one of its values. -/
inductive Link (τ : Type)
  | null
  | locked
  | node (t : τ)
  deriving DecidableEq

namespace Link
variable {τ : Type}

def ptr : Link τ → Option τ
  | .node t => some t
  | _ => none

def ofPtr : Option τ → Link τ
  | some t => .node t
  | none => .null

@[simp] theorem ptr_ofPtr (p : Option τ) : (ofPtr p).ptr = p := by cases p <;> rfl

end Link

structure Kernel (τ μ β γ κ : Type) where
  sched : Sched τ
  head : Wait τ μ β γ → Link τ
  -- `msg_queue`, and whether there is a `msg_array`
  queue : τ → Cib
  hasQueue : τ → Bool
  cib : β → Cib
  flags : τ → BitVec 16
  waitData : τ → BitVec 32
  mc : κ → Option (MutexCancel τ μ)
  yielding : Bool

def threadFlagMsgWaiting : BitVec 16 := 1#16 <<< 15

namespace Kernel

variable (cfg : Config)

section
variable {τ μ β γ κ : Type} (s : Kernel τ μ β γ κ)

def executing : Option τ := if s.yielding then none else s.sched.active

def threadYieldHigher : Kernel τ μ β γ κ := { s with yielding := true }

def request : Kernel τ μ β γ κ := { s with sched := { s.sched with switchRequest := true } }

/-- An interrupt handler returns through the scheduler if it was asked for. -/
def isrExit : Kernel τ μ β γ κ := if s.sched.switchRequest then s.threadYieldHigher else s

def schedSwitch (otherPrio : Nat) : Option (Kernel τ μ β γ κ) :=
  s.sched.active.map fun a =>
    if (s.sched.status a).onRunqueue = false ∨ otherPrio < s.sched.priority a then s.threadYieldHigher else s

variable [DecidableEq τ]

def setStatus (cfg : Config) (s : Kernel τ μ β γ κ) (t : τ) (st : Status) : Kernel τ μ β γ κ :=
  { s with sched := s.sched.setStatus cfg t st }

variable (t : τ)

def setWaitData (v : BitVec 32) : Kernel τ μ β γ κ :=
  { s with waitData := update s.waitData t v }

def setQueue (c : Cib) : Kernel τ μ β γ κ := { s with queue := update s.queue t c }

def raise (mask : BitVec 16) : Kernel τ μ β γ κ :=
  { s with flags := update s.flags t (s.flags t ||| mask) }

/-! ## Thread flags -/

def wakesUp : Bool :=
  let mask := (s.waitData t).setWidth 16
  match s.sched.status t with
  | .flagBlockedAny => decide (s.flags t &&& mask ≠ 0#16)
  | .flagBlockedAll => decide (s.flags t &&& mask = mask)
  | _ => false

def threadFlagsWake : Kernel τ μ β γ κ :=
  if s.wakesUp t then (s.setStatus cfg t .pending).request else s

def threadFlagsSet (mask : BitVec 16) : Kernel τ μ β γ κ :=
  let s := s.raise t mask
  if s.wakesUp t then (s.threadFlagsWake cfg t).threadYieldHigher else s

variable (me : τ)

def flagsWait (mask : BitVec 16) (me : τ) (st : Status) : Kernel τ μ β γ κ :=
  ((s.setWaitData me (mask.setWidth 32)).setStatus cfg me st).threadYieldHigher

def threadFlagsWaitAny (mask : BitVec 16) : Kernel τ μ β γ κ :=
  if s.flags me &&& mask = 0#16 then s.flagsWait cfg mask me .flagBlockedAny else s

def threadFlagsWaitAll (mask : BitVec 16) : Kernel τ μ β γ κ :=
  if s.flags me &&& mask = mask then s else s.flagsWait cfg mask me .flagBlockedAll

def threadFlagsClear (mask : BitVec 16) : Kernel τ μ β γ κ :=
  { s with flags := update s.flags me (s.flags me &&& ~~~mask) }

/-! ## Sleeping -/

def threadSleep : Kernel τ μ β γ κ :=
  (s.setStatus cfg me .sleeping).threadYieldHigher

def threadWakeup : Option (Kernel τ μ β γ κ) :=
  if s.sched.status t = .sleeping then (s.setStatus cfg t .running).schedSwitch (s.sched.priority t) else some s

/-- The rest of `_wait` in mailboxes is a call of `thread_yield` as well. -/
def threadYield : Option (Kernel τ μ β γ κ) :=
  s.sched.active.map fun me =>
    if (s.sched.status me).onRunqueue then
      { s with sched := s.sched.runqAdvance (s.sched.priority me) }.threadYieldHigher
    else s.threadYieldHigher

def schedRun : Option (Kernel τ μ β γ κ) :=
  (s.sched.run cfg).map fun r => { s with sched := r.1, yielding := r.2.isNone }

/-! ## Lists -/

variable [DecidableEq μ] [DecidableEq β] [DecidableEq γ] (x : Wait τ μ β γ)

def setHead (l : Link τ) : Kernel τ μ β γ κ :=
  { s with head := update s.head x l }

def relink (r : (τ → Option τ) × Option τ) : Kernel τ μ β γ κ :=
  { s with sched := { s.sched with next := r.1 }, head := update s.head x (.ofPtr r.2) }

def listRemoveHead : Option (τ × Kernel τ μ β γ κ) :=
  (s.head x).ptr.map fun t => (t, s.relink x (Slist.setNext s.sched.next (s.head x).ptr none (s.sched.next t)))

section
variable [Fintype τ]

def fuel (τ : Type) [Fintype τ] : Nat := Fintype.card τ + 1

def threadAddToList (t : τ) : Option (Kernel τ μ β γ κ) :=
  if (s.sched.status t).onRunqueue then none
  else
    (Slist.walk (fun c => decide (s.sched.priority t < s.sched.priority c)) s.sched.next (fuel τ) none
      (s.head x).ptr).map
      fun r => s.relink x (Slist.setNext (update s.sched.next t r.2) (s.head x).ptr r.1 (some t))

def listRemove (t : τ) : Option (Option (Kernel τ μ β γ κ)) :=
  (Slist.walk (fun c => decide (c = t)) s.sched.next (fuel τ) none (s.head x).ptr).map fun r =>
    r.2.map fun _ => s.relink x (Slist.setNext s.sched.next (s.head x).ptr r.1 (s.sched.next t))

end

/-! ## Messages -/

def queueMsg (target : τ) : Option (Kernel τ μ β γ κ) :=
  if (s.queue target).put.2 < 0 then none
  else some (((s.setQueue target (s.queue target).put.1).raise target threadFlagMsgWaiting).threadFlagsWake cfg target)

def msgSendInt (target : Option τ) : Kernel τ μ β γ κ :=
  match target with
  | none => s
  | some x =>
    if s.sched.status x = .receiveBlocked then (s.setStatus cfg x .pending).request.isrExit
    else ((s.queueMsg cfg x).getD s).isrExit

/-- The assertion holds for a message that a thread has sent. -/
def msgReply (target : Option τ) : Option (Kernel τ μ β γ κ) :=
  match target with
  | none => none
  | some x =>
    if s.sched.status x ≠ .replyBlocked then some s
    else (s.setStatus cfg x .pending).schedSwitch (s.sched.priority x)

def msgReplyInt (target : Option τ) : Option (Kernel τ μ β γ κ) :=
  match target with
  | none => none
  | some x =>
    if s.sched.status x ≠ .replyBlocked then some s else some (s.setStatus cfg x .pending).request.isrExit

def takeFrom (sender : τ) : Option (Kernel τ μ β γ κ) :=
  if s.sched.status sender ≠ .replyBlocked then
    let s := (s.setWaitData sender 0#32).setStatus cfg sender .pending
    if s.sched.priority sender < cfg.levels - 1 then s.schedSwitch (s.sched.priority sender) else some s
  else some s

def msgReceive (m : BitVec 32) (block : Bool) : Option (Kernel τ μ β γ κ) :=
  let g := if s.hasQueue me then (s.queue me).get else (s.queue me, -1)
  if block = false ∧ (s.head (.msgs me)).ptr = none ∧ g.2 = -1 then some s
  else
    let s := s.setQueue me g.1
    let s := if 0 ≤ g.2 then s else s.setWaitData me m
    match s.listRemoveHead (.msgs me) with
    | none => if g.2 < 0 then some (s.setStatus cfg me .receiveBlocked).threadYieldHigher else some s
    | some (sender, s) => (if 0 ≤ g.2 then s.setQueue me (s.queue me).put.1 else s).takeFrom cfg sender

section
variable [Fintype τ]

def msgSendTo (m : BitVec 32) (target : τ) (block : Bool) : Option (Kernel τ μ β γ κ) :=
  if s.sched.status target ≠ .receiveBlocked then
    match s.queueMsg cfg target with
    | some u =>
      some (if u.sched.status me = .replyBlocked ∨ u.sched.switchRequest = true then u.threadYieldHigher else u)
    | none =>
      if block then
        let newstatus := if s.sched.status me = .replyBlocked then Status.replyBlocked else .sendBlocked
        (((s.setWaitData me m).setStatus cfg me newstatus).threadAddToList (.msgs target) me).map fun s =>
          ((s.raise target threadFlagMsgWaiting).threadFlagsWake cfg target).threadYieldHigher
      else some s
  else some (s.setStatus cfg target .pending).threadYieldHigher

def msgSend (m : BitVec 32) (target : Option τ) (block : Bool) : Option (Kernel τ μ β γ κ) :=
  match target with
  | none => some s
  | some x => if x = me then some ((s.queueMsg cfg me).getD s) else s.msgSendTo cfg me m x block

/-- With a target that does not exist the thread goes on as it is. -/
def msgSendReceive (reply : BitVec 32) (target : Option τ) : Option (Kernel τ μ β γ κ) :=
  let u := (s.setStatus cfg me .replyBlocked).setWaitData me reply
  match target with
  | none => some u
  | some x => if x = me then none else u.msgSendTo cfg me reply x true

/-! ## Mutexes -/

def block (m : μ) : Option (Kernel τ μ β γ κ) :=
  let s := s.setStatus cfg me .mutexBlocked
  if s.head (.mutex m) = .locked then
    some (s.relink (.mutex m) (update s.sched.next me none, some me)).threadYieldHigher
  else (s.threadAddToList (.mutex m) me).map threadYieldHigher

def mutexLock (m : μ) (blocking : Bool) : Option (Kernel τ μ β γ κ) :=
  if s.head (.mutex m) = .null then some (s.setHead (.mutex m) .locked)
  else if blocking then s.block cfg me m
  else some s

def mutexLockCancelable (k : κ) : Option (Kernel τ μ β γ κ) :=
  match s.mc k with
  | none => none
  | some mc => if mc.cancelled then some s else s.mutexLock cfg me mc.mutex true

def relock (m : μ) : Kernel τ μ β γ κ :=
  if s.head (.mutex m) = .null then s.setHead (.mutex m) .locked else s

def unlockHead (m : μ) : Option τ × Kernel τ μ β γ κ :=
  match s.listRemoveHead (.mutex m) with
  | some (process, s) => (some process, (s.setStatus cfg process .pending).relock m)
  | none => (none, s.setHead (.mutex m) .null)

def mutexUnlock (m : μ) : Option (Kernel τ μ β γ κ) :=
  match s.unlockHead cfg m with
  | (some process, s) => s.schedSwitch (s.sched.priority process)
  | (none, s) => some s

def mutexUnlockAndSleep (m : μ) : Kernel τ μ β γ κ :=
  (s.unlockHead cfg m).2.threadSleep cfg me

def mutexCancel [DecidableEq κ] (cfg : Config) (s : Kernel τ μ β γ κ) (k : κ) : Option (Kernel τ μ β γ κ) :=
  match s.mc k with
  | none => none
  | some mc =>
    let s := { s with mc := update s.mc k (some { mc with cancelled := true }) }
    if (s.sched.status mc.thread).onRunqueue then some s
    else
      match s.listRemove (.mutex mc.mutex) mc.thread with
      | none => none
      | some none => some s
      | some (some u) =>
        ((u.relock mc.mutex).setStatus cfg mc.thread .pending).schedSwitch (s.sched.priority mc.thread)

/-! ## Mailboxes -/

def mboxWait : Option (Kernel τ μ β γ κ) :=
  ((s.setStatus cfg me .mboxBlocked).threadAddToList x me).map threadYieldHigher

def wakeWaiter : Option (Kernel τ μ β γ κ) :=
  (s.setStatus cfg t .pending).schedSwitch (s.sched.priority t)

def setCib (b : β) (c : Cib) : Kernel τ μ β γ κ := { s with cib := update s.cib b c }

def mboxPutLoop (b : β) (blocking : Option τ) : Option (Kernel τ μ β γ κ) :=
  if (s.cib b).full then
    match blocking with
    | some me => s.mboxWait cfg me (.writers b)
    | none => some s
  else some (s.setCib b (s.cib b).putUnsafe.1)

def mboxPut (b : β) (blocking : Option τ) : Option (Kernel τ μ β γ κ) :=
  match s.listRemoveHead (.readers b) with
  | some (t, s) => s.wakeWaiter cfg t
  | none => s.mboxPutLoop cfg b blocking

def mboxGet (b : β) (msg : BitVec 32) (blocking : Option τ) : Option (Kernel τ μ β γ κ) :=
  if (s.cib b).avail ≠ 0#32 then
    let s := s.setCib b (s.cib b).getUnsafe.1
    match s.listRemoveHead (.writers b) with
    | some (t, s) => s.wakeWaiter cfg t
    | none => some s
  else
    match blocking with
    | some me => (s.setWaitData me msg).mboxWait cfg me (.readers b)
    | none => some s

/-! ## Condition variables -/

/-- Up to the call of `mutex_lock` at its end. A switch that `mutex_unlock` asks for takes
place behind the whole step here; with one inside it, others come in before the
enqueueing (`Conds`). -/
def condWait (c : γ) (m : μ) : Option (Kernel τ μ β γ κ) :=
  (s.mutexUnlock cfg m).bind fun s =>
    ((s.setStatus cfg me .condBlocked).threadAddToList (.cond c) me).map threadYieldHigher

def signalLoop (cfg : Config) (c : γ) (broadcast : Bool) : Nat → Nat → Kernel τ μ β γ κ →
    Option (Nat × Kernel τ μ β γ κ)
  | 0, _, _ => none
  | n + 1, minPrio, s =>
    match s.listRemoveHead (.cond c) with
    | none => some (minPrio, s)
    | some (process, s) =>
      let s := s.setStatus cfg process .pending
      let minPrio := min (s.sched.priority process) minPrio
      if broadcast then signalLoop cfg c broadcast n minPrio s else some (minPrio, s)

def condSignal (c : γ) (broadcast : Bool) : Option (Kernel τ μ β γ κ) :=
  (signalLoop cfg c broadcast (fuel τ) cfg.levels s).bind fun r =>
    if r.1 ≤ cfg.levels - 1 then r.2.schedSwitch r.1 else some r.2

end

end

/-! ## Steps -/

/-- Calls of the thread that executes, and calls that interrupt handlers make too. -/
inductive Op (τ μ β γ κ : Type)
  | msgSend (m : BitVec 32) (target : Option τ) (block : Bool)
  | msgSendReceive (reply : BitVec 32) (target : Option τ)
  | msgReply (target : Option τ)
  | msgReceive (m : BitVec 32) (block : Bool)
  | mutexLock (m : μ) (blocking : Bool)
  | mutexCancelInit (k : κ) (m : μ)
  | mutexLockCancelable (k : κ)
  | mutexUnlockAndSleep (m : μ)
  | mboxPut (b : β)
  | mboxPutAgain (b : β)
  | mboxGet (b : β) (msg : BitVec 32)
  | condWait (c : γ) (m : μ)
  | threadFlagsWaitAny (mask : BitVec 16)
  | threadFlagsWaitAll (mask : BitVec 16)
  | threadFlagsClear (mask : BitVec 16)
  | threadSleep
  | msgSendInt (target : Option τ)
  | msgReplyInt (target : Option τ)
  | mutexUnlock (m : μ)
  | mutexCancel (k : κ)
  | mboxTryPut (b : β)
  | mboxTryGet (b : β) (msg : BitVec 32)
  | condSignal (c : γ) (broadcast : Bool)
  | threadFlagsSet (t : τ) (mask : BitVec 16)
  | threadWakeup (t : τ)
  | threadYield
  | schedRun

section
variable {τ μ β γ κ : Type} [DecidableEq τ] [DecidableEq μ] [DecidableEq β] [DecidableEq γ] [DecidableEq κ] [Fintype τ]

def step (s : Kernel τ μ β γ κ) : Op τ μ β γ κ → Option (Kernel τ μ β γ κ)
  | .msgSend m target block => s.executing.bind fun me => s.msgSend cfg me m target block
  | .msgSendReceive reply target => s.executing.bind fun me => s.msgSendReceive cfg me reply target
  | .msgReply target => s.executing.bind fun _ => s.msgReply cfg target
  | .msgReceive m block => s.executing.bind fun me => s.msgReceive cfg me m block
  | .mutexLock m blocking => s.executing.bind fun me => s.mutexLock cfg me m blocking
  | .mutexCancelInit k m => s.executing.map fun me => { s with mc := update s.mc k (some ⟨m, me, false⟩) }
  | .mutexLockCancelable k => s.executing.bind fun me => s.mutexLockCancelable cfg me k
  | .mutexUnlockAndSleep m => s.executing.map fun me => s.mutexUnlockAndSleep cfg me m
  | .mboxPut b => s.executing.bind fun me => s.mboxPut cfg b (some me)
  | .mboxPutAgain b => s.executing.bind fun me => s.mboxPutLoop cfg b (some me)
  | .mboxGet b msg => s.executing.bind fun me => s.mboxGet cfg b msg (some me)
  | .condWait c m => s.executing.bind fun me => s.condWait cfg me c m
  | .threadFlagsWaitAny mask => s.executing.map fun me => s.threadFlagsWaitAny cfg me mask
  | .threadFlagsWaitAll mask => s.executing.map fun me => s.threadFlagsWaitAll cfg me mask
  | .threadFlagsClear mask => s.executing.map fun me => s.threadFlagsClear me mask
  | .threadSleep => s.executing.map fun me => s.threadSleep cfg me
  | .msgSendInt target => some (s.msgSendInt cfg target)
  | .msgReplyInt target => s.msgReplyInt cfg target
  | .mutexUnlock m => s.mutexUnlock cfg m
  | .mutexCancel k => s.mutexCancel cfg k
  | .mboxTryPut b => s.mboxPut cfg b none
  | .mboxTryGet b msg => s.mboxGet cfg b msg none
  | .condSignal c broadcast => s.condSignal cfg c broadcast
  | .threadFlagsSet t mask => some (s.threadFlagsSet cfg t mask)
  | .threadWakeup t => s.threadWakeup cfg t
  | .threadYield => s.threadYield
  | .schedRun => s.schedRun cfg

end

/-! ## One list for each thread -/

inductive Place (τ μ β γ : Type)
  | runqueue (p : Nat)
  | wait (x : Wait τ μ β γ)

section
variable {τ μ β γ κ : Type} (s : Kernel τ μ β γ κ)

def Spelled : Place τ μ β γ → List τ → Prop
  | .runqueue p, l => Clist.Ring s.sched.next (s.sched.runqueues p) l
  | .wait x, l => Slist.Spells s.sched.next (s.head x).ptr l

def waitsIn (st : Status) : Wait τ μ β γ → Bool
  | .msgs _ => st = .sendBlocked ∨ st = .replyBlocked
  | .mutex _ => st = .mutexBlocked
  | .readers _ | .writers _ => st = .mboxBlocked
  | .cond _ => st = .condBlocked

def Named (t : τ) : Place τ μ β γ → Prop
  | .runqueue p => (s.sched.status t).onRunqueue = true ∧ s.sched.priority t = p
  | .wait x => waitsIn (s.sched.status t) x = true

/-- The pointers spell lists, a thread is in at most one of them, and that one goes
with its status. -/
def OneList : Prop :=
  ∃ l : Place τ μ β γ → List τ, (∀ x, s.Spelled x (l x)) ∧ (∀ x y t, t ∈ l x → t ∈ l y → x = y) ∧
    ∀ x, ∀ t ∈ l x, s.Named t x

end

end Kernel

end PipRiot.Core
