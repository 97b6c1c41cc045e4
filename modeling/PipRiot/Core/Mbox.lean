import PipRiot.Core.Msg

/-!
# Mailboxes

One mailbox with its threads, of any type `τ`. As with the mutexes every function is
one step up to the point where interrupts are enabled again, and a call that blocks
goes on in a later step.
-/

namespace PipRiot.Core

inductive MboxCall (τ β : Type)
  | idle
  | putting (m : Msg τ β)
  | getting

def MboxCall.isIdle {τ β : Type} : MboxCall τ β → Bool
  | .idle => true
  | _ => false

def MboxCall.isPutting {τ β : Type} : MboxCall τ β → Bool
  | .putting _ => true
  | _ => false

structure Mbox (τ β : Type) where
  status : τ → Status
  call : τ → MboxCall τ β
  -- the buffer of a reader that waits
  waitData : τ → Option (Msg τ β)
  readers : List τ
  writers : List τ
  cib : Cib
  array : Nat → Msg τ β
  -- history: a clock, the messages put with result 1 and when, who was handed
  -- which message, and the messages that gets have returned
  now : Nat
  accepted : List (Msg τ β × Nat)
  handed : List (τ × Msg τ β)
  returned : τ → List (Msg τ β)

namespace Mbox

section
variable {τ β : Type} [DecidableEq τ]

def init (size : Nat) (array : Nat → Msg τ β) : Mbox τ β where
  status _ := .pending
  call _ := .idle
  waitData _ := none
  readers := []
  writers := []
  cib := Cib.init (BitVec.ofNat 32 size)
  array := array
  now := 0
  accepted := []
  handed := []
  returned _ := []

variable (s : Mbox τ β) (t : τ)

def setStatus (st : Status) : Mbox τ β := { s with status := Function.update s.status t st }

def setCall (c : MboxCall τ β) : Mbox τ β := { s with call := Function.update s.call t c }

def accept (m : Msg τ β) : Mbox τ β := { s with accepted := s.accepted ++ [(m, s.now)] }

def hand (m : Msg τ β) : Mbox τ β := { s with handed := s.handed ++ [(t, m)] }

def noteReturned (m : Msg τ β) : Mbox τ β :=
  { s with returned := Function.update s.returned t (s.returned t ++ [m]) }

variable (priority : τ → Nat)

def waitWriter (s : Mbox τ β) (t : τ) (m : Msg τ β) : Mbox τ β :=
  ({ s with writers := addRanked priority t s.writers }.setStatus t .mboxBlocked).setCall t (.putting m)

def waitReader (s : Mbox τ β) (t : τ) : Mbox τ β :=
  ({ s with
      readers := addRanked priority t s.readers
      waitData := Function.update s.waitData t none }.setStatus t .mboxBlocked).setCall t .getting

def handOver (r : τ) (rs : List τ) (m : Msg τ β) : Mbox τ β :=
  (({ s with readers := rs, waitData := Function.update s.waitData r (some m) }.setStatus r .pending).hand r m).accept m

def enqueue (m : Msg τ β) : Mbox τ β :=
  let n := s.cib.putUnsafe
  { s with cib := n.1, array := Function.update s.array n.2.toNat m }.accept m

/-- The readers are not looked at again. No result as long as the thread is blocked. -/
def putLoop (s : Mbox τ β) (t : τ) (m : Msg τ β) (blocking : Bool) : Mbox τ β × Option Int :=
  if s.cib.full then if blocking then (s.waitWriter priority t m, none) else (s, some 0)
  else (s.enqueue { m with sender := .thread t }, some 1)

def mboxPut (s : Mbox τ β) (t : τ) (m : Msg τ β) (blocking : Bool) : Mbox τ β × Option Int :=
  match s.readers with
  | r :: rs => (s.handOver r rs m, some 1)
  | [] => s.putLoop priority t m blocking

def wakeWriter : Mbox τ β :=
  match s.writers with
  | w :: ws => { s with writers := ws }.setStatus w .pending
  | [] => s

def dequeue : Mbox τ β :=
  let n := s.cib.getUnsafe
  let m := s.array n.2.toNat
  ({ s with cib := n.1 }.hand t m).noteReturned t m

def mboxGet (s : Mbox τ β) (t : τ) (blocking : Bool) : Mbox τ β × Option Int :=
  if s.cib.avail ≠ 0#32 then ((s.dequeue t).wakeWriter, some 1)
  else if blocking then (s.waitReader priority t, none)
  else (s, some 0)

def resume (s : Mbox τ β) (t : τ) : Option (Mbox τ β × Option Int) :=
  match s.call t with
  | .idle => none
  | .putting m => some ((s.setCall t .idle).putLoop priority t m true)
  | .getting => (s.waitData t).map fun m => ((s.setCall t .idle).noteReturned t m, some 1)

inductive Op (τ β : Type)
  | put (t : τ) (sender : Sender τ) (content : β) (blocking : Bool)
  | get (t : τ) (blocking : Bool)
  | resume (t : τ)

def Free : Prop := (s.status t).onRunqueue = true ∧ (s.call t).isIdle = true

instance (s : Mbox τ β) (t : τ) : Decidable (s.Free t) := inferInstanceAs (Decidable (_ ∧ _))

/-- `mbox_try_put` and `mbox_try_get` do not block. A message has the sender its caller
left in it. -/
def exec (s : Mbox τ β) : Op τ β → Option (Mbox τ β × Option Int)
  | .put t sender content blocking =>
    if s.Free t then some (s.mboxPut priority t ⟨sender, content, s.now⟩ blocking) else none
  | .get t blocking => if s.Free t then some (s.mboxGet priority t blocking) else none
  | .resume t => if (s.status t).onRunqueue then s.resume priority t else none

def tick : Mbox τ β := { s with now := s.now + 1 }

def step (s : Mbox τ β) (op : Op τ β) : Option (Mbox τ β) :=
  (s.exec priority op).map fun r => r.1.tick

end

end Mbox

end PipRiot.Core
