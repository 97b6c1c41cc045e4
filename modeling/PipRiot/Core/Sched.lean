import PipRiot.Core.Bitarithm
import PipRiot.Lib.Clist
import PipRiot.Lib.System

/-!
# The scheduler

Threads are named by their control blocks, of any type `τ`. The fields of the
control blocks are functions on `τ`; `next` is `rq_entry.next`. A step that
reads through a null pointer has no result.
-/

namespace PipRiot.Core

open Function

inductive Status
  | stopped
  | zombie
  | sleeping
  | mutexBlocked
  | receiveBlocked
  | sendBlocked
  | replyBlocked
  | flagBlockedAny
  | flagBlockedAll
  | mboxBlocked
  | condBlocked
  | running
  | pending
  deriving DecidableEq, Repr

def Status.code : Status → Nat
  | .stopped => 0
  | .zombie => 1
  | .sleeping => 2
  | .mutexBlocked => 3
  | .receiveBlocked => 4
  | .sendBlocked => 5
  | .replyBlocked => 6
  | .flagBlockedAny => 7
  | .flagBlockedAll => 8
  | .mboxBlocked => 9
  | .condBlocked => 10
  | .running => 11
  | .pending => 12

/-- `status >= STATUS_ON_RUNQUEUE`, which is `STATUS_RUNNING`. -/
def Status.onRunqueue (s : Status) : Bool := decide (Status.running.code ≤ s.code)

structure Sched (τ : Type) where
  threads : Nat → Option τ
  numThreads : Int
  pid : τ → Nat
  priority : τ → Nat
  status : τ → Status
  next : τ → Option τ
  runqueues : Nat → Option τ
  bitcache : BitVec 32
  active : Option τ
  activePid : Nat
  switchRequest : Bool
  -- `sched_run` has found no thread and waits in `sched_arch_idle`
  idling : Bool

def kernelPidFirst : Nat := 1

namespace Sched

section
variable {τ : Type} [DecidableEq τ]

def init : Sched τ where
  threads _ := none
  numThreads := 0
  pid _ := 0
  priority _ := 0
  status _ := .stopped
  next _ := none
  runqueues _ := none
  bitcache := 0#32
  active := none
  activePid := 0
  switchRequest := false
  idling := false

variable (s : Sched τ)

def withStatus (t : τ) (st : Status) : Sched τ :=
  { s with status := update s.status t st }

def unschedule (t : τ) : Sched τ :=
  if s.status t = .running then s.withStatus t .pending else s

variable (cfg : Config)

def runqueuePush (s : Sched τ) (t : τ) (priority : Nat) : Sched τ :=
  let r := Clist.rpush s.next (s.runqueues priority) t
  { s with
    next := r.1
    runqueues := update s.runqueues priority r.2
    bitcache := setRunqueueBit cfg s.bitcache priority }

/-- The head of the queue of `t` goes, whoever it is. -/
def runqueuePop (s : Sched τ) (t : τ) : Sched τ :=
  let r := Clist.lpop s.next (s.runqueues (s.priority t))
  { s with
    next := r.1
    runqueues := update s.runqueues (s.priority t) r.2
    bitcache := if r.2 = none then clearRunqueueBit cfg s.bitcache (s.priority t) else s.bitcache }

def setStatus (s : Sched τ) (t : τ) (st : Status) : Sched τ :=
  if st.onRunqueue then
    if (s.status t).onRunqueue then s.withStatus t st
    else (runqueuePush cfg s t (s.priority t)).withStatus t st
  else if (s.status t).onRunqueue then (runqueuePop cfg s t).withStatus t st
  else s.withStatus t st

def runqAdvance (priority : Nat) : Sched τ :=
  { s with runqueues := update s.runqueues priority (Clist.lpoprpush s.next (s.runqueues priority)) }

def unscheduleCur : Option τ → Sched τ
  | some a => s.unschedule a
  | none => s

def markRunning (t : τ) : Sched τ :=
  { s with switchRequest := false, idling := false }.withStatus t .running

def setActive (t : τ) : Sched τ := { s with activePid := s.pid t, active := some t }

/-- From the choice of the queue on; `cur` is the local `active_thread`, null once it
has idled. -/
def dispatch (s : Sched τ) (cur : Option τ) : Option (Sched τ × τ) :=
  match Clist.lpeek s.next (s.runqueues (getPrioQueueFromRunqueue cfg s.bitcache)) with
  | none => none
  | some t =>
    let u := s.markRunning t
    if s.active = some t then some (u, t) else some ((u.unscheduleCur cur).setActive t, t)

def run (s : Sched τ) : Option (Sched τ × Option τ) :=
  let cur := if s.idling then none else s.active
  if cfg.idleThread = false ∧ s.bitcache = 0#32 then
    some ({ s.unscheduleCur cur with idling := true }, none)
  else (dispatch cfg s cur).map fun r => (r.1, some r.2)

def switch (irq : Bool) (s : Sched τ) (otherPrio : Nat) : Option (Sched τ) :=
  match s.active with
  | none => none
  | some a =>
    if (s.status a).onRunqueue = false ∨ otherPrio < s.priority a then
      if irq then some { s with switchRequest := true } else (run cfg s).map Prod.fst
    else some s

/-- `thread_yield` up to and with the scheduler run behind `thread_yield_higher`. -/
def yield (s : Sched τ) : Option (Sched τ) :=
  match s.active with
  | none => none
  | some me =>
    let s := if (s.status me).onRunqueue then s.runqAdvance (s.priority me) else s
    (run cfg s).map Prod.fst

def dropThread : Sched τ :=
  { s with threads := update s.threads s.activePid none, numThreads := s.numThreads - 1 }

def clearActive : Sched τ := { s with active := none }

/-- `sched_task_exit` with the scheduler run behind `cpu_switch_context_exit`. -/
def taskExit (s : Sched τ) : Option (Sched τ) :=
  match s.active with
  | none => none
  | some a => (run cfg (s.dropThread.setStatus cfg a .stopped).clearActive).map Prod.fst

inductive Errno
  | einval
  | eoverflow
  deriving DecidableEq, Repr

structure CreateFlags where
  sleeping : Bool
  woutYield : Bool

def freePid (s : Sched τ) : Option Nat :=
  (List.range' kernelPidFirst cfg.maxThreads).find? fun i => (s.threads i).isNone

def addThread (t : τ) (pid priority : Nat) : Sched τ :=
  { s with
    threads := update s.threads pid (some t)
    pid := update s.pid t pid
    priority := update s.priority t priority
    status := update s.status t .stopped
    next := update s.next t none
    numThreads := s.numThreads + 1 }

/-- `t` is the control block at the top of the given stack. -/
def threadCreate (irq : Bool) (s : Sched τ) (t : τ) (priority : Nat) (flags : CreateFlags) :
    Option (Sched τ × Except Errno Nat) :=
  if cfg.levels ≤ priority then some (s, .error .einval)
  else
    match freePid cfg s with
    | none => some (s, .error .eoverflow)
    | some pid =>
      let s := s.addThread t pid priority
      if flags.sleeping then some (s.setStatus cfg t .sleeping, .ok pid)
      else
        let s := s.setStatus cfg t .pending
        if flags.woutYield then some (s, .ok pid)
        else (switch cfg irq s priority).map fun s => (s, .ok pid)

inductive Op (τ : Type)
  | create (irq : Bool) (t : τ) (priority : Nat) (flags : CreateFlags)
  | setSelf (st : Status)
  | wake (t : τ) (st : Status)
  | yield
  | run
  | exit

def step (s : Sched τ) : Op τ → Option (Sched τ)
  | .create irq t priority flags => (threadCreate cfg irq s t priority flags).map Prod.fst
  | .setSelf st => s.active.map fun a => s.setStatus cfg a st
  | .wake t st => some (s.setStatus cfg t st)
  | .yield => yield cfg s
  | .run => (run cfg s).map Prod.fst
  | .exit => taskExit cfg s

end

end Sched

end PipRiot.Core
