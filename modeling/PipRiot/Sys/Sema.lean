import PipRiot.Core.MutexLocking

/-!
# Semaphores

A semaphore is a counter and a mutex that is only used to wait for a post. The
functions are cut where they enable interrupts, and at the calls of the functions
on the mutex, which are those of `Core.Mutex`. Callers are threads and interrupt
handlers, of any type `τ`; the cancellation structure of a thread that waits with a
timeout is named by the thread.
-/

namespace PipRiot.Sys

open PipRiot.Core

inductive SemaState
  | ok
  | destroy
  deriving DecidableEq, Repr

inductive SemaResult
  | zero
  | ecanceled
  | etimedout
  | eagain
  | eoverflow
  deriving DecidableEq, Repr

inductive Exit
  | wait
  | canceled
  | post
  | destroy
  deriving DecidableEq, Repr

inductive Phase
  | idle
  -- before the test of the value
  | check (didBlock block : Bool) (timeout : Nat)
  -- the value was 0
  | lock (timeout : Nat)
  | locking
  -- `mutex_trylock` of `ztimer_mutex_lock_timeout` has failed
  | trylockFailed (timeout : Nat)
  -- the timer is set
  | lockTimed (timeout : Nat)
  | lockingTimed (timeout : Nat)
  | removeTimer (timeout : Nat)
  -- the locking function has returned
  | locked (block : Bool) (timeout : Nat)
  | unlock (e : Exit)
  deriving DecidableEq, Repr

def Phase.timed : Phase → Bool
  | .lockTimed _ | .lockingTimed _ | .removeTimer _ => true
  | _ => false

structure Sema (τ : Type) where
  value : Nat
  state : SemaState
  mutex : Mutexes τ Unit τ
  phase : τ → Phase
  -- history: the calls that have returned 0
  posts : Nat
  waits : Nat

namespace Sema

def uintMax : Nat := 2 ^ 32 - 1

section
variable {τ : Type} [DecidableEq τ]

def init (value : Nat) : Sema τ where
  value := value
  state := .ok
  mutex := Mutexes.init fun _ => value == 0
  phase _ := .idle
  posts := 0
  waits := 0

variable (s : Sema τ) (t : τ)

def goto (p : Phase) : Sema τ := { s with phase := Function.update s.phase t p }

abbrev Result (τ : Type) := Option (Sema τ × Option SemaResult)

def mutexCall (priority : τ → Nat) (s : Sema τ) (t : τ) (op : Mutexes.Op τ Unit τ)
    (next : Option (Ret τ Unit) → Phase) : Result τ :=
  (s.mutex.exec priority op).map fun r => (({ s with mutex := r.1 } : Sema τ).goto t (next r.2), none)

/-- The loop body behind `ztimer_mutex_lock_timeout`, with what that returned. -/
def afterTimedLock (ok : Bool) (timeout elapsed : Nat) : Phase :=
  if elapsed < timeout then .locked ok (timeout - elapsed) else .locked false timeout

def afterLock : Option (Ret τ Unit) → Phase
  | some _ => .locked true 0
  | none => .locking

def afterTrylock (timeout elapsed : Nat) : Option (Ret τ Unit) → Phase
  | some (.lock _ _ true) => afterTimedLock true timeout elapsed
  | _ => .trylockFailed timeout

def afterCancelable (timeout elapsed : Nat) : Option (Ret τ Unit) → Phase
  | none => .lockingTimed timeout
  | some (.cancelable _ _ .zero) => .removeTimer timeout
  | some _ => afterTimedLock false timeout elapsed

def finishWait : Sema τ := { s.goto t .idle with waits := s.waits + 1 }

def finishPost : Sema τ := { s.goto t .idle with posts := s.posts + 1 }

/-- The test of the value in `_sema_wait_ztimer`, with interrupts disabled. -/
def testValue (didBlock block : Bool) (timeout : Nat) : Sema τ × Option SemaResult :=
  if s.value = 0 ∧ block = true then (s.goto t (.lock timeout), none)
  else if s.value = 0 then (s.goto t .idle, some (if didBlock then .etimedout else .eagain))
  else
    let u : Sema τ := { s with value := s.value - 1 }
    if didBlock = true ∧ 0 < u.value then (u.goto t (.unlock .wait), none) else (u.finishWait t, some .zero)

def leave : Exit → Sema τ × Option SemaResult
  | .wait => (s.finishWait t, some .zero)
  | .post => (s.finishPost t, some .zero)
  | .canceled => (s.goto t .idle, some .ecanceled)
  | .destroy => (s.goto t .idle, none)

/-- The time since a caller tried to lock the mutex counts where
`ztimer_mutex_lock_timeout` returns. -/
def run (priority : τ → Nat) (s : Sema τ) (t : τ) (elapsed : Nat) : Result τ :=
  match s.phase t with
  | .idle => none
  | .check didBlock block timeout => some (s.testValue t didBlock block timeout)
  | .lock timeout =>
    if timeout = 0 then s.mutexCall priority t (.lock t () true) afterLock
    else s.mutexCall priority t (.lock t () false) (afterTrylock timeout elapsed)
  | .locking => s.mutexCall priority t (.resume t) afterLock
  | .trylockFailed timeout => s.mutexCall priority t (.cancelInit t t ()) fun _ => .lockTimed timeout
  | .lockTimed timeout => s.mutexCall priority t (.lockCancelable t t) (afterCancelable timeout elapsed)
  | .lockingTimed timeout => s.mutexCall priority t (.resume t) (afterCancelable timeout elapsed)
  | .removeTimer timeout => some (s.goto t (afterTimedLock true timeout elapsed), none)
  | .locked block timeout =>
    if s.state = .ok then some (s.goto t (.check true block timeout), none)
    else some (s.goto t (.unlock .canceled), none)
  | .unlock e => (s.mutex.exec priority (.unlock ())).map fun r => ({ s with mutex := r.1 } : Sema τ).leave t e

def semaWait (block : Bool) (timeout : Nat) : Sema τ × Option SemaResult :=
  if s.state = .ok then (s.goto t (.check block block timeout), none) else (s, some .ecanceled)

def semaPost : Sema τ × Option SemaResult :=
  if s.value = uintMax then (s, some .eoverflow)
  else
    let u : Sema τ := { s with value := s.value + 1 }
    if s.value = 0 then (u.goto t (.unlock .post), none) else (u.finishPost t, some .zero)

inductive Op (τ : Type)
  | wait (t : τ) (block : Bool) (timeout : Nat)
  | post (t : τ)
  | destroy (t : τ)
  | run (t : τ) (elapsed : Nat)
  -- the callback of the timer of a thread
  | timeout (t : τ)
  deriving DecidableEq, Repr

/-- `sema_wait` has `block` and no timeout, `sema_try_wait` no `block`, and
`sema_wait_timed` has `block` if its timeout is not 0. -/
def exec (priority : τ → Nat) (s : Sema τ) : Op τ → Result τ
  | .wait t block timeout => if s.phase t = .idle then some (s.semaWait t block timeout) else none
  | .post t => if s.phase t = .idle then some (s.semaPost t) else none
  | .destroy t =>
    if s.phase t = .idle then some ({ s.goto t (.unlock .destroy) with state := .destroy }, none) else none
  | .run t elapsed => if (s.mutex.status t).onRunqueue then s.run priority t elapsed else none
  | .timeout t =>
    if (s.phase t).timed then (s.mutex.exec priority (.cancel t)).map fun r => ({ s with mutex := r.1 }, none)
    else none

def step (priority : τ → Nat) (s : Sema τ) (op : Op τ) : Option (Sema τ) := (s.exec priority op).map Prod.fst

end

end Sema

end PipRiot.Sys
