import PipRiot.Core.Sched
import PipRiot.Lib.Arrival

/-!
# Mutexes

Every function up to the point where it enables interrupts again is one step. A
blocking call takes two: `_block`, and the return once the thread runs again.
Threads are of any type `τ`, mutexes of any type `μ`, and cancellation structures
of any type `κ`. Any thread on a run queue may take the next step.
-/

namespace PipRiot.Core

open Function Option

/-- `queue.next`: `NULL`, `MUTEX_LOCKED`, or the first of a list of threads. -/
inductive Queue (τ : Type)
  | unlocked
  | locked
  | waiters (first : τ) (rest : List τ)
  deriving DecidableEq, Repr

namespace Queue
variable {τ : Type}

def ofList : List τ → Queue τ
  | [] => .unlocked
  | t :: ts => .waiters t ts

def list : Queue τ → List τ
  | .waiters t ts => t :: ts
  | _ => []

def relock : Queue τ → Queue τ
  | .unlocked => .locked
  | q => q

@[simp] theorem list_ofList (l : List τ) : (ofList l).list = l := by cases l <;> rfl

@[simp] theorem list_relock (q : Queue τ) : q.relock.list = q.list := by cases q <;> rfl

@[simp] theorem relock_ne_unlocked (q : Queue τ) : q.relock ≠ .unlocked := by cases q <;> simp [relock]

end Queue

structure MutexCancel (τ μ : Type) where
  mutex : μ
  thread : τ
  cancelled : Bool

inductive Call (μ κ : Type)
  | idle
  | lock (m : μ)
  | cancelable (m : μ) (k : κ)
  deriving DecidableEq, Repr

def Call.mutex {μ κ : Type} : Call μ κ → Option μ
  | .idle => none
  | .lock m => some m
  | .cancelable m _ => some m

inductive CancelableResult
  | zero
  | ecanceled
  deriving DecidableEq, Repr

inductive Ret (τ μ : Type)
  | lock (t : τ) (m : μ) (ok : Bool)
  | cancelable (t : τ) (m : μ) (r : CancelableResult)

structure Mutexes (τ μ κ : Type) where
  queue : μ → Queue τ
  status : τ → Status
  call : τ → Call μ κ
  mc : κ → Option (MutexCancel τ μ)
  -- the rest is history: a clock, when a thread began to wait, who was given a
  -- mutex last, and who has returned from a lock since the last unlock
  now : Nat
  since : τ → Nat
  owner : μ → Option τ
  returned : μ → List τ

namespace Mutexes

section
variable {τ μ κ : Type} [DecidableEq τ] [DecidableEq μ] [DecidableEq κ]

def init (locked : μ → Bool) : Mutexes τ μ κ where
  queue m := if locked m then .locked else .unlocked
  status _ := .pending
  call _ := .idle
  mc _ := none
  now := 0
  since _ := 0
  owner _ := none
  returned _ := []

variable (s : Mutexes τ μ κ)

def setStatus (t : τ) (st : Status) : Mutexes τ μ κ :=
  { s with status := update s.status t st }

def setQueue (m : μ) (q : Queue τ) : Mutexes τ μ κ :=
  { s with queue := update s.queue m q }

def setCall (t : τ) (c : Call μ κ) : Mutexes τ μ κ :=
  { s with call := update s.call t c }

def noteOwner (m : μ) (o : Option τ) : Mutexes τ μ κ :=
  { s with owner := update s.owner m o }

def noteReturned (m : μ) (l : List τ) : Mutexes τ μ κ :=
  { s with returned := update s.returned m l }

def noteWaiting (t : τ) : Mutexes τ μ κ :=
  { s with now := s.now + 1, since := update s.since t s.now }

variable (priority : τ → Nat)

def threadAddToList (t : τ) (l : List τ) : List τ := addRanked priority t l

def block (s : Mutexes τ μ κ) (t : τ) (m : μ) (c : Call μ κ) : Mutexes τ μ κ :=
  let q := match s.queue m with
    | .locked => .waiters t []
    | q => .ofList (threadAddToList priority t q.list)
  (((s.setStatus t .mutexBlocked).setQueue m q).setCall t c).noteWaiting t

def take (t : τ) (m : μ) : Mutexes τ μ κ :=
  ((s.setQueue m .locked).noteOwner m (some t)).noteReturned m (t :: s.returned m)

def mutexLockInternal (s : Mutexes τ μ κ) (t : τ) (m : μ) (blocking : Bool) : Mutexes τ μ κ × Option (Ret τ μ) :=
  match s.queue m with
  | .unlocked => (s.take t m, some (.lock t m true))
  | _ => if blocking then (s.block priority t m (.lock m), none) else (s, some (.lock t m false))

def mutexLockCancelable (s : Mutexes τ μ κ) (t : τ) (k : κ) (mc : MutexCancel τ μ) :
    Mutexes τ μ κ × Option (Ret τ μ) :=
  if mc.cancelled then (s, some (.cancelable t mc.mutex .ecanceled))
  else
    match s.queue mc.mutex with
    | .unlocked => (s.take t mc.mutex, some (.cancelable t mc.mutex .zero))
    | _ => (s.block priority t mc.mutex (.cancelable mc.mutex k), none)

def resume (t : τ) : Option (Mutexes τ μ κ × Option (Ret τ μ)) :=
  match s.call t with
  | .idle => none
  | .lock m => some ((s.setCall t .idle).noteReturned m (t :: s.returned m), some (.lock t m true))
  | .cancelable m k =>
    match s.mc k with
    | none => none
    | some mc =>
      if mc.cancelled then some (s.setCall t .idle, some (.cancelable t m .ecanceled))
      else some ((s.setCall t .idle).noteReturned m (t :: s.returned m), some (.cancelable t m .zero))

def mutexUnlock (m : μ) : Mutexes τ μ κ :=
  match s.queue m with
  | .unlocked => (s.noteOwner m none).noteReturned m []
  | .locked => ((s.setQueue m .unlocked).noteOwner m none).noteReturned m []
  | .waiters t ts =>
    (((s.setQueue m (Queue.ofList ts).relock).setStatus t .pending).noteOwner m (some t)).noteReturned m []

def mutexUnlockAndSleep (t : τ) (m : μ) : Mutexes τ μ κ :=
  (s.mutexUnlock m).setStatus t .sleeping

def setMc (k : κ) (mc : MutexCancel τ μ) : Mutexes τ μ κ :=
  { s with mc := update s.mc k (some mc) }

def mutexCancel (k : κ) (mc : MutexCancel τ μ) : Mutexes τ μ κ :=
  let s := s.setMc k { mc with cancelled := true }
  if (s.status mc.thread).onRunqueue then s
  -- the list is empty for a mutex that is unlocked or locked without waiters
  else if mc.thread ∈ (s.queue mc.mutex).list then
    (s.setQueue mc.mutex (Queue.ofList ((s.queue mc.mutex).list.erase mc.thread)).relock).setStatus mc.thread .pending
  else s

inductive Op (τ μ κ : Type)
  | lock (t : τ) (m : μ) (blocking : Bool)
  | cancelInit (t : τ) (k : κ) (m : μ)
  | lockCancelable (t : τ) (k : κ)
  | resume (t : τ)
  | unlock (m : μ)
  | unlockAndSleep (t : τ) (m : μ)
  | wakeup (t : τ)
  | cancel (k : κ)

def Free (t : τ) : Prop := (s.status t).onRunqueue = true ∧ s.call t = .idle

instance (s : Mutexes τ μ κ) (t : τ) : Decidable (s.Free t) := inferInstanceAs (Decidable (_ ∧ _))

/-- `mutex_lock` and `mutex_trylock` are `lock` with and without blocking. Interrupt
handlers too call `mutex_unlock` and `mutex_cancel`. -/
def exec (s : Mutexes τ μ κ) : Op τ μ κ → Option (Mutexes τ μ κ × Option (Ret τ μ))
  | .lock t m blocking => if s.Free t then some (s.mutexLockInternal priority t m blocking) else none
  | .cancelInit t k m => if s.Free t then some (s.setMc k ⟨m, t, false⟩, none) else none
  | .lockCancelable t k =>
    match s.mc k with
    | some mc => if s.Free t then some (s.mutexLockCancelable priority t k mc) else none
    | none => none
  | .resume t => if (s.status t).onRunqueue then s.resume t else none
  | .unlock m => some (s.mutexUnlock m, none)
  | .unlockAndSleep t m => if s.Free t then some (s.mutexUnlockAndSleep t m, none) else none
  | .wakeup t => if s.status t = .sleeping then some (s.setStatus t .running, none) else none
  | .cancel k => (s.mc k).map fun mc => (s.mutexCancel k mc, none)

def step (s : Mutexes τ μ κ) (op : Op τ μ κ) : Option (Mutexes τ μ κ) :=
  (s.exec priority op).map Prod.fst

/-! ## What a step can do -/

inductive Moves (priority : τ → Nat) (s : Mutexes τ μ κ) : Op τ μ κ → Mutexes τ μ κ → Option (Ret τ μ) → Prop
  | takes {t m blocking} : s.Free t → s.queue m = .unlocked →
      Moves priority s (.lock t m blocking) (s.take t m) (some (.lock t m true))
  | refuses {t m} : s.Free t → s.queue m ≠ .unlocked → Moves priority s (.lock t m false) s (some (.lock t m false))
  | blocks {t m} : s.Free t → s.queue m ≠ .unlocked →
      Moves priority s (.lock t m true) (s.block priority t m (.lock m)) none
  | inits {t k m} : s.Free t → Moves priority s (.cancelInit t k m) (s.setMc k ⟨m, t, false⟩) none
  | cancelledEarly {t k mc} : s.Free t → s.mc k = some mc → mc.cancelled = true →
      Moves priority s (.lockCancelable t k) s (some (.cancelable t mc.mutex .ecanceled))
  | takesCancelable {t k mc} : s.Free t → s.mc k = some mc → mc.cancelled = false → s.queue mc.mutex = .unlocked →
      Moves priority s (.lockCancelable t k) (s.take t mc.mutex) (some (.cancelable t mc.mutex .zero))
  | blocksCancelable {t k mc} : s.Free t → s.mc k = some mc → mc.cancelled = false → s.queue mc.mutex ≠ .unlocked →
      Moves priority s (.lockCancelable t k) (s.block priority t mc.mutex (.cancelable mc.mutex k)) none
  | returns {t m} : (s.status t).onRunqueue = true → s.call t = .lock m →
      Moves priority s (.resume t) ((s.setCall t .idle).noteReturned m (t :: s.returned m)) (some (.lock t m true))
  | returnsCanceled {t m k mc} : (s.status t).onRunqueue = true → s.call t = .cancelable m k → s.mc k = some mc →
      mc.cancelled = true →
      Moves priority s (.resume t) (s.setCall t .idle) (some (.cancelable t m .ecanceled))
  | returnsZero {t m k mc} : (s.status t).onRunqueue = true → s.call t = .cancelable m k → s.mc k = some mc →
      mc.cancelled = false →
      Moves priority s (.resume t) ((s.setCall t .idle).noteReturned m (t :: s.returned m))
        (some (.cancelable t m .zero))
  | unlocks {m} : Moves priority s (.unlock m) (s.mutexUnlock m) none
  | unlocksAndSleeps {t m} : s.Free t → Moves priority s (.unlockAndSleep t m) (s.mutexUnlockAndSleep t m) none
  | wakes {t} : s.status t = .sleeping → Moves priority s (.wakeup t) (s.setStatus t .running) none
  | cancels {k mc} : s.mc k = some mc → Moves priority s (.cancel k) (s.mutexCancel k mc) none

theorem exec_moves {priority : τ → Nat} {s u : Mutexes τ μ κ} {op : Op τ μ κ} {r : Option (Ret τ μ)}
    (hs : s.exec priority op = some (u, r)) : Moves priority s op u r := by
  cases op with
  | lock t m blocking =>
    simp only [exec, ite_none_right_eq_some, some.injEq, mutexLockInternal] at hs
    obtain ⟨hfree, hs⟩ := hs
    split at hs
    · cases hs; exact .takes hfree ‹_›
    · cases blocking with
      | true => cases hs; exact .blocks hfree ‹_›
      | false => cases hs; exact .refuses hfree ‹_›
  | cancelInit t k m =>
    simp only [exec, ite_none_right_eq_some] at hs
    cases hs.2
    exact .inits hs.1
  | lockCancelable t k =>
    simp only [exec] at hs
    split at hs
    · rename_i mc hmc
      simp only [ite_none_right_eq_some, some.injEq, mutexLockCancelable] at hs
      obtain ⟨hfree, hs⟩ := hs
      cases hc : mc.cancelled with
      | true =>
        rw [if_pos hc] at hs
        cases hs; exact .cancelledEarly hfree hmc hc
      | false =>
        rw [hc, if_neg Bool.false_ne_true] at hs
        split at hs
        · cases hs; exact .takesCancelable hfree hmc hc ‹_›
        · cases hs; exact .blocksCancelable hfree hmc hc ‹_›
    · cases hs
  | resume t =>
    simp only [exec, ite_none_right_eq_some, resume] at hs
    obtain ⟨hr, hs⟩ := hs
    split at hs
    · cases hs
    · cases hs; exact .returns hr ‹_›
    · rename_i hcall
      split at hs
      · cases hs
      · rename_i mc hmc
        cases hc : mc.cancelled with
        | true =>
          rw [if_pos hc] at hs
          cases hs; exact .returnsCanceled hr hcall hmc hc
        | false =>
          rw [hc, if_neg Bool.false_ne_true] at hs
          cases hs; exact .returnsZero hr hcall hmc hc
  | unlock m =>
    cases hs; exact .unlocks
  | unlockAndSleep t m =>
    simp only [exec, ite_none_right_eq_some] at hs
    cases hs.2
    exact .unlocksAndSleeps hs.1
  | wakeup t =>
    simp only [exec, ite_none_right_eq_some] at hs
    cases hs.2
    exact .wakes hs.1
  | cancel k =>
    obtain ⟨mc, hmc, hs⟩ := map_eq_some_iff.mp hs
    cases hs; exact .cancels hmc

end

end Mutexes

end PipRiot.Core
