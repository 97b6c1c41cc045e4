import PipRiot.Core.WaitCalls

/-!
# What `msg_send_receive` leaves behind

The calls of `Kernel` with the messages they copy. A pointer stands for the
message it points to; `msg_array` is apart. The value is what the call returns,
at once or when its thread goes on.
-/

namespace PipRiot.Core

structure Letter (τ ω : Type) where
  sender : τ
  content : ω
  deriving DecidableEq

structure Post (τ μ β γ κ ω : Type) where
  kernel : Kernel τ μ β γ κ
  mem : BitVec 32 → Letter τ ω
  array : τ → Nat → Letter τ ω

namespace Post

section
variable {τ μ β γ κ ω : Type}

def store (s : Post τ μ β γ κ ω) (p : BitVec 32) (x : Letter τ ω) : Post τ μ β γ κ ω :=
  { s with mem := Function.update s.mem p x }

structure Untouched (s v : Post τ μ β γ κ ω) (me : τ) (reply : BitVec 32) : Prop where
  runnable : (v.kernel.sched.status me).onRunqueue = true
  status : v.kernel.sched.status = s.kernel.sched.status
  runqueues : v.kernel.sched.runqueues = s.kernel.sched.runqueues ∧ v.kernel.sched.next = s.kernel.sched.next
  waiting : v.kernel.head = s.kernel.head
  queue : v.kernel.queue = s.kernel.queue ∧ v.array = s.array
  mem : ∀ p ≠ reply, v.mem p = s.mem p

variable [DecidableEq τ]

def fill (s : Post τ μ β γ κ ω) (target : τ) (m : BitVec 32) : Post τ μ β γ κ ω :=
  let entries := Function.update (s.array target) (s.kernel.queue target).put.2.toNat (s.mem m)
  { s with array := Function.update s.array target entries }

variable [DecidableEq μ] [DecidableEq β] [DecidableEq γ] [Fintype τ]

def msgSendTo (cfg : Config) (s : Post τ μ β γ κ ω) (me : τ) (m : BitVec 32) (target : τ) (block : Bool) :
    Option (Post τ μ β γ κ ω × Int) :=
  (s.kernel.msgSendTo cfg me m target block).map fun k =>
    if s.kernel.sched.status target ≠ .receiveBlocked then
      if (s.kernel.queueMsg cfg target).isSome then ({ s.fill target m with kernel := k }, 1)
      else ({ s with kernel := k }, if block then 1 else 0)
    else ({ s.store (s.kernel.waitData target) (s.mem m) with kernel := k }, 1)

def msgSendReceive (cfg : Config) (s : Post τ μ β γ κ ω) (me : τ) (m reply : BitVec 32) (target : Option τ) :
    Option (Post τ μ β γ κ ω × Int) :=
  let k := (s.kernel.setStatus cfg me .replyBlocked).setWaitData me reply
  let u := { s.store reply { s.mem m with sender := me } with kernel := k }
  match target with
  | none => some (u, -1)
  | some x => if x = me then none else u.msgSendTo cfg me reply x true

variable {cfg : Config} {s v : Post τ μ β γ κ ω} {me : τ} {m reply : BitVec 32} {target : Option τ} {r : Int}

theorem msgSendTo_result {x : τ} (h : s.msgSendTo cfg me m x true = some (v, r)) : r = 1 := by
  obtain ⟨k, -, heq⟩ := Option.map_eq_some_iff.mp h
  split at heq
  · split at heq
    · cases heq; rfl
    · cases heq; rfl
  · cases heq; rfl

theorem msgSendReceive_result (h : s.msgSendReceive cfg me m reply target = some (v, r)) : r ≠ 1 ↔ target = none := by
  cases target with
  | none =>
    cases h; simp
  | some x =>
    simp only [msgSendReceive] at h
    split at h
    · cases h
    · simp [msgSendTo_result h]

theorem msgSendReceive_none_status (h : s.msgSendReceive cfg me m reply none = some (v, r)) :
    v.kernel.sched.status me = .replyBlocked := by
  cases h
  exact (congrFun (Kernel.setStatus_status cfg s.kernel me .replyBlocked) me).trans (Function.update_self ..)

theorem msgSendReceive_untouched_iff (cfg : Config) (s : Post τ μ β γ κ ω) (me : τ) (m reply : BitVec 32)
    (target : Option τ) :
    (∀ v r, s.msgSendReceive cfg me m reply target = some (v, r) → r ≠ 1 → Untouched s v me reply) ↔ target ≠ none := by
  constructor
  · rintro hall rfl
    have hkept := hall _ _ rfl (by decide)
    have hrun := hkept.runnable
    rw [msgSendReceive_none_status rfl] at hrun; cases hrun
  · intro hsome v r h hr
    exact absurd ((msgSendReceive_result h).mp hr) hsome

end

def firstRuns : Post (Fin 2) Empty Empty Empty Empty Nat where
  kernel := ((Kernel.step Sched.twoLevels Kernel.twoThreads .schedRun).getD Kernel.twoThreads)
  mem _ := ⟨⟨0, Nat.two_pos⟩, 0⟩
  array _ _ := ⟨⟨0, Nat.two_pos⟩, 0⟩

/-- The call fails, and its thread goes on without being on a run queue. -/
theorem msgSendReceive_to_nobody :
    ∃ v, firstRuns.kernel.executing = some 0 ∧ firstRuns.kernel.sched.status 0 = .running ∧
    firstRuns.msgSendReceive Sched.twoLevels 0 0#32 1#32 none = some (v, -1) ∧ v.kernel.executing = some 0 ∧
    v.kernel.sched.status 0 = .replyBlocked ∧ v.kernel.sched.runqueues 1 = some 1 ∧ v.kernel.sched.next 1 = some 1 :=
  ⟨_, rfl, rfl, rfl, rfl, rfl, rfl, rfl⟩

end Post

end PipRiot.Core
