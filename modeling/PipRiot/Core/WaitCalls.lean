import PipRiot.Core.OneList

/-!
# Every call leaves each thread in one list

The lemmas for messages, mutexes, mailboxes and condition variables, each by the
moments at which a thread is free, and the runs made of them. A reply is the one
call that takes the status alone for the proof that a thread waits nowhere.
-/

namespace PipRiot.Core.Kernel

open Function Option

section
variable {τ μ β γ κ : Type} [DecidableEq τ] {m : μ} {block : Bool} {x : Wait τ μ β γ} {c : γ} {b : β}
  {blocking : Option τ}
variable {cfg : Config} {s u : Kernel τ μ β γ κ} {e : Option τ} {t me : τ}

/-! ## Messages -/

theorem Safe.queueMsg (h : Safe cfg e s) (hs : s.queueMsg cfg t = some u) :
    Safe cfg e u ∧ u.executing = s.executing := by
  unfold Kernel.queueMsg at hs
  split at hs
  · cases hs
  · cases hs
    have hr : Safe cfg e ((s.setQueue t (s.queue t).put.1).raise t threadFlagMsgWaiting) := h.congr rfl fun _ => rfl
    exact ⟨hr.threadFlagsWake t, threadFlagsWake_executing _ _⟩

section
variable (h : Safe cfg s.executing s)
include h

theorem msgSendInt_done (target : Option τ) : Done cfg s.executing (s.msgSendInt cfg target) := by
  cases target with
  | none => exact .goesOn h rfl
  | some x =>
    simp only [msgSendInt]
    split
    · rename_i hx
      exact .isrExit (h.wake .pending (.inl hx)).request (setStatus_executing cfg s x .pending)
    · cases hq : s.queueMsg cfg x with
      | none => exact .isrExit h rfl
      | some v =>
        obtain ⟨hv, hex⟩ := h.queueMsg hq
        exact .isrExit hv hex

theorem msgReply_done (hg : s.sched.status t = .replyBlocked → s.Unlinked t ∧ s.executing ≠ some t)
    (hs : s.msgReply cfg (some t) = some u) : Done cfg s.executing u := by
  simp only [msgReply] at hs
  split at hs
  · cases hs; exact .goesOn h rfl
  · rename_i hr
    rw [not_not] at hr
    obtain ⟨hu, hne⟩ := hg hr
    exact .schedSwitch ((h.freed_of_unlinked hr hu).setStatus .pending hne) (setStatus_executing cfg s t .pending) hs

theorem msgReplyInt_done (hg : s.sched.status t = .replyBlocked → s.Unlinked t)
    (hs : s.msgReplyInt cfg (some t) = some u) : Done cfg s.executing u := by
  simp only [msgReplyInt] at hs
  split at hs
  · cases hs; exact .goesOn h rfl
  · rename_i hr
    rw [not_not] at hr
    cases hs
    have hfree := h.idle.freed_of_unlinked hr (hg hr)
    exact .yields (hfree.setStatus .pending (some_ne_none t).symm).request

end

section
variable (h : Freed cfg e t s) (he : s.executing = e) (hne : e ≠ some t)
include h he hne

theorem takeFrom_done (hs : s.takeFrom cfg t = some u) : Done cfg e u := by
  simp only [takeFrom] at hs
  split at hs
  · have hd : Freed cfg e t (s.setWaitData t 0#32) := h.congr rfl fun _ => rfl
    have hp := hd.setStatus .pending hne
    have hex : ((s.setWaitData t 0#32).setStatus cfg t .pending).executing = e :=
      (setStatus_executing cfg _ t .pending).trans he
    split at hs
    · exact .schedSwitch hp hex hs
    · cases hs; exact .goesOn hp hex
  · cases hs; exact .goesOn h.safe he

theorem wakeWaiter_done (hs : s.wakeWaiter cfg t = some u) : Done cfg e u :=
  .schedSwitch (h.setStatus .pending hne) ((setStatus_executing cfg s t .pending).trans he) hs

end

variable [DecidableEq μ] [DecidableEq β] [DecidableEq γ]

theorem msgReceive_done (h : Safe cfg (some me) s) (he : s.executing = some me) {m : BitVec 32}
    (hs : s.msgReceive cfg me m block = some u) : Done cfg (some me) u := by
  simp only [msgReceive] at hs
  generalize (if s.hasQueue me then (s.queue me).get else (s.queue me, -1)) = g at hs
  split at hs
  · cases hs; exact .goesOn h he
  · generalize hv : (if 0 ≤ g.2 then s.setQueue me g.1 else (s.setQueue me g.1).setWaitData me m) = v at hs
    have hsafe : Safe cfg (some me) v := by
      rw [← hv]
      split <;> exact h.congr rfl fun _ => rfl
    have hex : v.executing = some me := by
      rw [← hv]
      split <;> exact he
    split at hs
    · split at hs
      · have hoff : Status.receiveBlocked.onRunqueue = false := rfl
        cases hs; exact .yields (hsafe.pop hoff).safe
      · cases hs; exact .goesOn hsafe hex
    · rename_i sender v' hremove
      obtain ⟨hfree, -, -, hex', -, hne⟩ := hsafe.removeHead hremove
      rw [hex] at hex'
      split at hs
      · have hput : Freed cfg (some me) sender (v'.setQueue me (v'.queue me).put.1) := hfree.congr rfl fun _ => rfl
        exact takeFrom_done hput hex' hne hs
      · exact takeFrom_done hfree hex' hne hs

/-! ## Mutexes -/

theorem setHead_ptr {l : Link τ} (hl : l.ptr = (s.head x).ptr) (y : Wait τ μ β γ) :
    ((s.setHead x l).head y).ptr = (s.head y).ptr := by
  by_cases hy : y = x
  · subst hy
    simp only [setHead, update_self, hl]
  · simp only [setHead, update_of_ne hy]

section
variable (s : Kernel τ μ β γ κ) (m : μ)

theorem relock_ptr (y : Wait τ μ β γ) : ((s.relock m).head y).ptr = (s.head y).ptr := by
  unfold relock
  split
  · rename_i hnull
    apply setHead_ptr
    rw [hnull]; rfl
  · rfl

@[simp] theorem relock_sched : (s.relock m).sched = s.sched := by
  unfold relock
  split <;> rfl

@[simp] theorem relock_executing : (s.relock m).executing = s.executing := by
  unfold relock
  split <;> rfl

end

theorem Safe.unlockHead (h : Safe cfg e s) (m : μ) :
    Safe cfg e (s.unlockHead cfg m).2 ∧ (s.unlockHead cfg m).2.executing = s.executing := by
  unfold Kernel.unlockHead
  split
  · rename_i process v hremove
    obtain ⟨hfree, -, -, hex, -, hne⟩ := h.removeHead hremove
    refine ⟨(hfree.setStatus .pending hne).congr ?_ (relock_ptr _ m), ?_⟩
    · simp only [relock_sched]
    · rw [relock_executing, setStatus_executing, hex]
  · rename_i hnone
    have hptr : (s.head (.mutex m)).ptr = none := map_eq_none_iff.mp hnone
    exact ⟨h.congr rfl (setHead_ptr hptr.symm), rfl⟩

theorem Safe.mutexUnlock (h : Safe cfg e s) (hs : s.mutexUnlock cfg m = some u) :
    Safe cfg e u ∧ (u.executing = none ∨ u.executing = s.executing) := by
  obtain ⟨hsafe, hex⟩ := h.unlockHead m
  unfold Kernel.mutexUnlock at hs
  split at hs
  · rename_i process v heq
    rw [heq] at hsafe hex
    rw [← hex]; exact hsafe.schedSwitch hs
  · rename_i v heq
    rw [heq] at hsafe hex
    cases hs; exact ⟨hsafe, .inr hex⟩

theorem mutexUnlockAndSleep_done (h : Safe cfg (some me) s) (m : μ) :
    Done cfg (some me) (s.mutexUnlockAndSleep cfg me m) := threadSleep_done (h.unlockHead m).1

theorem signalLoop_safe {broadcast : Bool} {r : Nat} (n minPrio : Nat) (h : Safe cfg e s)
    (hs : signalLoop cfg c broadcast n minPrio s = some (r, u)) : Safe cfg e u ∧ u.executing = s.executing := by
  induction n generalizing minPrio s with
  | zero => cases hs
  | succ n ih =>
    simp only [signalLoop] at hs
    split at hs
    · cases hs; exact ⟨h, rfl⟩
    · rename_i process v hremove
      obtain ⟨hfree, -, -, hex, -, hne⟩ := h.removeHead hremove
      have hp := hfree.setStatus .pending hne
      have hexp := (setStatus_executing cfg v process .pending).trans hex
      split at hs
      · obtain ⟨hu, hexu⟩ := ih _ hp hs
        exact ⟨hu, hexu.trans hexp⟩
      · cases hs; exact ⟨hp, hexp⟩

variable [Fintype τ]

/-! ## Waiting -/

section
variable (h : Safe cfg (some me) s)
include h

theorem Safe.waits {st : Status} (hx : waitsIn st x = true) :
    ∃ u, (s.setStatus cfg me st).threadAddToList x me = some u ∧ Safe cfg none u := by
  have hfree := h.pop (not_onRunqueue_of_waitsIn hx)
  have hname : waitsIn ((s.setStatus cfg me st).sched.status me) x = true := by
    rwa [setStatus_status, update_self]
  obtain ⟨u, hu, hsafe, -⟩ := hfree.addToList (some_ne_none me).symm hname
  exact ⟨u, hu, hsafe⟩

theorem msgSendTo_done (he : s.executing = some me) {m : BitVec 32}
    (hs : s.msgSendTo cfg me m t block = some u) : Done cfg (some me) u := by
  simp only [msgSendTo] at hs
  split at hs
  · split at hs
    · rename_i v hq
      obtain ⟨hv, hex⟩ := h.queueMsg hq
      cases hs
      split
      · exact .yields hv
      · exact .goesOn hv (hex.trans he)
    · split at hs
      · have hd : Safe cfg (some me) (s.setWaitData me m) := h.congr rfl fun _ => rfl
        have hx : waitsIn (if s.sched.status me = .replyBlocked then Status.replyBlocked else .sendBlocked)
            (.msgs t : Wait τ μ β γ) = true := by
          split <;> rfl
        obtain ⟨v, hv, hsafe⟩ := hd.waits hx
        rw [hv] at hs
        cases hs
        have hraise : Safe cfg none (v.raise t threadFlagMsgWaiting) := hsafe.congr rfl fun _ => rfl
        exact .yields (hraise.threadFlagsWake t)
      · cases hs; exact .goesOn h he
  · rename_i hrecv
    rw [not_not] at hrecv
    cases hs
    exact .yields (h.wake .pending (.inl hrecv))

theorem msgSend_done (he : s.executing = some me) {m : BitVec 32} {target : Option τ}
    (hs : s.msgSend cfg me m target block = some u) : Done cfg (some me) u := by
  cases target with
  | none =>
    cases hs; exact .goesOn h he
  | some x =>
    simp only [msgSend] at hs
    split at hs
    · cases hs
      cases hq : s.queueMsg cfg me with
      | none => exact .goesOn h he
      | some v =>
        obtain ⟨hv, hex⟩ := h.queueMsg hq
        exact .goesOn hv (hex.trans he)
    · exact msgSendTo_done h he hs

theorem msgSendReceive_done (he : s.executing = some me) {reply : BitVec 32}
    {target : Option τ} (hs : s.msgSendReceive cfg me reply target = some u) : Done cfg (some me) u := by
  have hoff : Status.replyBlocked.onRunqueue = false := rfl
  have hr : (s.setStatus cfg me .replyBlocked).sched.status me = .replyBlocked := by
    rw [setStatus_status, update_self]
  have hu : Safe cfg (some me) ((s.setStatus cfg me .replyBlocked).setWaitData me reply) :=
    ((h.pop hoff).executes hr).congr rfl fun _ => rfl
  have hex : ((s.setStatus cfg me .replyBlocked).setWaitData me reply).executing = some me :=
    (setStatus_executing cfg s me .replyBlocked).trans he
  cases target with
  | none =>
    cases hs; exact .goesOn hu hex
  | some x =>
    simp only [msgSendReceive] at hs
    split at hs
    · cases hs
    · exact msgSendTo_done hu hex hs

theorem block_done (hs : s.block cfg me m = some u) : Done cfg (some me) u := by
  have hx : waitsIn .mutexBlocked (.mutex m : Wait τ μ β γ) = true := rfl
  simp only [block] at hs
  split at hs
  · cases hs
    have hname : waitsIn ((s.setStatus cfg me .mutexBlocked).sched.status me) (.mutex m : Wait τ μ β γ) = true := by
      rwa [setStatus_status, update_self]
    have hfree := h.pop (not_onRunqueue_of_waitsIn hx)
    exact .yields (hfree.setLocked (some_ne_none me).symm hname)
  · obtain ⟨v, hv, hsafe⟩ := h.waits hx
    rw [hv] at hs
    cases hs; exact .yields hsafe

theorem mutexLock_done (he : s.executing = some me) {blocking : Bool}
    (hs : s.mutexLock cfg me m blocking = some u) : Done cfg (some me) u := by
  unfold mutexLock at hs
  split at hs
  · rename_i hnull
    cases hs
    have hptr : Link.locked.ptr = (s.head (.mutex m)).ptr := by
      rw [hnull]; rfl
    exact .goesOn (h.congr rfl (setHead_ptr hptr)) he
  · split at hs
    · exact block_done h hs
    · cases hs; exact .goesOn h he

theorem mutexLockCancelable_done (he : s.executing = some me) {k : κ}
    (hs : s.mutexLockCancelable cfg me k = some u) : Done cfg (some me) u := by
  unfold mutexLockCancelable at hs
  split at hs
  · cases hs
  · split at hs
    · cases hs; exact .goesOn h he
    · exact mutexLock_done h he hs

end

theorem mutexCancel_done [DecidableEq κ] (h : Safe cfg s.executing s) {k : κ} (hs : s.mutexCancel cfg k = some u) :
    Done cfg s.executing u := by
  unfold mutexCancel at hs
  split at hs
  · cases hs
  · rename_i mc _
    simp only at hs
    generalize hv : { s with mc := update s.mc k (some { mc with cancelled := true }) } = v at hs
    have hsafe : Safe cfg s.executing v := by
      rw [← hv]; exact h.congr rfl fun _ => rfl
    have hex : v.executing = s.executing := by
      rw [← hv]; rfl
    split at hs
    · cases hs; exact .goesOn hsafe hex
    · obtain ⟨r, hr, hfound⟩ := hsafe.remove (.mutex mc.mutex) mc.thread
      rw [hr] at hs
      cases r with
      | none =>
        cases hs; exact .goesOn hsafe hex
      | some w =>
        obtain ⟨hfree, hexw, hne⟩ := hfound w rfl
        have hlock : Freed cfg s.executing mc.thread (w.relock mc.mutex) :=
          hfree.congr (by simp only [relock_sched]) (relock_ptr w mc.mutex)
        refine .schedSwitch (hlock.setStatus .pending hne) ?_ hs
        rw [setStatus_executing, relock_executing, hexw, hex]

/-! ## Mailboxes -/

theorem mboxWait_done (h : Safe cfg (some me) s) (hx : waitsIn .mboxBlocked x = true)
    (hs : s.mboxWait cfg me x = some u) : Done cfg (some me) u := by
  obtain ⟨v, hv, hsafe⟩ := h.waits hx
  unfold mboxWait at hs
  rw [hv] at hs
  cases hs
  exact .yields hsafe

section
variable (h : Safe cfg e s) (he : s.executing = e) (hb : ∀ me, blocking = some me → e = some me)
include h he hb

theorem mboxPutLoop_done (hs : s.mboxPutLoop cfg b blocking = some u) : Done cfg e u := by
  unfold mboxPutLoop at hs
  split at hs
  · cases blocking with
    | none =>
      cases hs; exact .goesOn h he
    | some me =>
      cases hb me rfl
      exact mboxWait_done h rfl hs
  · cases hs
    exact .goesOn (h.congr rfl fun _ => rfl) he

theorem mboxPut_done (hs : s.mboxPut cfg b blocking = some u) : Done cfg e u := by
  unfold mboxPut at hs
  split at hs
  · rename_i v hremove
    obtain ⟨hfree, -, -, hex, -, hne⟩ := h.removeHead hremove
    exact wakeWaiter_done hfree (hex.trans he) hne hs
  · exact mboxPutLoop_done h he hb hs

end

theorem mboxGet_done (h : Safe cfg e s) (he : s.executing = e) (msg : BitVec 32)
    (hb : ∀ me, blocking = some me → e = some me) (hs : s.mboxGet cfg b msg blocking = some u) : Done cfg e u := by
  simp only [mboxGet] at hs
  split at hs
  · have hget : Safe cfg e (s.setCib b (s.cib b).getUnsafe.1) := h.congr rfl fun _ => rfl
    split at hs
    · rename_i v hremove
      obtain ⟨hfree, -, -, hex, -, hne⟩ := hget.removeHead hremove
      exact wakeWaiter_done hfree (hex.trans he) hne hs
    · cases hs; exact .goesOn hget he
  · cases blocking with
    | none =>
      cases hs; exact .goesOn h he
    | some me =>
      cases hb me rfl
      have hd : Safe cfg (some me) (s.setWaitData me msg) := h.congr rfl fun _ => rfl
      exact mboxWait_done hd rfl hs

/-! ## Condition variables -/

theorem condWait_done (h : Safe cfg (some me) s) (hs : s.condWait cfg me c m = some u) : Done cfg (some me) u := by
  obtain ⟨v, hv, hs⟩ := bind_eq_some_iff.mp hs
  have hx : waitsIn .condBlocked (.cond c : Wait τ μ β γ) = true := rfl
  obtain ⟨w, hw, hsafe⟩ := (h.mutexUnlock hv).1.waits hx
  rw [hw] at hs
  cases hs
  exact .yields hsafe

theorem condSignal_done (h : Safe cfg s.executing s) {broadcast : Bool}
    (hs : s.condSignal cfg c broadcast = some u) : Done cfg s.executing u := by
  obtain ⟨⟨r, v⟩, hloop, hs⟩ := bind_eq_some_iff.mp hs
  obtain ⟨hv, hex⟩ := signalLoop_safe _ _ h hloop
  split at hs
  · exact .schedSwitch hv hex hs
  · cases hs; exact .goesOn hv hex

end

/-! ## Runs -/

section
variable {τ μ β γ κ : Type} {cfg : Config} {s u : Kernel τ μ β γ κ}

/-- Whoever is answered waits in no list of messages, and does not answer itself. -/
def Good (s : Kernel τ μ β γ κ) : Op τ μ β γ κ → Prop
  | .msgReply (some t) => s.sched.status t = .replyBlocked → s.Unlinked t ∧ s.executing ≠ some t
  | .msgReplyInt (some t) => s.sched.status t = .replyBlocked → s.Unlinked t
  | _ => True

structure Boot (cfg : Config) (s : Kernel τ μ β γ κ) : Prop where
  queues : ∃ q, Sched.Queues cfg s.sched q
  empty : ∀ x, (s.head x).ptr = none
  yielding : s.yielding = true

theorem Boot.safe (h : Boot cfg s) : Safe cfg s.executing s := by
  obtain ⟨q, hq⟩ := h.queues
  have hex : s.executing = none := if_pos h.yielding
  rw [hex]
  refine ⟨q, fun _ => [], hq, ?_, ?_, ?_, ?_⟩
  · exact fun x => Slist.spells_nil.mpr (h.empty x)
  · exact fun _ _ ht => absurd ht List.not_mem_nil
  · exact fun _ _ _ ht => absurd ht List.not_mem_nil
  · exact fun _ he => (by cases he)

theorem Safe.called (h : Safe cfg s.executing s) {f : τ → Option (Kernel τ μ β γ κ)}
    (hf : ∀ me, Safe cfg (some me) s → s.executing = some me → f me = some u → Done cfg (some me) u)
    (hs : s.executing.bind f = some u) : Safe cfg u.executing u := by
  obtain ⟨me, he, hs⟩ := bind_eq_some_iff.mp hs
  rw [he] at h
  exact (hf me h he hs).safe

variable [DecidableEq τ] [DecidableEq μ] [DecidableEq β] [DecidableEq γ] [DecidableEq κ] [Fintype τ]

theorem step_safe (h : Safe cfg s.executing s) {op : Op τ μ β γ κ} (hg : Good s op) (hs : step cfg s op = some u) :
    Safe cfg u.executing u := by
  have hnone : ∀ me, none = some me → s.executing = some me := fun _ hb => (by cases hb)
  cases op with
  | msgSend m target block => exact h.called (fun _ h he hs => msgSend_done h he hs) hs
  | msgSendReceive reply target => exact h.called (fun _ h he hs => msgSendReceive_done h he hs) hs
  | msgReply target =>
    obtain ⟨me, -, hs⟩ := bind_eq_some_iff.mp hs
    cases target with
    | none => cases hs
    | some t => exact (msgReply_done h hg hs).safe
  | msgReceive m block => exact h.called (fun _ h he hs => msgReceive_done h he hs) hs
  | mutexLock m blocking => exact h.called (fun _ h he hs => mutexLock_done h he hs) hs
  | mutexCancelInit k m | threadFlagsClear mask =>
    obtain ⟨me, -, rfl⟩ := map_eq_some_iff.mp hs
    exact h.congr rfl fun _ => rfl
  | mutexLockCancelable k => exact h.called (fun _ h he hs => mutexLockCancelable_done h he hs) hs
  | mutexUnlockAndSleep m =>
    obtain ⟨me, he, rfl⟩ := map_eq_some_iff.mp hs
    rw [he] at h; exact (mutexUnlockAndSleep_done h m).safe
  | mboxPut b => exact h.called (fun _ h he hs => mboxPut_done h he (fun _ hb => hb) hs) hs
  | mboxPutAgain b => exact h.called (fun _ h he hs => mboxPutLoop_done h he (fun _ hb => hb) hs) hs
  | mboxGet b msg => exact h.called (fun _ h he hs => mboxGet_done h he msg (fun _ hb => hb) hs) hs
  | condWait c m => exact h.called (fun _ h _ hs => condWait_done h hs) hs
  | threadFlagsWaitAny mask =>
    obtain ⟨me, he, rfl⟩ := map_eq_some_iff.mp hs
    rw [he] at h
    exact (threadFlagsWaitAny_done h he mask).safe
  | threadFlagsWaitAll mask =>
    obtain ⟨me, he, rfl⟩ := map_eq_some_iff.mp hs
    rw [he] at h
    exact (threadFlagsWaitAll_done h he mask).safe
  | threadSleep =>
    obtain ⟨me, he, rfl⟩ := map_eq_some_iff.mp hs
    rw [he] at h; exact (threadSleep_done h).safe
  | msgSendInt target =>
    cases hs; exact (msgSendInt_done h target).safe
  | msgReplyInt target =>
    cases target with
    | none => cases hs
    | some t => exact (msgReplyInt_done h hg hs).safe
  | mutexUnlock m =>
    obtain ⟨hu, he⟩ := h.mutexUnlock hs
    exact (Done.of_safe hu he).safe
  | mutexCancel k => exact (mutexCancel_done h hs).safe
  | mboxTryPut b => exact (mboxPut_done h rfl hnone hs).safe
  | mboxTryGet b msg => exact (mboxGet_done h rfl msg hnone hs).safe
  | condSignal c broadcast => exact (condSignal_done h hs).safe
  | threadFlagsSet t mask =>
    cases hs; exact (threadFlagsSet_done h t mask).safe
  | threadWakeup t => exact (threadWakeup_done h hs).safe
  | threadYield => exact (threadYield_done h hs).safe
  | schedRun => exact schedRun_safe h hs

/-- As long as replies go to threads whose message has been received, every thread is
in one list at most, and in the one its status names. -/
theorem each_thread_in_one_list (cfg : Config) (s0 s : Kernel τ μ β γ κ) (h0 : Boot cfg s0)
    (h : ReachVia (step cfg) Good s0 s) : s.OneList := by
  have hsafe : Safe cfg s.executing s :=
    h.inv (fun s => Safe cfg s.executing s) h0.safe fun _ _ _ hs hg hstep => step_safe hs hg hstep
  exact hsafe.oneList

end

section

def twoThreads : Kernel (Fin 2) Empty Empty Empty Empty where
  sched := (runAll (Sched.step Sched.twoLevels) Sched.init ((List.finRange 2).map Sched.create)).getD Sched.init
  head _ := .null
  queue _ := Cib.init 0#32
  hasQueue _ := false
  cib b := nomatch b
  flags _ := 0#16
  waitData _ := 0#32
  mc k := nomatch k
  yielding := true

theorem twoThreads_boot : Boot Sched.twoLevels twoThreads := by
  have h1 : ReachVia (Sched.step Sched.twoLevels) Sched.Good (Sched.init : Sched (Fin 2)) _ :=
    .next .start (a := Sched.create 0) ⟨rfl, trivial⟩ rfl
  have h2 : ReachVia (Sched.step Sched.twoLevels) Sched.Good Sched.init twoThreads.sched :=
    h1.next (a := Sched.create 1) ⟨rfl, trivial⟩ rfl
  exact ⟨Sched.reach_queues h2, fun _ => rfl, rfl⟩

theorem one_list_after_reply : ∃ s, ReachVia (step Sched.twoLevels) Good twoThreads s ∧
    s.sched.status 0 = .pending ∧ s.executing = some 1 ∧ s.OneList := by
  have h1 : ReachVia (step Sched.twoLevels) Good twoThreads _ := .next .start (a := Op.schedRun) trivial rfl
  have h2 := h1.next (a := Op.msgSendReceive 0#32 (some 1)) trivial rfl
  have h3 := h2.next (a := Op.schedRun) trivial rfl
  have h4 := h3.next (a := Op.msgReceive 0#32 true) trivial rfl
  have h5 := h4.next (a := Op.msgReply (some 0)) (fun _ => ⟨?_, fun he => (by cases he)⟩) rfl
  · exact ⟨_, h5, rfl, rfl, each_thread_in_one_list _ _ _ twoThreads_boot h5⟩
  · intro x l hl hin
    have hnil : l.head? = none := by
      rw [← hl.head_eq]
      rcases x with ⟨_ | _ | _, hx⟩
      · rfl
      · rfl
      · omega
    rw [List.head?_eq_none_iff.mp hnil] at hin; cases hin

/-- Thread 1 answers the first message of thread 0 while that one waits for it with a
second. -/
theorem reply_to_thread_in_list : Boot Sched.twoLevels twoThreads ∧ ∃ s,
    runAll (step Sched.twoLevels) twoThreads [.schedRun, .msgSend 0#32 (some 1) true, .schedRun, .msgReceive 0#32 true,
      .threadYield, .schedRun, .msgSendReceive 0#32 (some 1), .schedRun, .msgReply (some 0)] = some s ∧
    s.sched.status 0 = .pending ∧ s.head (.msgs 1) = .node 0 ∧ s.sched.runqueues 1 = some 0 ∧ ¬ s.OneList := by
  refine ⟨twoThreads_boot, _, rfl, rfl, rfl, rfl, ?_⟩
  rintro ⟨l, hspelled, -, hnamed⟩
  have hhead := (hspelled (.wait (.msgs 1))).head_eq
  have hin : (0 : Fin 2) ∈ l (.wait (.msgs 1)) := List.mem_of_mem_head? hhead.symm
  have hname := hnamed (.wait (.msgs 1)) 0 hin
  cases hname

end

end PipRiot.Core.Kernel
