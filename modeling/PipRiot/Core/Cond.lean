import PipRiot.Core.MutexHolder

/-!
# Condition variables

A call of `cond_wait` takes four steps: the release of the mutex, the enqueueing, its
call of `mutex_lock` once it was woken, and the return from that if it blocks. On some
CPUs `mutex_unlock` switches at once to the thread that is given the mutex, although
interrupts are disabled, so others can come in behind the first step. Who runs next does
not matter here, and the smallest priority that `_cond_signal` computes for
`sched_switch` is left out.
-/

namespace PipRiot.Core

open Function List Option

namespace Mutexes

section
variable {τ μ κ : Type} {priority : τ → Nat} {s u : Mutexes τ μ κ} {x : τ} {op : Op τ μ κ} {r : Option (Ret τ μ)}

def Op.actor : Op τ μ κ → Option τ
  | .lock t _ _ | .cancelInit t _ _ | .lockCancelable t _ | .resume t | .unlockAndSleep t _ | .wakeup t => some t
  | .unlock _ | .cancel _ => none

structure Aside (s u : Mutexes τ μ κ) (x : τ) : Prop where
  status : u.status x = s.status x
  call : u.call x = s.call x
  since : u.since x = s.since x

theorem Aside.refl (s : Mutexes τ μ κ) (x : τ) : Aside s s x := ⟨rfl, rfl, rfl⟩

variable [DecidableEq τ]

theorem Aside.setStatus {t : τ} (h : Aside s u x) (ht : x ≠ t) (st : Status) : Aside s (u.setStatus t st) x :=
  ⟨(update_of_ne ht ..).trans h.status, h.call, h.since⟩

theorem Exact.noteWaiting {t : τ} (h : Exact priority s) (hidle : s.call t = .idle) :
    Exact priority (s.noteWaiting t) := by
  refine of_lines (h.lines.keep (fun _ => rfl) (fun _ _ => Iff.rfl) ?_ (Nat.le_succ _)) h.awake
  rintro m b hb
  apply update_of_ne
  rintro rfl
  exact h.not_mem_of_idle hidle m ((h.mem m b).mpr hb)

variable [DecidableEq μ]

theorem mutexUnlock_clock (s : Mutexes τ μ κ) (m : μ) :
    (s.mutexUnlock m).since = s.since ∧ (s.mutexUnlock m).now = s.now := by
  unfold mutexUnlock
  split <;> exact ⟨rfl, rfl⟩

theorem Exact.aside_unlock (h : Exact priority s) (hidle : s.call x = .idle) (m : μ) : Aside s (s.mutexUnlock m) x := by
  have hu := unlocks_mutexUnlock s m
  refine ⟨?_, congrFun hu.call x, congrFun (mutexUnlock_clock s m).1 x⟩
  rcases hu.woken x with hsame | ⟨hin, -⟩
  · exact hsame
  · exact absurd hin (h.not_mem_of_idle hidle m)

theorem aside_block {t : τ} (ht : x ≠ t) (m : μ) (c : Call μ κ) : Aside s (s.block priority t m c) x :=
  ⟨update_of_ne ht .., update_of_ne ht .., update_of_ne ht ..⟩

variable [DecidableEq κ]

theorem Exact.aside_cancel (h : Exact priority s) (hidle : s.call x = .idle) (k : κ) (mc : MutexCancel τ μ) :
    Aside s (s.mutexCancel k mc) x := by
  unfold Mutexes.mutexCancel
  simp only
  split
  · exact ⟨rfl, rfl, rfl⟩
  · split
    · rename_i hin
      have hne : x ≠ mc.thread := by
        rintro rfl
        exact h.not_mem_of_idle hidle mc.mutex hin
      exact ⟨update_of_ne hne .., rfl, rfl⟩
    · exact ⟨rfl, rfl, rfl⟩

theorem Moves.aside (hx : Exact priority s) (hs : Moves priority s op u r) (hact : op.actor ≠ some x)
    (hidle : s.call x = .idle) : Aside s u x := by
  have hne : ∀ {t}, op.actor = some t → x ≠ t := by
    rintro t ht rfl
    exact hact ht
  cases hs with
  | takes | refuses | inits | cancelledEarly | takesCancelable => exact ⟨rfl, rfl, rfl⟩
  | blocks | blocksCancelable => exact aside_block (hne rfl) _ _
  | returns | returnsCanceled | returnsZero => exact ⟨rfl, update_of_ne (hne rfl) .., rfl⟩
  | unlocks => exact hx.aside_unlock hidle _
  | unlocksAndSleeps => exact (hx.aside_unlock hidle _).setStatus (hne rfl) .sleeping
  | wakes => exact (Aside.refl s x).setStatus (hne rfl) .running
  | cancels => exact hx.aside_cancel hidle _ _

theorem mutexCancel_clock (s : Mutexes τ μ κ) (k : κ) (mc : MutexCancel τ μ) :
    (s.mutexCancel k mc).call = s.call ∧ (s.mutexCancel k mc).now = s.now := by
  unfold mutexCancel
  simp only
  split
  · exact ⟨rfl, rfl⟩
  · split <;> exact ⟨rfl, rfl⟩

theorem Moves.frame (hs : Moves priority s op u r) (hact : op.actor ≠ some x) : u.call x = s.call x := by
  have hne : ∀ {t}, op.actor = some t → x ≠ t := by
    rintro t ht rfl
    exact hact ht
  cases hs with
  | takes | refuses | inits | cancelledEarly | takesCancelable | wakes => rfl
  | blocks | blocksCancelable | returns | returnsCanceled | returnsZero => exact update_of_ne (hne rfl) ..
  | @unlocks m | @unlocksAndSleeps t m => exact congrFun (unlocks_mutexUnlock s m).call x
  | @cancels k mc => exact congrFun (mutexCancel_clock s k mc).1 x

theorem Moves.now_le (hs : Moves priority s op u r) : s.now ≤ u.now := by
  cases hs with
  | blocks | blocksCancelable => exact Nat.le_succ _
  | @unlocks m | @unlocksAndSleeps t m => exact (mutexUnlock_clock s m).2.ge
  | @cancels k mc => exact (mutexCancel_clock s k mc).2.ge
  | _ => exact le_rfl

end

end Mutexes

inductive CondCall (μ γ : Type)
  | idle
  -- behind `mutex_unlock`, not in the list yet
  | released (c : γ) (m : μ)
  -- in the list of the condition variable, or woken
  | waiting (c : γ) (m : μ)
  -- blocked in `mutex_lock`, or given the mutex
  | locking (m : μ)
  deriving DecidableEq, Repr

structure Conds (τ μ κ γ : Type) where
  mutexes : Mutexes τ μ κ
  queue : γ → List τ
  wait : τ → CondCall μ γ

inductive CondOp (τ μ κ γ : Type)
  | mutex (op : Mutexes.Op τ μ κ)
  | release (t : τ) (c : γ) (m : μ)
  | enqueue (t : τ)
  | signal (c : γ) (broadcast : Bool)
  | relock (t : τ)
  | resume (t : τ)

namespace Conds

section
variable {τ μ κ γ : Type}

def init (locked : μ → Bool) : Conds τ μ κ γ where
  mutexes := .init locked
  queue _ := []
  wait _ := .idle

variable (s : Conds τ μ κ γ)

def Outside : Option τ → Prop
  | some t => s.wait t = .idle
  | none => True

instance [DecidableEq μ] [DecidableEq γ] (s : Conds τ μ κ γ) : ∀ t, Decidable (s.Outside t)
  | some t => inferInstanceAs (Decidable (s.wait t = .idle))
  | none => isTrue trivial

variable [DecidableEq τ]

def setWait (ms : Mutexes τ μ κ) (t : τ) (w : CondCall μ γ) : Conds τ μ κ γ :=
  { s with mutexes := ms, wait := update s.wait t w }

variable [DecidableEq γ]

def wakeHead (c : γ) (t : τ) (rest : List τ) : Conds τ μ κ γ :=
  { s with mutexes := s.mutexes.setStatus t .pending, queue := update s.queue c rest }

def signalLoop (c : γ) (broadcast : Bool) : List τ → Conds τ μ κ γ → Conds τ μ κ γ
  | [], s => s
  | t :: ts, s => if broadcast then signalLoop c broadcast ts (s.wakeHead c t ts) else s.wakeHead c t ts

def condSignal (c : γ) (broadcast : Bool) : Conds τ μ κ γ :=
  signalLoop c broadcast (s.queue c) s

variable [DecidableEq μ]

def condEnqueue (priority : τ → Nat) (s : Conds τ μ κ γ) (t : τ) (c : γ) (m : μ) : Conds τ μ κ γ where
  mutexes := (s.mutexes.setStatus t .condBlocked).noteWaiting t
  queue := update s.queue c (Mutexes.threadAddToList priority t (s.queue c))
  wait := update s.wait t (.waiting c m)

variable [DecidableEq κ]

def exec (priority : τ → Nat) (s : Conds τ μ κ γ) : CondOp τ μ κ γ → Option (Conds τ μ κ γ × Option (τ × μ))
  | .mutex op =>
    if s.Outside op.actor then (s.mutexes.exec priority op).map fun r => ({ s with mutexes := r.1 }, none) else none
  | .release t c m =>
    if s.mutexes.Free t ∧ s.wait t = .idle then some (s.setWait (s.mutexes.mutexUnlock m) t (.released c m), none)
    else none
  | .enqueue t =>
    match s.wait t with
    | .released c m => if s.mutexes.Free t then some (s.condEnqueue priority t c m, none) else none
    | _ => none
  | .signal c broadcast => some (s.condSignal c broadcast, none)
  | .relock t =>
    match s.wait t with
    | .waiting _ m =>
      (s.mutexes.exec priority (.lock t m true)).map fun r =>
        if r.2.isSome then (s.setWait r.1 t .idle, some (t, m)) else (s.setWait r.1 t (.locking m), none)
    | _ => none
  | .resume t =>
    match s.wait t with
    | .locking m => (s.mutexes.exec priority (.resume t)).map fun r => (s.setWait r.1 t .idle, some (t, m))
    | _ => none

def step (priority : τ → Nat) (s : Conds τ μ κ γ) (op : CondOp τ μ κ γ) : Option (Conds τ μ κ γ) :=
  (s.exec priority op).map Prod.fst

end

/-! ## What a step can do -/

section
variable {τ μ κ γ : Type} [DecidableEq τ] [DecidableEq μ] [DecidableEq κ] [DecidableEq γ] {priority : τ → Nat}
  {s u : Conds τ μ κ γ} {op : CondOp τ μ κ γ} {e : Option (τ × μ)}

inductive Moves (priority : τ → Nat) (s : Conds τ μ κ γ) : CondOp τ μ κ γ → Conds τ μ κ γ → Option (τ × μ) → Prop
  | mutex {op ms r} : s.Outside op.actor → s.mutexes.Moves priority op ms r →
      Moves priority s (.mutex op) { s with mutexes := ms } none
  | releases {t c m} : s.mutexes.Free t → s.wait t = .idle →
      Moves priority s (.release t c m) (s.setWait (s.mutexes.mutexUnlock m) t (.released c m)) none
  | waits {t c m} : s.wait t = .released c m → s.mutexes.Free t →
      Moves priority s (.enqueue t) (s.condEnqueue priority t c m) none
  | signals {c broadcast} : Moves priority s (.signal c broadcast) (s.condSignal c broadcast) none
  | locks {t c m} : s.wait t = .waiting c m → s.mutexes.Free t → s.mutexes.queue m = .unlocked →
      Moves priority s (.relock t) (s.setWait (s.mutexes.take t m) t .idle) (some (t, m))
  | blocks {t c m} : s.wait t = .waiting c m → s.mutexes.Free t → s.mutexes.queue m ≠ .unlocked →
      Moves priority s (.relock t) (s.setWait (s.mutexes.block priority t m (.lock m)) t (.locking m)) none
  | returns {t m ms r} : s.wait t = .locking m → s.mutexes.Moves priority (.resume t) ms r →
      Moves priority s (.resume t) (s.setWait ms t .idle) (some (t, m))

theorem exec_moves (hs : s.exec priority op = some (u, e)) : Moves priority s op u e := by
  cases op with
  | mutex op =>
    simp only [exec, ite_none_right_eq_some, map_eq_some_iff] at hs
    obtain ⟨hout, ⟨ms, r⟩, hms, heq⟩ := hs
    cases heq
    exact .mutex hout (Mutexes.exec_moves hms)
  | release t c m =>
    simp only [exec, ite_none_right_eq_some] at hs
    obtain ⟨⟨hfree, hidle⟩, heq⟩ := hs
    cases heq; exact .releases hfree hidle
  | enqueue t =>
    simp only [exec] at hs
    split at hs
    · rename_i c m hwait
      obtain ⟨hfree, heq⟩ := ite_none_right_eq_some.mp hs
      cases heq; exact .waits hwait hfree
    · cases hs
  | signal c broadcast =>
    cases hs; exact .signals
  | relock t =>
    simp only [exec] at hs
    split at hs
    · rename_i c m hwait
      obtain ⟨⟨ms, r⟩, hms, heq⟩ := map_eq_some_iff.mp hs
      cases Mutexes.exec_moves hms with
      | takes hfree hq =>
        cases heq; exact .locks hwait hfree hq
      | blocks hfree hq =>
        cases heq; exact .blocks hwait hfree hq
    · cases hs
  | resume t =>
    simp only [exec] at hs
    split at hs
    · rename_i m hwait
      obtain ⟨⟨ms, r⟩, hms, heq⟩ := map_eq_some_iff.mp hs
      cases heq
      exact .returns hwait (Mutexes.exec_moves hms)
    · cases hs

end

/-! ## Who waits -/

section
variable {τ μ κ γ : Type} {priority : τ → Nat} {s u : Conds τ μ κ γ} {op : CondOp τ μ κ γ} {e : Option (τ × μ)}

/-- In the list of the condition variable. -/
def Waits (s : Conds τ μ κ γ) (c : γ) (t : τ) : Prop :=
  (∃ m, s.wait t = .waiting c m) ∧ s.mutexes.status t = .condBlocked

/-- In `cond_wait`, with the mutex released, and not woken yet. -/
def Begun (s : Conds τ μ κ γ) (c : γ) (t : τ) : Prop := (∃ m, s.wait t = .released c m) ∨ s.Waits c t

def Woken (s : Conds τ μ κ γ) (c : γ) (t : τ) : Prop := s.mutexes.status t = .pending ∧ ¬ s.Begun c t

/-- Nobody stands between the release and the enqueueing. -/
def Settled (s : Conds τ μ κ γ) (c : γ) : Prop := ∀ t m, s.wait t ≠ .released c m

structure Sound (priority : τ → Nat) (s : Conds τ μ κ γ) : Prop where
  exact : s.mutexes.Exact priority
  mem : ∀ c t, t ∈ s.queue c ↔ s.Waits c t
  sorted : ∀ c, (s.queue c).Pairwise (Ahead priority s.mutexes.since)
  past : ∀ c, ∀ t ∈ s.queue c, s.mutexes.since t < s.mutexes.now
  idle : ∀ t c m, s.wait t = .waiting c m → s.mutexes.call t = .idle
  locking : ∀ t m, s.wait t = .locking m → s.mutexes.call t = .lock m

theorem not_condBlocked {st : Status} (h : st.onRunqueue = true) : st ≠ .condBlocked := by
  rintro rfl
  cases h

namespace Sound

theorem init (locked : μ → Bool) : Sound priority (Conds.init locked : Conds τ μ κ γ) where
  exact := Mutexes.Exact.init locked
  mem c t := ⟨fun h => (by cases h), fun h => (by obtain ⟨⟨m, hm⟩, -⟩ := h; cases hm)⟩
  sorted _ := List.Pairwise.nil
  past c t h := by cases h
  idle _ _ _ h := by cases h
  locking _ _ h := by cases h

theorem lines (h : Sound priority s) : Lines priority s.queue s.Waits s.mutexes.since s.mutexes.now :=
  ⟨h.mem, h.sorted, h.past⟩

theorem keep (h : Sound priority s) (hx : u.mutexes.Exact priority) (hq : u.queue = s.queue)
    (hwaits : ∀ c t, u.Waits c t ↔ s.Waits c t)
    (hsince : ∀ c t, s.Waits c t → u.mutexes.since t = s.mutexes.since t) (hnow : s.mutexes.now ≤ u.mutexes.now)
    (hidle : ∀ t c m, u.wait t = .waiting c m → u.mutexes.call t = .idle)
    (hlocking : ∀ t m, u.wait t = .locking m → u.mutexes.call t = .lock m) : Sound priority u := by
  have hlines := h.lines.keep (fun c => congrFun hq c) hwaits hsince hnow
  exact ⟨hx, hlines.mem, hlines.sorted, hlines.past, hidle, hlocking⟩

variable [DecidableEq τ]

theorem leave {t : τ} {ms : Mutexes τ μ κ} {w : CondCall μ γ} (h : Sound priority s) (hx : ms.Exact priority)
    (hoff : s.mutexes.status t ≠ .condBlocked)
    (haside : ∀ x, x ≠ t → s.mutexes.call x = .idle → Mutexes.Aside s.mutexes ms x)
    (hcall : ∀ x, x ≠ t → ms.call x = s.mutexes.call x) (hnow : s.mutexes.now ≤ ms.now)
    (hw : ∀ c m, w ≠ .waiting c m) (hlock : ∀ m, w = .locking m → ms.call t = .lock m) :
    Sound priority (s.setWait ms t w) := by
  have hother : ∀ x, x ≠ t → (s.setWait ms t w).wait x = s.wait x := fun x hx => update_of_ne hx ..
  have hself : (s.setWait ms t w).wait t = w := update_self ..
  refine h.keep hx rfl ?_ ?_ hnow ?_ ?_
  · intro c x
    by_cases hxt : x = t
    · subst hxt
      unfold Waits
      rw [hself]
      exact ⟨fun hu => hu.1.elim fun m hm => absurd hm (hw c m), fun hs => absurd hs.2 hoff⟩
    · unfold Waits
      rw [hother x hxt]
      refine and_congr_right ?_
      rintro ⟨m, hm⟩
      rw [← (haside x hxt (h.idle x c m hm)).status]; rfl
  · rintro c x ⟨⟨m, hm⟩, hblocked⟩
    have hxt : x ≠ t := by
      rintro rfl
      exact hoff hblocked
    exact (haside x hxt (h.idle x c m hm)).since
  · intro x c m hwait
    by_cases hxt : x = t
    · subst hxt
      exact absurd (hself.symm.trans hwait) (hw c m)
    · rw [hother x hxt] at hwait
      exact (hcall x hxt).trans (h.idle x c m hwait)
  · intro x m hwait
    by_cases hxt : x = t
    · subst hxt; exact hlock m (hself.symm.trans hwait)
    · rw [hother x hxt] at hwait
      exact (hcall x hxt).trans (h.locking x m hwait)

theorem mutex [DecidableEq μ] [DecidableEq κ] {op : Mutexes.Op τ μ κ} {ms : Mutexes τ μ κ} {r : Option (Ret τ μ)}
    (h : Sound priority s)
    (hout : s.Outside op.actor) (hs : s.mutexes.Moves priority op ms r) : Sound priority { s with mutexes := ms } := by
  have hact : ∀ t, s.wait t ≠ .idle → op.actor ≠ some t := by
    intro t hw ha
    rw [ha] at hout; exact hw hout
  have haside : ∀ t c m, s.wait t = .waiting c m → Mutexes.Aside s.mutexes ms t := by
    intro t c m hw
    exact hs.aside h.exact (hact t (by simp [hw])) (h.idle t c m hw)
  refine h.keep (h.exact.moves hs) rfl ?_ ?_ hs.now_le ?_ ?_
  · intro c t
    refine and_congr_right ?_
    rintro ⟨m, hm⟩
    rw [(haside t c m hm).status]
  · rintro c t ⟨⟨m, hm⟩, -⟩
    exact (haside t c m hm).since
  · intro t c m hw
    exact (haside t c m hw).call.trans (h.idle t c m hw)
  · intro t m hw
    have hlocking : s.wait t = .locking m := hw
    exact (hs.frame (hact t (by simp [hlocking]))).trans (h.locking t m hw)

theorem release [DecidableEq μ] {t : τ} (h : Sound priority s) (hfree : s.mutexes.Free t) (c : γ) (m : μ) :
    Sound priority (s.setWait (s.mutexes.mutexUnlock m) t (.released c m)) :=
  h.leave (h.exact.mutexUnlock m) (not_condBlocked hfree.1) (fun _ _ hidle => h.exact.aside_unlock hidle m)
    (fun x _ => congrFun (Mutexes.unlocks_mutexUnlock s.mutexes m).call x) (Mutexes.mutexUnlock_clock s.mutexes m).2.ge
    (by simp) (by simp)

variable [DecidableEq γ]

theorem wakeHead {c : γ} {t : τ} {ts : List τ} (h : Sound priority s) (hq : s.queue c = t :: ts) :
    Sound priority (s.wakeHead c t ts) := by
  have hin : t ∈ s.queue c := by
    rw [hq]; exact mem_cons_self
  obtain ⟨⟨m, hm⟩, hblocked⟩ := (h.mem c t).mp hin
  have hlines : Lines priority (s.wakeHead c t ts).queue (s.wakeHead c t ts).Waits s.mutexes.since s.mutexes.now := by
    refine h.lines.remove (a := t) (i := c) ?_ ?_ (fun c' e => update_of_ne e ..) ?_
    · rintro c' ⟨⟨m', hm'⟩, -⟩
      rw [hm] at hm'
      cases hm'
      rfl
    · rw [hq, erase_cons_head]; exact update_self ..
    · intro c' x
      by_cases hx : x = t
      · subst hx
        simp [Waits, Conds.wakeHead, Mutexes.setStatus]
      · simp [Waits, Conds.wakeHead, Mutexes.setStatus, hx]
  exact ⟨h.exact.setIdle .pending (h.idle t c m hm), hlines.mem, hlines.sorted, hlines.past, h.idle, h.locking⟩

theorem signalLoop {c : γ} {broadcast : Bool} : ∀ (l : List τ) {s : Conds τ μ κ γ}, Sound priority s → s.queue c = l →
    Sound priority (signalLoop c broadcast l s)
  | [], _, h, _ => h
  | t :: ts, s, h, hq => by
    unfold Conds.signalLoop
    split
    · exact signalLoop ts (h.wakeHead hq) (update_self ..)
    · exact h.wakeHead hq

theorem condEnqueue {t : τ} (h : Sound priority s) (hfree : s.mutexes.Free t) (c : γ) (m : μ) :
    Sound priority (s.condEnqueue priority t c m) := by
  have hself : (s.condEnqueue priority t c m).wait t = .waiting c m := update_self ..
  have hother : ∀ x, x ≠ t → (s.condEnqueue priority t c m).wait x = s.wait x := fun x hx => update_of_ne hx ..
  have hno : ∀ c', ¬ s.Waits c' t := fun c' hw => not_condBlocked hfree.1 hw.2
  have hlines : Lines priority (s.condEnqueue priority t c m).queue (s.condEnqueue priority t c m).Waits
      (s.condEnqueue priority t c m).mutexes.since (s.mutexes.now + 1) := by
    refine h.lines.add (a := t) (i := c) hno (update_self ..) (fun c' e => update_of_ne e ..) ?_
      (update_self ..) fun x hx => update_of_ne hx ..
    intro c' x
    by_cases hx : x = t
    · subst hx
      rw [or_iff_left (hno c'), Waits, hself]
      constructor
      · rintro ⟨⟨m', hm'⟩, -⟩
        cases hm'
        exact ⟨rfl, rfl⟩
      · rintro ⟨rfl, -⟩
        exact ⟨⟨m, rfl⟩, update_self ..⟩
    · have hstatus : (s.condEnqueue priority t c m).mutexes.status x = s.mutexes.status x := update_of_ne hx ..
      rw [or_iff_right fun e => hx e.2, Waits, hother x hx, hstatus]; rfl
  refine ⟨(h.exact.setIdle .condBlocked hfree.2).noteWaiting hfree.2, hlines.mem, hlines.sorted, hlines.past, ?_, ?_⟩
  · intro x c' m' hw
    by_cases hx : x = t
    · subst hx; exact hfree.2
    · rw [hother x hx] at hw; exact h.idle x c' m' hw
  · intro x m' hw
    by_cases hx : x = t
    · subst hx
      rw [hself] at hw; cases hw
    · rw [hother x hx] at hw; exact h.locking x m' hw

variable [DecidableEq μ] [DecidableEq κ]

theorem moves (h : Sound priority s) (hs : Moves priority s op u e) : Sound priority u := by
  cases hs with
  | mutex hout hms => exact h.mutex hout hms
  | releases hfree => exact h.release hfree _ _
  | waits _ hfree => exact h.condEnqueue hfree _ _
  | signals => exact h.signalLoop _ rfl
  | @locks t c m hw hfree hq =>
    exact h.leave (h.exact.take hq) (not_condBlocked hfree.1) (fun x _ _ => ⟨rfl, rfl, rfl⟩) (fun _ _ => rfl)
      le_rfl (by simp) (by simp)
  | @blocks t c m hw hfree hq =>
    refine h.leave (h.exact.block hfree.2 rfl) (not_condBlocked hfree.1) (fun x hx _ => Mutexes.aside_block hx _ _)
      (fun x hx => update_of_ne hx ..) (Nat.le_succ _) (by simp) fun m' hm' => ?_
    cases hm'
    exact update_self ..
  | @returns t m ms r hw hms =>
    have hcall := h.locking t m hw
    cases hms with
    | returns hrun hc =>
      exact h.leave (h.exact.moves (.returns hrun hc)) (not_condBlocked hrun)
        (fun x hx _ => ⟨rfl, update_of_ne hx .., rfl⟩) (fun x hx => update_of_ne hx ..) le_rfl
          (by simp) (by simp)
    | returnsCanceled _ hc | returnsZero _ hc =>
      rw [hcall] at hc; cases hc

end Sound

/-! ## What a signal does -/

variable {c : γ}

theorem Settled.begun_iff (hset : s.Settled c) (t : τ) : s.Begun c t ↔ s.Waits c t :=
  or_iff_right fun ⟨m, hm⟩ => hset t m hm

theorem Sound.mem_iff (h : Sound priority s) (hset : s.Settled c) (t : τ) : t ∈ s.queue c ↔ s.Begun c t :=
  (h.mem c t).trans (hset.begun_iff t).symm

variable [DecidableEq τ] [DecidableEq γ]

theorem signalLoop_wait (c : γ) (broadcast : Bool) : ∀ (l : List τ) (s : Conds τ μ κ γ),
    (signalLoop c broadcast l s).wait = s.wait
  | [], _ => rfl
  | x :: l, s => by
    unfold signalLoop
    split
    · exact signalLoop_wait c broadcast l (s.wakeHead c x l)
    · rfl

theorem signalLoop_status (c : γ) : ∀ (l : List τ) (s : Conds τ μ κ γ) (t : τ),
    (signalLoop c true l s).mutexes.status t = if t ∈ l then .pending else s.mutexes.status t
  | [], s, t => rfl
  | x :: l, s, t => by
    unfold signalLoop
    rw [if_pos rfl, signalLoop_status c l (s.wakeHead c x l) t]
    by_cases ht : t ∈ l
    · rw [if_pos ht, if_pos (mem_cons_of_mem x ht)]
    · rw [if_neg ht]
      by_cases hx : t = x
      · subst hx
        rw [if_pos mem_cons_self]; exact update_self ..
      · rw [if_neg (not_mem_cons_of_ne_of_not_mem hx ht)]
        exact update_of_ne hx ..

/-- From `s` to `u` the waiter that is ahead of all others is woken, and nobody else. -/
def WakesFirst (priority : τ → Nat) (s u : Conds τ μ κ γ) (c : γ) : Prop :=
  ∃ t, s.Begun c t ∧ (∀ x, x ≠ t → s.Begun c x → Ahead priority s.mutexes.since t x) ∧ u.Woken c t ∧
    ∀ x, x ≠ t → u.mutexes.status x = s.mutexes.status x

def WakesAll (s u : Conds τ μ κ γ) (c : γ) : Prop :=
  (∀ t, s.Begun c t → u.Woken c t) ∧ ∀ t, ¬ s.Begun c t → u.mutexes.status t = s.mutexes.status t

theorem Settled.woken (hset : s.Settled c) (broadcast : Bool) {t : τ}
    (hpending : (s.condSignal c broadcast).mutexes.status t = .pending) : (s.condSignal c broadcast).Woken c t := by
  have hafter : (s.condSignal c broadcast).Settled c := by
    intro x m
    rw [condSignal, signalLoop_wait]; exact hset x m
  refine ⟨hpending, fun hbegun => ?_⟩
  have hwaits := (hafter.begun_iff t).mp hbegun
  rw [Waits, hpending] at hwaits
  cases hwaits.2

theorem Sound.wakesFirst (h : Sound priority s) (hset : s.Settled c) {w : τ} (hw : s.Begun c w) :
    WakesFirst priority s (s.condSignal c false) c := by
  have hmem := h.mem_iff hset
  have hsorted := h.sorted c
  cases hq : s.queue c with
  | nil =>
    have hin := (hmem w).mpr hw
    rw [hq] at hin; cases hin
  | cons t ts =>
    rw [hq] at hmem hsorted
    have hsignal : s.condSignal c false = s.wakeHead c t ts := by
      rw [condSignal, hq]; rfl
    refine ⟨t, (hmem t).mp mem_cons_self, ?_, hset.woken false ?_, ?_⟩
    rotate_left
    · rw [hsignal]; exact update_self ..
    · intro x hx
      rw [hsignal]; exact update_of_ne hx ..
    intro x hx hwait
    exact (pairwise_cons.mp hsorted).1 x ((mem_cons.mp ((hmem x).mpr hwait)).resolve_left hx)

theorem Sound.wakesAll (h : Sound priority s) (hset : s.Settled c) : WakesAll s (s.condSignal c true) c := by
  have hstatus := signalLoop_status c (s.queue c) s
  constructor
  · intro t ht
    refine hset.woken true ?_
    rw [condSignal, hstatus, if_pos ((h.mem_iff hset t).mpr ht)]
  · intro t ht
    rw [condSignal, hstatus, if_neg fun hin => ht ((h.mem_iff hset t).mp hin)]

/-! ## Who holds the mutex -/

theorem excl_signalLoop {broadcast : Bool} : ∀ (l : List τ) {s : Conds τ μ κ γ}, Sound priority s → s.queue c = l →
    s.mutexes.Excl → (signalLoop c broadcast l s).mutexes.Excl
  | [], _, _, _, he => he
  | t :: ts, s, h, hq, he => by
    obtain ⟨⟨m, hm⟩, -⟩ := (h.mem c t).mp (by rw [hq]; exact mem_cons_self)
    have hwoken : (s.wakeHead c t ts).mutexes.Excl := he.setIdle .pending (h.idle t c m hm)
    unfold signalLoop
    split
    · exact excl_signalLoop ts (h.wakeHead hq) (update_self ..) hwoken
    · exact hwoken

variable [DecidableEq μ] [DecidableEq κ]

/-- The rules for mutexes; `cond_wait` unlocks one. -/
def Good (s : Conds τ μ κ γ) : CondOp τ μ κ γ → Prop
  | .mutex op => s.mutexes.Good op
  | .release _ _ m => ∀ t, ¬ s.mutexes.Handed m t
  | _ => True

def Holds (s : Conds τ μ κ γ) (t : τ) (m : μ) : Prop :=
  s.mutexes.owner m = some t ∧ s.mutexes.returned m = [t] ∧ s.mutexes.queue m ≠ .unlocked

theorem excl_moves (h : Sound priority s) (he : s.mutexes.Excl) (hg : s.Good op) (hs : Moves priority s op u e) :
    u.mutexes.Excl := by
  cases hs with
  | mutex _ hms => exact he.moves h.exact hg hms
  | releases => exact he.unlocks h.exact (Mutexes.unlocks_mutexUnlock s.mutexes _) hg
  | waits _ hfree => exact (he.setIdle .condBlocked hfree.2).mono (fun _ _ => id) rfl rfl fun _ => id
  | signals => exact excl_signalLoop _ h rfl he
  | locks _ _ hq => exact he.take hq _
  | blocks => exact he.block _
  | @returns t m ms r _ hms =>
    have hgood : s.mutexes.Good (.resume t) := ⟨trivial, trivial⟩
    exact he.moves h.exact hgood hms

theorem sound_of_reach {Legal : Conds τ μ κ γ → CondOp τ μ κ γ → Prop} {locked : μ → Bool}
    (h : ReachVia (step priority) Legal (init locked) s) : Sound priority s := by
  refine h.inv (Sound priority) (Sound.init locked) ?_
  intro s u op hs _ hu
  obtain ⟨⟨v, e⟩, hv, rfl⟩ := map_eq_some_iff.mp hu
  exact hs.moves (exec_moves hv)

theorem excl_of_reach {locked : μ → Bool} (h : ReachVia (step priority) Good (init locked) s) : s.mutexes.Excl := by
  suffices hb : Sound priority s ∧ s.mutexes.Excl from hb.2
  refine h.inv (fun s => Sound priority s ∧ s.mutexes.Excl) ⟨.init locked, .init locked⟩ ?_
  rintro s u op ⟨hs, he⟩ hg hu
  obtain ⟨⟨v, e⟩, hv, rfl⟩ := map_eq_some_iff.mp hu
  exact ⟨hs.moves (exec_moves hv), excl_moves hs he hg (exec_moves hv)⟩

theorem holds_of_return {t : τ} {m : μ} (h : Sound priority s) (he : s.mutexes.Excl)
    (hs : Moves priority s op u (some (t, m))) : u.Holds t m := by
  cases hs with
  | locks _ _ hq =>
    refine ⟨update_self .., ?_, ?_⟩
    · refine (update_self ..).trans ?_
      rw [(he.free m hq).2]
    · have hlocked : (s.mutexes.take t m).queue m = .locked := update_self ..
      change (s.mutexes.take t m).queue m ≠ .unlocked
      simp [hlocked]
  | returns hw hms =>
    have hcall := h.locking t m hw
    cases hms with
    | returns hrun hc =>
      cases hcall.symm.trans hc
      have hsucc : s.mutexes.Succeeds m t := ⟨hrun, .inl hc⟩
      have hown := he.own m t hsucc
      refine ⟨hown, ?_, fun hq => ?_⟩
      · refine (update_self ..).trans ?_
        rw [he.first m t hsucc]
      · have hfree := (he.free m hq).1
        rw [hown] at hfree; cases hfree
    | returnsCanceled _ hc | returnsZero _ hc =>
      rw [hcall] at hc; cases hc

end

section

abbrev TwoThreads : Type := Conds (Fin 2) Unit Empty Unit

end

end Conds

end PipRiot.Core
