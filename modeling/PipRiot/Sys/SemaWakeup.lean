import PipRiot.Lib.Census
import PipRiot.Sys.Sema

/-!
# No lost wake-up

As long as the value is positive and the mutex is not free, some caller will look at
the value once more or unlock the mutex: who has been handed the mutex, who has just
made the value positive, and who has left a positive value behind.
-/

namespace PipRiot.Sys

open PipRiot.Core PipRiot.Core.Mutexes Function Option

def Phase.call {τ : Type} (t : τ) : Phase → Call Unit τ
  | .locking => .lock ()
  | .lockingTimed _ => .cancelable () t
  | _ => .idle

namespace Sema

section
variable {τ : Type}

def Stirring (s : Sema τ) (t : τ) : Prop :=
  match s.phase t with
  | .check didBlock _ _ => didBlock = true
  | .removeTimer _ | .locked _ _ | .unlock _ => True
  | .locking | .lockingTimed _ => (s.mutex.status t).onRunqueue = true
  | _ => False

def Balanced (value : Nat) (s : Sema τ) : Prop :=
  ∃ l p, Census s.phase (.unlock .wait) l ∧ Census s.phase (.unlock .post) p ∧
    s.value + s.waits + l = value + s.posts + p

structure Sound (priority : τ → Nat) (value : Nat) (s : Sema τ) : Prop where
  exact : Mutexes.Exact priority s.mutex
  call : ∀ t, s.mutex.call t = (s.phase t).call t
  runs : ∀ t, s.mutex.call t = .idle → (s.mutex.status t).onRunqueue = true
  made : ∀ t, (s.phase t).timed = true → s.mutex.mc t ≠ none
  awake : s.state = .ok → 0 < s.value → s.mutex.queue () ≠ .unlocked → ∃ t, s.Stirring t
  balanced : Balanced value s

/-! ## What a call on the mutex does to the others -/

def By (t : τ) : Mutexes.Op τ Unit τ → Prop
  | .lock t' _ _ | .cancelInit t' _ _ | .lockCancelable t' _ | .resume t' => t' = t
  | .unlock _ | .cancel _ => True
  | _ => False

structure Moved (m m' : Mutexes τ Unit τ) (t : τ) : Prop where
  call : ∀ w ≠ t, m'.call w = m.call w
  status : ∀ w ≠ t, (m.status w).onRunqueue = true → (m'.status w).onRunqueue = true
  mc : ∀ k, m.mc k ≠ none → m'.mc k ≠ none

variable {priority : τ → Nat} {value timeout elapsed : Nat} {s u : Sema τ} {t w : τ} {m m' : Mutexes τ Unit τ}
  {op : Mutexes.Op τ Unit τ} {r : Option (Ret τ Unit)} {p : Phase} {x : Sema τ × Option SemaResult}

theorem Stirring.other (hw : s.Stirring w) (hp : u.phase w = s.phase w)
    (hst : (s.mutex.status w).onRunqueue = true → (u.mutex.status w).onRunqueue = true) : u.Stirring w := by
  unfold Stirring at hw ⊢
  rw [hp]
  split at hw
  · assumption
  · trivial
  · trivial
  · trivial
  · exact hst hw
  · exact hst hw
  · exact hw

theorem stirring_iff (h : ((s.phase t).call t).mutex = some ()) :
    s.Stirring t ↔ (s.mutex.status t).onRunqueue = true := by
  unfold Stirring
  unfold Phase.call at h
  split at h
  · rename_i hp
    rw [hp]
  · rename_i hp
    rw [hp]
  · cases h

theorem Sound.init (priority : τ → Nat) (value : Nat) : Sound priority value (Sema.init value : Sema τ) where
  exact := Mutexes.Exact.init _
  call _ := rfl
  runs _ _ := rfl
  made _ h := by cases h
  awake _ hv hq := by
    refine absurd ?_ hq
    simp [Sema.init, Mutexes.init, Nat.ne_of_gt (show 0 < value from hv)]
  balanced := ⟨0, 0, .none nofun, .none nofun, rfl⟩

theorem Sound.others_stir (h : Sound priority value s) (hnot : ¬ s.Stirring t) (hp : ∀ w ≠ t, u.phase w = s.phase w)
    (hm : u.mutex = s.mutex) (hok : s.state = .ok) (hv : 0 < s.value) (hq : s.mutex.queue () ≠ .unlocked) :
    ∃ w, u.Stirring w := by
  obtain ⟨w, hw⟩ := h.awake hok hv hq
  have e : w ≠ t := by
    rintro rfl
    exact hnot hw
  refine ⟨w, hw.other (hp w e) ?_⟩
  rw [hm]
  exact id

variable [DecidableEq τ]

theorem update_ne_none {κ β : Type} [DecidableEq κ] {f : κ → Option β} (k : κ) (b : β) {k' : κ} (h : f k' ≠ none) :
    update f k (some b) k' ≠ none := by
  by_cases e : k' = k
  · subst e
    rw [update_self]; exact some_ne_none b
  · rw [update_of_ne e]; exact h

section
variable (m : Mutexes τ Unit τ)

theorem Moved.unlock (t : τ) : Moved m (m.mutexUnlock ()) t := by
  have hu := unlocks_mutexUnlock m ()
  refine ⟨fun w _ => by rw [hu.call], fun w _ hr => ?_, fun k hk => by rwa [hu.mc]⟩
  rcases hu.woken w with hsame | ⟨-, hpend, -⟩
  · rwa [hsame]
  · rw [hpend]; rfl

section
variable (k : τ) (mc : MutexCancel τ Unit)

theorem cancel_status (w : τ)
    (hr : (m.status w).onRunqueue = true) : ((m.mutexCancel k mc).status w).onRunqueue = true := by
  simp only [mutexCancel]
  split
  · exact hr
  · split
    · by_cases e : w = mc.thread
      · subst e
        simp only [setStatus, update_self]; rfl
      · simp only [setStatus, update_of_ne e]; exact hr
    · exact hr

theorem cancel_queue (h : m.queue () = .unlocked) : (m.mutexCancel k mc).queue () = .unlocked := by
  simp only [mutexCancel]
  split
  · exact h
  · rw [if_neg]
    · exact h
    · show mc.thread ∉ (m.queue ()).list
      rw [h]; exact List.not_mem_nil

theorem cancel_frame :
    (m.mutexCancel k mc).call = m.call ∧
      (m.mutexCancel k mc).mc = update m.mc k (some { mc with cancelled := true }) := by
  simp only [mutexCancel]
  split
  · exact ⟨rfl, rfl⟩
  · split
    · exact ⟨rfl, rfl⟩
    · exact ⟨rfl, rfl⟩

end

end

theorem Moved.of_moves (hby : By t op) (hs : Mutexes.Moves priority m op m' r) : Moved m m' t := by
  cases hs with
  | takes | refuses | cancelledEarly | takesCancelable => exact ⟨fun _ _ => rfl, fun _ _ h => h, fun _ h => h⟩
  | blocks | blocksCancelable =>
    cases hby
    exact ⟨fun w e => update_of_ne e .., fun w e h => by
      simpa [block, noteWaiting, setCall, setQueue, setStatus, e] using h,
      fun _ h => h⟩
  | inits => exact ⟨fun _ _ => rfl, fun _ _ h => h, fun k h => update_ne_none _ _ h⟩
  | returns | returnsCanceled | returnsZero =>
    cases hby
    exact ⟨fun w e => update_of_ne e .., fun _ _ h => h, fun _ h => h⟩
  | unlocks => exact .unlock m t
  | unlocksAndSleeps | wakes => cases hby
  | @cancels k mc =>
    obtain ⟨hcall, hmc⟩ := cancel_frame m k mc
    refine ⟨fun w _ => by rw [hcall], fun w _ h => cancel_status m k mc w h, fun k' h => ?_⟩
    rw [hmc]; exact update_ne_none _ _ h

theorem woken_of_unlock (hx : Mutexes.Exact priority m) (hq : (m.mutexUnlock ()).queue () ≠ .unlocked) :
    ∃ w, m.Blocked () w ∧ (m.mutexUnlock ()).status w = .pending := by
  by_cases hw : ∃ w, m.Blocked () w
  · obtain ⟨w, hw⟩ := hw
    obtain ⟨t, hb, -, -, hpend, -⟩ := hx.handsOver hw
    exact ⟨t, hb, hpend⟩
  · exfalso
    apply hq
    simp only [mutexUnlock]
    cases hm : m.queue () with
    | unlocked => exact hm
    | locked => exact update_self () _ m.queue
    | waiters t ts =>
      refine absurd ⟨t, (hx.mem () t).mp ?_⟩ hw
      rw [hm]; exact List.mem_cons_self

/-! ## The value -/

def leaving (p : Phase) : Nat := if p = .unlock .wait then 1 else 0

def posting (p : Phase) : Nat := if p = .unlock .post then 1 else 0

theorem Balanced.move (h : Balanced value s) (hp : u.phase = update s.phase t p)
    (hsum : u.value + u.waits + leaving p + s.posts + posting (s.phase t) =
      s.value + s.waits + leaving (s.phase t) + u.posts + posting p) : Balanced value u := by
  obtain ⟨l, q, hl, hq, heq⟩ := h
  obtain ⟨l', hl', hcl⟩ := hl.update t p
  obtain ⟨q', hq', hcq⟩ := hq.update t p
  refine ⟨l', q', hp ▸ hl', hp ▸ hq', ?_⟩
  unfold leaving posting at hsum
  omega

theorem afterTimedLock_eq (ok : Bool) (timeout elapsed : Nat) :
    ∃ b n, afterTimedLock ok timeout elapsed = .locked b n := by
  unfold afterTimedLock
  split
  · exact ⟨_, _, rfl⟩
  · exact ⟨_, _, rfl⟩

theorem stirring_removeTimer {n : Nat} (hp : u.phase = update s.phase t (.removeTimer n)) : u.Stirring t := by
  rw [Stirring, hp, update_self]
  trivial

theorem stirring_locked {b : Bool} {n : Nat} (hp : u.phase = update s.phase t (.locked b n)) : u.Stirring t := by
  rw [Stirring, hp, update_self]
  trivial

namespace Sound

section
variable (h : Sound priority value s)
include h

theorem goto (hp : u.phase = update s.phase t p)
    (hm : u.mutex = s.mutex) (hold : (s.phase t).call t = .idle) (hnew : p.call t = .idle)
    (htimed : p.timed = true → (s.phase t).timed = true)
    (hawake : u.state = .ok → 0 < u.value → s.mutex.queue () ≠ .unlocked → ∃ w, u.Stirring w)
    (hsum : u.value + u.waits + leaving p + s.posts + posting (s.phase t) =
      s.value + s.waits + leaving (s.phase t) + u.posts + posting p) : Sound priority value u where
  exact := hm ▸ h.exact
  call w := by
    rw [hm, hp, h.call]
    by_cases e : w = t
    · subst e
      rw [update_self, hold, hnew]
    · rw [update_of_ne e]
  runs := hm ▸ h.runs
  made w hw := by
    rw [hm]
    rw [hp] at hw
    by_cases e : w = t
    · subst e
      rw [update_self] at hw; exact h.made w (htimed hw)
    · rw [update_of_ne e] at hw; exact h.made w hw
  awake := by
    rw [hm]; exact hawake
  balanced := h.balanced.move hp hsum

section
variable (hexec : s.mutex.exec priority op = some (m', r))
include hexec

section
variable (hby : By t op) (hp : u.phase = update s.phase t p) (hm : u.mutex = m') (hv : u.value = s.value)
include hby hp hm hv

theorem mutexCall (hcall : m'.call t = p.call t)
    (hrun : m'.call t = .idle → (m'.status t).onRunqueue = true) (hmade : p.timed = true → m'.mc t ≠ none)
    (hawake : u.state = .ok → 0 < u.value → m'.queue () ≠ .unlocked → ∃ w, u.Stirring w)
    (hsum : u.waits + leaving p + s.posts + posting (s.phase t) =
      s.waits + leaving (s.phase t) + u.posts + posting p) : Sound priority value u := by
  have hs := exec_moves hexec
  have hmoved := Moved.of_moves hby hs
  refine ⟨?_, ?_, ?_, ?_, ?_, ?_⟩
  · rw [hm]; exact h.exact.moves hs
  · intro w
    rw [hm, hp]
    by_cases e : w = t
    · subst e
      rw [update_self, hcall]
    · rw [update_of_ne e, hmoved.call w e, h.call]
  · intro w hw
    rw [hm] at hw ⊢
    by_cases e : w = t
    · subst e; exact hrun hw
    · exact hmoved.status w e (h.runs w (hmoved.call w e ▸ hw))
  · intro w hw
    rw [hm]
    rw [hp] at hw
    by_cases e : w = t
    · subst e
      rw [update_self] at hw; exact hmade hw
    · rw [update_of_ne e] at hw; exact hmoved.mc w (h.made w hw)
  · rw [hm]; exact hawake
  · refine h.balanced.move hp ?_
    omega

theorem call_mutex (hst : u.state = s.state) (hcall : m'.call t = p.call t)
    (hrun : m'.call t = .idle → (m'.status t).onRunqueue = true) (hmade : p.timed = true → m'.mc t ≠ none)
    (hstir : u.Stirring t ∨ ¬ s.Stirring t ∧ (s.mutex.queue () = .unlocked → m'.queue () = .unlocked))
    (hsum : u.waits + leaving p + s.posts + posting (s.phase t) =
      s.waits + leaving (s.phase t) + u.posts + posting p) : Sound priority value u := by
  refine h.mutexCall hexec hby hp hm hv hcall hrun hmade ?_ hsum
  intro hok hpos hq
  rcases hstir with hstir | ⟨hnot, hfree⟩
  · exact ⟨t, hstir⟩
  · obtain ⟨w, hw⟩ := h.awake (hst ▸ hok) (hv ▸ hpos) fun e => hq (hfree e)
    have e : w ≠ t := by
      rintro rfl
      exact hnot hw
    refine ⟨w, hw.other ?_ ?_⟩
    · rw [hp, update_of_ne e]
    · rw [hm]
      exact (Moved.of_moves hby (exec_moves hexec)).status w e

end

theorem locks {b : Bool} {n : Nat} (hby : By t op) (hcall : m'.call t = .idle)
    (hrun : (m'.status t).onRunqueue = true) (hp : s.phase t = p) (hl : leaving p = 0) (hq : posting p = 0) :
    Sound priority value ({ s with mutex := m' }.goto t (.locked b n)) := by
  refine h.call_mutex hexec hby rfl rfl rfl rfl hcall (fun _ => hrun) (nofun) (.inl (stirring_locked rfl)) ?_
  rw [hp, hl, hq]
  rfl

end

theorem testValue {didBlock block : Bool} {timeout : Nat} (hp : s.phase t = .check didBlock block timeout) :
    Sound priority value (s.testValue t didBlock block timeout).1 := by
  have hidle : (s.phase t).call t = .idle := by rw [hp]; rfl
  unfold Sema.testValue
  split
  · rename_i hz
    refine h.goto rfl rfl hidle rfl (nofun) (fun _ hv => ?_) (by rw [hp]; rfl)
    exact absurd hz.1 hv.ne'
  · split
    · rename_i hz
      refine h.goto rfl rfl hidle rfl (nofun) (fun _ hv => ?_) (by rw [hp]; rfl)
      exact absurd hz hv.ne'
    · simp only
      split
      · refine h.goto rfl rfl hidle rfl (nofun) (fun _ _ _ => ⟨t, ?_⟩) ?_
        · simp [Stirring, Sema.goto]
        · rw [hp]
          simp only [Sema.goto, leaving, posting]
          simp
          omega
      · rename_i hlast
        refine h.goto rfl rfl hidle rfl (nofun) (fun hok hv hq => ?_) ?_
        · -- it was no blocking call, so it is another caller that stirs
          have hv' : 0 < s.value - 1 := hv
          have hd : didBlock = false := by
            cases didBlock with
            | false => rfl
            | true => exact absurd ⟨rfl, hv'⟩ hlast
          refine h.others_stir (t := t) (fun hw => ?_) (fun w e => update_of_ne e ..) rfl hok (by omega) hq
          rw [Stirring, hp, hd] at hw; cases hw
        · rw [hp]
          simp only [finishWait, Sema.goto, leaving, posting]
          simp
          omega

theorem unlock {e : Exit} (hp : s.phase t = .unlock e)
    (hphase : u.phase = update s.phase t .idle) (hm : u.mutex = s.mutex.mutexUnlock ()) (hv : u.value = s.value)
    (hsum : u.waits + s.posts + posting (.unlock e) = s.waits + leaving (.unlock e) + u.posts) :
    Sound priority value u := by
  have hu := unlocks_mutexUnlock s.mutex ()
  have hidle : s.mutex.call t = .idle := by
    rw [h.call, hp]; rfl
  have hexec : s.mutex.exec priority (.unlock ()) = some (s.mutex.mutexUnlock (), none) := rfl
  refine h.mutexCall (t := t) (p := .idle) hexec trivial hphase hm hv ?_ (fun _ => ?_) (nofun)
    (fun _ _ hq => ?_) ?_
  · rw [hu.call, hidle]; rfl
  · rcases hu.woken t with hsame | ⟨-, hpend, -⟩
    · rw [hsame]; exact h.runs t hidle
    · rw [hpend]; rfl
  · obtain ⟨w, ⟨hcall, -⟩, hpend⟩ := woken_of_unlock h.exact hq
    have ew : w ≠ t := by
      rintro rfl
      rw [hidle] at hcall; cases hcall
    rw [h.call] at hcall
    refine ⟨w, (stirring_iff ?_).mpr ?_⟩
    · rw [hphase, update_of_ne ew]; exact hcall
    · rw [hm, hpend]; rfl
  · have hl : leaving .idle = 0 := rfl
    have hq : posting .idle = 0 := rfl
    rw [hp]; omega

section
variable (hx : s.run priority t elapsed = some x)
include hx

theorem lock (hp : s.phase t = .lock timeout) : Sound priority value x.1 := by
  have hnot : ¬ s.Stirring t := by
    rw [Stirring, hp]; exact id
  simp only [Sema.run, hp] at hx
  split at hx
  · obtain ⟨⟨m', r⟩, hexec, rfl⟩ := map_eq_some_iff.mp hx
    cases exec_moves hexec with
    | takes hfree hq =>
      exact h.locks hexec rfl hfree.2 hfree.1 hp rfl rfl
    | blocks hfree hq =>
      have hcall : (s.mutex.block priority t () (.lock ())).call t = .lock () := update_self ..
      refine h.call_mutex (t := t) (p := .locking) hexec rfl rfl rfl rfl rfl hcall (fun e => ?_) (nofun)
        (.inr ⟨hnot, fun e => absurd e hq⟩) (by rw [hp]; rfl)
      cases hcall.symm.trans e
  · obtain ⟨⟨m', r⟩, hexec, rfl⟩ := map_eq_some_iff.mp hx
    cases exec_moves hexec with
    | takes hfree hq =>
      obtain ⟨b, n, hl⟩ := afterTimedLock_eq true timeout elapsed
      simp only [afterTrylock, hl]
      exact h.locks hexec rfl hfree.2 hfree.1 hp rfl rfl
    | refuses hfree hq =>
      exact h.call_mutex (t := t) (p := .trylockFailed timeout) hexec rfl rfl rfl rfl rfl hfree.2 (fun _ => hfree.1)
        (nofun) (.inr ⟨hnot, id⟩) (by rw [hp]; rfl)

theorem resume (hp : s.phase t = .locking) : Sound priority value x.1 := by
  have hcall := h.call t
  rw [hp] at hcall
  simp only [Sema.run, hp] at hx
  obtain ⟨⟨m', r⟩, hexec, rfl⟩ := map_eq_some_iff.mp hx
  cases exec_moves hexec with
  | returns hr hc =>
    exact h.locks hexec rfl (update_self ..) hr hp rfl rfl
  | returnsCanceled _ hc | returnsZero _ hc => cases hcall.symm.trans hc

theorem cancelInit (hp : s.phase t = .trylockFailed timeout) : Sound priority value x.1 := by
  have hnot : ¬ s.Stirring t := by
    rw [Stirring, hp]; exact id
  simp only [Sema.run, hp] at hx
  obtain ⟨⟨m', r⟩, hexec, rfl⟩ := map_eq_some_iff.mp hx
  cases exec_moves hexec with
  | inits hfree =>
    refine h.call_mutex (t := t) (p := .lockTimed timeout) hexec rfl rfl rfl rfl rfl hfree.2 (fun _ => hfree.1)
      (fun _ => ?_) (.inr ⟨hnot, id⟩) (by rw [hp]; rfl)
    have hmade : (s.mutex.setMc t ⟨(), t, false⟩).mc t = some ⟨(), t, false⟩ := update_self ..
    rw [hmade]; exact some_ne_none _

theorem lockCancelable (hp : s.phase t = .lockTimed timeout) : Sound priority value x.1 := by
  have hnot : ¬ s.Stirring t := by
    rw [Stirring, hp]; exact id
  have hmade := h.made t (by rw [hp]; rfl)
  simp only [Sema.run, hp] at hx
  obtain ⟨⟨m', r⟩, hexec, rfl⟩ := map_eq_some_iff.mp hx
  cases exec_moves hexec with
  | cancelledEarly hfree =>
    obtain ⟨b, n, hl⟩ := afterTimedLock_eq false timeout elapsed
    simp only [afterCancelable, hl]
    exact h.locks hexec rfl hfree.2 hfree.1 hp rfl rfl
  | takesCancelable hfree =>
    refine h.call_mutex (t := t) (p := .removeTimer timeout) hexec rfl rfl rfl rfl rfl hfree.2 (fun _ => hfree.1)
      (fun _ => hmade) (.inl ?_) (by rw [hp]; rfl)
    exact stirring_removeTimer rfl
  | blocksCancelable hfree _ _ hq =>
    have hcall : (s.mutex.block priority t () (.cancelable () t)).call t = .cancelable () t := update_self ..
    refine h.call_mutex (t := t) (p := .lockingTimed timeout) hexec rfl rfl rfl rfl rfl hcall (fun e => ?_)
      (fun _ => hmade) (.inr ⟨hnot, fun e => absurd e hq⟩) (by rw [hp]; rfl)
    cases hcall.symm.trans e

theorem resumeTimed (hp : s.phase t = .lockingTimed timeout) : Sound priority value x.1 := by
  have hcall := h.call t
  rw [hp] at hcall
  have hmade := h.made t (by rw [hp]; rfl)
  simp only [Sema.run, hp] at hx
  obtain ⟨⟨m', r⟩, hexec, rfl⟩ := map_eq_some_iff.mp hx
  cases exec_moves hexec with
  | returns _ hc => cases hcall.symm.trans hc
  | returnsCanceled hr =>
    obtain ⟨b, n, hl⟩ := afterTimedLock_eq false timeout elapsed
    simp only [afterCancelable, hl]
    exact h.locks hexec rfl (update_self ..) hr hp rfl rfl
  | returnsZero hr =>
    refine h.call_mutex (t := t) (p := .removeTimer timeout) hexec rfl rfl rfl rfl rfl (update_self ..)
      (fun _ => hr) (fun _ => hmade) (.inl ?_) (by rw [hp]; rfl)
    exact stirring_removeTimer rfl

theorem run : Sound priority value x.1 := by
  cases hp : s.phase t with
  | idle =>
    simp only [Sema.run, hp] at hx; cases hx
  | check didBlock block timeout =>
    simp only [Sema.run, hp] at hx
    cases hx; exact h.testValue hp
  | lock timeout => exact h.lock hx hp
  | locking => exact h.resume hx hp
  | trylockFailed timeout => exact h.cancelInit hx hp
  | lockTimed timeout => exact h.lockCancelable hx hp
  | lockingTimed timeout => exact h.resumeTimed hx hp
  | removeTimer timeout =>
    obtain ⟨b, n, hl⟩ := afterTimedLock_eq true timeout elapsed
    simp only [Sema.run, hp, hl] at hx
    cases hx
    refine h.goto rfl rfl (by rw [hp]; rfl) rfl (nofun) (fun _ _ _ => ⟨t, ?_⟩) (by rw [hp]; rfl)
    exact stirring_locked rfl
  | locked block timeout =>
    simp only [Sema.run, hp] at hx
    split at hx
    all_goals
      cases hx
      refine h.goto rfl rfl (by rw [hp]; rfl) rfl (nofun) (fun _ _ _ => ⟨t, ?_⟩) (by rw [hp]; rfl)
      simp [Stirring, Sema.goto]
  | unlock e =>
    simp only [Sema.run, hp, Mutexes.exec, map_some] at hx
    cases hx
    cases e with
    | wait => exact h.unlock hp rfl rfl rfl (add_right_comm ..)
    | post => exact h.unlock hp rfl rfl rfl (add_assoc ..)
    | canceled | destroy => exact h.unlock hp rfl rfl rfl rfl

end

theorem semaPost (hp : s.phase t = .idle) : Sound priority value (s.semaPost t).1 := by
  unfold Sema.semaPost
  split
  · exact h
  · split
    · refine h.goto rfl rfl (by rw [hp]; rfl) rfl (nofun) (fun _ _ _ => ⟨t, ?_⟩) ?_
      · simp [Stirring, Sema.goto]
      · rw [hp]
        simp [Sema.goto, leaving, posting]
        omega
    · rename_i hz
      refine h.goto rfl rfl (by rw [hp]; rfl) rfl (nofun) (fun hok _ hq => ?_) ?_
      · refine h.others_stir (t := t) (fun hw => ?_) (fun w e => update_of_ne e ..) rfl hok (pos_of_ne_zero hz) hq
        rwa [Stirring, hp] at hw
      · rw [hp]
        simp [finishPost, Sema.goto, leaving, posting]
        omega

theorem fires (hx : s.exec priority (.timeout t) = some x) : Sound priority value x.1 := by
  simp only [exec, ite_none_right_eq_some] at hx
  obtain ⟨⟨m', r⟩, hexec, rfl⟩ := map_eq_some_iff.mp hx.2
  cases exec_moves hexec with
  | @cancels _ mc hmc =>
    obtain ⟨hcall, hmc'⟩ := cancel_frame s.mutex t mc
    refine ⟨h.exact.mutexCancel t mc, ?_, ?_, ?_, ?_, h.balanced⟩
    · intro w
      rw [hcall]; exact h.call w
    · intro w hw
      rw [hcall] at hw
      exact cancel_status s.mutex t mc w (h.runs w hw)
    · intro w hw
      rw [hmc']; exact update_ne_none _ _ (h.made w hw)
    · intro hok hv hq
      obtain ⟨w, hw⟩ := h.awake hok hv fun e => hq (cancel_queue s.mutex t mc e)
      exact ⟨w, hw.other rfl (cancel_status s.mutex t mc w)⟩

theorem step {op : Op τ} (hs : s.step priority op = some u) : Sound priority value u := by
  obtain ⟨x, hx, rfl⟩ := map_eq_some_iff.mp hs
  cases op with
  | wait t block timeout =>
    simp only [exec, ite_none_right_eq_some, some.injEq] at hx
    obtain ⟨hp, rfl⟩ := hx
    unfold semaWait
    split
    · refine h.goto rfl rfl (by rw [hp]; rfl) rfl (nofun) (fun hok hv hq => ?_) (by rw [hp]; rfl)
      refine h.others_stir (t := t) (fun hw => ?_) (fun w e => update_of_ne e ..) rfl hok hv hq
      rwa [Stirring, hp] at hw
    · exact h
  | post t =>
    simp only [exec, ite_none_right_eq_some, some.injEq] at hx
    obtain ⟨hp, rfl⟩ := hx
    exact h.semaPost hp
  | destroy t =>
    simp only [exec, ite_none_right_eq_some, some.injEq] at hx
    obtain ⟨hp, rfl⟩ := hx
    refine h.goto rfl rfl (by rw [hp]; rfl) rfl (nofun) (nofun) (by rw [hp]; rfl)
  | run t elapsed =>
    simp only [exec, ite_none_right_eq_some] at hx; exact h.run hx.2
  | timeout t => exact h.fires hx

theorem run_some (hp : s.phase t ≠ .idle) (hb : ¬ s.mutex.Blocked () t) (elapsed : Nat) :
    ∃ u, s.step priority (.run t elapsed) = some u := by
  have hr : (s.mutex.status t).onRunqueue = true := by
    by_cases hc : s.mutex.call t = .idle
    · exact h.runs t hc
    · refine (h.exact.awake t hc).resolve_left fun hst => hb ⟨?_, hst⟩
      cases hcall : s.mutex.call t with
      | idle => exact absurd hcall hc
      | lock m | cancelable m k => rfl
  have hcall := h.call t
  have hfree : (s.phase t).call t = .idle → s.mutex.Free t := fun e => ⟨hr, hcall.trans e⟩
  suffices hx : ∃ x, s.run priority t elapsed = some x by
    obtain ⟨x, hx⟩ := hx
    exact ⟨x.1, by simp only [Sema.step, exec, hr, if_true, hx, map_some]⟩
  have hmc := h.made t
  unfold Sema.run
  cases hphase : s.phase t with
  | idle => exact absurd hphase hp
  | check | removeTimer | unlock => exact ⟨_, rfl⟩
  | locked =>
    simp only
    split
    · exact ⟨_, rfl⟩
    · exact ⟨_, rfl⟩
  | lock timeout =>
    have hf := hfree (by rw [hphase]; rfl)
    simp only [Sema.mutexCall, Mutexes.exec, hf, if_true, map_some]
    split
    · exact ⟨_, rfl⟩
    · exact ⟨_, rfl⟩
  | trylockFailed timeout =>
    have hf := hfree (by rw [hphase]; rfl)
    simp only [Sema.mutexCall, Mutexes.exec, hf, if_true, map_some]
    exact ⟨_, rfl⟩
  | locking =>
    rw [hphase] at hcall
    have hc : s.mutex.call t = .lock () := hcall
    simp only [Sema.mutexCall, Mutexes.exec, hr, if_true, Mutexes.resume, hc, map_some]
    exact ⟨_, rfl⟩
  | lockTimed timeout =>
    have hf := hfree (by rw [hphase]; rfl)
    obtain ⟨mc, hmc⟩ := ne_none_iff_exists'.mp (hmc (by rw [hphase]; rfl))
    simp only [Sema.mutexCall, Mutexes.exec, hmc, hf, if_true, map_some]
    exact ⟨_, rfl⟩
  | lockingTimed timeout =>
    rw [hphase] at hcall
    have hc : s.mutex.call t = .cancelable () t := hcall
    obtain ⟨mc, hmc⟩ := ne_none_iff_exists'.mp (hmc (by rw [hphase]; rfl))
    simp only [Sema.mutexCall, Mutexes.exec, hr, if_true, Mutexes.resume, hc, hmc]
    split
    · exact ⟨_, rfl⟩
    · exact ⟨_, rfl⟩

end

end Sound

theorem sound_of_reach (h : ReachVia (step priority) (fun _ _ => True) (init value) s) : Sound priority value s := by
  refine h.inv (Sound priority value) (Sound.init priority value) ?_
  intro s u op hs _ hu
  exact hs.step hu

/-- In every run the value is the initial one, plus the posts and minus the waits that
have returned 0 or are about to. If all callers have returned or are blocked and the
semaphore is not destroyed, nobody is blocked unless the value is 0; and who is not
blocked can go on. -/
theorem sema_conserved_and_no_lost_wakeup (priority : τ → Nat) (value : Nat) (s : Sema τ)
    (h : ReachVia (step priority) (fun _ _ => True) (init value) s) :
    (∃ l p, Census s.phase (.unlock .wait) l ∧ Census s.phase (.unlock .post) p ∧
      s.value + s.waits + l = value + s.posts + p) ∧
    (s.state = .ok → (∀ t, s.phase t = .idle ∨ s.mutex.Blocked () t) → 0 < s.value → ∀ t, ¬ s.mutex.Blocked () t) ∧
    (∀ t elapsed, s.phase t ≠ .idle → ¬ s.mutex.Blocked () t → ∃ u, s.step priority (.run t elapsed) = some u) := by
  have hs := sound_of_reach h
  refine ⟨hs.balanced, ?_, fun t elapsed hp hb => hs.run_some hp hb elapsed⟩
  intro hok hquiet hv t hb
  obtain ⟨w, hw⟩ := hs.awake hok hv (hs.exact.queue_ne_unlocked hb)
  rcases hquiet w with hidle | ⟨hcall, hblocked⟩
  · rw [Stirring, hidle] at hw; exact hw
  · rw [hs.call] at hcall
    rw [stirring_iff hcall, hblocked] at hw; cases hw

end

section

/-- Two posts for a thread that waits: it takes one of them, and could go on before. -/
theorem sema_balanced_after_wakeup :
    (∃ s : Sema (Fin 2), ReachVia (step Fin.val) (fun _ _ => True) (init 0) s ∧ s.value = 1 ∧ s.posts = 2 ∧
      s.waits = 1 ∧ (∃ l p, Census s.phase (.unlock .wait) l ∧ Census s.phase (.unlock .post) p ∧
        s.value + s.waits + l = 0 + s.posts + p) ∧ ∀ t, ¬ s.mutex.Blocked () t) ∧
    ∃ s : Sema (Fin 2), ReachVia (step Fin.val) (fun _ _ => True) (init 0) s ∧ s.value = 2 ∧ s.phase 1 ≠ .idle ∧
      ∃ u, s.step Fin.val (.run 1 0) = some u := by
  constructor
  · have h : ReachVia (step Fin.val) (fun _ _ => True) (init 0 : Sema (Fin 2)) _ :=
      runAll_reach [.wait 1 true 0, .run 1 0, .run 1 0, .post 0, .run 0 0, .post 0, .run 1 0, .run 1 0, .run 1 0,
        .run 1 0] _ rfl
    obtain ⟨hbalanced, hnobody, -⟩ := sema_conserved_and_no_lost_wakeup Fin.val 0 _ h
    exact ⟨_, h, rfl, rfl, rfl, hbalanced, hnobody rfl (fun t => .inl (by revert t; decide)) (by decide)⟩
  · have h : ReachVia (step Fin.val) (fun _ _ => True) (init 0 : Sema (Fin 2)) _ :=
      runAll_reach [.wait 1 true 0, .run 1 0, .run 1 0, .post 0, .run 0 0, .post 0] _ rfl
    obtain ⟨-, -, hgoes⟩ := sema_conserved_and_no_lost_wakeup Fin.val 0 _ h
    exact ⟨_, h, rfl, by decide, hgoes 1 0 (by decide) fun hb => by cases hb.2⟩

end

end Sema

end PipRiot.Sys
