import PipRiot.Core.MutexLocking

/-!
# At most one holder

A thread that has been handed a mutex holds it before its locking function has
returned. If nobody unlocks the mutex in between, and a cancellation structure is
only used for the call it was made for, at most one thread has returned from a
lock since the last unlock.
-/

namespace PipRiot.Core.Mutexes

open Function

section
variable {τ μ κ : Type} (s : Mutexes τ μ κ)

def Succeeds (m : μ) (t : τ) : Prop :=
  (s.status t).onRunqueue = true ∧
    (s.call t = .lock m ∨ ∃ k mc, s.call t = .cancelable m k ∧ s.mc k = some mc ∧ mc.cancelled = false)

def Handed (m : μ) (t : τ) : Prop := s.owner m = some t ∧ (s.call t).mutex = some m

def Current (k : κ) : Prop :=
  ∀ mc, s.mc k = some mc → (s.call mc.thread).mutex = some mc.mutex → s.call mc.thread = .cancelable mc.mutex k

def Unused (k : κ) : Prop := ∀ t m, s.call t ≠ .cancelable m k

/-- The rules `mutex.h` gives for cancellation structures. -/
def Legal : Op τ μ κ → Prop
  | .cancelInit _ k _ => s.Unused k
  | .cancel k => s.Current k
  | _ => True

def UnlocksHeld : Op τ μ κ → Prop
  | .unlock m => ∀ t, ¬ s.Handed m t
  | .unlockAndSleep _ m => ∀ t, ¬ s.Handed m t
  | _ => True

def Good (op : Op τ μ κ) : Prop := s.Legal op ∧ s.UnlocksHeld op

structure Excl (s : Mutexes τ μ κ) : Prop where
  one : ∀ m, (s.returned m).length ≤ 1
  own : ∀ m t, s.Succeeds m t → s.owner m = some t
  first : ∀ m t, s.Succeeds m t → s.returned m = []
  free : ∀ m, s.queue m = .unlocked → s.owner m = none ∧ s.returned m = []

variable {s u : Mutexes τ μ κ} {t : τ} {m : μ} {k : κ} {priority : τ → Nat}

theorem Succeeds.mutex (h : s.Succeeds m t) : (s.call t).mutex = some m := by
  rcases h.2 with hc | ⟨k, mc, hc, -⟩
  · rw [hc]; rfl
  · rw [hc]; rfl

theorem not_succeeds_of_idle (h : s.call t = .idle) : ¬ s.Succeeds m t := fun hs => by
  have := hs.mutex
  rw [h] at this
  cases this

namespace Excl

theorem init (locked : μ → Bool) : Excl (Mutexes.init locked : Mutexes τ μ κ) where
  one _ := zero_le
  own m t h := by cases h.mutex
  first _ _ _ := rfl
  free _ _ := ⟨rfl, rfl⟩

theorem mono (h : Excl s) (hsucc : ∀ m t, u.Succeeds m t → s.Succeeds m t) (hown : u.owner = s.owner)
    (hret : u.returned = s.returned) (hq : ∀ m, u.queue m = .unlocked → s.queue m = .unlocked) : Excl u where
  one m := hret ▸ h.one m
  own m t ht := hown ▸ h.own m t (hsucc m t ht)
  first m t ht := hret ▸ h.first m t (hsucc m t ht)
  free m hm := hown ▸ hret ▸ h.free m (hq m hm)

theorem none_of_unlocked (h : Excl s) (hq : s.queue m = .unlocked) (ht : s.Succeeds m t) : False := by
  have := h.own m t ht
  rw [(h.free m hq).1] at this
  cases this

theorem take [DecidableEq μ] (h : Excl s) (hq : s.queue m = .unlocked) (t : τ) : Excl (s.take t m) := by
  have hret := (h.free m hq).2
  refine ⟨?_, ?_, ?_, ?_⟩
  · intro m'
    by_cases e : m' = m
    · subst e
      simp [Mutexes.take, noteReturned, hret]
    · simp only [Mutexes.take, noteReturned, update_of_ne e]; exact h.one m'
  · intro m' t' ht'
    have ht : s.Succeeds m' t' := ht'
    have e : m' ≠ m := by rintro rfl; exact h.none_of_unlocked hq ht
    exact (update_of_ne e ..).trans (h.own m' t' ht)
  · intro m' t' ht'
    have ht : s.Succeeds m' t' := ht'
    have e : m' ≠ m := by rintro rfl; exact h.none_of_unlocked hq ht
    exact (update_of_ne e ..).trans (h.first m' t' ht)
  · intro m' hm'
    by_cases e : m' = m
    · subst e
      have : (s.take t m').queue m' = .locked := update_self ..
      rw [this] at hm'
      cases hm'
    · simp only [Mutexes.take, noteReturned, noteOwner, setQueue, update_of_ne e] at hm' ⊢
      exact h.free m' hm'

theorem unlocks (h : Excl s) (hx : Exact priority s) (hu : Unlocks s u m) (hnone : ∀ t, ¬ s.Handed m t) : Excl u := by
  have hsucc : ∀ m' t', u.Succeeds m' t' → u.owner m' = some t' ∧ u.returned m' = [] := by
    intro m' t' ht'
    rcases hu.woken t' with hsame | ⟨hin, -, hown⟩
    · have hs : s.Succeeds m' t' := by simpa only [Succeeds, hsame, hu.call, hu.mc] using ht'
      have e : m' ≠ m := by rintro rfl; exact hnone t' ⟨h.own _ t' hs, hs.mutex⟩
      obtain ⟨-, ho, hr⟩ := hu.other m' e
      exact ⟨ho.trans (h.own m' t' hs), hr.trans (h.first m' t' hs)⟩
    · have hm := ht'.mutex
      rw [hu.call, ((hx.mem m t').mp hin).1] at hm
      cases hm; exact ⟨hown, hu.returned⟩
  refine ⟨?_, fun m' t' ht' => (hsucc m' t' ht').1, fun m' t' ht' => (hsucc m' t' ht').2, ?_⟩
  · intro m'
    by_cases e : m' = m
    · subst e
      rw [hu.returned]; exact zero_le
    · rw [(hu.other m' e).2.2]; exact h.one m'
  · intro m' hm'
    by_cases e : m' = m
    · subst e; exact ⟨hu.free hm', hu.returned⟩
    · obtain ⟨hq, ho, hr⟩ := hu.other m' e
      rw [ho, hr]; exact h.free m' (hq ▸ hm')

theorem setMc [DecidableEq κ] (h : Excl s) {mc : MutexCancel τ μ} (hk : mc.cancelled = true ∨ s.Unused k) :
    Excl (s.setMc k mc) := by
  refine h.mono ?_ rfl rfl fun _ => id
  rintro m t ⟨hr, hc | ⟨k', mc', hc, hmc, hnc⟩⟩
  · exact ⟨hr, .inl hc⟩
  · by_cases e : k' = k
    · subst e
      simp only [Mutexes.setMc, update_self] at hmc
      cases hmc
      rcases hk with hk | hk
      · rw [hk] at hnc; cases hnc
      · exact absurd hc (hk t m)
    · simp only [Mutexes.setMc, update_of_ne e] at hmc
      exact ⟨hr, .inr ⟨k', mc', hc, hmc, hnc⟩⟩

variable [DecidableEq τ]

theorem finish (h : Excl s) (t : τ) : Excl (s.setCall t .idle) := by
  refine h.mono ?_ rfl rfl fun _ => id
  intro m t' ht'
  by_cases e : t' = t
  · subst e
    exact absurd ht' (not_succeeds_of_idle (update_self ..))
  · simpa only [Succeeds, setCall, update_of_ne e] using ht'

theorem setIdle (h : Excl s) (st : Status) (hidle : s.call t = .idle) : Excl (s.setStatus t st) := by
  refine h.mono ?_ rfl rfl fun _ => id
  intro m t' ht'
  by_cases e : t' = t
  · subst e
    exact absurd ht' (not_succeeds_of_idle hidle)
  · simpa only [Succeeds, setStatus, update_of_ne e] using ht'

variable [DecidableEq μ]

theorem finishSuccess (h : Excl s) (hs : s.Succeeds m t) :
    Excl ((s.setCall t .idle).noteReturned m (t :: s.returned m)) := by
  have hfin := h.finish t
  have hown := h.own m t hs
  have hret := h.first m t hs
  -- nobody else is about to report success
  have hno : ∀ t', ¬ (s.setCall t .idle).Succeeds m t' := by
    intro t' ht'
    have he : t' = t := Option.some.inj ((hfin.own m t' ht').symm.trans hown)
    subst he
    exact not_succeeds_of_idle (update_self ..) ht'
  refine ⟨?_, hfin.own, ?_, ?_⟩
  · intro m'
    by_cases e : m' = m
    · subst e
      simp [noteReturned, hret]
    · simpa only [noteReturned, update_of_ne e] using hfin.one m'
  · intro m' t' ht'
    by_cases e : m' = m
    · subst e; exact absurd ht' (hno t')
    · exact (update_of_ne e ..).trans (hfin.first m' t' ht')
  · intro m' hm'
    have hf := hfin.free m' hm'
    by_cases e : m' = m
    · subst e
      have := hf.1.symm.trans hown; cases this
    · exact ⟨hf.1, (update_of_ne e ..).trans hf.2⟩

theorem block (h : Excl s) (c : Call μ κ) : Excl (s.block priority t m c) := by
  refine h.mono ?_ rfl rfl ?_
  · intro m' t' ht'
    by_cases e : t' = t
    · subst e
      have hst : (s.block priority t' m c).status t' = .mutexBlocked := update_self ..
      have := ht'.1
      rw [hst] at this; cases this
    · simpa only [Succeeds, Mutexes.block, noteWaiting, setCall, setQueue, setStatus, update_of_ne e] using ht'
  · intro m' hm'
    by_cases e : m' = m
    · subst e
      have hin : t ∈ ((s.block priority t m' c).queue m').list := by
        rw [block_list, threadAddToList, mem_addRanked]; exact .inl rfl
      rw [hm'] at hin; cases hin
    · have : (s.block priority t m c).queue m' = s.queue m' := update_of_ne e ..
      exact this ▸ hm'

variable [DecidableEq κ]

theorem mutexCancel (h : Excl s) (hx : Exact priority s) {mc : MutexCancel τ μ} (hmc : s.mc k = some mc)
    (hcur : s.Current k) : Excl (s.mutexCancel k mc) := by
  have hset : Excl (s.setMc k { mc with cancelled := true }) := h.setMc (.inl rfl)
  unfold Mutexes.mutexCancel
  simp only
  split
  · exact hset
  · split
    · rename_i hin
      have hcall := hcur mc hmc ((hx.mem mc.mutex mc.thread).mp hin).1
      refine hset.mono ?_ rfl rfl ?_
      · rintro m t ⟨hr, hc⟩
        by_cases e : t = mc.thread
        · -- its locking function will report the cancellation
          subst e
          rcases hc with hc | ⟨k', mc', hc, hmc', hnc⟩
          · have := hc.symm.trans hcall; cases this
          · have := hc.symm.trans hcall
            cases this
            simp only [setStatus, setQueue, Mutexes.setMc, update_self] at hmc'
            cases hmc'
            cases hnc
        · simp only [setStatus, update_of_ne e] at hr; exact ⟨hr, hc⟩
      · intro m hm
        by_cases e : m = mc.mutex
        · subst e
          simp only [setStatus, setQueue, update_self] at hm
          exact absurd hm (Queue.relock_ne_unlocked _)
        · simpa only [setStatus, setQueue, update_of_ne e] using hm
    · exact hset

theorem moves (h : Excl s) (hx : Exact priority s) {op : Op τ μ κ} {r : Option (Ret τ μ)} (hg : s.Good op)
    (hs : Moves priority s op u r) : Excl u := by
  cases hs with
  | takes _ hq => exact h.take hq _
  | refuses => exact h
  | blocks | blocksCancelable => exact h.block _
  | inits => exact h.setMc (.inr hg.1)
  | cancelledEarly => exact h
  | takesCancelable _ _ _ hq => exact h.take hq _
  | returns hr hc => exact h.finishSuccess ⟨hr, .inl hc⟩
  | returnsCanceled => exact h.finish _
  | returnsZero hr hc hmc hnc => exact h.finishSuccess ⟨hr, .inr ⟨_, _, hc, hmc, hnc⟩⟩
  | unlocks => exact h.unlocks hx (unlocks_mutexUnlock s _) hg.2
  | @unlocksAndSleeps t m hfree =>
    have hu := unlocks_mutexUnlock s m
    exact (h.unlocks hx hu hg.2).setIdle .sleeping (hu.call ▸ hfree.2)
  | wakes hsleep => exact h.setIdle .running (hx.idle_of_status (by rw [hsleep]; decide) (by rw [hsleep]; rfl))
  | cancels hmc => exact h.mutexCancel hx hmc hg.1

end Excl

section
variable [DecidableEq τ] [DecidableEq μ] [DecidableEq κ]

theorem excl_of_reach {locked : μ → Bool} (h : ReachVia (step priority) Good (init locked) s) : Excl s := by
  suffices hb : Exact priority s ∧ Excl s from hb.2
  refine h.inv (fun s => Exact priority s ∧ Excl s) ⟨Exact.init locked, Excl.init locked⟩ ?_
  rintro s u op ⟨hx, he⟩ hg hu
  obtain ⟨⟨v, r⟩, hv, rfl⟩ := Option.map_eq_some_iff.mp hu
  exact ⟨hx.moves (exec_moves hv), he.moves hx hg (exec_moves hv)⟩

end

section

end

end

end PipRiot.Core.Mutexes
