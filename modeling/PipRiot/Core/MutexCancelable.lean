import PipRiot.Core.MutexHolder

/-!
# What `mutex_lock_cancelable` reports

The result is read from the cancellation structure when the thread runs again. It
is true as long as the structure is not marked in the time between the unlock that
hands the mutex over and the return of the locking function.
-/

namespace PipRiot.Core.Mutexes

open Function

section
variable {τ μ κ : Type} (s : Mutexes τ μ κ)

def OwnCall : Op τ μ κ → Prop
  | .lockCancelable t k => ∀ mc, s.mc k = some mc → mc.thread = t ∧ s.owner mc.mutex ≠ some t
  | _ => True

def CancelsInTime : Op τ μ κ → Prop
  | .cancel k => ∀ mc, s.mc k = some mc → ¬ s.Handed mc.mutex mc.thread
  | _ => True

def Orderly (op : Op τ μ κ) : Prop := s.Good op ∧ s.OwnCall op

def Timely (op : Op τ μ κ) : Prop := s.Orderly op ∧ s.CancelsInTime op

/-- What the structure says of a thread in `mutex_lock_cancelable`. -/
def TruthAt (t : τ) : Prop :=
  ∀ m k, s.call t = .cancelable m k → ∃ c, s.mc k = some ⟨m, t, c⟩ ∧
    (s.status t = .mutexBlocked → c = false ∧ s.owner m ≠ some t) ∧
    ((s.status t).onRunqueue = true → (c = false ↔ s.owner m = some t))

variable {s u : Mutexes τ μ κ} {t : τ} {m : μ} {k : κ} {priority : τ → Nat}

theorem mutexCancel_frame [DecidableEq τ] [DecidableEq μ] [DecidableEq κ] (s : Mutexes τ μ κ) (k : κ)
    (mc : MutexCancel τ μ) :
    (s.mutexCancel k mc).call = s.call ∧ (s.mutexCancel k mc).owner = s.owner ∧
    (s.mutexCancel k mc).mc = update s.mc k (some { mc with cancelled := true }) ∧
    ((s.status mc.thread).onRunqueue = false ∧ mc.thread ∈ (s.queue mc.mutex).list ∧
        (s.mutexCancel k mc).status = update s.status mc.thread .pending ∨
      ¬ ((s.status mc.thread).onRunqueue = false ∧ mc.thread ∈ (s.queue mc.mutex).list) ∧
        (s.mutexCancel k mc).status = s.status) := by
  unfold Mutexes.mutexCancel
  simp only
  split
  · rename_i hr
    have hr' : (s.status mc.thread).onRunqueue = true := hr
    exact ⟨rfl, rfl, rfl, .inr ⟨by simp [hr'], rfl⟩⟩
  · rename_i hr
    have hr' : (s.status mc.thread).onRunqueue = false := Bool.not_eq_true _ ▸ hr
    split
    · rename_i hin
      exact ⟨rfl, rfl, rfl, .inl ⟨hr', hin, rfl⟩⟩
    · rename_i hin
      exact ⟨rfl, rfl, rfl, .inr ⟨fun hc => hin hc.2, rfl⟩⟩

namespace TruthAt

theorem of_idle (h : s.call t = .idle) : TruthAt s t := fun m k hc => by
  rw [h] at hc
  cases hc

theorem congr (h : TruthAt s t) (hcall : u.call t = s.call t) (hst : u.status t = s.status t)
    (hsame : ∀ m k, s.call t = .cancelable m k → u.mc k = s.mc k ∧ u.owner m = s.owner m) : TruthAt u t := by
  intro m k hc
  rw [hcall] at hc
  obtain ⟨hmc, hown⟩ := hsame m k hc
  rw [hmc, hst, hown]
  exact h m k hc

theorem take [DecidableEq μ] (h : TruthAt s t) (hx : Exact priority s) (he : Excl s)
    (hq : s.queue m = .unlocked) {w : τ} (hw : s.call w = .idle) : TruthAt (s.take w m) t := by
  intro m' k hc
  have hc' : s.call t = .cancelable m' k := hc
  have hne : t ≠ w := fun e => by
    rw [e, hw] at hc'
    cases hc'
  obtain ⟨c, hmc, hblocked, hrun⟩ := h m' k hc'
  by_cases e : m' = m
  · subst e
    have hown : (s.take w m').owner m' = some w := update_self ..
    rw [(he.free m' hq).1] at hrun
    refine ⟨c, hmc, fun hb => ?_, fun hr => ?_⟩
    · exact absurd hq (hx.queue_ne_unlocked ⟨by rw [hc']; rfl, hb⟩)
    · rw [hown]
      constructor
      · intro hcf
        cases (hrun hr).mp hcf
      · intro ho
        exact absurd (Option.some.inj ho).symm hne
  · have hown : (s.take w m).owner m' = s.owner m' := update_of_ne e ..
    rw [hown]; exact ⟨c, hmc, hblocked, hrun⟩

theorem unlocks (h : TruthAt s t) (hx : Exact priority s) (hu : Unlocks s u m) (hnone : ∀ t, ¬ s.Handed m t) :
    TruthAt u t := by
  intro m' k hc
  have hc' : s.call t = .cancelable m' k := hu.call ▸ hc
  have hmutex : (s.call t).mutex = some m' := by rw [hc']; rfl
  obtain ⟨c, hmc, hblocked, hrun⟩ := h m' k hc'
  refine ⟨c, hu.mc ▸ hmc, ?_⟩
  by_cases e : m' = m
  · subst e
    rcases hu.woken t with hsame | ⟨hin, hpend, hown⟩
    · rw [hsame]
      refine ⟨fun hb => ⟨(hblocked hb).1, fun ho => ?_⟩, fun hr => ?_⟩
      · have hp := (hu.given t ho).2
        rw [hsame, hb] at hp; cases hp
      · -- it was cancelled, and it is not the one that gets the mutex now
        have hno : s.owner m' ≠ some t := fun ho => hnone t ⟨ho, hmutex⟩
        refine ⟨fun hcf => absurd ((hrun hr).mp hcf) hno, fun ho => ?_⟩
        rw [((hx.mem m' t).mp (hu.given t ho).1).2] at hr; cases hr
    · have hb := ((hx.mem m' t).mp hin).2
      rw [hpend, hown]
      exact ⟨fun hp => (by cases hp), fun _ => ⟨fun _ => rfl, fun _ => (hblocked hb).1⟩⟩
  · have hsame : u.status t = s.status t := (hu.woken t).resolve_right fun hw =>
      e (Option.some.inj (hmutex.symm.trans ((hx.mem m t).mp hw.1).1))
    rw [hsame, (hu.other m' e).2.1]; exact ⟨hblocked, hrun⟩

theorem setMc [DecidableEq κ] (h : TruthAt s t) (mc : MutexCancel τ μ) (hk : s.Unused k) :
    TruthAt (s.setMc k mc) t := by
  refine h.congr rfl rfl fun m k' hc => ⟨update_of_ne ?_ .., rfl⟩
  rintro rfl
  exact hk t m hc

variable [DecidableEq τ]

theorem finish (h : TruthAt s t) (w : τ) : TruthAt (s.setCall w .idle) t := by
  by_cases e : t = w
  · subst e; exact of_idle (update_self ..)
  · exact h.congr (update_of_ne e ..) rfl fun _ _ _ => ⟨rfl, rfl⟩

theorem setIdle (h : TruthAt s t) (st : Status) {w : τ} (hidle : s.call w = .idle) : TruthAt (s.setStatus w st) t := by
  by_cases e : t = w
  · subst e; exact of_idle hidle
  · exact h.congr rfl (update_of_ne e ..) fun _ _ _ => ⟨rfl, rfl⟩

variable [DecidableEq μ]

theorem block (h : TruthAt s t) {w : τ} {c : Call μ κ}
    (hc : ∀ m' k, c = .cancelable m' k → s.mc k = some ⟨m', w, false⟩ ∧ s.owner m' ≠ some w) :
    TruthAt (s.block priority w m c) t := by
  by_cases e : t = w
  · subst e
    intro m' k hcall
    have hst : (s.block priority t m c).status t = .mutexBlocked := update_self ..
    have hcall' : (s.block priority t m c).call t = c := update_self ..
    obtain ⟨hmc, hown⟩ := hc m' k (hcall'.symm.trans hcall)
    refine ⟨false, hmc, fun _ => ⟨rfl, hown⟩, fun hr => ?_⟩
    rw [hst] at hr; cases hr
  · exact h.congr (update_of_ne e ..) (update_of_ne e ..) fun _ _ _ => ⟨rfl, rfl⟩

variable [DecidableEq κ]

theorem mutexCancel (h : TruthAt s t) (hx : Exact priority s) {mc : MutexCancel τ μ} (hmc : s.mc k = some mc)
    (hcur : s.Current k) (htime : ¬ s.Handed mc.mutex mc.thread) : TruthAt (s.mutexCancel k mc) t := by
  obtain ⟨hcall, hown, hmc', hstat⟩ := mutexCancel_frame s k mc
  intro m' k' hc
  rw [hcall] at hc
  rw [hown, hmc']
  have hmutex : (s.call t).mutex = some m' := by rw [hc]; rfl
  obtain ⟨c, hk, hblocked, hrun⟩ := h m' k' hc
  by_cases e : k' = k
  · subst e
    cases hmc.symm.trans hk
    refine ⟨true, update_self .., fun hb => ?_, fun _ => ?_⟩
    · rcases hstat with ⟨-, -, hst⟩ | ⟨hno, hst⟩
      · rw [hst, update_self] at hb; cases hb
      · -- who is blocked is in the list, and would have been taken out of it
        rw [hst] at hb
        exact absurd ⟨by rw [hb]; rfl, (hx.mem m' t).mpr ⟨hmutex, hb⟩⟩ hno
    · constructor
      · intro hf; cases hf
      · intro ho; exact absurd ⟨ho, hmutex⟩ htime
  · have hst : (s.mutexCancel k mc).status t = s.status t := by
      rcases hstat with ⟨-, hin, hst⟩ | ⟨-, hst⟩
      · rw [hst]
        refine update_of_ne ?_ ..
        rintro rfl
        have hcur' := hcur mc hmc ((hx.mem mc.mutex mc.thread).mp hin).1
        cases hc.symm.trans hcur'
        exact e rfl
      · rw [hst]
    rw [hst]
    exact ⟨c, (update_of_ne e ..).trans hk, hblocked, hrun⟩

theorem moves (h : ∀ t, TruthAt s t) (hx : Exact priority s) (he : Excl s) {op : Op τ μ κ} {r : Option (Ret τ μ)}
    (hg : s.Timely op) (hs : Moves priority s op u r) (t : τ) : TruthAt u t := by
  obtain ⟨⟨hgood, hownCall⟩, htime⟩ := hg
  cases hs with
  | takes hfree hq => exact (h t).take hx he hq hfree.2
  | refuses => exact h t
  | blocks => exact (h t).block fun _ _ hc => by cases hc
  | inits => exact (h t).setMc _ hgood.1
  | cancelledEarly => exact h t
  | takesCancelable hfree _ _ hq => exact (h t).take hx he hq hfree.2
  | @blocksCancelable w k mc _ hmc hnc =>
    obtain ⟨hthread, hown⟩ := hownCall mc hmc
    refine (h t).block fun m' k' hc => ?_
    cases hc
    obtain ⟨m', t', c⟩ := mc
    cases hthread
    cases hnc; exact ⟨hmc, hown⟩
  | returns | returnsCanceled | returnsZero => exact (h t).finish _
  | unlocks => exact (h t).unlocks hx (unlocks_mutexUnlock s _) hgood.2
  | @unlocksAndSleeps w m hfree =>
    have hu := unlocks_mutexUnlock s m
    exact ((h t).unlocks hx hu hgood.2).setIdle .sleeping (hu.call ▸ hfree.2)
  | wakes hsleep => exact (h t).setIdle .running (hx.idle_of_status (by rw [hsleep]; decide) (by rw [hsleep]; rfl))
  | cancels hmc => exact (h t).mutexCancel hx hmc hgood.1 (htime _ hmc)

end TruthAt

section
variable [DecidableEq τ] [DecidableEq μ] [DecidableEq κ]

theorem truth_of_reach {locked : μ → Bool} (h : ReachVia (step priority) Timely (init locked) s) :
    Exact priority s ∧ Excl s ∧ ∀ t, TruthAt s t := by
  refine h.inv (fun s => Exact priority s ∧ Excl s ∧ ∀ t, TruthAt s t)
    ⟨Exact.init locked, Excl.init locked, fun t => TruthAt.of_idle rfl⟩ ?_
  rintro s u op ⟨hx, he, ht⟩ hg hu
  obtain ⟨⟨v, r⟩, hv, rfl⟩ := Option.map_eq_some_iff.mp hu
  have hm := exec_moves hv
  exact ⟨hx.moves hm, he.moves hx hg.1.1 hm, TruthAt.moves ht hx he hg hm⟩

end

section

def handedOver : Mutexes (Fin 2) Unit Unit :=
  (runAll (step Fin.val) (init fun _ => false) [.lock ⟨0, Nat.two_pos⟩ () true,
    .cancelInit ⟨1, Nat.one_lt_two⟩ () (), .lockCancelable ⟨1, Nat.one_lt_two⟩ (), .unlock ()]).get rfl

theorem reach_handedOver : ReachVia (step Fin.val) Timely (init fun _ => false) handedOver := by
  have h1 : ReachVia (step Fin.val) Timely (init fun _ => false : Mutexes (Fin 2) Unit Unit) _ :=
    .next .start (a := Op.lock 0 () true) ⟨⟨⟨trivial, trivial⟩, trivial⟩, trivial⟩ rfl
  have h2 := h1.next (a := Op.cancelInit 1 () ()) ⟨⟨⟨fun _ _ hc => (by cases hc), trivial⟩, trivial⟩, trivial⟩ rfl
  have h3 := h2.next (a := Op.lockCancelable 1 ())
    ⟨⟨⟨trivial, trivial⟩, fun mc hmc => by cases hmc; exact ⟨rfl, by decide⟩⟩, trivial⟩ rfl
  exact h3.next (a := Op.unlock ()) ⟨⟨⟨trivial, fun t ht => by cases ht.1; cases ht.2⟩, trivial⟩, trivial⟩ rfl

end

end

end PipRiot.Core.Mutexes
