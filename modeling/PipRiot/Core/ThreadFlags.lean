import PipRiot.Core.WaitCalls

/-!
# Waiting for thread flags

The functions of the kernel that wait for flags, with the calls that threads are
in. A wait takes a step up to the point where it blocks or finds its flags, and
one in which it clears them; `thread_flags_wait_one` reads the flags in between.
Interrupts and other threads can come in before each of them.
-/

namespace PipRiot.Core

open Function Option BitVec

inductive FlagCall
  | idle
  | any (mask : BitVec 16)
  | one (mask : BitVec 16)
  -- `thread_flags_wait_one` has read the flags `seen` and keeps `tmp`
  | chosen (mask seen tmp : BitVec 16)
  | all (mask : BitVec 16)
  deriving DecidableEq, Repr

structure FlagWaits (τ μ β γ κ : Type) where
  kernel : Kernel τ μ β γ κ
  call : τ → FlagCall
  -- what a thread was returned last
  result : τ → BitVec 16

inductive FlagOp (τ μ β γ κ : Type)
  | set (t : τ) (mask : BitVec 16)
  | arrive (t : τ)
  | clear (t : τ) (mask : BitVec 16)
  | waitAny (t : τ) (mask : BitVec 16)
  | waitOne (t : τ) (mask : BitVec 16)
  | waitAll (t : τ) (mask : BitVec 16)
  | look (t : τ)
  | finish (t : τ)
  | other (k : Kernel τ μ β γ κ)

def leastSignificant (tmp : BitVec 16) : BitVec 16 := tmp &&& (~~~tmp + 1#16)

namespace FlagWaits

section
variable {τ μ β γ κ : Type} (s : FlagWaits τ μ β γ κ)

def onKernel (k : Kernel τ μ β γ κ) : FlagWaits τ μ β γ κ := { s with kernel := k }

def runs (t : τ) : Bool := (s.kernel.sched.status t).onRunqueue

variable [DecidableEq τ]

def enter (t : τ) (c : FlagCall) : FlagWaits τ μ β γ κ :=
  { s with call := update s.call t c }

/-- `_thread_flags_clear_atomic`, the last step of every function that clears flags. -/
def clearAtomic (t : τ) (mask : BitVec 16) : FlagWaits τ μ β γ κ where
  kernel := s.kernel.threadFlagsClear t (mask &&& s.kernel.flags t)
  call := update s.call t .idle
  result := update s.result t (mask &&& s.kernel.flags t)

def finish (t : τ) : Option (FlagWaits τ μ β γ κ) :=
  match s.call t with
  | .any mask | .all mask => some (s.clearAtomic t mask)
  | .chosen _ _ tmp => some (s.clearAtomic t tmp)
  | _ => none

def look (t : τ) : Option (FlagWaits τ μ β γ κ) :=
  match s.call t with
  | .one mask => some (s.enter t (.chosen mask (s.kernel.flags t) (leastSignificant (s.kernel.flags t &&& mask))))
  | _ => none

/-- Any thread on a run queue may go on. A message arrives in `queue_msg` or behind
`thread_add_to_list` in `_msg_send`. -/
def step (cfg : Config) (s : FlagWaits τ μ β γ κ) : FlagOp τ μ β γ κ → Option (FlagWaits τ μ β γ κ)
  | .set t mask => some (s.onKernel (s.kernel.threadFlagsSet cfg t mask))
  | .arrive t => some (s.onKernel ((s.kernel.raise t threadFlagMsgWaiting).threadFlagsWake cfg t))
  | .clear t mask => if s.call t = .idle ∧ s.runs t then some (s.clearAtomic t mask) else none
  | .waitAny t mask =>
    if s.call t = .idle ∧ s.runs t then
      some ((s.onKernel (s.kernel.threadFlagsWaitAny cfg t mask)).enter t (.any mask))
    else none
  | .waitOne t mask =>
    if s.call t = .idle ∧ s.runs t then
      some ((s.onKernel (s.kernel.threadFlagsWaitAny cfg t mask)).enter t (.one mask))
    else none
  | .waitAll t mask =>
    if s.call t = .idle ∧ s.runs t then
      some ((s.onKernel (s.kernel.threadFlagsWaitAll cfg t mask)).enter t (.all mask))
    else none
  | .look t => if s.runs t then s.look t else none
  | .finish t => if s.runs t then s.finish t else none
  | .other k => some (s.onKernel k)

end

section
variable {τ μ β γ κ : Type} (s : FlagWaits τ μ β γ κ)

/-- What others do to a thread: nothing to its flags, and only the scheduler's choice
while it waits for flags. -/
def Leaves (k : Kernel τ μ β γ κ) (t : τ) : Prop :=
  k.flags t = s.kernel.flags t ∧
    if s.call t = .idle then k.sched.status t ≠ .flagBlockedAny ∧ k.sched.status t ≠ .flagBlockedAll
    else k.waitData t = s.kernel.waitData t ∧
      (k.sched.status t = s.kernel.sched.status t ∨ (s.runs t = true ∧ (k.sched.status t).onRunqueue = true))

def Lawful : FlagOp τ μ β γ κ → Prop
  | .other k => ∀ t, s.Leaves k t
  | _ => True

def Fresh : Prop :=
  ∀ t, s.call t = .idle ∧ s.kernel.sched.status t ≠ .flagBlockedAny ∧ s.kernel.sched.status t ≠ .flagBlockedAll

end

/-! ## What a thread in a wait can rely on -/

/-- Blocked with the mask kept and the flags missing, or running with the flags there. -/
def Waiting (blocked st : Status) (wait : BitVec 32) (mask : BitVec 16) (there : Prop) : Prop :=
  (st = blocked ∧ wait = mask.setWidth 32 ∧ ¬ there) ∨ (st.onRunqueue = true ∧ there)

def Fits (st : Status) (flags : BitVec 16) (wait : BitVec 32) : FlagCall → Prop
  | .idle => st ≠ .flagBlockedAny ∧ st ≠ .flagBlockedAll
  | .any mask | .one mask => Waiting .flagBlockedAny st wait mask (flags &&& mask ≠ 0#16)
  | .all mask => Waiting .flagBlockedAll st wait mask (flags &&& mask = mask)
  | .chosen mask seen tmp =>
    st.onRunqueue = true ∧ seen &&& flags = seen ∧ seen &&& mask ≠ 0#16 ∧ tmp = leastSignificant (seen &&& mask)

section
variable {st : Status} {flags mask mask' seen tmp v : BitVec 16} {wait : BitVec 32} {c : FlagCall} {there : Prop}

theorem or_and_ne_zero (h : flags &&& mask ≠ 0#16) : (flags ||| mask') &&& mask ≠ 0#16 := fun e => by
  refine h (eq_of_getLsbD_eq fun i _ => ?_)
  have hi : ((flags ||| mask') &&& mask).getLsbD i = false := by simp [e]
  simp only [getLsbD_and, getLsbD_or] at hi ⊢
  cases hf : flags.getLsbD i <;> simp_all

theorem or_and_eq (h : flags &&& mask = mask) : (flags ||| mask') &&& mask = mask := by
  refine eq_of_getLsbD_eq fun i _ => ?_
  have hi : (flags &&& mask).getLsbD i = mask.getLsbD i := by rw [h]
  simp only [getLsbD_and, getLsbD_or] at hi ⊢
  cases hf : flags.getLsbD i <;> simp_all

def Lowest (v bit : BitVec 16) : Prop :=
  ∃ k < 16, bit = BitVec.twoPow 16 k ∧ v.getLsbD k = true ∧ ∀ j < k, v.getLsbD j = false

theorem lowest_leastSignificant (h : v ≠ 0#16) : Lowest v (leastSignificant v) := by
  have hk := getLsbD_true_ctz_of_ne_zero h
  have hlow : ∀ j < v.ctz.toNat, v.getLsbD j = false := fun j hj => getLsbD_false_of_lt_ctz hj
  refine ⟨v.ctz.toNat, lt_of_getLsbD hk, ?_, hk, hlow⟩
  rw [leastSignificant, ← neg_eq_not_add]
  exact lowest_and_neg hk hlow

end

section
variable {τ μ β γ κ : Type} {cfg : Config} {s u : FlagWaits τ μ β γ κ} {k : Kernel τ μ β γ κ} {t x : τ}
  {mask : BitVec 16} {op : FlagOp τ μ β γ κ} {c : FlagCall}

def FitsAt (k : Kernel τ μ β γ κ) (t : τ) (c : FlagCall) : Prop :=
  Fits (k.sched.status t) (k.flags t) (k.waitData t) c

def Sound (s : FlagWaits τ μ β γ κ) : Prop := ∀ t, FitsAt s.kernel t (s.call t)

theorem FitsAt.congr {k' : Kernel τ μ β γ κ} (h : FitsAt k x c)
    (hst : k'.sched.status x = k.sched.status x) (hf : k'.flags x = k.flags x) (hw : k'.waitData x = k.waitData x) :
    FitsAt k' x c := by
  rw [FitsAt, hst, hf, hw]
  exact h

theorem Fresh.sound (h : s.Fresh) : s.Sound := by
  intro t
  rw [(h t).1]
  exact (h t).2

theorem onRunqueue_ne {st : Status} (h : st.onRunqueue = true) : st ≠ .flagBlockedAny ∧ st ≠ .flagBlockedAll := by
  constructor
  · rintro rfl
    cases h
  · rintro rfl
    cases h

theorem Sound.other (h : s.Sound) (hk : ∀ t, s.Leaves k t) : (s.onKernel k).Sound := by
  intro x
  have hfits := h x
  obtain ⟨hf, hrest⟩ := hk x
  change FitsAt k x (s.call x)
  split at hrest
  · rename_i hidle
    rw [hidle]; exact hrest
  · rename_i hbusy
    obtain ⟨hw, hst | ⟨hrun, hrun'⟩⟩ := hrest
    · exact hfits.congr hst hf hw
    · have hst := onRunqueue_ne hrun
      unfold FitsAt at hfits ⊢
      rw [hf, hw]
      cases hc : s.call x with
      | idle => exact absurd hc hbusy
      | any mask | one mask =>
        rw [hc] at hfits
        exact .inr ⟨hrun', (hfits.resolve_left fun hb => hst.1 hb.1).2⟩
      | all mask =>
        rw [hc] at hfits
        exact .inr ⟨hrun', (hfits.resolve_left fun hb => hst.2 hb.1).2⟩
      | chosen mask seen tmp =>
        rw [hc] at hfits; exact ⟨hrun', hfits.2⟩

/-! ### Setting flags -/

theorem wakesUp_other (h : k.sched.status t ≠ .flagBlockedAny ∧ k.sched.status t ≠ .flagBlockedAll) :
    k.wakesUp t = false := by
  unfold Kernel.wakesUp
  split
  · exact absurd ‹_› h.1
  · exact absurd ‹_› h.2
  · rfl

theorem setWidth_mask (mask : BitVec 16) : (mask.setWidth 32).setWidth 16 = mask := by simp

theorem wakesUp_any (hst : k.sched.status t = .flagBlockedAny) (hw : k.waitData t = mask.setWidth 32) :
    k.wakesUp t = decide (k.flags t &&& mask ≠ 0#16) := by
  simp only [Kernel.wakesUp, hst, hw, setWidth_mask]

theorem wakesUp_all (hst : k.sched.status t = .flagBlockedAll) (hw : k.waitData t = mask.setWidth 32) :
    k.wakesUp t = decide (k.flags t &&& mask = mask) := by
  simp only [Kernel.wakesUp, hst, hw, setWidth_mask]

variable [DecidableEq τ]

section
variable (cfg : Config)

theorem threadFlagsWake_frame (k : Kernel τ μ β γ κ) (t : τ) :
    (k.threadFlagsWake cfg t).flags = k.flags ∧ (k.threadFlagsWake cfg t).waitData = k.waitData ∧
      ∀ x, x ≠ t ∨ k.wakesUp t = false → (k.threadFlagsWake cfg t).sched.status x = k.sched.status x := by
  unfold Kernel.threadFlagsWake
  split
  · rename_i hwakes
    refine ⟨rfl, rfl, fun x hx => ?_⟩
    have hne : x ≠ t := hx.resolve_right (by simp [hwakes])
    have hst := congrFun (Kernel.setStatus_status cfg k t .pending) x
    rw [update_of_ne hne] at hst; exact hst
  · exact ⟨rfl, rfl, fun _ _ => rfl⟩

theorem threadFlagsWake_status (h : k.wakesUp t = true) : (k.threadFlagsWake cfg t).sched.status t = .pending := by
  have hst := congrFun (Kernel.setStatus_status cfg k t .pending) t
  rw [update_self] at hst
  rw [Kernel.threadFlagsWake, if_pos h]
  exact hst

theorem Waiting.wake {there there' : Prop} [Decidable there'] {blocked : Status}
    (h : Waiting blocked (k.sched.status t) (k.waitData t) mask there) (hmono : there → there')
    (hwakes : k.sched.status t = blocked → k.waitData t = mask.setWidth 32 → k.wakesUp t = decide there') :
    Waiting blocked ((k.threadFlagsWake cfg t).sched.status t) (k.waitData t) mask there' := by
  obtain ⟨-, -, hframe⟩ := threadFlagsWake_frame cfg k t
  rcases h with ⟨hst, hw, -⟩ | ⟨hrun, hthere⟩
  · by_cases hnow : there'
    · have hwake : k.wakesUp t = true := by simp [hwakes hst hw, hnow]
      right
      exact ⟨by rw [threadFlagsWake_status cfg hwake]; rfl, hnow⟩
    · have hstay : k.wakesUp t = false := by simp [hwakes hst hw, hnow]
      left
      exact ⟨(hframe t (.inr hstay)).trans hst, hw, hnow⟩
  · right
    rw [hframe t (.inr (wakesUp_other (onRunqueue_ne hrun)))]
    exact ⟨hrun, hmono hthere⟩

theorem fitsAt_raise_self (mask' : BitVec 16) (h : FitsAt k t c) :
    FitsAt ((k.raise t mask').threadFlagsWake cfg t) t c := by
  obtain ⟨hf, hw, hframe⟩ := threadFlagsWake_frame cfg (k.raise t mask') t
  have hflags : (k.raise t mask').flags t = k.flags t ||| mask' := update_self ..
  have hsame : c = .idle ∨ (k.sched.status t).onRunqueue = true →
      ((k.raise t mask').threadFlagsWake cfg t).sched.status t = k.sched.status t := by
    intro hor
    refine hframe t (.inr (wakesUp_other ?_))
    rcases hor with rfl | hrun
    · exact h
    · exact onRunqueue_ne hrun
  unfold FitsAt
  rw [hf, hw, hflags]
  cases c with
  | idle =>
    rw [hsame (.inl rfl)]; exact h
  | any mask | one mask =>
    exact Waiting.wake (k := k.raise t mask') cfg h or_and_ne_zero
      fun hst hwait => by rw [wakesUp_any hst hwait, hflags]
  | all mask =>
    exact Waiting.wake (k := k.raise t mask') cfg h or_and_eq fun hst hwait => by rw [wakesUp_all hst hwait, hflags]
  | chosen mask seen tmp =>
    obtain ⟨hrun, hseen, hrest⟩ := h
    rw [hsame (.inr hrun)]
    refine ⟨hrun, ?_, hrest⟩
    rw [BitVec.and_comm] at hseen ⊢; exact or_and_eq hseen

theorem fitsAt_raise (mask' : BitVec 16) (h : FitsAt k x c) :
    FitsAt ((k.raise t mask').threadFlagsWake cfg t) x c := by
  by_cases hx : x = t
  · subst hx; exact fitsAt_raise_self cfg mask' h
  · obtain ⟨hf, hw, hframe⟩ := threadFlagsWake_frame cfg (k.raise t mask') t
    refine h.congr (hframe x (.inl hx)) ?_ ?_
    · rw [hf]; exact update_of_ne hx ..
    · rw [hw]; rfl

theorem threadFlagsSet_frame (k : Kernel τ μ β γ κ) (t : τ) (mask : BitVec 16) :
    (k.threadFlagsSet cfg t mask).sched = ((k.raise t mask).threadFlagsWake cfg t).sched ∧
    (k.threadFlagsSet cfg t mask).flags = ((k.raise t mask).threadFlagsWake cfg t).flags ∧
    (k.threadFlagsSet cfg t mask).waitData = ((k.raise t mask).threadFlagsWake cfg t).waitData := by
  simp only [Kernel.threadFlagsSet, Kernel.threadFlagsWake]
  split <;> exact ⟨rfl, rfl, rfl⟩

theorem fitsAt_set (mask : BitVec 16) (h : FitsAt k x c) : FitsAt (k.threadFlagsSet cfg t mask) x c := by
  obtain ⟨hs, hf, hw⟩ := threadFlagsSet_frame cfg k t mask
  exact (fitsAt_raise cfg mask h).congr (by rw [hs]) (by rw [hf]) (by rw [hw])

end

/-! ### Beginning a wait -/

theorem flagsWait_frame (cfg : Config) (k : Kernel τ μ β γ κ) (mask : BitVec 16) (t : τ) (st : Status) :
    (k.flagsWait cfg mask t st).sched.status = update k.sched.status t st ∧
    (k.flagsWait cfg mask t st).flags = k.flags ∧
    (k.flagsWait cfg mask t st).waitData = update k.waitData t (mask.setWidth 32) := by
  refine ⟨?_, rfl, rfl⟩
  exact Kernel.setStatus_status cfg (k.setWaitData t (mask.setWidth 32)) t st

theorem fitsAt_flagsWait {st : Status} (h : FitsAt k x c) (hx : x ≠ t) : FitsAt (k.flagsWait cfg mask t st) x c := by
  obtain ⟨hst, hf, hw⟩ := flagsWait_frame cfg k mask t st
  refine h.congr ?_ (by rw [hf]) ?_
  · rw [hst, update_of_ne hx]
  · rw [hw, update_of_ne hx]

theorem waiting_flagsWait (cfg : Config) (k : Kernel τ μ β γ κ) (t : τ) (mask : BitVec 16) (blocked : Status)
    {there : Prop} (hn : ¬ there) :
    Waiting blocked ((k.flagsWait cfg mask t blocked).sched.status t) ((k.flagsWait cfg mask t blocked).waitData t)
      mask there := by
  obtain ⟨hst, -, hw⟩ := flagsWait_frame cfg k mask t blocked
  left
  exact ⟨by rw [hst, update_self], by rw [hw, update_self], hn⟩

theorem fitsAt_waitAny (hrun : (k.sched.status t).onRunqueue = true) (hc : c = .any mask ∨ c = .one mask) :
    FitsAt (k.threadFlagsWaitAny cfg t mask) t c := by
  have hwaiting : Waiting .flagBlockedAny ((k.threadFlagsWaitAny cfg t mask).sched.status t)
      ((k.threadFlagsWaitAny cfg t mask).waitData t) mask
        ((k.threadFlagsWaitAny cfg t mask).flags t &&& mask ≠ 0#16) := by
    unfold Kernel.threadFlagsWaitAny
    split
    · rename_i hzero
      exact waiting_flagsWait cfg k t mask .flagBlockedAny fun hne => hne hzero
    · rename_i hne
      exact .inr ⟨hrun, hne⟩
  rcases hc with rfl | rfl
  · exact hwaiting
  · exact hwaiting

theorem fitsAt_waitAll (hrun : (k.sched.status t).onRunqueue = true) :
    FitsAt (k.threadFlagsWaitAll cfg t mask) t (.all mask) := by
  unfold Kernel.threadFlagsWaitAll
  split
  · rename_i hall
    exact .inr ⟨hrun, hall⟩
  · rename_i hmissing
    exact waiting_flagsWait cfg k t mask .flagBlockedAll hmissing

theorem fitsAt_waitAny_other (h : FitsAt k x c) (hx : x ≠ t) : FitsAt (k.threadFlagsWaitAny cfg t mask) x c := by
  unfold Kernel.threadFlagsWaitAny
  split
  · exact fitsAt_flagsWait h hx
  · exact h

theorem fitsAt_waitAll_other (h : FitsAt k x c) (hx : x ≠ t) : FitsAt (k.threadFlagsWaitAll cfg t mask) x c := by
  unfold Kernel.threadFlagsWaitAll
  split
  · exact h
  · exact fitsAt_flagsWait h hx

/-! ### Every step -/

theorem Sound.enter (h : ∀ x, x ≠ t → FitsAt k x (s.call x)) (hself : FitsAt k t c) :
    ((s.onKernel k).enter t c).Sound := by
  intro x
  change FitsAt k x (update s.call t c x)
  by_cases hx : x = t
  · subst hx
    rw [update_self]; exact hself
  · rw [update_of_ne hx]; exact h x hx

theorem Sound.clearAtomic (h : s.Sound) (hrun : s.runs t = true) (mask : BitVec 16) : (s.clearAtomic t mask).Sound := by
  intro x
  change FitsAt (s.kernel.threadFlagsClear t (mask &&& s.kernel.flags t)) x (update s.call t .idle x)
  by_cases hx : x = t
  · subst hx
    rw [update_self]; exact onRunqueue_ne hrun
  · rw [update_of_ne hx]
    exact (h x).congr rfl (update_of_ne hx ..) rfl

theorem finish_eq (hs : s.finish t = some u) : ∃ mask, u = s.clearAtomic t mask := by
  unfold FlagWaits.finish at hs
  split at hs
  · exact ⟨_, (some.inj hs).symm⟩
  · exact ⟨_, (some.inj hs).symm⟩
  · exact ⟨_, (some.inj hs).symm⟩
  · cases hs

theorem Sound.finish (h : s.Sound) (hrun : s.runs t = true) (hs : s.finish t = some u) : u.Sound := by
  obtain ⟨mask, rfl⟩ := finish_eq hs
  exact h.clearAtomic hrun mask

theorem Sound.look (h : s.Sound) (hrun : s.runs t = true) (hs : s.look t = some u) : u.Sound := by
  unfold FlagWaits.look at hs
  split at hs
  · rename_i mask hcall
    cases hs
    refine Sound.enter (k := s.kernel) (fun x _ => h x) ⟨hrun, BitVec.and_self, ?_, rfl⟩
    have hfits := h t
    rw [hcall] at hfits
    rcases hfits with ⟨hblocked, -⟩ | ⟨-, hthere⟩
    · exact absurd hblocked (onRunqueue_ne hrun).1
    · exact hthere
  · cases hs

theorem step_sound (h : s.Sound) (hl : s.Lawful op) (hs : step cfg s op = some u) : u.Sound := by
  cases op with
  | set t mask =>
    cases hs; exact fun x => fitsAt_set cfg mask (h x)
  | arrive t =>
    cases hs
    exact fun x => fitsAt_raise cfg threadFlagMsgWaiting (h x)
  | other k =>
    cases hs; exact h.other hl
  | clear t mask =>
    obtain ⟨⟨-, hrun⟩, hs⟩ := ite_none_right_eq_some.mp hs
    cases hs; exact h.clearAtomic hrun mask
  | waitAny t mask =>
    obtain ⟨⟨-, hrun⟩, hs⟩ := ite_none_right_eq_some.mp hs
    cases hs
    exact Sound.enter (fun x hx => fitsAt_waitAny_other (h x) hx) (fitsAt_waitAny hrun (.inl rfl))
  | waitOne t mask =>
    obtain ⟨⟨-, hrun⟩, hs⟩ := ite_none_right_eq_some.mp hs
    cases hs
    exact Sound.enter (fun x hx => fitsAt_waitAny_other (h x) hx) (fitsAt_waitAny hrun (.inr rfl))
  | waitAll t mask =>
    obtain ⟨⟨-, hrun⟩, hs⟩ := ite_none_right_eq_some.mp hs
    cases hs
    exact Sound.enter (fun x hx => fitsAt_waitAll_other (h x) hx) (fitsAt_waitAll hrun)
  | look t =>
    obtain ⟨hrun, hs⟩ := ite_none_right_eq_some.mp hs
    exact h.look hrun hs
  | finish t =>
    obtain ⟨hrun, hs⟩ := ite_none_right_eq_some.mp hs
    exact h.finish hrun hs

theorem reach_sound {s0 : FlagWaits τ μ β γ κ} (hfresh : s0.Fresh) (h : ReachVia (step cfg) Lawful s0 s) : s.Sound :=
  h.inv Sound hfresh.sound fun _ _ _ hs hl hstep => step_sound hs hl hstep

/-! ### What a wait returns -/

def Clears (s u : FlagWaits τ μ β γ κ) (t : τ) (v : BitVec 16) : Prop :=
  v = s.kernel.flags t &&& ~~~u.kernel.flags t ∧ u.kernel.flags t = s.kernel.flags t &&& ~~~v ∧
    ∀ x, x ≠ t → u.kernel.flags x = s.kernel.flags x

def Due (flags v : BitVec 16) : FlagCall → Prop
  | .any mask => v = flags &&& mask ∧ v ≠ 0#16
  | .all mask => v = mask
  | .chosen mask seen _ => Lowest (seen &&& mask) v
  | _ => False

theorem clears_clearAtomic (s : FlagWaits τ μ β γ κ) (t : τ) (mask : BitVec 16) :
    s.Clears (s.clearAtomic t mask) t (mask &&& s.kernel.flags t) := by
  have hflags : (s.clearAtomic t mask).kernel.flags t = s.kernel.flags t &&& ~~~(mask &&& s.kernel.flags t) :=
    update_self ..
  refine ⟨?_, hflags, fun x hx => update_of_ne hx ..⟩
  rw [hflags]
  refine eq_of_getLsbD_eq fun i hi => ?_
  simp only [getLsbD_and, getLsbD_not, hi, decide_true, Bool.true_and]
  cases mask.getLsbD i <;> cases (s.kernel.flags t).getLsbD i <;> rfl

theorem and_flags_of_chosen {flags seen mask bit : BitVec 16} (hb : Lowest (seen &&& mask) bit)
    (hs : seen &&& flags = seen) : bit &&& flags = bit := by
  obtain ⟨k, -, rfl, hk, -⟩ := hb
  have hseen : seen.getLsbD k = true := by
    rw [getLsbD_and, Bool.and_eq_true] at hk; exact hk.1
  have hflag : flags.getLsbD k = true := by
    rw [← hs, getLsbD_and, Bool.and_eq_true] at hseen; exact hseen.2
  rw [BitVec.and_comm, and_twoPow, if_pos hflag]

theorem finish_returns (h : s.Sound) (hs : step cfg s (.finish t) = some u) :
    s.Clears u t (u.result t) ∧ Due (s.kernel.flags t) (u.result t) (s.call t) := by
  obtain ⟨hrun, hs⟩ := ite_none_right_eq_some.mp hs
  have hst := onRunqueue_ne hrun
  have hfits := h t
  have hresult : ∀ mask, (s.clearAtomic t mask).result t = mask &&& s.kernel.flags t := fun mask => update_self ..
  cases hc : s.call t with
  | idle | one mask => simp [FlagWaits.finish, hc] at hs
  | any mask =>
    simp only [FlagWaits.finish, hc, some.injEq] at hs
    rw [hc] at hfits
    subst hs
    rw [hresult]
    refine ⟨clears_clearAtomic s t mask, BitVec.and_comm .., ?_⟩
    rw [BitVec.and_comm]
    exact (hfits.resolve_left fun hb => hst.1 hb.1).2
  | all mask =>
    simp only [FlagWaits.finish, hc, some.injEq] at hs
    rw [hc] at hfits
    subst hs
    rw [hresult]
    refine ⟨clears_clearAtomic s t mask, ?_⟩
    rw [BitVec.and_comm]
    exact (hfits.resolve_left fun hb => hst.2 hb.1).2
  | chosen mask seen tmp =>
    simp only [FlagWaits.finish, hc, some.injEq] at hs
    rw [hc] at hfits
    obtain ⟨-, hseen, hne, rfl⟩ := hfits
    subst hs
    rw [hresult]
    refine ⟨clears_clearAtomic s t _, ?_⟩
    have hbit := lowest_leastSignificant hne
    rw [and_flags_of_chosen hbit hseen]; exact hbit

theorem look_reads (hs : step cfg s (.look t) = some u) :
    ∃ mask tmp, s.call t = .one mask ∧ u.call t = .chosen mask (s.kernel.flags t) tmp := by
  obtain ⟨-, hs⟩ := ite_none_right_eq_some.mp hs
  unfold FlagWaits.look at hs
  split at hs
  · rename_i mask hcall
    cases hs; exact ⟨mask, _, hcall, update_self ..⟩
  · cases hs

theorem goes_on (hc : s.call t ≠ .idle) (hrun : s.runs t = true) :
    ∃ op u, (op = .look t ∨ op = .finish t) ∧ step cfg s op = some u := by
  cases h : s.call t with
  | idle => exact absurd h hc
  | one mask => exact ⟨.look t, _, .inl rfl, by simp only [step, hrun, if_true, FlagWaits.look, h]; rfl⟩
  | any mask | all mask | chosen mask seen tmp =>
    exact ⟨.finish t, _, .inr rfl, by simp only [step, hrun, if_true, FlagWaits.finish, h]; rfl⟩

/-- A thread that is blocked misses flags it waits for, one that is not goes on, and a
wait returns the flags it clears. The lowest flag is the lowest of those set when
`thread_flags_wait_one` reads them. -/
theorem flags_lose_no_wakeup (cfg : Config) (s0 s : FlagWaits τ μ β γ κ) (hfresh : s0.Fresh)
    (h : ReachVia (step cfg) Lawful s0 s) :
    (∀ t mask, s.call t = .any mask ∨ s.call t = .one mask → s.runs t = false → s.kernel.flags t &&& mask = 0#16) ∧
    (∀ t mask, s.call t = .all mask → s.runs t = false → s.kernel.flags t &&& mask ≠ mask) ∧
    (∀ t, s.call t ≠ .idle → s.runs t = true →
      ∃ op u, (op = .look t ∨ op = .finish t) ∧ step cfg s op = some u) ∧
    (∀ t u, step cfg s (.look t) = some u →
      ∃ mask tmp, s.call t = .one mask ∧ u.call t = .chosen mask (s.kernel.flags t) tmp) ∧
    ∀ t u, step cfg s (.finish t) = some u →
      s.Clears u t (u.result t) ∧ Due (s.kernel.flags t) (u.result t) (s.call t) := by
  have hsound := reach_sound hfresh h
  refine ⟨fun t mask hc hoff => ?_, fun t mask hc hoff => ?_, fun t hc hrun => goes_on hc hrun,
    fun t u hs => look_reads hs, fun t u hs => finish_returns hsound hs⟩
  · have hfits := hsound t
    have hwaiting : Waiting .flagBlockedAny (s.kernel.sched.status t) (s.kernel.waitData t) mask
        (s.kernel.flags t &&& mask ≠ 0#16) := by
      rcases hc with hc | hc <;> (rw [hc] at hfits; exact hfits)
    rcases hwaiting with ⟨-, -, hmissing⟩ | ⟨hrun, -⟩
    · exact not_not.mp hmissing
    · exact absurd (hoff.symm.trans hrun) Bool.false_ne_true
  · have hfits := hsound t
    rw [hc] at hfits
    rcases hfits with ⟨-, -, hmissing⟩ | ⟨hrun, -⟩
    · exact hmissing
    · exact absurd (hoff.symm.trans hrun) Bool.false_ne_true

end

section

def twoIdle : FlagWaits (Fin 2) Empty Empty Empty Empty where
  kernel := Kernel.twoThreads
  call _ := .idle
  result _ := 0#16

theorem twoIdle_fresh : twoIdle.Fresh := by
  intro t
  match t with
  | 0 => exact ⟨rfl, by decide, by decide⟩
  | 1 => exact ⟨rfl, by decide, by decide⟩

theorem one_flag_returned : ∃ s u, ReachVia (step Sched.twoLevels) Lawful twoIdle s ∧
    step Sched.twoLevels s (.finish 0) = some u ∧ s.kernel.flags 0 = 6#16 ∧ u.result 0 = 2#16 ∧ s.Clears u 0 2#16 := by
  have h1 : ReachVia (step Sched.twoLevels) Lawful twoIdle _ := .next .start (a := FlagOp.waitOne 0 6#16) trivial rfl
  have h2 := h1.next (a := FlagOp.set 0 6#16) trivial rfl
  have h3 := h2.next (a := FlagOp.look 0) trivial rfl
  exact ⟨_, _, h3, rfl, rfl, rfl, ((flags_lose_no_wakeup _ _ _ twoIdle_fresh h3).2.2.2.2 0 _ rfl).1⟩

/-- The lower of two flags is set between the read and the clearing. -/
theorem lower_flag_left : ∃ s u, ReachVia (step Sched.twoLevels) Lawful twoIdle s ∧
    step Sched.twoLevels s (.finish 0) = some u ∧ s.kernel.flags 0 &&& 6#16 = 6#16 ∧ u.result 0 = 4#16 ∧
    ¬ Lowest (s.kernel.flags 0 &&& 6#16) (u.result 0) := by
  have h1 : ReachVia (step Sched.twoLevels) Lawful twoIdle _ := .next .start (a := FlagOp.waitOne 0 6#16) trivial rfl
  have h2 := h1.next (a := FlagOp.set 0 4#16) trivial rfl
  have h3 := h2.next (a := FlagOp.look 0) trivial rfl
  have h4 := h3.next (a := FlagOp.set 0 2#16) trivial rfl
  exact ⟨_, _, h4, rfl, rfl, rfl, show ¬ Lowest 6#16 4#16 by unfold Lowest; decide⟩

end

end FlagWaits

end PipRiot.Core
