import PipRiot.Core.Runqueue

/-!
# Changing a priority

`sched_change_priority` takes a ready thread off its queue by popping the head,
which is another thread unless the named one stands first.
-/

namespace PipRiot.Core.Sched

open Function List Option

section
variable {τ : Type} [DecidableEq τ]

def withPriority (s : Sched τ) (t : τ) (priority : Nat) : Sched τ :=
  { s with priority := update s.priority t priority }

def movePriority (cfg : Config) (s : Sched τ) (t : τ) (priority : Nat) : Sched τ :=
  let s := if (s.status t).onRunqueue then runqueuePush cfg (runqueuePop cfg s t) t priority else s
  s.withPriority t priority

def mustYield (s : Sched τ) (t : τ) (priority : Nat) : Bool :=
  match s.active with
  | none => false
  | some a => decide (a = t) || (decide (priority < s.priority a) && (s.status t).onRunqueue)

/-- With the scheduler run behind `thread_yield_higher`; `none` as well if the
assertion fails. -/
def changePriority (cfg : Config) (s : Sched τ) (t : τ) (priority : Nat) : Option (Sched τ) :=
  if cfg.levels ≤ priority then none
  else if s.priority t = priority then some s
  else
    let s := s.movePriority cfg t priority
    if s.mustYield t priority then (run cfg s).map Prod.fst else some s

def Requeued (cfg : Config) (q : Nat → List τ) (t : τ) (p : Nat) (u : Sched τ) : Prop :=
  ∃ q', Queues cfg u q' ∧ (t ∈ q' p ↔ (u.status t).onRunqueue = true) ∧
    ∀ t' ≠ t, ∀ p', t' ∈ q' p' ↔ t' ∈ q p'

variable {cfg : Config} {s u : Sched τ} {q : Nat → List τ} {t : τ} {p : Nat}

/-! ## A thread at the head, or off the queues -/

theorem Queues.withPriority (h : Queues cfg s q) (hoff : (s.status t).onRunqueue = false) (hp : p < cfg.levels) :
    Queues cfg (s.withPriority t p) q := by
  have hno : ∀ p', t ∉ q p' := fun p' hm => by simp [((h.mem p' t).mp hm).2] at hoff
  refine ⟨?_, h.ring, ?_, h.bit⟩
  · intro t'
    by_cases e : t' = t
    · subst e; simpa [Sched.withPriority] using hp
    · simpa [Sched.withPriority, update_of_ne e] using h.level t'
  · intro p' t'
    by_cases e : t' = t
    · subst e; simp [Sched.withPriority, hno p', hoff]
    · simp [Sched.withPriority, update_of_ne e, h.mem]

theorem movePriority_eq (hon : (s.status t).onRunqueue = true) : s.movePriority cfg t p =
    (runqueuePush cfg (((runqueuePop cfg s t).withStatus t .sleeping).withPriority t p) t p).withStatus t
      (s.status t) := by
  have hst : update (update s.status t .sleeping) t (s.status t) = s.status := by
    rw [update_idem, update_eq_self]
  simp only [movePriority, hon, if_true, runqueuePush, runqueuePop, Sched.withStatus, Sched.withPriority, hst]

theorem Queues.movePriority (h : Queues cfg s q) (hp : p < cfg.levels) (hne : s.priority t ≠ p)
    (hhead : (s.status t).onRunqueue = true → (q (s.priority t)).head? = some t) :
    Requeued cfg q t p (s.movePriority cfg t p) := by
  cases hon : (s.status t).onRunqueue with
  | false =>
    have hmove : s.movePriority cfg t p = s.withPriority t p := by simp [Sched.movePriority, hon]
    have hq := h.withPriority hon hp
    rw [hmove]
    refine ⟨q, hq, ?_, fun _ _ _ => Iff.rfl⟩
    rw [hq.mem]
    simp [Sched.withPriority]
  | true =>
    obtain ⟨l, hl⟩ := head?_eq_some_iff.mp (hhead hon)
    have hsleep : Status.sleeping.onRunqueue = false := rfl
    have hpop := h.pop hl hsleep
    have hoff : (((runqueuePop cfg s t).withStatus t .sleeping).status t).onRunqueue = false := by
      simp [Sched.withStatus, Status.onRunqueue, Status.code]
    have hset := hpop.withPriority hoff hp
    have hprio : (((runqueuePop cfg s t).withStatus t .sleeping).withPriority t p).priority t = p := update_self ..
    have hpush := hset.push hoff hon
    rw [hprio, ← movePriority_eq hon] at hpush
    refine ⟨_, hpush, ?_, ?_⟩
    · rw [hpush.mem]
      simp [Sched.movePriority, Sched.withPriority]
    · intro t' ht' p'
      by_cases e : p' = p
      · subst e
        rw [update_self, mem_append, update_of_ne (Ne.symm hne)]
        simp [ht']
      · rw [update_of_ne e]
        by_cases e' : p' = s.priority t
        · subst e'
          rw [update_self, hl]
          simp [ht']
        · rw [update_of_ne e']

theorem Requeued.run {r : Option τ} {v : Sched τ} (h : Requeued cfg q t p u) (hr : Sched.run cfg u = some (v, r)) :
    Requeued cfg q t p v := by
  obtain ⟨q', hq', hmem, hkeep⟩ := h
  obtain ⟨hv, -⟩ := hq'.run hr
  refine ⟨q', hv, ?_, hkeep⟩
  by_cases hon : t ∈ q' p
  · exact ⟨fun _ => ((hv.mem p t).mp hon).2, fun _ => hon⟩
  · refine ⟨fun hc => absurd hc hon, fun hc => ?_⟩
    have hown := (hq'.mem _ t).mp (hv.mem_own.mpr hc)
    exact hmem.mpr hown.2

/-! ## A thread behind another one -/

theorem Queues.no_next_of_popped (h : Queues cfg s q) {a b : τ} {l : List τ} (hne : s.priority t ≠ p)
    (hl : q (s.priority t) = a :: l) (ht : t ∈ l) (hb : b ≠ t) (hbp : b ∉ q p) (hbq : b ∈ a :: l) :
    (runqueuePush cfg (runqueuePop cfg s t) t p).next b ≠ some a := by
  have hring : Clist.Ring s.next (s.runqueues (s.priority t)) (a :: l) := hl ▸ h.ring _
  have hnd := nodup_cons.mp hring.nodup
  have hringp : Clist.Ring (runqueuePop cfg s t).next ((runqueuePop cfg s t).runqueues p) (q p) := by
    simp only [runqueuePop, update_of_ne (Ne.symm hne)]
    refine (h.ring p).congr fun c hc => hring.lpop_frame ?_
    intro hc'
    exact hne (((h.mem _ c).mp (hl ▸ hc')).1.symm.trans ((h.mem _ c).mp hc).1)
  rw [show (runqueuePush cfg (runqueuePop cfg s t) t p).next b = (runqueuePop cfg s t).next b from
    hringp.rpush_frame hbp hb]
  have hpopped : Clist.Ring (runqueuePop cfg s t).next _ l := hring.lpop
  intro hnext
  rcases mem_cons.mp hbq with rfl | hbl
  · -- the pointer of the head itself has not changed, and it leads on
    have hlast : s.runqueues (s.priority t) ≠ some b := by
      rw [hring.last]
      obtain ⟨xs, z, rfl⟩ := (eq_nil_or_concat' l).resolve_left (ne_nil_of_mem ht)
      rw [← cons_append, getLast?_concat]
      intro e; exact hnd.1 (by simp [some.inj e])
    have hsame : (runqueuePop cfg s t).next b = s.next b := Clist.Ring.lpop_same hlast
    cases l with
    | nil => cases ht
    | cons c l =>
      rw [hsame, (isChain_cons_cons.mp hring.chain).1] at hnext
      exact hnd.1 (by simp [some.inj hnext])
  · obtain ⟨c, hc, hnext'⟩ := hpopped.next_mem hbl
    rw [hnext] at hnext'; exact hnd.1 (some.inj hnext' ▸ hc)

theorem Queues.head_of_movePriority (h : Queues cfg s q) (hne : s.priority t ≠ p) {q' : Nat → List τ}
    (hq' : Queues cfg (s.movePriority cfg t p) q') (hon : (s.status t).onRunqueue = true) :
    (q (s.priority t)).head? = some t := by
  have hmove : s.movePriority cfg t p = (runqueuePush cfg (runqueuePop cfg s t) t p).withPriority t p := by
    simp [Sched.movePriority, hon]
  have hmem := h.mem_own.mpr hon
  cases hl : q (s.priority t) with
  | nil =>
    rw [hl] at hmem; cases hmem
  | cons a l =>
    by_contra hhead
    have hat : a ≠ t := fun e => hhead (congrArg some e)
    rw [hl] at hmem
    have ht : t ∈ l := (mem_cons.mp hmem).resolve_left (Ne.symm hat)
    have ha := (h.mem _ a).mp (hl ▸ mem_cons_self : a ∈ q (s.priority t))
    have hprio : ∀ b, (s.movePriority cfg t p).priority b = if b = t then p else s.priority b := by
      intro b
      rw [hmove]; exact update_apply ..
    have hstatus : (s.movePriority cfg t p).status = s.status := by rw [hmove]; rfl
    have hown : a ∈ q' (s.priority t) := by
      rw [hq'.mem, hprio, if_neg hat, hstatus]; exact ha
    -- the thread in front of the popped head has kept its priority, so it is in the old queue
    obtain ⟨b, hb, hnext⟩ := (hq'.ring _).exists_next hown
    have hbmem := (hq'.mem _ b).mp hb
    rw [hprio, hstatus] at hbmem
    have hbt : b ≠ t := by
      rintro rfl
      rw [if_pos rfl] at hbmem; exact hne hbmem.1.symm
    rw [if_neg hbt] at hbmem
    have hbq : b ∈ a :: l := hl ▸ (h.mem _ b).mpr hbmem
    have hbp : b ∉ q p := fun hc => hne (hbmem.1.symm.trans ((h.mem _ b).mp hc).1)
    refine h.no_next_of_popped hne hl ht hbt hbp hbq ?_
    rw [← hnext, hmove]; rfl

/-- The queues are right when interrupts are enabled again and when the call returns,
which it does if an idle thread is ready. -/
structure ChangeRequeues (cfg : Config) (s : Sched τ) (q : Nat → List τ) (t : τ) (p : Nat) : Prop where
  moved : s.priority t ≠ p → Requeued cfg q t p (s.movePriority cfg t p)
  after : ∀ u, changePriority cfg s t p = some u → Requeued cfg q t p u
  returns : (cfg.idleThread = true → ∃ a, (s.status a).onRunqueue = true) → ∃ u, changePriority cfg s t p = some u

theorem run_returns {q' : Nat → List τ} (h : Queues cfg u q')
    (hidle : cfg.idleThread = true → ∃ a, (u.status a).onRunqueue = true) : ∃ v, Sched.run cfg u = some v := by
  by_cases hready : ∃ a, (u.status a).onRunqueue = true
  · obtain ⟨a, ha⟩ := hready
    obtain ⟨v, a', hv⟩ := h.run_total ha
    exact ⟨_, hv⟩
  · have hoff : cfg.idleThread = false := Bool.eq_false_of_not_eq_true fun hi => hready (hidle hi)
    have hz : u.bitcache = 0#32 := by
      rw [h.bitcache_eq_zero_iff]
      intro p'
      rw [eq_nil_iff_forall_not_mem]
      exact fun a ha => hready ⟨a, ((h.mem p' a).mp ha).2⟩
    exact ⟨_, if_pos ⟨hoff, hz⟩⟩

theorem changePriority_requeues_iff (cfg : Config) (s : Sched τ) (q : Nat → List τ) (h : Queues cfg s q)
    (t : τ) (p : Nat) (hp : p < cfg.levels) : ChangeRequeues cfg s q t p ↔
      s.priority t = p ∨ (s.status t).onRunqueue = false ∨
        Clist.lpeek s.next (s.runqueues (s.priority t)) = some t := by
  rw [(h.ring _).lpeek_eq]
  by_cases hne : s.priority t = p
  · have hchange : changePriority cfg s t p = some s := by
      rw [changePriority, if_neg (not_le.mpr hp), if_pos hne]
    refine ⟨fun _ => .inl hne, fun _ => ⟨fun hc => absurd hne hc, ?_, fun _ => ⟨s, hchange⟩⟩⟩
    intro u hu
    rw [hchange] at hu
    cases hu
    exact ⟨q, h, by rw [← hne, h.mem_own], fun _ _ _ => Iff.rfl⟩
  · have hchange : changePriority cfg s t p = if (s.movePriority cfg t p).mustYield t p
        then (Sched.run cfg (s.movePriority cfg t p)).map Prod.fst else some (s.movePriority cfg t p) := by
      rw [changePriority, if_neg (not_le.mpr hp), if_neg hne]
    constructor
    · intro hc
      obtain ⟨q', hq', -⟩ := hc.moved hne
      cases hon : (s.status t).onRunqueue with
      | false => exact .inr (.inl rfl)
      | true => exact .inr (.inr (h.head_of_movePriority hne hq' hon))
    · intro hcond
      have hmoved : Requeued cfg q t p (s.movePriority cfg t p) := by
        refine h.movePriority hp hne fun hon => ?_
        rcases hcond with hc | hc | hc
        · exact absurd hc hne
        · rw [hon] at hc; cases hc
        · exact hc
      refine ⟨fun _ => hmoved, ?_, ?_⟩
      · intro u hu
        rw [hchange] at hu
        split at hu
        · obtain ⟨⟨v, r⟩, hv, rfl⟩ := map_eq_some_iff.mp hu
          exact hmoved.run hv
        · cases hu; exact hmoved
      · intro hidle
        obtain ⟨q', hq', -⟩ := hmoved
        have hstatus : (s.movePriority cfg t p).status = s.status := by
          simp only [Sched.movePriority]
          split <;> rfl
        obtain ⟨v, hv⟩ := run_returns hq' (by rw [hstatus]; exact hidle)
        rw [hchange, hv]
        split
        · exact ⟨v.1, rfl⟩
        · exact ⟨_, rfl⟩

end

/-! ## Two threads -/

theorem changePriority_requeues_running : ∃ s : Sched (Fin 2), ∃ q, Queues twoLevels s q ∧ s.active = some 0 ∧
    s.priority 0 = 1 ∧ ChangeRequeues twoLevels s q 0 0 := by
  obtain ⟨q, hq⟩ := reach_queues reach_twoRunning
  exact ⟨_, q, hq, rfl, rfl, (changePriority_requeues_iff twoLevels _ q hq 0 0 (by decide)).mpr (.inr (.inr rfl))⟩

/-- The second thread of a queue gets a higher priority: the running thread is off
its queue, which still ends in the second one. -/
theorem changePriority_drops_running :
    ∃ s u : Sched (Fin 2), ReachVia (step twoLevels) Good init s ∧ s.active = some 0 ∧
    s.status 1 = .pending ∧ changePriority twoLevels s 1 0 = some u ∧ u.status 0 = .pending ∧ u.priority 0 = 1 ∧
    u.runqueues 1 = some 1 ∧ u.priority 1 = 0 ∧ ∀ q, ¬ Queues twoLevels u q := by
  refine ⟨_, _, reach_twoRunning, rfl, rfl, rfl, rfl, rfl, rfl, rfl, ?_⟩
  intro q hq
  have hin := (hq.ring 1).last_mem (a := 1) rfl
  cases ((hq.mem 1 1).mp hin).1

end PipRiot.Core.Sched
