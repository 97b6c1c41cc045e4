import PipRiot.Core.Sched

/-!
# The run queues

`Queues` relates a state of the scheduler to one list of threads for each
priority. Every step of the scheduler is an operation on these lists: a thread is
appended, the head goes, or the head moves to the end.
-/

namespace PipRiot.Core.Sched

open Function List Option

section
variable {τ : Type}

structure Queues (cfg : Config) (s : Sched τ) (q : Nat → List τ) : Prop where
  level : ∀ t, s.priority t < cfg.levels
  ring : ∀ p, Clist.Ring s.next (s.runqueues p) (q p)
  mem : ∀ p t, t ∈ q p ↔ s.priority t = p ∧ (s.status t).onRunqueue = true
  bit : ∀ p < 32, hasBit cfg s.bitcache p = true ↔ q p ≠ []

namespace Queues

variable {cfg : Config} {s : Sched τ} {q : Nat → List τ} {t : τ} {st : Status} {p : Nat}

theorem init (cfg : Config) : Queues cfg (Sched.init : Sched τ) fun _ => [] where
  level _ := cfg.levels_pos
  ring _ := Clist.Ring.nil _
  mem p t := by simp [Sched.init, Status.onRunqueue, Status.code]
  bit p hp := by simp [Sched.init, hasBit]

section
variable (h : Queues cfg s q)
include h

theorem level_lt (t : τ) : s.priority t < 32 := lt_of_lt_of_le (h.level t) cfg.levels_le

theorem mem_own : t ∈ q (s.priority t) ↔ (s.status t).onRunqueue = true := by
  simp [h.mem]

theorem advance (p : Nat) : Queues cfg (s.runqAdvance p) (update q p ((q p).rotate 1)) where
  level := h.level
  ring p' := by
    by_cases e : p' = p
    · subst e
      simp only [runqAdvance, update_self]
      have hring := h.ring p'
      cases hl : q p' with
      | nil =>
        rw [hl] at hring
        rw [hring.eq_none_iff.mpr rfl]; exact Clist.Ring.nil _
      | cons a l =>
        rw [hl] at hring
        rw [rotate_cons_succ, rotate_zero]; exact hring.lpoprpush
    · simp only [runqAdvance, update_of_ne e]; exact h.ring p'
  mem p' t := by
    by_cases e : p' = p
    · subst e
      rw [update_self, mem_rotate]; exact h.mem p' t
    · rw [update_of_ne e]; exact h.mem p' t
  bit p' hp := by
    by_cases e : p' = p
    · subst e
      rw [update_self, Ne, rotate_eq_nil_iff]; exact h.bit p' hp
    · rw [update_of_ne e]; exact h.bit p' hp

theorem bitcache_eq_zero_iff : s.bitcache = 0#32 ↔ ∀ p, q p = [] := by
  constructor
  · intro hz p
    by_cases hp : p < 32
    · have := h.bit p hp
      simpa [hz, hasBit] using this
    · rw [eq_nil_iff_forall_not_mem]
      intro t ht
      exact hp (((h.mem p t).mp ht).1 ▸ h.level_lt t)
  · intro hq
    apply eq_zero_of_hasBit cfg
    intro p hp
    have := h.bit p hp
    simpa [hq p] using this

theorem next_queue (hz : s.bitcache ≠ 0#32) :
    ∃ t l, q (getPrioQueueFromRunqueue cfg s.bitcache) = t :: l ∧
      ∀ p < getPrioQueueFromRunqueue cfg s.bitcache, q p = [] := by
  obtain ⟨hlt, hset, hlow⟩ := getPrio_spec cfg hz
  obtain ⟨t, l, hl⟩ := exists_cons_of_ne_nil ((h.bit _ hlt).mp hset)
  refine ⟨t, l, hl, ?_⟩
  intro p hp
  have := h.bit p (lt_trans hp hlt)
  simpa [hlow p hp] using this

end

variable [DecidableEq τ]

section
variable (h : Queues cfg s q)
include h

theorem withStatus (hst : st.onRunqueue = (s.status t).onRunqueue) : Queues cfg (s.withStatus t st) q where
  level := h.level
  ring := h.ring
  mem p t' := by
    rw [h.mem]
    by_cases e : t' = t
    · subst e; simp [Sched.withStatus, hst]
    · simp [Sched.withStatus, update_of_ne e]
  bit := h.bit

theorem push (hoff : (s.status t).onRunqueue = false) (hst : st.onRunqueue = true) :
    Queues cfg ((runqueuePush cfg s t (s.priority t)).withStatus t st)
      (update q (s.priority t) (q (s.priority t) ++ [t])) where
  level := h.level
  ring p := by
    have hno : ∀ p, t ∉ q p := fun p hm => by simp [((h.mem p t).mp hm).2] at hoff
    by_cases hp : p = s.priority t
    · subst hp
      simp only [Sched.withStatus, runqueuePush, update_self]
      exact (h.ring _).rpush (hno _)
    · simp only [Sched.withStatus, runqueuePush, update_of_ne hp]
      -- the other queues share no thread with this one
      refine (h.ring p).congr fun b hb => (h.ring _).rpush_frame ?_ fun e => hno p (e ▸ hb)
      intro hb'
      exact hp (((h.mem _ b).mp hb).1.symm.trans ((h.mem _ b).mp hb').1)
  mem p t' := by
    by_cases hp : p = s.priority t
    · subst hp
      by_cases e : t' = t
      · subst e; simp [Sched.withStatus, runqueuePush, hst]
      · simp [Sched.withStatus, runqueuePush, e, h.mem]
    · rw [update_of_ne hp, h.mem]
      by_cases e : t' = t
      · subst e
        constructor
        · intro hc; exact absurd hc.1.symm hp
        · intro hc; exact absurd hc.1.symm hp
      · simp [Sched.withStatus, runqueuePush, update_of_ne e]
  bit p hp := by
    simp only [Sched.withStatus, runqueuePush, hasBit_set (h.level_lt t) hp, Bool.or_eq_true, h.bit p hp,
      decide_eq_true_eq]
    by_cases e : p = s.priority t
    · subst e; simp
    · simp [e]

theorem pop {l : List τ} (hl : q (s.priority t) = t :: l) (hst : st.onRunqueue = false) :
    Queues cfg ((runqueuePop cfg s t).withStatus t st) (update q (s.priority t) l) := by
  have hring : Clist.Ring s.next (s.runqueues (s.priority t)) (t :: l) := hl ▸ h.ring _
  have hnd := nodup_cons.mp hring.nodup
  refine ⟨h.level, ?_, ?_, ?_⟩
  · intro p
    by_cases hp : p = s.priority t
    · subst hp
      simp only [Sched.withStatus, runqueuePop, update_self]; exact hring.lpop
    · simp only [Sched.withStatus, runqueuePop, update_of_ne hp]
      refine (h.ring p).congr fun b hb => hring.lpop_frame ?_
      intro hb'
      exact hp (((h.mem _ b).mp hb).1.symm.trans ((h.mem _ b).mp (hl ▸ hb')).1)
  · intro p t'
    by_cases e : t' = t
    · subst e
      have hoff : ((runqueuePop cfg s t').withStatus t' st).status t' = st := update_self ..
      rw [hoff, hst]
      simp only [Bool.false_eq_true, and_false, iff_false]
      by_cases hp : p = s.priority t'
      · subst hp
        rw [update_self]; exact hnd.1
      · rw [update_of_ne hp, h.mem]; exact fun hc => hp hc.1.symm
    · have hsame : ((runqueuePop cfg s t).withStatus t st).status t' = s.status t' := update_of_ne e ..
      have hmem := h.mem p t'
      rw [hsame]
      by_cases hp : p = s.priority t
      · subst hp
        rw [hl, mem_cons] at hmem
        rw [update_self]
        exact ⟨fun hm => hmem.mp (.inr hm), fun hc => (hmem.mpr hc).resolve_left e⟩
      · rw [update_of_ne hp]; exact hmem
  · intro p hp
    have hnil := hring.lpop.eq_none_iff
    by_cases e : p = s.priority t
    · subst e
      have hb : hasBit cfg s.bitcache (s.priority t) = true := (h.bit _ hp).mpr (by simp [hl])
      simp only [Sched.withStatus, runqueuePop]
      split
      · rename_i hn
        simp [hasBit_clear hp hp, hnil.mp hn]
      · rename_i hn
        simp [hb, mt hnil.mpr hn]
    · rw [update_of_ne e, ← h.bit p hp]
      simp only [Sched.withStatus, runqueuePop]
      split
      · simp [hasBit_clear (h.level_lt t) hp, e]
      · rfl

theorem addThread (hoff : (s.status t).onRunqueue = false) (hp : p < cfg.levels) (pid : Nat) :
    Queues cfg (s.addThread t pid p) q := by
  have hno : ∀ p', t ∉ q p' := fun p' hm => by simp [((h.mem p' t).mp hm).2] at hoff
  refine ⟨?_, ?_, ?_, h.bit⟩
  · intro t'
    by_cases e : t' = t
    · subst e; simpa [Sched.addThread] using hp
    · simpa [Sched.addThread, update_of_ne e] using h.level t'
  · intro p'
    exact (h.ring p').congr fun b hb => update_of_ne (fun e : b = t => hno p' (e ▸ hb)) ..
  · intro p' t'
    by_cases e : t' = t
    · subst e
      simp [Sched.addThread, hno p', Status.onRunqueue, Status.code]
    · simp [Sched.addThread, update_of_ne e, h.mem]

theorem setStatus (t : τ) (st : Status)
    (hhead : (s.status t).onRunqueue = true → st.onRunqueue = false → (q (s.priority t)).head? = some t) :
    ∃ q', Queues cfg (s.setStatus cfg t st) q' ∧
      ∀ p a, a ≠ t → (q p).head? = some a → (q' p).head? = some a := by
  unfold Sched.setStatus
  cases hst : st.onRunqueue with
  | true =>
    cases hon : (s.status t).onRunqueue with
    | true => exact ⟨q, h.withStatus (hst.trans hon.symm), fun _ _ _ ha => ha⟩
    | false =>
      refine ⟨_, h.push hon hst, ?_⟩
      intro p a _ ha
      by_cases hp : p = s.priority t
      · subst hp
        rw [update_self, head?_append, ha, some_or]
      · rw [update_of_ne hp, ha]
  | false =>
    cases hon : (s.status t).onRunqueue with
    | true =>
      obtain ⟨l, hl⟩ := head?_eq_some_iff.mp (hhead hon hst)
      refine ⟨_, h.pop hl hst, ?_⟩
      intro p a hne ha
      by_cases hp : p = s.priority t
      · subst hp
        rw [hl] at ha; exact absurd (some.inj ha).symm hne
      · rw [update_of_ne hp, ha]
    | false => exact ⟨q, h.withStatus (hst.trans hon.symm), fun _ _ _ ha => ha⟩

theorem unscheduleCur (cur : Option τ) : Queues cfg (s.unscheduleCur cur) q := by
  cases cur with
  | none => exact h
  | some a =>
    simp only [Sched.unscheduleCur, Sched.unschedule]
    split
    · rename_i hr
      exact h.withStatus (by rw [hr]; rfl)
    · exact h

end

end Queues

/-- Queue `p` holds the threads ready at priority `p`, each once, and bit `p` says
whether there are any. -/
def RunqueuesExact (cfg : Config) (s : Sched τ) : Prop :=
  ∀ p < cfg.levels, ∃ l, Clist.Ring s.next (s.runqueues p) l ∧
    (∀ t, t ∈ l ↔ s.priority t = p ∧ (s.status t).onRunqueue = true) ∧
    (hasBit cfg s.bitcache p = true ↔ l ≠ [])

theorem Queues.exact {cfg : Config} {s : Sched τ} {q : Nat → List τ} (h : Queues cfg s q) :
    RunqueuesExact cfg s := fun p hp =>
  ⟨q p, h.ring p, h.mem p, h.bit p (lt_of_lt_of_le hp cfg.levels_le)⟩

/-! ## Choosing the next thread -/

def AtHead (s : Sched τ) : Prop :=
  ∀ a, s.active = some a → (s.status a).onRunqueue = true →
    Clist.lpeek s.next (s.runqueues (s.priority a)) = some a

theorem Queues.atHead_iff {cfg : Config} {s : Sched τ} {q : Nat → List τ} (h : Queues cfg s q) : AtHead s ↔
    ∀ a, s.active = some a → (s.status a).onRunqueue = true → (q (s.priority a)).head? = some a := by
  simp only [AtHead, (h.ring _).lpeek_eq]

variable [DecidableEq τ]

/-- What `sched_run` does when it returns `t`: only the thread that ran before and
`t` change their status. -/
structure Selects (s u : Sched τ) (t : τ) : Prop where
  head : ∃ p, Clist.lpeek s.next (s.runqueues p) = some t ∧ ∀ p' < p, s.runqueues p' = none
  active : u.active = some t
  running : u.status t = .running
  others : ∀ t' ≠ t, u.status t' =
    if s.active = some t' ∧ s.idling = false ∧ s.status t' = .running then .pending else s.status t'

variable {cfg : Config} {s u : Sched τ} {q : Nat → List τ} {t a : τ}

theorem unscheduleCur_frame (s : Sched τ) (cur : Option τ) :
    s.unscheduleCur cur = { s with status := (s.unscheduleCur cur).status } := by
  cases cur with
  | none => rfl
  | some a =>
    simp only [unscheduleCur, unschedule]
    split <;> rfl

theorem unscheduleCur_status (s : Sched τ) (cur : Option τ) (t : τ) :
    (s.unscheduleCur cur).status t = if cur = some t ∧ s.status t = .running then .pending else s.status t := by
  cases cur with
  | none => simp [unscheduleCur]
  | some a =>
    simp only [unscheduleCur, unschedule]
    by_cases e : a = t
    · subst e
      split <;> simp_all [withStatus]
    · split <;> simp [withStatus, e, Ne.symm e]

theorem Queues.dispatch (h : Queues cfg s q) (hz : s.bitcache ≠ 0#32) :
    ∃ u t, dispatch cfg s (if s.idling then none else s.active) = some (u, t) ∧
      Queues cfg u q ∧ (q (u.priority t)).head? = some t ∧ Selects s u t := by
  obtain ⟨t, l, hl, hlow⟩ := h.next_queue hz
  have hpeek := (h.ring (getPrioQueueFromRunqueue cfg s.bitcache)).lpeek_eq
  rw [hl, head?_cons] at hpeek
  have hmem := (h.mem (getPrioQueueFromRunqueue cfg s.bitcache) t).mp (by rw [hl]; exact mem_cons_self)
  have hq : (q (s.priority t)).head? = some t := by rw [hmem.1, hl, head?_cons]
  have hhead : ∃ p, Clist.lpeek s.next (s.runqueues p) = some t ∧ ∀ p' < p, s.runqueues p' = none :=
    ⟨_, hpeek, fun p' hp' => (h.ring p').eq_none_iff.mpr (hlow p' hp')⟩
  have hs1 : Queues cfg (s.markRunning t) q := by
    refine Queues.withStatus ⟨h.level, h.ring, h.mem, h.bit⟩ ?_
    rw [hmem.2]; rfl
  have hst : ∀ t' ≠ t, (s.markRunning t).status t' = s.status t' :=
    fun t' ht' => update_of_ne ht' ..
  have hrun : (s.markRunning t).status t = .running := update_self ..
  unfold Sched.dispatch
  rw [hpeek]
  by_cases hact : s.active = some t
  · refine ⟨_, t, if_pos hact, hs1, hq, hhead, hact, hrun, ?_⟩
    intro t' ht'
    have hne : ¬ s.active = some t' := fun e => ht' (some.inj (e.symm.trans hact))
    rw [hst t' ht', if_neg fun hc => hne hc.1]
  · have hcur : (if s.idling then none else s.active) ≠ some t := by
      split
      · exact fun e => some_ne_none t e.symm
      · exact hact
    refine ⟨_, t, if_neg hact, ?_, ?_, hhead, rfl, ?_, ?_⟩
    · have hu := hs1.unscheduleCur (if s.idling then none else s.active)
      exact ⟨hu.level, hu.ring, hu.mem, hu.bit⟩
    · rw [unscheduleCur_frame]; exact hq
    · show (((s.markRunning t).unscheduleCur _).status t) = .running
      rw [unscheduleCur_status, if_neg fun hc => hcur hc.1, hrun]
    · intro t' ht'
      show (((s.markRunning t).unscheduleCur _).status t') = _
      rw [unscheduleCur_status, hst t' ht']
      cases s.idling <;> simp

theorem Queues.run (h : Queues cfg s q) {r : Option τ} (hr : run cfg s = some (u, r)) :
    Queues cfg u q ∧ AtHead u ∧ (∀ t, r = some t → Selects s u t) ∧ (r = none → ∀ p, q p = []) := by
  unfold Sched.run at hr
  simp only at hr
  split at hr
  · rename_i hidle
    cases hr
    have hnil := h.bitcache_eq_zero_iff.mp hidle.2
    have hu := h.unscheduleCur (if s.idling then none else s.active)
    refine ⟨⟨hu.level, hu.ring, hu.mem, hu.bit⟩, ?_, fun t e => (some_ne_none t e.symm).elim, fun _ => hnil⟩
    intro a _ hon
    have := hu.mem_own.mpr hon
    rw [hnil] at this; cases this
  · by_cases hz : s.bitcache = 0#32
    · have hpeek := (h.ring (getPrioQueueFromRunqueue cfg s.bitcache)).lpeek_eq
      rw [h.bitcache_eq_zero_iff.mp hz] at hpeek
      simp only [Sched.dispatch, hpeek, head?_nil, map_none] at hr; cases hr
    · obtain ⟨u', t, hd, hu, hhead, hsel⟩ := h.dispatch hz
      rw [hd] at hr
      cases hr
      refine ⟨hu, hu.atHead_iff.mpr ?_, ?_, fun e => (some_ne_none t e).elim⟩
      · intro a hact _
        rw [hsel.active] at hact
        cases hact; exact hhead
      · intro t' ht'
        cases ht'
        exact hsel

theorem Queues.run_total (h : Queues cfg s q) {t : τ} (hon : (s.status t).onRunqueue = true) :
    ∃ u t, Sched.run cfg s = some (u, some t) := by
  have hz : s.bitcache ≠ 0#32 := fun hz => by
    have := h.mem_own.mpr hon
    rw [h.bitcache_eq_zero_iff.mp hz] at this; cases this
  obtain ⟨u, t', hd, _⟩ := h.dispatch hz
  exact ⟨u, t', by simp [Sched.run, hz, hd]⟩

/-! ## Whole runs -/

def LeavesAsHead (s : Sched τ) (st : Status) : Prop :=
  ∀ a, s.active = some a → (s.status a).onRunqueue = true → st.onRunqueue = false →
    Clist.lpeek s.next (s.runqueues (s.priority a)) = some a

/-- Only threads off the queues are woken or get their control block set up. -/
def Legal (s : Sched τ) : Op τ → Prop
  | .create _ t _ _ => (s.status t).onRunqueue = false
  | .wake t st => (s.status t).onRunqueue = false ∧ st.onRunqueue = true
  | _ => True

def Leaves (s : Sched τ) : Op τ → Prop
  | .setSelf st => LeavesAsHead s st
  | .exit => LeavesAsHead s .stopped
  | _ => True

def Good (s : Sched τ) (op : Op τ) : Prop := Legal s op ∧ Leaves s op

def Requeues (s : Sched τ) : Op τ → Prop
  | .create _ t _ _ => s.active = some t
  | .setSelf st => ∃ a, s.active = some a ∧ (s.status a).onRunqueue = false ∧ st.onRunqueue = true
  | .wake t _ => s.active = some t
  | _ => False

theorem setStatus_frame (cfg : Config) (s : Sched τ) (t : τ) (st : Status) :
    (s.setStatus cfg t st).active = s.active ∧ (s.setStatus cfg t st).priority = s.priority ∧
      (s.setStatus cfg t st).status = update s.status t st := by
  unfold setStatus
  split
  · split <;> exact ⟨rfl, rfl, rfl⟩
  · split <;> exact ⟨rfl, rfl, rfl⟩

theorem Queues.setOther (h : Queues cfg s q) (st : Status) (ht : (s.status t).onRunqueue = false) :
    ∃ q', Queues cfg (s.setStatus cfg t st) q' ∧ (AtHead s → s.active ≠ some t → AtHead (s.setStatus cfg t st)) := by
  obtain ⟨q', hq', hkeep⟩ := h.setStatus t st fun hon => by rw [ht] at hon; cases hon
  refine ⟨q', hq', fun hhead hne => hq'.atHead_iff.mpr ?_⟩
  obtain ⟨hact, hprio, hstat⟩ := setStatus_frame cfg s t st
  rw [hact, hprio, hstat]
  intro a ha hon
  have hat : a ≠ t := fun e => hne (e ▸ ha)
  rw [update_of_ne hat] at hon
  exact hkeep _ a hat (h.atHead_iff.mp hhead a ha hon)

theorem Queues.setSelf (h : Queues cfg s q) {st : Status} (ha : s.active = some a) (hl : LeavesAsHead s st) :
    ∃ q', Queues cfg (s.setStatus cfg a st) q' ∧
      (AtHead s → ((s.status a).onRunqueue = true ∨ st.onRunqueue = false) → AtHead (s.setStatus cfg a st)) := by
  obtain ⟨q', hq', -⟩ := h.setStatus a st fun hon hoff => by
    rw [← (h.ring _).lpeek_eq]; exact hl a ha hon hoff
  refine ⟨q', hq', fun hhead hcase => ?_⟩
  obtain ⟨hact, -, hstat⟩ := setStatus_frame cfg s a st
  cases hst : st.onRunqueue with
  | false =>
    intro b hb hon
    rw [hact, ha] at hb
    cases hb
    rw [hstat, update_self, hst] at hon; cases hon
  | true =>
    have hon := hcase.resolve_right (by rw [hst]; exact Bool.noConfusion)
    have heq : s.setStatus cfg a st = s.withStatus a st := by rw [Sched.setStatus, if_pos hst, if_pos hon]
    rw [heq]
    intro b hb _
    have hb' : s.active = some b := hb
    rw [ha] at hb'
    cases hb'
    exact hhead a ha hon

theorem Queues.switch (h : Queues cfg s q) {irq : Bool} {p : Nat} (hs : switch cfg irq s p = some u) :
    Queues cfg u q ∧ (AtHead s → AtHead u) := by
  unfold Sched.switch at hs
  split at hs
  · cases hs
  · split at hs
    · split at hs
      · cases hs
        exact ⟨⟨h.level, h.ring, h.mem, h.bit⟩, id⟩
      · obtain ⟨⟨v, r⟩, hr, rfl⟩ := map_eq_some_iff.mp hs
        obtain ⟨hv, hhead, -⟩ := h.run hr
        exact ⟨hv, fun _ => hhead⟩
    · cases hs; exact ⟨h, id⟩

theorem Queues.threadCreate (h : Queues cfg s q) {irq : Bool} {p : Nat} {flags : CreateFlags} {r : Except Errno Nat}
    (ht : (s.status t).onRunqueue = false) (hs : threadCreate cfg irq s t p flags = some (u, r)) :
    ∃ q', Queues cfg u q' ∧ (AtHead s → s.active ≠ some t → AtHead u) := by
  unfold Sched.threadCreate at hs
  split at hs
  · cases hs; exact ⟨q, h, fun hhead _ => hhead⟩
  · rename_i hp
    split at hs
    · cases hs; exact ⟨q, h, fun hhead _ => hhead⟩
    · rename_i pid _
      have hadd := h.addThread ht (not_le.mp hp) pid
      have hoff : ((s.addThread t pid p).status t).onRunqueue = false := by
        simp [Sched.addThread, Status.onRunqueue, Status.code]
      have hatAdd : AtHead s → s.active ≠ some t → AtHead (s.addThread t pid p) := by
        intro hhead hne
        rw [hadd.atHead_iff]
        intro a ha hon
        have hat : a ≠ t := fun e => hne (e ▸ ha)
        simp only [Sched.addThread, update_of_ne hat] at hon ⊢
        exact h.atHead_iff.mp hhead a ha hon
      split at hs
      · cases hs
        obtain ⟨q', hq', hset⟩ := hadd.setOther .sleeping hoff
        exact ⟨q', hq', fun hhead hne => hset (hatAdd hhead hne) hne⟩
      · obtain ⟨q', hq', hset⟩ := hadd.setOther .pending hoff
        split at hs
        · cases hs
          exact ⟨q', hq', fun hhead hne => hset (hatAdd hhead hne) hne⟩
        · obtain ⟨v, hv, e⟩ := map_eq_some_iff.mp hs
          cases e
          obtain ⟨hu, hhu⟩ := hq'.switch hv
          exact ⟨q', hu, fun hhead hne => hhu (hset (hatAdd hhead hne) hne)⟩

theorem Queues.step (h : Queues cfg s q) {op : Op τ} (hg : Good s op) (hs : step cfg s op = some u) :
    ∃ q', Queues cfg u q' ∧ (AtHead s → ¬ Requeues s op → AtHead u) := by
  cases op with
  | create irq t p flags =>
    obtain ⟨⟨v, r⟩, hv, rfl⟩ := map_eq_some_iff.mp hs
    exact h.threadCreate hg.1 hv
  | setSelf st =>
    obtain ⟨a, ha, rfl⟩ := map_eq_some_iff.mp hs
    obtain ⟨q', hq', hset⟩ := h.setSelf ha hg.2
    refine ⟨q', hq', fun hhead hno => hset hhead ?_⟩
    cases hon : (s.status a).onRunqueue with
    | true => exact .inl rfl
    | false =>
      right
      by_contra hst
      exact hno ⟨a, ha, hon, Bool.not_eq_false _ ▸ hst⟩
  | wake t st =>
    cases hs
    obtain ⟨q', hq', hset⟩ := h.setOther st hg.1.1
    exact ⟨q', hq', hset⟩
  | yield =>
    simp only [Sched.step, Sched.yield] at hs
    split at hs
    · cases hs
    · obtain ⟨⟨v, r⟩, hv, rfl⟩ := map_eq_some_iff.mp hs
      split at hv
      · obtain ⟨hu, hhead, -⟩ := (h.advance _).run hv
        exact ⟨_, hu, fun _ _ => hhead⟩
      · obtain ⟨hu, hhead, -⟩ := h.run hv
        exact ⟨_, hu, fun _ _ => hhead⟩
  | run =>
    obtain ⟨⟨v, r⟩, hv, rfl⟩ := map_eq_some_iff.mp hs
    obtain ⟨hu, hhead, -⟩ := h.run hv
    exact ⟨q, hu, fun _ _ => hhead⟩
  | exit =>
    simp only [Sched.step, Sched.taskExit] at hs
    split at hs
    · cases hs
    · rename_i a ha
      obtain ⟨⟨v, r⟩, hv, rfl⟩ := map_eq_some_iff.mp hs
      have hdrop : Queues cfg s.dropThread q := ⟨h.level, h.ring, h.mem, h.bit⟩
      obtain ⟨q', hq', -⟩ := hdrop.setSelf ha hg.2
      have hclear : Queues cfg (s.dropThread.setStatus cfg a .stopped).clearActive q' :=
        ⟨hq'.level, hq'.ring, hq'.mem, hq'.bit⟩
      obtain ⟨hu, hhead, -⟩ := hclear.run hv
      exact ⟨q', hu, fun _ _ => hhead⟩

theorem reach_queues (h : ReachVia (step cfg) Good init s) : ∃ q, Queues cfg s q := by
  refine h.inv (fun s => ∃ q, Queues cfg s q) ⟨_, Queues.init cfg⟩ ?_
  rintro s u op ⟨q, hq⟩ hg hs
  obtain ⟨q', hq', -⟩ := hq.step hg hs
  exact ⟨q', hq'⟩

/-- In every run in which a thread leaves its queue only from the head, the queues
and the bit cache say what is ready, and `sched_run` takes the head of the first
queue that is not empty. It leaves that thread at the head, and there it stays
until it is put back on a queue while it still runs. -/
theorem runqueues_exact_and_selected (cfg : Config) (s : Sched τ) (h : ReachVia (step cfg) Good init s) :
    RunqueuesExact cfg s ∧
    (∀ u t, run cfg s = some (u, some t) → Selects s u t ∧ RunqueuesExact cfg u ∧ AtHead u) ∧
    (∀ u, run cfg s = some (u, none) → ∀ t, (s.status t).onRunqueue = false) ∧
    (∀ t, (s.status t).onRunqueue = true → ∃ u t', run cfg s = some (u, some t')) ∧
    (∀ op u, Good s op → step cfg s op = some u → AtHead s → ¬ Requeues s op → AtHead u) := by
  obtain ⟨q, hq⟩ := reach_queues h
  refine ⟨hq.exact, ?_, ?_, ?_, ?_⟩
  · intro u t hr
    obtain ⟨hu, hhead, hsel, -⟩ := hq.run hr
    exact ⟨hsel t rfl, hu.exact, hhead⟩
  · intro u hr t
    obtain ⟨-, -, -, hnil⟩ := hq.run hr
    by_contra hon
    have := hq.mem_own.mpr (Bool.not_eq_false _ ▸ hon)
    rw [hnil rfl] at this; cases this
  · intro t hon; exact hq.run_total hon
  · intro op u hg hs
    obtain ⟨q', -, hkeep⟩ := hq.step hg hs
    exact hkeep

end

section

def twoLevels : Config where
  levels := 2
  levels_le := by omega
  levels_pos := by omega
  maxThreads := 2
  hasClz := true
  lsb := .loop
  idleThread := false

def create (t : Fin 2) : Op (Fin 2) := .create false t 1 { sleeping := false, woutYield := true }

def twoRunning : Sched (Fin 2) := (runAll (step twoLevels) init ((List.finRange 2).map create ++ [.run])).get rfl

theorem reach_twoRunning : ReachVia (step twoLevels) Good init twoRunning := by
  have h1 : ReachVia (step twoLevels) Good init _ := .next .start (a := create 0) ⟨rfl, trivial⟩ rfl
  have h2 := h1.next (a := create 1) ⟨rfl, trivial⟩ rfl
  have h3 := h2.next (a := Op.run) ⟨trivial, trivial⟩ rfl
  exact h3

theorem runqueues_exact_after_sleep : ∃ s : Sched (Fin 2), ReachVia (step twoLevels) Good init s ∧
    s.active = some 0 ∧ s.status 1 = .sleeping ∧ RunqueuesExact twoLevels s := by
  have h4 := reach_twoRunning.next (a := Op.yield) ⟨trivial, trivial⟩ rfl
  have h5 := h4.next (a := Op.setSelf .sleeping) ⟨trivial, fun a ha _ _ => by cases ha; rfl⟩ rfl
  have h6 := h5.next (a := Op.run) ⟨trivial, trivial⟩ rfl
  exact ⟨_, h6, rfl, rfl, (runqueues_exact_and_selected _ _ h6).1⟩

/-- The running thread goes to sleep, is woken before `sched_run` comes, behind the
other thread, and goes to sleep again: now the other thread is off the queue. -/
theorem second_sleep_pops_other : ∃ s : Sched (Fin 2), ReachVia (step twoLevels) Legal init s ∧
    s.status 0 = .sleeping ∧ s.status 1 = .pending ∧ s.runqueues 1 = some 0 ∧ ¬ RunqueuesExact twoLevels s := by
  have h3 : ReachVia (step twoLevels) Legal init twoRunning := reach_twoRunning.mono fun _ _ => And.left
  have h4 := h3.next (a := Op.setSelf .sleeping) trivial rfl
  have h5 := h4.next (a := Op.wake 0 .running) ⟨rfl, rfl⟩ rfl
  have h6 := h5.next (a := Op.setSelf .sleeping) trivial rfl
  refine ⟨_, h6, rfl, rfl, rfl, fun hex => ?_⟩
  obtain ⟨l, hring, hmem, -⟩ := hex 1 (by decide)
  have hin : (0 : Fin 2) ∈ l := hring.last_mem rfl
  cases ((hmem 0).mp hin).2

end

end PipRiot.Core.Sched
