import PipRiot.Core.Mutex

/-!
# Who waits for a mutex and who holds it

The list of a mutex has the threads that are blocked in a locking function on it,
by priority and by the time they came. This holds whatever the calls. That at most
one thread holds a mutex needs two conditions on them.
-/

namespace PipRiot.Core.Mutexes

open Function List

section
variable {τ μ κ : Type} (priority : τ → Nat)

def Blocked (s : Mutexes τ μ κ) (m : μ) (t : τ) : Prop :=
  (s.call t).mutex = some m ∧ s.status t = .mutexBlocked

structure Exact (s : Mutexes τ μ κ) : Prop where
  mem : ∀ m t, t ∈ (s.queue m).list ↔ s.Blocked m t
  sorted : ∀ m, (s.queue m).list.Pairwise (Ahead priority s.since)
  past : ∀ m, ∀ t ∈ (s.queue m).list, s.since t < s.now
  awake : ∀ t, s.call t ≠ .idle → s.status t = .mutexBlocked ∨ (s.status t).onRunqueue = true

variable {priority} {s u : Mutexes τ μ κ} {t : τ} {m : μ}

section
variable (s : Mutexes τ μ κ) (t : τ) (m : μ) (c : Call μ κ)

theorem block_list [DecidableEq τ] [DecidableEq μ] :
    ((s.block priority t m c).queue m).list = threadAddToList priority t (s.queue m).list := by
  simp only [Mutexes.block, noteWaiting, setCall, setQueue, update_self]
  cases s.queue m with
  | unlocked | locked => rfl
  | waiters t' ts => exact Queue.list_ofList _

theorem mem_block [DecidableEq τ] [DecidableEq μ] (m' : μ) (t' : τ) :
    t' ∈ ((s.block priority t m c).queue m').list ↔ m' = m ∧ t' = t ∨ t' ∈ (s.queue m').list := by
  by_cases em : m' = m
  · subst em
    rw [block_list, threadAddToList, mem_addRanked]; simp
  · have hother : (s.block priority t m c).queue m' = s.queue m' := update_of_ne em ..
    rw [hother]
    simp [em]

end

namespace Exact

theorem init (locked : μ → Bool) : Exact priority (Mutexes.init locked : Mutexes τ μ κ) := by
  have hlist : ∀ m, ((Mutexes.init locked : Mutexes τ μ κ).queue m).list = [] := by
    intro m
    cases h : locked m <;> simp [Mutexes.init, Queue.list, h]
  refine ⟨?_, ?_, ?_, fun t h => absurd rfl h⟩
  · intro m t
    rw [hlist]
    exact ⟨fun h => (by cases h), fun h => (by cases h.2)⟩
  · intro m
    rw [hlist]; exact List.Pairwise.nil
  · intro m t ht
    rw [hlist] at ht; cases ht

theorem idle_of_status (h : Exact priority s) (ht : s.status t ≠ .mutexBlocked)
    (hr : (s.status t).onRunqueue = false) : s.call t = .idle := by
  by_contra hc
  rcases h.awake t hc with hb | hb
  · exact ht hb
  · rw [hr] at hb; cases hb

theorem not_mem_of_idle (h : Exact priority s) (hidle : s.call t = .idle) (m : μ) : t ∉ (s.queue m).list := fun ht => by
  have := ((h.mem m t).mp ht).1
  rw [hidle] at this
  cases this

theorem lines (h : Exact priority s) : Lines priority (fun m => (s.queue m).list) s.Blocked s.since s.now :=
  ⟨h.mem, h.sorted, h.past⟩

theorem of_lines (h : Lines priority (fun m => (s.queue m).list) s.Blocked s.since s.now)
    (hawake : ∀ t, s.call t ≠ .idle → s.status t = .mutexBlocked ∨ (s.status t).onRunqueue = true) : Exact priority s :=
  ⟨h.mem, h.sorted, h.past, hawake⟩

section
variable (h : Exact priority s)
include h

theorem congr (hq : u.queue = s.queue) (hst : u.status = s.status) (hc : u.call = s.call)
    (hn : u.now = s.now) (hs : u.since = s.since) : Exact priority u := by
  refine of_lines (h.lines.keep (fun m => by rw [hq]) (fun m t => ?_) (fun _ t _ => by rw [hs]) hn.ge) ?_
  · rw [Blocked, hc, hst]; rfl
  · rw [hc, hst]; exact h.awake

theorem queue_ne_unlocked (hb : s.Blocked m t) : s.queue m ≠ .unlocked := fun e => by
  have := (h.mem m t).mpr hb
  rw [e] at this
  cases this

theorem setEmpty [DecidableEq μ] {q : Queue τ} (hm : (s.queue m).list = []) (hq : q.list = []) :
    Exact priority (s.setQueue m q) := by
  have hlist : ∀ m', ((s.setQueue m q).queue m').list = (s.queue m').list := by
    intro m'
    by_cases e : m' = m
    · subst e
      simp only [setQueue, update_self, hq, hm]
    · simp only [setQueue, update_of_ne e]
  exact of_lines (h.lines.keep hlist (fun _ _ => Iff.rfl) (fun _ _ _ => rfl) le_rfl) h.awake

theorem take [DecidableEq μ] (hm : s.queue m = .unlocked) : Exact priority (s.take t m) := by
  have hset := h.setEmpty (m := m) (q := .locked) (by rw [hm]; rfl) rfl
  exact hset.congr rfl rfl rfl rfl rfl

end

variable [DecidableEq τ]

theorem setIdle (h : Exact priority s) (st : Status) (hidle : s.call t = .idle) :
    Exact priority (s.setStatus t st) := by
  refine ⟨?_, h.sorted, h.past, ?_⟩
  · intro m' t'
    refine (h.mem m' t').trans ?_
    by_cases et : t' = t
    · subst et
      simp only [Blocked, setStatus, update_self, hidle, Call.mutex, reduceCtorEq, false_and]
    · simp only [Blocked, setStatus, update_of_ne et]
  · intro t' hc
    by_cases et : t' = t
    · subst et; exact absurd hidle hc
    · simp only [setStatus, update_of_ne et]; exact h.awake t' hc

theorem finish (h : Exact priority s) (hr : (s.status t).onRunqueue = true) : Exact priority (s.setCall t .idle) := by
  refine ⟨?_, h.sorted, h.past, ?_⟩
  · intro m' t'
    refine (h.mem m' t').trans ?_
    by_cases et : t' = t
    · subst et
      have hne : s.status t' ≠ .mutexBlocked := fun e => by rw [e] at hr; cases hr
      simp only [Blocked, setCall, hne, and_false]
    · simp only [Blocked, setCall, update_of_ne et]
  · intro t' hc
    by_cases et : t' = t
    · subst et; exact absurd (update_self ..) hc
    · simp only [setCall, update_of_ne et] at hc; exact h.awake t' hc

variable [DecidableEq μ]

section
variable (h : Exact priority s)
include h

theorem remove (ht : t ∈ (s.queue m).list) {q : Queue τ}
    (hq : q.list = (s.queue m).list.erase t) : Exact priority ((s.setQueue m q).setStatus t .pending) := by
  have hcall := ((h.mem m t).mp ht).1
  refine of_lines (h.lines.remove (a := t) (i := m) ?_ ?_ ?_ ?_) ?_
  · intro m' hb
    exact Option.some.inj (hb.1.symm.trans hcall)
  · simp only [setStatus, setQueue, update_self, hq]
  · intro m' e
    simp only [setStatus, setQueue, update_of_ne e]
  · intro m' t'
    by_cases et : t' = t
    · subst et
      simp [Blocked, setStatus, setQueue]
    · simp [Blocked, setStatus, setQueue, et]
  · intro t' hc
    by_cases et : t' = t
    · subst et
      right
      simp only [setStatus, update_self]; rfl
    · simp only [setStatus, setQueue, update_of_ne et] at hc ⊢
      exact h.awake t' hc

theorem block {c : Call μ κ} (hidle : s.call t = .idle) (hc : c.mutex = some m) :
    Exact priority (s.block priority t m c) := by
  have hcall : (s.block priority t m c).call t = c := update_self ..
  have hstat : (s.block priority t m c).status t = .mutexBlocked := update_self ..
  have hno : ∀ m', ¬ s.Blocked m' t := fun m' hb => h.not_mem_of_idle hidle m' ((h.mem m' t).mpr hb)
  refine of_lines (h.lines.add (a := t) (i := m) hno (block_list s t m c) ?_ ?_ (update_self ..) ?_) ?_
  · intro m' e
    exact congrArg Queue.list (update_of_ne e ..)
  · intro m' t'
    by_cases et : t' = t
    · subst et
      rw [Blocked, hcall, hstat, hc, or_iff_left (hno m')]
      simp [eq_comm]
    · simp [Blocked, Mutexes.block, noteWaiting, setCall, setQueue, setStatus, et]
  · intro t' e; exact update_of_ne e ..
  · intro t' hc'
    by_cases et : t' = t
    · subst et; exact .inl hstat
    · simp only [Mutexes.block, noteWaiting, setCall, setQueue, setStatus, update_of_ne et] at hc' ⊢
      exact h.awake t' hc'

theorem mutexUnlock (m : μ) : Exact priority (s.mutexUnlock m) := by
  unfold Mutexes.mutexUnlock
  split
  · exact h.congr rfl rfl rfl rfl rfl
  · rename_i hm
    have hset := h.setEmpty (m := m) (q := .unlocked) (by rw [hm]; rfl) rfl
    exact hset.congr rfl rfl rfl rfl rfl
  · rename_i t ts hm
    have hrem := h.remove (m := m) (t := t) (q := (Queue.ofList ts).relock)
      (by rw [hm]; exact mem_cons_self)
      (by rw [hm, Queue.list_relock, Queue.list_ofList, Queue.list, erase_cons_head])
    exact hrem.congr rfl rfl rfl rfl rfl

theorem mutexCancel [DecidableEq κ] (k : κ) (mc : MutexCancel τ μ) : Exact priority (s.mutexCancel k mc) := by
  have hmc : Exact priority (s.setMc k { mc with cancelled := true }) := h.congr rfl rfl rfl rfl rfl
  unfold Mutexes.mutexCancel
  simp only
  split
  · exact hmc
  · split
    · rename_i hin
      exact hmc.remove hin (by simp)
    · exact hmc

theorem moves [DecidableEq κ] {op : Op τ μ κ} {r : Option (Ret τ μ)}
    (hs : Moves priority s op u r) : Exact priority u := by
  cases hs with
  | takes _ hq => exact h.take hq
  | refuses => exact h
  | blocks hfree | blocksCancelable hfree => exact h.block hfree.2 rfl
  | inits => exact h.congr rfl rfl rfl rfl rfl
  | cancelledEarly => exact h
  | takesCancelable _ _ _ hq => exact h.take hq
  | returns hr | returnsZero hr => exact (h.finish hr).congr rfl rfl rfl rfl rfl
  | returnsCanceled hr => exact h.finish hr
  | unlocks => exact h.mutexUnlock _
  | unlocksAndSleeps hfree =>
    refine (h.mutexUnlock _).setIdle .sleeping ?_
    unfold Mutexes.mutexUnlock
    split <;> exact hfree.2
  | wakes hsleep =>
    exact h.setIdle .running (h.idle_of_status (by rw [hsleep]; decide) (by rw [hsleep]; rfl))
  | cancels => exact h.mutexCancel _ _

end

end Exact

section
variable [DecidableEq τ] [DecidableEq μ]

theorem exact_of_reach [DecidableEq κ] {Good : Mutexes τ μ κ → Op τ μ κ → Prop} {locked : μ → Bool}
    (h : ReachVia (step priority) Good (init locked) s) : Exact priority s := by
  refine h.inv (Exact priority) (Exact.init locked) ?_
  intro s u op hs _ hu
  obtain ⟨⟨v, r⟩, hv, rfl⟩ := Option.map_eq_some_iff.mp hu
  exact hs.moves (exec_moves hv)

/-! ## Handing over -/

structure Unlocks (s u : Mutexes τ μ κ) (m : μ) : Prop where
  call : u.call = s.call
  mc : u.mc = s.mc
  other : ∀ m' ≠ m, u.queue m' = s.queue m' ∧ u.owner m' = s.owner m' ∧ u.returned m' = s.returned m'
  returned : u.returned m = []
  free : u.queue m = .unlocked → u.owner m = none
  woken : ∀ t, u.status t = s.status t ∨ t ∈ (s.queue m).list ∧ u.status t = .pending ∧ u.owner m = some t
  given : ∀ t, u.owner m = some t → t ∈ (s.queue m).list ∧ u.status t = .pending

theorem unlocks_mutexUnlock (s : Mutexes τ μ κ) (m : μ) : Unlocks s (s.mutexUnlock m) m := by
  have hnone : ∀ t, update s.owner m none m = some t → t ∈ (s.queue m).list ∧ s.status t = .pending := by
    intro t ht
    rw [update_self] at ht; cases ht
  unfold Mutexes.mutexUnlock
  split
  · exact ⟨rfl, rfl, fun m' e => ⟨rfl, update_of_ne e .., update_of_ne e ..⟩,
      update_self .., fun _ => update_self .., fun t => .inl rfl, hnone⟩
  · exact ⟨rfl, rfl, fun m' e => ⟨update_of_ne e .., update_of_ne e .., update_of_ne e ..⟩,
      update_self .., fun _ => update_self .., fun t => .inl rfl, hnone⟩
  · rename_i t ts hq
    refine ⟨rfl, rfl,
      fun m' e => ⟨update_of_ne e .., update_of_ne e .., update_of_ne e ..⟩,
      update_self .., ?_, ?_, ?_⟩
    · simp only [noteReturned, noteOwner, setStatus, setQueue, update_self]
      exact fun hu => absurd hu (Queue.relock_ne_unlocked _)
    · intro t'
      by_cases e : t' = t
      · subst e
        right
        exact ⟨by rw [hq]; exact mem_cons_self, update_self .., update_self ..⟩
      · exact .inl (update_of_ne e ..)
    · intro t' ht'
      simp only [noteReturned, noteOwner, update_self] at ht'
      cases ht'
      exact ⟨by rw [hq]; exact mem_cons_self, update_self ..⟩

/-- The mutex goes to the waiter ahead of all others, and is locked without waiters if
there was no other. -/
def HandsOver (priority : τ → Nat) (s u : Mutexes τ μ κ) (m : μ) : Prop :=
  ∃ t, s.Blocked m t ∧ (∀ t' ≠ t, s.Blocked m t' → Ahead priority s.since t t') ∧
    u.owner m = some t ∧ u.status t = .pending ∧ (∀ t' ≠ t, s.Blocked m t' → u.Blocked m t') ∧
    u.queue m ≠ .unlocked ∧ ((∀ t' ≠ t, ¬ s.Blocked m t') → u.queue m = .locked)

theorem Exact.handsOver (h : Exact priority s) {w : τ} (hw : s.Blocked m w) :
    HandsOver priority s (s.mutexUnlock m) m := by
  have hmem := h.mem m
  have hsort := h.sorted m
  cases hq : s.queue m with
  | unlocked => exact absurd hq (h.queue_ne_unlocked hw)
  | locked =>
    have := (hmem w).mpr hw
    rw [hq] at this; cases this
  | waiters t ts =>
    rw [hq, Queue.list] at hmem hsort
    have hahead := (pairwise_cons.mp hsort).1
    have hunlock : s.mutexUnlock m =
        (((s.setQueue m (Queue.ofList ts).relock).setStatus t .pending).noteOwner m (some t)).noteReturned m [] := by
      simp only [Mutexes.mutexUnlock, hq]
    rw [hunlock]
    refine ⟨t, (hmem t).mp mem_cons_self, ?_, update_self .., update_self .., ?_, ?_, ?_⟩
    · intro t' hne hb
      exact hahead t' ((mem_cons.mp ((hmem t').mpr hb)).resolve_left hne)
    · intro t' hne hb
      exact ⟨hb.1, (update_of_ne hne ..).trans hb.2⟩
    · simp only [noteReturned, noteOwner, setStatus, setQueue, update_self]
      exact Queue.relock_ne_unlocked _
    · intro hlast
      have hts : ts = [] := by
        rw [eq_nil_iff_forall_not_mem]
        intro t' ht'
        exact hlast t' (hahead t' ht').ne.symm ((hmem t').mp (mem_cons_of_mem t ht'))
      subst hts; exact update_self ..

theorem Exact.handsOver_and_sleep (h : Exact priority s) {w : τ} (hw : s.Blocked m w) (hidle : s.call t = .idle) :
    HandsOver priority s (s.mutexUnlockAndSleep t m) m := by
  obtain ⟨t', hb, hahead, hown, hpend, hrest, hlocked, hlast⟩ := h.handsOver hw
  have hne : ∀ t', s.Blocked m t' → t' ≠ t := by
    rintro t' hb rfl
    have := hb.1
    rw [hidle] at this; cases this
  refine ⟨t', hb, hahead, hown, ?_, ?_, hlocked, hlast⟩
  · exact (update_of_ne (hne t' hb) ..).trans hpend
  · intro w hw' hbw
    obtain ⟨hcall, hstat⟩ := hrest w hw' hbw
    exact ⟨hcall, (update_of_ne (hne w hbw) ..).trans hstat⟩

end

end

end PipRiot.Core.Mutexes
