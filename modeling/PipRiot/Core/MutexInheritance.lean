import PipRiot.Core.MutexCancelable

/-!
# Priority inheritance

With `MODULE_CORE_MUTEX_PRIORITY_INHERITANCE` a mutex records the thread that
took it and the priority of that thread. A waiter lends its priority to the
recorded thread, and `mutex_unlock` gives it back. The record is written where
a free mutex is taken, not where one is handed over, and nothing is given back
where nobody waits any more or where the holder goes to sleep.
-/

namespace PipRiot.Core

open Function

structure Inherit (τ μ κ : Type) where
  core : Mutexes τ μ κ
  priority : τ → Nat
  -- `none` is `KERNEL_PID_UNDEF`
  owner : μ → Option τ
  ownerOriginalPriority : μ → Nat
  -- history: the priority before the last lock
  before : τ → Nat

namespace Inherit

open Mutexes

section
variable {τ μ κ : Type} [DecidableEq τ] [DecidableEq μ] [DecidableEq κ]

def init (locked : μ → Bool) (priority : τ → Nat) : Inherit τ μ κ where
  core := Mutexes.init locked
  priority := priority
  owner _ := none
  ownerOriginalPriority _ := 0
  before := priority

variable (s : Inherit τ μ κ)

def noteBefore (t : τ) : Inherit τ μ κ :=
  { s with before := update s.before t (s.priority t) }

def record (t : τ) (m : μ) : Inherit τ μ κ :=
  { s.noteBefore t with
    owner := update s.owner m (some t)
    ownerOriginalPriority := update s.ownerOriginalPriority m (s.priority t) }

def changePriority (t : τ) (priority : Nat) : Inherit τ μ κ :=
  { s with priority := update s.priority t priority }

def lend (t : τ) (m : μ) : Inherit τ μ κ :=
  match s.owner m with
  | some owner => if s.priority t < s.priority owner then s.changePriority owner (s.priority t) else s
  | none => s

def giveBack (m : μ) : Inherit τ μ κ :=
  match s.owner m with
  | some owner =>
    if s.priority owner ≠ s.ownerOriginalPriority m then s.changePriority owner (s.ownerOriginalPriority m) else s
  | none => s

def locks (t : τ) (m : μ) : Inherit τ μ κ :=
  if s.core.queue m = .unlocked then s.record t m else (s.noteBefore t).lend t m

def inherits : Op τ μ κ → Inherit τ μ κ
  | .lock t m blocking => if s.core.queue m = .unlocked ∨ blocking then s.locks t m else s
  | .lockCancelable t k =>
    match s.core.mc k with
    | some mc => if mc.cancelled then s else s.locks t mc.mutex
    | none => s
  | .unlock m => if (s.core.queue m).list = [] then s else s.giveBack m
  | _ => s

def step (s : Inherit τ μ κ) (op : Op τ μ κ) : Option (Inherit τ μ κ) :=
  (s.core.step s.priority op).map fun u => { s.inherits op with core := u }

end

section
variable {τ μ κ : Type}

/-- Lent priorities are given back, and a holder has at least the priority of the
most urgent waiter. A thread holds what a lock or an unlock gave it last. -/
structure Undone (s : Inherit τ μ κ) : Prop where
  back : ∀ t, (∀ m, s.core.owner m ≠ some t) → s.priority t = s.before t
  raised : ∀ m t, s.core.owner m = some t → ∀ w ∈ (s.core.queue m).list, s.priority t ≤ s.priority w

/-! ## Runs in which it works -/

variable (s : Inherit τ μ κ)

def HoldsNone (t : τ) : Prop := ∀ m, s.core.owner m ≠ some t

/-- The record names the holder, or there is nothing to lend. -/
structure CanLend (s : Inherit τ μ κ) (t : τ) (m : μ) : Prop where
  recorded : ∀ o, s.owner m = some o → s.core.owner m = some o ∨ s.priority o ≤ s.priority t
  holder : ∀ h, s.core.owner m = some h → s.owner m = some h ∨ s.priority h ≤ s.priority t

def LocksFresh (t : τ) (m : μ) : Prop :=
  s.HoldsNone t ∧ (s.core.queue m ≠ .unlocked → s.CanLend t m)

def Unraised (m : μ) : Prop :=
  ∀ h, s.core.owner m = some h → s.owner m = some h → s.priority h = s.ownerOriginalPriority m

def GivesOwn (m : μ) : Prop :=
  ∀ o, s.owner m = some o → s.core.owner m = some o ∨ s.priority o = s.ownerOriginalPriority m

def Good : Op τ μ κ → Prop
  | .lock t m blocking => s.core.queue m = .unlocked ∨ blocking = true → s.LocksFresh t m
  | .lockCancelable t k => ∀ mc, s.core.mc k = some mc → mc.cancelled = false → s.LocksFresh t mc.mutex
  | .unlock m => ((s.core.queue m).list = [] → s.Unraised m) ∧ ((s.core.queue m).list ≠ [] → s.GivesOwn m)
  | .unlockAndSleep _ m => s.Unraised m
  | _ => True

structure Inv (s : Inherit τ μ κ) : Prop where
  exact : Exact s.priority s.core
  free : ∀ m, s.core.queue m = .unlocked → s.core.owner m = none
  one : ∀ m m' t, s.core.owner m = some t → s.core.owner m' = some t → m = m'
  waits : ∀ m, ∀ t ∈ (s.core.queue m).list, s.HoldsNone t
  saved : ∀ m o, s.owner m = some o → s.ownerOriginalPriority m = s.before o
  back : ∀ t, s.HoldsNone t → s.priority t = s.before t
  -- only the recorded thread of a mutex is lent a priority
  lent : ∀ m t, s.core.owner m = some t → s.priority t = s.before t ∨ s.owner m = some t
  raised : ∀ m t, s.core.owner m = some t → ∀ w ∈ (s.core.queue m).list, s.priority t ≤ s.priority w

variable {s : Inherit τ μ κ} {u : Mutexes τ μ κ} {t : τ} {m : μ}

theorem Inv.undone (h : Inv s) : Undone s := ⟨h.back, h.raised⟩

theorem exact_congr {priority priority' : τ → Nat} (h : Exact priority u)
    (he : ∀ m, ∀ t ∈ (u.queue m).list, priority' t = priority t) : Exact priority' u where
  mem := h.mem
  sorted := fun m => (h.sorted m).imp_of_mem fun {a b} ha hb hab => by
    simpa only [Ahead, he m a ha, he m b hb] using hab
  past := h.past
  awake := h.awake

theorem Inv.init (locked : μ → Bool) (priority : τ → Nat) : Inv (Inherit.init locked priority : Inherit τ μ κ) where
  exact := Exact.init locked
  free := fun _ _ => rfl
  one := fun _ _ _ h => by cases h
  waits := fun _ _ _ _ h => by cases h
  saved := fun _ _ h => by cases h
  back := fun _ _ => rfl
  lent := fun _ _ h => by cases h
  raised := fun _ _ h => by cases h

theorem Inv.quiet (h : Inv s) (hx : Exact s.priority u) (howner : u.owner = s.core.owner)
    (hfree : ∀ m, u.queue m = .unlocked → s.core.queue m = .unlocked)
    (hsub : ∀ m, (u.queue m).list ⊆ (s.core.queue m).list) : Inv { s with core := u } where
  exact := hx
  free := fun m hq => (congrFun howner m).trans (h.free m (hfree m hq))
  one := fun m m' t h1 h2 => h.one m m' t (howner ▸ h1) (howner ▸ h2)
  waits := fun m t ht m' hm' => h.waits m t (hsub m ht) m' (howner ▸ hm')
  saved := h.saved
  back := fun t ht => h.back t fun m => howner ▸ ht m
  lent := fun m t hm => h.lent m t (howner ▸ hm)
  raised := fun m t hm w hw => h.raised m t (howner ▸ hm) w (hsub m hw)

theorem Inv.before_of_unraised (h : Inv s) (hg : s.Unraised m) (ht : s.core.owner m = some t) :
    s.priority t = s.before t := by
  rcases h.lent m t ht with hb | hb
  · exact hb
  · rw [hg t ht hb, h.saved m t hb]

variable [DecidableEq τ]

theorem Inv.before_eq (h : Inv s) (ht : s.HoldsNone t) : update s.before t (s.priority t) = s.before := by
  rw [h.back t ht, update_eq_self]

section
variable (s : Inherit τ μ κ)

theorem lend_priority (t : τ) (m : μ) (t' : τ) : (s.lend t m).priority t' =
    if s.owner m = some t' then min (s.priority t') (s.priority t) else s.priority t' := by
  unfold lend
  cases ho : s.owner m with
  | none => simp
  | some o =>
    by_cases e : t' = o
    · subst e
      simp only [if_true]
      split
      · rename_i hlt
        exact (update_self ..).trans (min_eq_right (hlt.le)).symm
      · rename_i hlt
        exact (min_eq_left (not_lt.mp hlt)).symm
    · rw [if_neg fun hc => e (Option.some.inj hc).symm]
      simp only
      split
      · exact update_of_ne e ..
      · rfl

theorem lend_fields (t : τ) (m : μ) : (s.lend t m).owner = s.owner ∧
    (s.lend t m).ownerOriginalPriority = s.ownerOriginalPriority ∧ (s.lend t m).before = s.before := by
  unfold lend
  split
  · split <;> exact ⟨rfl, rfl, rfl⟩
  · exact ⟨rfl, rfl, rfl⟩

theorem giveBack_priority (m : μ) (t : τ) : (s.giveBack m).priority t =
    if s.owner m = some t then s.ownerOriginalPriority m else s.priority t := by
  unfold giveBack
  cases ho : s.owner m with
  | none => simp
  | some o =>
    by_cases e : t = o
    · subst e
      simp only [if_true]
      split
      · exact update_self ..
      · rename_i hne
        exact not_not.mp hne
    · rw [if_neg fun hc => e (Option.some.inj hc).symm]
      simp only
      split
      · exact update_of_ne e ..
      · rfl

theorem giveBack_eq (m : μ) (u : Mutexes τ μ κ) :
    { s.giveBack m with core := u } = { s with core := u, priority := (s.giveBack m).priority } := by
  unfold giveBack
  split
  · split <;> rfl
  · rfl

end

variable [DecidableEq μ]

theorem Inv.takes (h : Inv s) (hq : s.core.queue m = .unlocked) (hidle : s.core.call t = .idle) (ht : s.HoldsNone t) :
    Inv { s.record t m with core := s.core.take t m } := by
  have howner : ∀ m', (s.core.take t m).owner m' = if m' = m then some t else s.core.owner m' := fun m' =>
    update_apply ..
  have hlist : ∀ m', ((s.core.take t m).queue m').list = (s.core.queue m').list := by
    intro m'
    by_cases e : m' = m
    · subst e
      have htaken : (s.core.take t m').queue m' = .locked := update_self ..
      rw [hq, htaken]; rfl
    · exact congrArg Queue.list (update_of_ne e ..)
  have hnone : (s.core.queue m).list = [] := by rw [hq]; rfl
  refine ⟨h.exact.take hq, ?_, ?_, ?_, ?_, ?_, ?_, ?_⟩
  · intro m' hm'
    by_cases e : m' = m
    · subst e
      have : (s.core.take t m').queue m' = .locked := update_self ..
      rw [this] at hm'
      cases hm'
    · rw [howner, if_neg e]
      exact h.free m' ((update_of_ne e ..).symm.trans hm')
  · intro m1 m2 t' h1 h2
    simp only [howner] at h1 h2
    split at h1 <;> split at h2
    · simp_all
    · cases h1; exact absurd h2 (ht m2)
    · cases h2; exact absurd h1 (ht m1)
    · exact h.one m1 m2 t' h1 h2
  · intro m' w hw m1 hm1
    simp only [howner, hlist] at hm1 hw
    split at hm1
    · cases hm1; exact h.exact.not_mem_of_idle hidle m' hw
    · exact h.waits m' w hw m1 hm1
  · intro m' o ho
    simp only [record, noteBefore, h.before_eq ht] at ho ⊢
    by_cases e : m' = m
    · subst e
      rw [update_self] at ho ⊢
      cases ho; exact h.back t ht
    · rw [update_of_ne e] at ho ⊢; exact h.saved m' o ho
  · intro t' ht'
    simp only [record, noteBefore, h.before_eq ht]
    refine h.back t' fun m' hm' => ?_
    by_cases e : m' = m
    · subst e
      rw [h.free m' hq] at hm'
      cases hm'
    · exact ht' m' ((howner m').trans ((if_neg e).trans hm'))
  · intro m' t' hm'
    simp only [howner] at hm'
    simp only [record, noteBefore, h.before_eq ht]
    by_cases e : m' = m
    · subst e
      rw [if_pos rfl] at hm'; exact .inr ((update_self ..).trans hm')
    · rw [if_neg e] at hm'
      rw [update_of_ne e]; exact h.lent m' t' hm'
  · intro m' t' hm' w hw
    simp only [howner, hlist] at hm' hw
    by_cases e : m' = m
    · subst e
      rw [hnone] at hw; cases hw
    · rw [if_neg e] at hm'; exact h.raised m' t' hm' w hw

/-! ## Waiting -/

theorem Inv.blocks (h : Inv s) {c : Call μ κ} (hidle : s.core.call t = .idle) (hc : c.mutex = some m)
    (hq : s.core.queue m ≠ .unlocked) (ht : s.HoldsNone t) (hl : s.CanLend t m) :
    Inv { (s.noteBefore t).lend t m with core := s.core.block s.priority t m c } := by
  obtain ⟨hown, hsaved, hbefore⟩ := lend_fields (s.noteBefore t) t m
  rw [show (s.noteBefore t).before = s.before from h.before_eq ht] at hbefore
  have hprio : ∀ t', ((s.noteBefore t).lend t m).priority t' =
      if s.owner m = some t' then min (s.priority t') (s.priority t) else s.priority t' :=
        lend_priority (s.noteBefore t) t m
  generalize (s.noteBefore t).lend t m = s' at *
  have howner : s'.owner = s.owner := hown
  have horig : s'.ownerOriginalPriority = s.ownerOriginalPriority := hsaved
  have hle : ∀ t', s'.priority t' ≤ s.priority t' := by
    intro t'
    rw [hprio t']
    split
    · exact min_le_left ..
    · exact le_rfl
  -- only a holder is lent a priority
  have hsame : ∀ t', s.HoldsNone t' → s'.priority t' = s.priority t' := by
    intro t' ht'
    rw [hprio t']
    split
    · rename_i ho
      rcases hl.recorded t' ho with hh | hh
      · exact absurd hh (ht' m)
      · exact min_eq_left hh
    · rfl
  have hmem : ∀ m' t', t' ∈ ((s.core.block s.priority t m c).queue m').list ↔
      m' = m ∧ t' = t ∨ t' ∈ (s.core.queue m').list := mem_block s.core t m c
  have hwait : ∀ m', ∀ w ∈ ((s.core.block s.priority t m c).queue m').list, s.HoldsNone w := by
    intro m' w hw
    rcases (hmem m' w).mp hw with ⟨-, rfl⟩ | hw
    · exact ht
    · exact h.waits m' w hw
  refine ⟨?_, ?_, h.one, hwait, ?_, ?_, ?_, ?_⟩
  · exact exact_congr (h.exact.block hidle hc) fun m' w hw => hsame w (hwait m' w hw)
  · intro m' hm'
    by_cases e : m' = m
    · subst e
      have hx := (hmem m' t).mpr (.inl ⟨rfl, rfl⟩)
      rw [hm'] at hx; cases hx
    · exact h.free m' ((update_of_ne e ..).symm.trans hm')
  · intro m' o ho
    simp only [howner, horig, hbefore] at ho ⊢; exact h.saved m' o ho
  · intro t' ht'
    simp only [hbefore]
    rw [hsame t' ht', h.back t' ht']
  · intro m' t' hm'
    simp only [howner, hbefore]
    rcases h.lent m' t' hm' with hb | hb
    · by_cases ho : s.owner m = some t'
      · rcases hl.recorded t' ho with hh | hh
        · rw [h.one m m' t' hh hm'] at ho; exact .inr ho
        · left
          rw [hprio t', if_pos ho, ← hb]; exact min_eq_left hh
      · left
        rw [hprio t', if_neg ho]; exact hb
    · exact .inr hb
  · intro m' t' hm' w hw
    rw [hsame w (hwait m' w hw)]
    rcases (hmem m' w).mp hw with ⟨rfl, rfl⟩ | hw
    · rcases hl.holder t' hm' with ho | ho
      · rw [hprio t', if_pos ho]; exact min_le_right ..
      · exact le_trans (hle t') ho
    · exact le_trans (hle t') (h.raised m' t' hm' w hw)

/-! ## Giving the mutex on -/

theorem mutexUnlock_list (s : Mutexes τ μ κ) (m m' : μ) : ((s.mutexUnlock m).queue m').list ⊆ (s.queue m').list := by
  by_cases e : m' = m
  · subst e
    unfold mutexUnlock
    split
    · exact List.Subset.refl _
    · simp [noteReturned, noteOwner, setQueue, Queue.list]
    · rename_i t ts hq
      simp only [noteReturned, noteOwner, setStatus, setQueue, update_self,
        Queue.list_relock, Queue.list_ofList, hq]
      exact List.subset_cons_self t ts
  · rw [((unlocks_mutexUnlock s m).other m' e).1]
    exact List.Subset.refl _

theorem mutexUnlock_ahead {priority : τ → Nat} (h : Exact priority u) (ht : (u.mutexUnlock m).owner m = some t) :
    ∀ w ∈ ((u.mutexUnlock m).queue m).list, priority t ≤ priority w := by
  unfold mutexUnlock at ht ⊢
  split at ht
  · simp [noteReturned, noteOwner] at ht
  · simp [noteReturned, noteOwner] at ht
  · rename_i t' ts hq
    simp only [noteReturned, noteOwner, update_self] at ht
    cases ht
    have hsort := h.sorted m
    rw [hq, Queue.list] at hsort
    simp only [noteReturned, noteOwner, setStatus, setQueue, update_self,
      Queue.list_relock, Queue.list_ofList]
    intro w hw
    rcases (List.pairwise_cons.mp hsort).1 w hw with hlt | heq
    · exact hlt.le
    · exact heq.1.le

theorem Inv.releases (h : Inv s) {priority : τ → Nat} (hx : Exact s.priority u)
    (howner : u.owner = (s.core.mutexUnlock m).owner) (hqueue : u.queue = (s.core.mutexUnlock m).queue)
    (hwoken : ∀ t, u.owner m = some t → u.status t ≠ .mutexBlocked)
    (hother : ∀ t, s.core.owner m ≠ some t → priority t = s.priority t)
    (hback : ∀ t, s.core.owner m = some t → priority t = s.before t) :
    Inv { s with core := u, priority := priority } := by
  have hu := unlocks_mutexUnlock s.core m
  have hsub : ∀ m', (u.queue m').list ⊆ (s.core.queue m').list := hqueue ▸ mutexUnlock_list s.core m
  have hold : ∀ {m' t}, m' ≠ m → u.owner m' = some t → s.core.owner m' = some t := fun e hm' =>
    (hu.other _ e).2.1.symm.trans ((congrFun howner _).symm.trans hm')
  have hgiven : ∀ {t}, u.owner m = some t → t ∈ (s.core.queue m).list := fun hm =>
    (hu.given _ ((congrFun howner m).symm.trans hm)).1
  have hwait : ∀ m', ∀ w ∈ (s.core.queue m').list, priority w = s.priority w := fun m' w hw =>
    hother w (h.waits m' w hw m)
  have hkept : ∀ {m' t}, m' ≠ m → u.owner m' = some t → priority t = s.priority t := fun e hm' =>
    hother _ fun hc => e (h.one _ _ _ (hold e hm') hc)
  refine ⟨exact_congr hx fun m' w hw => hwait m' w (hsub m' hw), ?_, ?_, ?_, h.saved, ?_, ?_, ?_⟩
  · intro m' hm'
    simp only [howner, hqueue] at hm' ⊢
    by_cases e : m' = m
    · subst e; exact hu.free hm'
    · rw [(hu.other m' e).2.1]
      exact h.free m' ((hu.other m' e).1.symm.trans hm')
  · intro m1 m2 t h1 h2
    by_cases e1 : m1 = m
    · by_cases e2 : m2 = m
      · rw [e1, e2]
      · subst e1
        exact absurd (hold e2 h2) (h.waits _ t (hgiven h1) m2)
    · by_cases e2 : m2 = m
      · subst e2
        exact absurd (hold e1 h1) (h.waits _ t (hgiven h2) m1)
      · exact h.one m1 m2 t (hold e1 h1) (hold e2 h2)
  · intro m' w hw m1 hm1
    by_cases e : m1 = m
    · subst e
      exact hwoken w hm1 ((hx.mem m' w).mp hw).2
    · exact h.waits m' w (hsub m' hw) m1 (hold e hm1)
  · intro t ht
    by_cases hm : s.core.owner m = some t
    · exact hback t hm
    · simp only
      rw [hother t hm]
      refine h.back t fun m' hm' => ?_
      by_cases e : m' = m
      · exact hm (e ▸ hm')
      · exact ht m' ((congrFun howner m').trans ((hu.other m' e).2.1.trans hm'))
  · intro m' t hm'
    by_cases e : m' = m
    · subst e
      left
      simp only
      rw [hwait _ t (hgiven hm'), h.back t (h.waits _ t (hgiven hm'))]
    · simp only
      rw [hkept e hm']; exact h.lent m' t (hold e hm')
  · intro m' t hm' w hw
    simp only
    rw [hwait m' w (hsub m' hw)]
    by_cases e : m' = m
    · subst e
      rw [hwait _ t (hgiven hm')]
      exact mutexUnlock_ahead h.exact ((congrFun howner _).symm.trans hm') w (hqueue ▸ hw)
    · rw [hkept e hm']
      exact h.raised m' t (hold e hm') w (hsub m' hw)

theorem mutexUnlock_woken (s : Mutexes τ μ κ) (ht : (s.mutexUnlock m).owner m = some t) :
    (s.mutexUnlock m).status t ≠ .mutexBlocked := by
  rw [((unlocks_mutexUnlock s m).given t ht).2]
  decide

theorem Inv.unlocks (h : Inv s) (hx : Exact s.priority (s.core.mutexUnlock m))
    (hg : ((s.core.queue m).list = [] → s.Unraised m) ∧ ((s.core.queue m).list ≠ [] → s.GivesOwn m)) :
    Inv { (if (s.core.queue m).list = [] then s else s.giveBack m) with core := s.core.mutexUnlock m } := by
  split
  · rename_i hq
    exact h.releases hx rfl rfl (fun t => mutexUnlock_woken s.core) (fun t _ => rfl)
      fun t ht => h.before_of_unraised (hg.1 hq) ht
  · rename_i hq
    rw [giveBack_eq]
    refine h.releases hx rfl rfl (fun t => mutexUnlock_woken s.core) ?_ ?_
    · intro t ht
      rw [giveBack_priority]
      split
      · rename_i ho
        exact ((hg.2 hq t ho).resolve_left ht).symm
      · rfl
    · intro t ht
      rw [giveBack_priority]
      split
      · rename_i ho
        exact h.saved m t ho
      · rename_i ho
        exact (h.lent m t ht).resolve_right ho

/-! ## Whole runs -/

theorem Inv.locks (h : Inv s) {c : Call μ κ} (hidle : s.core.call t = .idle) (hc : c.mutex = some m)
    (hg : s.LocksFresh t m) :
    (s.core.queue m = .unlocked → Inv { s.locks t m with core := s.core.take t m }) ∧
      (s.core.queue m ≠ .unlocked → Inv { s.locks t m with core := s.core.block s.priority t m c }) := by
  constructor
  · intro hq
    rw [Inherit.locks, if_pos hq]; exact h.takes hq hidle hg.1
  · intro hq
    rw [Inherit.locks, if_neg hq]; exact h.blocks hidle hc hq hg.1 (hg.2 hq)

variable [DecidableEq κ]

theorem mutexCancel_list (s : Mutexes τ μ κ) (k : κ) (mc : MutexCancel τ μ) (m : μ) :
    ((s.mutexCancel k mc).queue m).list ⊆ (s.queue m).list ∧
      ((s.mutexCancel k mc).queue m = .unlocked → s.queue m = .unlocked) := by
  unfold mutexCancel
  simp only
  split
  · exact ⟨List.Subset.refl _, id⟩
  · split
    · by_cases e : m = mc.mutex
      · subst e
        simp only [setStatus, setQueue, setMc, update_self, Queue.list_relock,
          Queue.list_ofList]
        exact ⟨List.erase_subset, fun hc => absurd hc (Queue.relock_ne_unlocked _)⟩
      · simp only [setStatus, setQueue, setMc, update_of_ne e]
        exact ⟨List.Subset.refl _, id⟩
    · exact ⟨List.Subset.refl _, id⟩

theorem Inv.moves (h : Inv s) {op : Op τ μ κ} {r : Option (Ret τ μ)} (hg : s.Good op)
    (hs : Mutexes.Moves s.priority s.core op u r) : Inv { s.inherits op with core := u } := by
  have hx := h.exact.moves hs
  cases hs with
  | takes hfree hq =>
    simp only [inherits, hq, true_or, if_true]
    exact (h.locks (c := .lock _) hfree.2 rfl (hg (.inl hq))).1 hq
  | refuses hfree hq =>
    simp only [inherits, hq, Bool.false_eq_true, or_self, if_false]; exact h
  | blocks hfree hq =>
    simp only [inherits, or_true, if_true]
    exact (h.locks hfree.2 rfl (hg (.inr rfl))).2 hq
  | inits | returns | returnsCanceled | returnsZero | wakes =>
    exact h.quiet hx rfl (fun _ => id) fun _ => List.Subset.refl _
  | cancelledEarly hfree hmc hc =>
    simp only [inherits, hmc, hc, if_true]; exact h
  | @takesCancelable t k mc hfree hmc hc hq =>
    simp only [inherits, hmc, hc, Bool.false_eq_true, if_false]
    exact (h.locks (c := .lock _) hfree.2 rfl (hg mc hmc hc)).1 hq
  | @blocksCancelable t k mc hfree hmc hc hq =>
    simp only [inherits, hmc, hc, Bool.false_eq_true, if_false]
    exact (h.locks hfree.2 rfl (hg mc hmc hc)).2 hq
  | unlocks => exact h.unlocks hx hg
  | @unlocksAndSleeps t m hfree =>
    refine h.releases hx rfl rfl ?_ (fun t _ => rfl) fun t ht => h.before_of_unraised hg ht
    intro t' ht'
    by_cases e : t' = t
    · subst e
      simp [mutexUnlockAndSleep, setStatus]
    · have hsame : (s.core.mutexUnlockAndSleep t m).status t' = (s.core.mutexUnlock m).status t' := update_of_ne e ..
      rw [hsame]; exact mutexUnlock_woken s.core ht'
  | @cancels k mc hmc =>
    have hlist := mutexCancel_list s.core k mc
    exact h.quiet hx (mutexCancel_frame s.core k mc).2.1 (fun m => (hlist m).2) fun m => (hlist m).1

theorem priority_undone (locked : μ → Bool) (priority : τ → Nat) (s : Inherit τ μ κ)
    (h : ReachVia step Good (init locked priority) s) : Undone s := by
  have hinv : Inv s := by
    refine h.inv Inv (Inv.init locked priority) ?_
    intro s u op hs hg hu
    obtain ⟨v, hv, rfl⟩ := Option.map_eq_some_iff.mp hu
    obtain ⟨⟨w, r⟩, hw, rfl⟩ := Option.map_eq_some_iff.mp hv
    exact hs.moves hg (exec_moves hw)
  exact hinv.undone

end

section

/-- Thread 0 waits for thread 2, is given the mutex and unlocks it. -/
theorem priority_undone_two_threads :
    ∃ s : Inherit (Fin 3) Unit Unit, ReachVia step Good (init (fun _ => false) Fin.val) s ∧
    s.core.owner () = none ∧ s.before 2 = 2 ∧ Undone s := by
  have h1 : ReachVia step Good (init (fun _ => false) Fin.val : Inherit (Fin 3) Unit Unit) _ :=
    .next .start (a := Op.lock 2 () true) (fun _ => ⟨fun _ h => (by cases h), fun h => absurd rfl h⟩) rfl
  have h2 := h1.next (a := Op.lock 0 () true)
    (fun _ => ⟨fun _ h => (by cases h), fun _ => ⟨fun o ho => .inl ho, fun h hh => .inl hh⟩⟩) rfl
  have h3 := h2.next (a := Op.unlock ()) ⟨fun h => (by cases h), fun _ o ho => .inl ho⟩ rfl
  have h4 := h3.next (a := Op.resume 0) trivial rfl
  have h5 := h4.next (a := Op.unlock ())
    ⟨fun _ h hh ho => (by cases hh; cases ho), fun h => absurd rfl h⟩ rfl
  exact ⟨_, h5, rfl, rfl, priority_undone _ _ _ h5⟩

/-- Thread 1 has been handed the mutex by thread 2 when thread 0 comes: its priority
goes to thread 2, which holds nothing, and not to thread 1. -/
theorem priority_lent_to_former_holder : ∃ s : Inherit (Fin 3) Unit Unit,
    runAll step (init (fun _ => false) Fin.val)
      [.lock 2 () true, .lock 1 () true, .unlock (), .lock 0 () true] = some s ∧
    s.core.owner () = some 1 ∧ s.before 2 = 2 ∧ s.priority 2 = 0 ∧
    0 ∈ (s.core.queue ()).list ∧ s.priority 0 = 0 ∧ s.priority 1 = 1 ∧ ¬ Undone s := by
  refine ⟨_, rfl, rfl, rfl, rfl, by decide, rfl, rfl, fun h => ?_⟩
  have hback := h.back 2 fun _ hc => by cases hc
  cases hback

end

end Inherit

end PipRiot.Core
