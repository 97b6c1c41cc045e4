import PipRiot.Core.Kernel
import PipRiot.Core.Runqueue

/-!
# One list for each thread

A thread that changes from one list to another is for a moment in none. `Freed`
is the invariant at such a moment: the calls free a thread, by taking it off a
run queue, out of a wait list or by its status alone, and then put it where its
new status says.
-/

namespace PipRiot.Core

open Function List Option

namespace Sched

section
variable {τ : Type} {cfg : Config} {s : Sched τ} {q : Nat → List τ} {t b : τ}

theorem Queues.relink (h : Queues cfg s q) {next : τ → Option τ}
    (hsame : ∀ b, (s.status b).onRunqueue = true → next b = s.next b) : Queues cfg { s with next := next } q where
  level := h.level
  ring p := (h.ring p).congr fun b hb => hsame b ((h.mem p b).mp hb).2
  mem := h.mem
  bit := h.bit

variable [DecidableEq τ]

theorem unscheduleCur_off (cur : Option τ) (hoff : (s.status t).onRunqueue = false) :
    (s.unscheduleCur cur).status t = s.status t := by
  rw [unscheduleCur_status, if_neg]
  rintro ⟨-, hr⟩
  rw [hr] at hoff
  cases hoff

theorem Queues.run_frame (h : Queues cfg s q) {u : Sched τ} {r : Option τ} (hr : Sched.run cfg s = some (u, r)) :
    u.next = s.next ∧ ∀ t, (s.status t).onRunqueue = false → u.status t = s.status t := by
  have hnext : ∀ (v : Sched τ) cur, (v.unscheduleCur cur).next = v.next := fun v cur => by rw [unscheduleCur_frame]
  unfold Sched.run at hr
  simp only at hr
  split at hr
  · cases hr
    exact ⟨hnext _ _, fun t => unscheduleCur_off _⟩
  · obtain ⟨⟨v, c⟩, hd, heq⟩ := map_eq_some_iff.mp hr
    cases heq
    unfold Sched.dispatch at hd
    split at hd
    · cases hd
    · rename_i c' hpeek
      rw [(h.ring _).lpeek_eq] at hpeek
      have hon := ((h.mem _ c').mp (mem_of_mem_head? hpeek)).2
      have hmark : ∀ t, (s.status t).onRunqueue = false → (s.markRunning c').status t = s.status t := by
        intro t hoff
        apply update_of_ne
        rintro rfl
        rw [hon] at hoff; cases hoff
      split at hd
      · cases hd; exact ⟨rfl, hmark⟩
      · cases hd
        refine ⟨hnext _ _, fun t hoff => ?_⟩
        have hst := hmark t hoff
        rw [← hst] at hoff ⊢; exact unscheduleCur_off _ hoff

theorem Queues.setStatus_next (h : Queues cfg s q) (st : Status) (hb : (s.status b).onRunqueue = false) (hbt : b ≠ t) :
    (s.setStatus cfg t st).next b = s.next b := by
  have hno : ∀ p, b ∉ q p := fun p hm => by simp [((h.mem p b).mp hm).2] at hb
  unfold Sched.setStatus
  split
  · split
    · rfl
    · exact (h.ring _).rpush_frame (hno _) hbt
  · split
    · exact (h.ring _).lpop_frame (hno _)
    · rfl

end

end Sched

namespace Kernel

section
variable {τ μ β γ κ : Type} {st : Status} {x : Wait τ μ β γ} {me : τ}

theorem length_lt_fuel [Fintype τ] {l : List τ} (h : l.Nodup) : l.length < fuel τ := Nat.lt_succ_of_le h.length_le_card

theorem not_onRunqueue_of_waitsIn (h : waitsIn st x = true) : st.onRunqueue = false := by
  cases st <;> cases x <;> first | rfl | simp [waitsIn] at h

/-- The lists of the state are `q` and `w`. The thread `e` heads its run queue, or is
off the queues by `msg_send_receive`, and waits nowhere. -/
structure Inv (cfg : Config) (s : Kernel τ μ β γ κ) (q : Nat → List τ) (w : Wait τ μ β γ → List τ) (e : Option τ) :
    Prop where
  queues : Sched.Queues cfg s.sched q
  spells : ∀ x, Slist.Spells s.sched.next (s.head x).ptr (w x)
  named : ∀ x, ∀ t ∈ w x, waitsIn (s.sched.status t) x = true
  one : ∀ x y t, t ∈ w x → t ∈ w y → x = y
  ready : ∀ me, e = some me → (∀ x, me ∉ w x) ∧
    ((q (s.sched.priority me)).head? = some me ∨ s.sched.status me = .replyBlocked)

def Safe (cfg : Config) (e : Option τ) (s : Kernel τ μ β γ κ) : Prop := ∃ q w, Inv cfg s q w e

def Freed (cfg : Config) (e : Option τ) (t : τ) (s : Kernel τ μ β γ κ) : Prop :=
  ∃ q w, Inv cfg s q w e ∧ (s.sched.status t).onRunqueue = false ∧ ∀ x, t ∉ w x

def Unlinked (s : Kernel τ μ β γ κ) (t : τ) : Prop :=
  ∀ x l, Slist.Spells s.sched.next (s.head (.msgs x)).ptr l → t ∉ l

variable {cfg : Config} {s u : Kernel τ μ β γ κ} {q : Nat → List τ} {w : Wait τ μ β γ → List τ} {e : Option τ} {t : τ}

theorem Inv.off (h : Inv cfg s q w e) (ht : t ∈ w x) : (s.sched.status t).onRunqueue = false :=
  not_onRunqueue_of_waitsIn (h.named x t ht)

theorem Inv.congr (h : Inv cfg s q w e) (hs : u.sched = { s.sched with switchRequest := u.sched.switchRequest })
    (hh : ∀ x, (u.head x).ptr = (s.head x).ptr) :
    Inv cfg u q w e := by
  refine ⟨?_, ?_, ?_, h.one, ?_⟩
  · rw [hs]
    exact ⟨h.queues.level, h.queues.ring, h.queues.mem, h.queues.bit⟩
  · intro x
    rw [hh, hs]; exact h.spells x
  · rw [hs]; exact h.named
  · rw [hs]; exact h.ready

theorem Safe.congr (h : Safe cfg e s) (hs : u.sched = { s.sched with switchRequest := u.sched.switchRequest })
    (hh : ∀ x, (u.head x).ptr = (s.head x).ptr) : Safe cfg e u := by
  obtain ⟨q, w, hi⟩ := h
  exact ⟨q, w, hi.congr hs hh⟩

theorem Freed.congr (h : Freed cfg e t s) (hs : u.sched = { s.sched with switchRequest := u.sched.switchRequest })
    (hh : ∀ x, (u.head x).ptr = (s.head x).ptr) : Freed cfg e t u := by
  obtain ⟨q, w, hi, hoff, hno⟩ := h
  refine ⟨q, w, hi.congr hs hh, ?_, hno⟩
  rw [hs]
  exact hoff

theorem Safe.idle (h : Safe cfg e s) : Safe cfg none s := by
  obtain ⟨q, w, hi⟩ := h
  exact ⟨q, w, hi.queues, hi.spells, hi.named, hi.one, fun _ he => (by cases he)⟩

theorem Freed.safe (h : Freed cfg e t s) : Safe cfg e s := by
  obtain ⟨q, w, hi, -⟩ := h
  exact ⟨q, w, hi⟩

theorem Safe.oneList (h : Safe cfg e s) : s.OneList := by
  obtain ⟨q, w, hi⟩ := h
  refine ⟨fun x => x.casesOn q w, ?_, ?_, ?_⟩
  · intro x
    cases x with
    | runqueue p => exact hi.queues.ring p
    | wait x => exact hi.spells x
  · intro x y t hx hy
    cases x with
    | runqueue p =>
      have hp := (hi.queues.mem p t).mp hx
      cases y with
      | runqueue p' => rw [← hp.1, ← ((hi.queues.mem p' t).mp hy).1]
      | wait y => simp [hi.off hy] at hp
    | wait x =>
      cases y with
      | runqueue p' => simpa [hi.off hx] using (hi.queues.mem p' t).mp hy
      | wait y => rw [hi.one x y t hx hy]
  · intro x t ht
    cases x with
    | runqueue p =>
      have hp := (hi.queues.mem p t).mp ht
      exact ⟨hp.2, hp.1⟩
    | wait x => exact hi.named x t ht

/-! ## Freeing a thread -/

theorem Safe.freed_of_status (h : Safe cfg e s) (hoff : (s.sched.status t).onRunqueue = false)
    (hno : ∀ x : Wait τ μ β γ, waitsIn (s.sched.status t) x = false) : Freed cfg e t s := by
  obtain ⟨q, w, hi⟩ := h
  refine ⟨q, w, hi, hoff, fun x ht => ?_⟩
  have hn := hi.named x t ht
  rw [hno x] at hn
  cases hn

theorem Safe.freed_of_unlinked (h : Safe cfg e s) (hr : s.sched.status t = .replyBlocked) (hu : s.Unlinked t) :
    Freed cfg e t s := by
  obtain ⟨q, w, hi⟩ := h
  refine ⟨q, w, hi, by rw [hr]; rfl, fun x ht => ?_⟩
  have hn := hi.named x t ht
  rw [hr] at hn
  cases x with
  | msgs y => exact hu y _ (hi.spells _) ht
  | mutex m | readers b | writers b | cond c => simp [waitsIn] at hn

theorem Freed.executes (h : Freed cfg none t s) (hr : s.sched.status t = .replyBlocked) : Safe cfg (some t) s := by
  obtain ⟨q, w, hi, -, hno⟩ := h
  refine ⟨q, w, hi.queues, hi.spells, hi.named, hi.one, ?_⟩
  intro me hme
  cases hme
  exact ⟨hno, .inr hr⟩

/-! ## The end of a call -/

def Done (cfg : Config) (e : Option τ) (s : Kernel τ μ β γ κ) : Prop :=
  Safe cfg none s ∧ s.executing = none ∨ Safe cfg e s ∧ s.executing = e

theorem Done.safe (h : Done cfg e s) : Safe cfg s.executing s := by
  rcases h with ⟨h, he⟩ | ⟨h, he⟩
  · rwa [he]
  · rwa [he]

theorem Done.goesOn (h : Safe cfg e s) (he : s.executing = e) : Done cfg e s := .inr ⟨h, he⟩

theorem Done.yields {e' : Option τ} (h : Safe cfg e' s) : Done cfg e s.threadYieldHigher :=
  .inl ⟨h.idle.congr rfl fun _ => rfl, rfl⟩

section
variable (h : Safe cfg e s)
include h

theorem Safe.schedSwitch {p : Nat} (hs : s.schedSwitch p = some u) :
    Safe cfg e u ∧ (u.executing = none ∨ u.executing = s.executing) := by
  obtain ⟨a, -, rfl⟩ := map_eq_some_iff.mp hs
  split
  · exact ⟨h.congr rfl fun _ => rfl, .inl rfl⟩
  · exact ⟨h, .inr rfl⟩

theorem Done.of_safe (he : s.executing = none ∨ s.executing = e) : Done cfg e s :=
  he.imp (fun he => ⟨h.idle, he⟩) fun he => ⟨h, he⟩

theorem Done.schedSwitch (he : s.executing = e) {p : Nat} (hs : s.schedSwitch p = some u) : Done cfg e u := by
  obtain ⟨hu, hex⟩ := h.schedSwitch hs
  rw [he] at hex
  exact .of_safe hu hex

theorem Done.isrExit (he : s.executing = e) : Done cfg e s.isrExit := by
  unfold Kernel.isrExit
  split
  · exact .yields h
  · exact .goesOn h he

theorem Safe.request : Safe cfg e s.request := h.congr rfl fun _ => rfl

theorem Safe.ne (hoff : (s.sched.status t).onRunqueue = false) (hr : s.sched.status t ≠ .replyBlocked) :
    e ≠ some t := by
  intro he
  obtain ⟨q, w, hi⟩ := h
  rcases (hi.ready t he).2 with hhead | hreply
  · have hon := hi.queues.mem_own.mp (mem_of_mem_head? hhead)
    rw [hoff] at hon; cases hon
  · exact hr hreply

end

theorem wakesUp_status (h : s.wakesUp t = true) :
    s.sched.status t = .flagBlockedAny ∨ s.sched.status t = .flagBlockedAll := by
  unfold wakesUp at h
  split at h
  · exact .inl ‹_›
  · exact .inr ‹_›
  · cases h

theorem threadYield_done (h : Safe cfg s.executing s) (hs : s.threadYield = some u) : Done cfg s.executing u := by
  obtain ⟨me, -, rfl⟩ := map_eq_some_iff.mp hs
  split
  · obtain ⟨q, w, hi⟩ := h.idle
    have hadv : Safe cfg none { s with sched := s.sched.runqAdvance (s.sched.priority me) } :=
      ⟨_, w, hi.queues.advance _, hi.spells, hi.named, hi.one, fun _ he => (by cases he)⟩
    exact .yields hadv
  · exact .yields h

/-! ## Taking a thread off and putting it on -/

variable [DecidableEq τ]

section
variable (cfg)

section
variable (s : Kernel τ μ β γ κ) (t : τ) (st : Status)

@[simp] theorem setStatus_status :
    (s.setStatus cfg t st).sched.status = update s.sched.status t st := (Sched.setStatus_frame cfg s.sched t st).2.2

@[simp] theorem setStatus_priority :
    (s.setStatus cfg t st).sched.priority = s.sched.priority := (Sched.setStatus_frame cfg s.sched t st).2.1

@[simp] theorem setStatus_executing : (s.setStatus cfg t st).executing = s.executing := by
  unfold executing
  rw [show (s.setStatus cfg t st).sched.active = s.sched.active from (Sched.setStatus_frame cfg s.sched t st).1]
  rfl

end

end

theorem Inv.setStatus (hi : Inv cfg s q w e) (hno : ∀ x, t ∉ w x) (st : Status) {q' : Nat → List τ}
    (hq : Sched.Queues cfg (s.setStatus cfg t st).sched q')
    (hready : ∀ me, e = some me → (q' (s.sched.priority me)).head? = some me ∨
      (s.setStatus cfg t st).sched.status me = .replyBlocked) : Inv cfg (s.setStatus cfg t st) q' w e where
  queues := hq
  spells x := (hi.spells x).congr fun b hb =>
    hi.queues.setStatus_next st (hi.off hb) fun h => hno x (h ▸ hb)
  named x b hb := by
    have hbt : b ≠ t := fun h => hno x (h ▸ hb)
    rw [setStatus_status, update_of_ne hbt]; exact hi.named x b hb
  one := hi.one
  ready me he := by
    rw [setStatus_priority]; exact ⟨(hi.ready me he).1, hready me he⟩

theorem Freed.setStatus (h : Freed cfg e t s) (st : Status) (he : e ≠ some t) : Safe cfg e (s.setStatus cfg t st) := by
  obtain ⟨q, w, hi, hoff, hno⟩ := h
  obtain ⟨q', hq', hkeep⟩ := hi.queues.setStatus t st fun hon => by rw [hoff] at hon; cases hon
  refine ⟨q', w, hi.setStatus hno st hq' ?_⟩
  intro me hme
  have hne : me ≠ t := fun h => he (h ▸ hme)
  rw [setStatus_status, update_of_ne hne]
  exact (hi.ready me hme).2.imp_left (hkeep _ me hne)

theorem Safe.pop (h : Safe cfg (some me) s) (hst : st.onRunqueue = false) :
    Freed cfg none me (s.setStatus cfg me st) := by
  obtain ⟨q, w, hi⟩ := h
  obtain ⟨hno, hhead⟩ := hi.ready me rfl
  obtain ⟨q', hq', -⟩ := hi.queues.setStatus me st fun hon _ => by
    rcases hhead with hhead | hr
    · exact hhead
    · rw [hr] at hon; cases hon
  have hidle : Inv cfg s q w none := ⟨hi.queues, hi.spells, hi.named, hi.one, fun _ he => (by cases he)⟩
  refine ⟨q', w, hidle.setStatus hno st hq' fun _ he => (by cases he), ?_, hno⟩
  rw [setStatus_status, update_self]
  exact hst

theorem Safe.wake (h : Safe cfg e s) (st : Status)
    (ht : s.sched.status t = .receiveBlocked ∨ s.sched.status t = .flagBlockedAny ∨ s.sched.status t = .flagBlockedAll ∨
      s.sched.status t = .sleeping) : Safe cfg e (s.setStatus cfg t st) := by
  have hoff : (s.sched.status t).onRunqueue = false := by
    rcases ht with ht | ht | ht | ht <;> rw [ht] <;> rfl
  have hno : ∀ x : Wait τ μ β γ, waitsIn (s.sched.status t) x = false := by
    intro x
    rcases ht with ht | ht | ht | ht <;> cases x <;> simp [waitsIn, ht]
  have hne : e ≠ some t := by
    apply h.ne hoff
    rcases ht with ht | ht | ht | ht <;> simp [ht]
  exact (h.freed_of_status hoff hno).setStatus st hne

/-! ## Thread flags and sleep -/

theorem Safe.threadFlagsWake (h : Safe cfg e s) (t : τ) : Safe cfg e (s.threadFlagsWake cfg t) := by
  unfold Kernel.threadFlagsWake
  split
  · rename_i hw
    have hst := wakesUp_status hw
    exact (h.wake .pending (.inr (hst.imp_right .inl))).request
  · exact h

@[simp] theorem threadFlagsWake_executing (s : Kernel τ μ β γ κ) (t : τ) :
    (s.threadFlagsWake cfg t).executing = s.executing := by
  unfold Kernel.threadFlagsWake
  split
  · exact setStatus_executing cfg s t .pending
  · rfl

theorem threadFlagsSet_done (h : Safe cfg s.executing s) (t : τ) (mask : BitVec 16) :
    Done cfg s.executing (s.threadFlagsSet cfg t mask) := by
  have hr : Safe cfg s.executing (s.raise t mask) := h.congr rfl fun _ => rfl
  simp only [threadFlagsSet]
  split
  · exact .yields (hr.threadFlagsWake t)
  · exact .goesOn hr rfl

section
variable (h : Safe cfg (some me) s)
include h

theorem flagsWait_done (mask : BitVec 16) (hst : st.onRunqueue = false) :
    Done cfg (some me) (s.flagsWait cfg mask me st) := by
  have hd : Safe cfg (some me) (s.setWaitData me (mask.setWidth 32)) := h.congr rfl fun _ => rfl
  exact .yields (hd.pop hst).safe

theorem threadFlagsWaitAny_done (he : s.executing = some me) (mask : BitVec 16) :
    Done cfg (some me) (s.threadFlagsWaitAny cfg me mask) := by
  unfold threadFlagsWaitAny
  split
  · exact flagsWait_done h mask rfl
  · exact .goesOn h he

theorem threadFlagsWaitAll_done (he : s.executing = some me) (mask : BitVec 16) :
    Done cfg (some me) (s.threadFlagsWaitAll cfg me mask) := by
  unfold threadFlagsWaitAll
  split
  · exact .goesOn h he
  · exact flagsWait_done h mask rfl

theorem threadSleep_done : Done cfg (some me) (s.threadSleep cfg me) := by
  have hsleep : Status.sleeping.onRunqueue = false := rfl
  exact .yields (h.pop hsleep).safe

end

theorem threadWakeup_done (h : Safe cfg s.executing s) (hs : s.threadWakeup cfg t = some u) :
    Done cfg s.executing u := by
  unfold threadWakeup at hs
  split at hs
  · rename_i ht
    exact .schedSwitch (h.wake .running (.inr (.inr (.inr ht)))) (setStatus_executing cfg s t .running) hs
  · cases hs; exact .goesOn h rfl

theorem schedRun_safe (h : Safe cfg s.executing s) (hs : s.schedRun cfg = some u) : Safe cfg u.executing u := by
  obtain ⟨⟨v, r⟩, hr, rfl⟩ := map_eq_some_iff.mp hs
  obtain ⟨q, w, hi⟩ := h
  obtain ⟨hq, hhead, hsel, -⟩ := hi.queues.run hr
  obtain ⟨hnext, hoff⟩ := hi.queues.run_frame hr
  refine ⟨q, w, hq, ?_, ?_, hi.one, ?_⟩
  · intro x
    rw [hnext]; exact hi.spells x
  · intro x t ht
    rw [hoff t (hi.off ht)]; exact hi.named x t ht
  · intro me hme
    cases r with
    | none => cases hme
    | some t =>
      have hact : v.active = some me := hme
      obtain rfl : t = me := some.inj ((hsel t rfl).active.symm.trans hact)
      have hon : (v.status t).onRunqueue = true := by
        rw [(hsel t rfl).running]; rfl
      refine ⟨fun x hx => ?_, .inl (hq.atHead_iff.mp hhead t hact hon)⟩
      rw [hoff t (hi.off hx), hi.off hx] at hon; cases hon

/-! ## Wait lists -/

variable [DecidableEq μ] [DecidableEq β] [DecidableEq γ]

theorem Inv.relink (hi : Inv cfg s q w e) (hoff : (s.sched.status t).onRunqueue = false) {l : List τ}
    {r : (τ → Option τ) × Option τ} (hl : Slist.Spells r.1 r.2 l) (hsub : ∀ b ∈ l, b ∈ w x ∨ b = t)
    (hsame : ∀ b, b ∉ w x → b ≠ t → r.1 b = s.sched.next b) (hother : ∀ y, y ≠ x → t ∉ w y)
    (hname : t ∈ l → waitsIn (s.sched.status t) x = true) (he : t ∈ l → e ≠ some t) :
    Inv cfg (s.relink x r) q (update w x l) e := by
  have hmem : ∀ y b, b ∈ update w x l y → b ∈ w y ∨ y = x ∧ b = t ∧ t ∈ l := by
    intro y b hb
    by_cases hy : y = x
    · subst hy
      rw [update_self] at hb
      rcases hsub b hb with hw | rfl
      · exact .inl hw
      · exact .inr ⟨rfl, rfl, hb⟩
    · rw [update_of_ne hy] at hb; exact .inl hb
  refine ⟨?_, ?_, ?_, ?_, ?_⟩
  · refine hi.queues.relink fun b hb => hsame b (fun hw => ?_) fun h => ?_
    · rw [hi.off hw] at hb; cases hb
    · rw [h, hoff] at hb; cases hb
  · intro y
    by_cases hy : y = x
    · subst hy
      simp only [Kernel.relink, update_self, Link.ptr_ofPtr]; exact hl
    · simp only [Kernel.relink, update_of_ne hy]
      refine (hi.spells y).congr fun b hb => hsame b (fun hw => hy (hi.one y x b hb hw)) fun h => ?_
      exact hother y hy (h ▸ hb)
  · intro y b hb
    rcases hmem y b hb with hw | ⟨rfl, rfl, hl⟩
    · exact hi.named y b hw
    · exact hname hl
  · intro y z b hy hz
    rcases hmem y b hy with hwy | ⟨rfl, rfl, -⟩
    · rcases hmem z b hz with hwz | ⟨rfl, rfl, -⟩
      · exact hi.one y z b hwy hwz
      · by_contra hne
        exact hother y hne hwy
    · rcases hmem z b hz with hwz | ⟨rfl, -, -⟩
      · by_contra hne
        exact hother z (Ne.symm hne) hwz
      · rfl
  · intro me hme
    obtain ⟨hno, hhead⟩ := hi.ready me hme
    refine ⟨fun y hy => ?_, hhead⟩
    rcases hmem y me hy with hw | ⟨-, rfl, hl⟩
    · exact hno y hw
    · exact he hl hme

theorem Safe.removeHead (h : Safe cfg e s) (hs : s.listRemoveHead x = some (t, u)) :
    Freed cfg e t u ∧ u.sched.status = s.sched.status ∧ u.sched.priority = s.sched.priority ∧
      u.executing = s.executing ∧ waitsIn (s.sched.status t) x = true ∧ e ≠ some t := by
  obtain ⟨q, w, hi⟩ := h
  obtain ⟨t', ht, heq⟩ := map_eq_some_iff.mp hs
  cases heq
  have hspells := hi.spells x
  rw [ht] at hspells
  cases hl : w x with
  | nil =>
    rw [hl] at hspells; cases hspells
  | cons a l =>
    rw [hl] at hspells
    obtain ⟨ha, hrest⟩ := Slist.spells_cons.mp hspells
    cases ha
    have hin : t ∈ w x := by rw [hl]; exact mem_cons_self
    have hnd := nodup_cons.mp hspells.nodup
    refine ⟨⟨q, update w x l, hi.relink (hi.off hin) hrest ?_ ?_ ?_ ?_ ?_, hi.off hin, ?_⟩, rfl, rfl, rfl,
      hi.named x t hin, ?_⟩
    · intro b hb
      rw [hl]; exact .inl (mem_cons_of_mem t hb)
    · exact fun b _ _ => rfl
    · exact fun y hy ht => hy (hi.one y x t ht hin)
    · exact fun ht => absurd ht hnd.1
    · exact fun ht => absurd ht hnd.1
    · intro y hy
      by_cases hyx : y = x
      · subst hyx
        rw [update_self] at hy; exact hnd.1 hy
      · rw [update_of_ne hyx] at hy; exact hyx (hi.one y x t hy hin)
    · intro he; exact (hi.ready t he).1 x hin

theorem Freed.setLocked (h : Freed cfg e t s) (he : e ≠ some t) (hx : waitsIn (s.sched.status t) x = true) :
    Safe cfg e (s.relink x (update s.sched.next t none, some t)) := by
  obtain ⟨q, w, hi, hoff, hno⟩ := h
  refine ⟨q, update w x [t], hi.relink hoff ?_ ?_ ?_ ?_ ?_ ?_⟩
  · rw [Slist.spells_cons, Slist.spells_nil]; exact ⟨rfl, update_self ..⟩
  · exact fun b hb => .inr (mem_singleton.mp hb)
  · exact fun b _ hbt => update_of_ne hbt ..
  · exact fun y _ => hno y
  · exact fun _ => hx
  · exact fun _ => he

section
variable [Fintype τ]

theorem Freed.addToList (h : Freed cfg e t s) (he : e ≠ some t) (hx : waitsIn (s.sched.status t) x = true) :
    ∃ u, s.threadAddToList x t = some u ∧ Safe cfg e u ∧ u.executing = s.executing := by
  obtain ⟨q, w, hi, hoff, hno⟩ := h
  have hspells := hi.spells x
  have hwalk := hspells.walk_eq (fun c => decide (s.sched.priority t < s.sched.priority c)) none
    (length_lt_fuel hspells.nodup)
  have hadd : addRanked s.sched.priority t (w x) = _ := orderedInsert_eq_take_drop _ t (w x)
  simp only [decide_not] at hadd
  unfold threadAddToList
  rw [hwalk, if_neg (by rw [hoff]; exact Bool.noConfusion), or_none]
  refine ⟨_, rfl, ⟨q, update w x (addRanked s.sched.priority t (w x)), hi.relink hoff ?_ ?_ ?_ ?_ ?_ ?_⟩, rfl⟩
  · rw [hadd]
    apply Slist.Spells.insert
    · rwa [takeWhile_append_dropWhile]
    · rw [takeWhile_append_dropWhile]; exact hno x
  · intro b hb; exact (mem_addRanked.mp hb).symm
  · intro b hb hbt
    rw [Slist.setNext_same, update_of_ne hbt]
    intro hlast
    exact hb ((takeWhile_sublist _).mem (mem_of_getLast? hlast))
  · exact fun y _ => hno y
  · exact fun _ => hx
  · exact fun _ => he

theorem Safe.remove (h : Safe cfg e s) (x : Wait τ μ β γ) (t : τ) : ∃ r, s.listRemove x t = some r ∧
    ∀ u, r = some u → Freed cfg e t u ∧ u.executing = s.executing ∧ e ≠ some t := by
  obtain ⟨q, w, hi⟩ := h
  have hspells := hi.spells x
  have hwalk := hspells.walk_eq (fun c => decide (c = t)) none (length_lt_fuel hspells.nodup)
  unfold listRemove
  rw [hwalk, or_none]
  refine ⟨_, rfl, ?_⟩
  intro u hu
  obtain ⟨c, hc, rfl⟩ := map_eq_some_iff.mp hu
  change ((w x).dropWhile fun a => !decide (a = t)).head? = some c at hc
  have hct : c = t := by
    have hstop := head?_dropWhile_not (fun a => !decide (a = t)) (w x)
    rw [hc] at hstop
    simpa using hstop
  subst hct
  obtain ⟨l2, hdrop⟩ := head?_eq_some_iff.mp hc
  have hsplit : w x = (w x).takeWhile (fun a => !decide (a = c)) ++ c :: l2 := by
    rw [← hdrop, takeWhile_append_dropWhile]
  have hin : c ∈ w x := by
    rw [hsplit]; simp
  have hnd := hspells.nodup
  rw [hsplit] at hspells hnd
  have hgone : c ∉ (w x).takeWhile (fun a => !decide (a = c)) ++ l2 := by
    have hfront : (c :: ((w x).takeWhile (fun a => !decide (a = c)) ++ l2)).Nodup := perm_middle.nodup_iff.mp hnd
    exact (nodup_cons.mp hfront).1
  refine ⟨⟨q, update w x _, hi.relink (hi.off hin) hspells.unlink ?_ ?_ ?_ ?_ ?_, hi.off hin, ?_⟩, rfl, ?_⟩
  · intro b hb
    left
    rw [hsplit]
    simp only [mem_append, mem_cons] at hb ⊢; exact hb.imp_right .inr
  · intro b hb _
    apply Slist.setNext_same
    intro hlast
    exact hb ((takeWhile_sublist _).mem (mem_of_getLast? hlast))
  · exact fun y hy ht => hy (hi.one y x c ht hin)
  · exact fun ht => absurd ht hgone
  · exact fun ht => absurd ht hgone
  · intro y hy
    by_cases hyx : y = x
    · subst hyx
      rw [update_self] at hy; exact hgone hy
    · rw [update_of_ne hyx] at hy; exact hyx (hi.one y x c hy hin)
  · intro he; exact (hi.ready c he).1 x hin

end

end

end Kernel

end PipRiot.Core
