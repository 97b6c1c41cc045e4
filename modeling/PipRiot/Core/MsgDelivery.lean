import PipRiot.Core.MsgSend

/-!
# Exactly once and in order

A receive moves messages forward in the list of all messages for the thread, from
the threads that wait to the queue and from there to the receiver.
-/

namespace PipRiot.Core.Messaging

open Function List Option

section
variable {τ β : Type} {cfg : MsgConfig τ} {s u : Messaging τ β} {q q' : τ → List (Msg τ β)} {t x me : τ}
  {m a : Msg τ β}

theorem settled_of_idle (h : s.call me = .idle) (q : τ → List (Msg τ β)) : s.settled q me = s.returned me ++ q me := by
  rw [settled, arriving_of_idle h, append_nil]

theorem queueIndex_cases (h : Wired cfg s q) (me : τ) :
    q me = [] ∧ s.queueIndex cfg me = (s.queue me, -1) ∨
    ∃ a l c, ∃ i : Nat, q me = a :: l ∧ s.queueIndex cfg me = (c, (i : Int)) ∧ s.array me i = a ∧
      Cib.Ring c (cfg.size me) (s.array me) l := by
  have hring := h.ring me
  cases hq : cfg.hasQueue me with
  | false =>
    left
    have hb := hring.bound
    rw [cfg.size_none me hq] at hb
    exact ⟨eq_nil_of_length_eq_zero (Nat.le_zero.mp hb), by rw [queueIndex, hq, if_neg Bool.false_ne_true]⟩
  | true =>
    cases hl : q me with
    | nil =>
      left
      rw [hl] at hring
      exact ⟨rfl, by rw [queueIndex, hq, if_pos rfl, hring.get_nil]⟩
    | cons a l =>
      right
      rw [hl] at hring
      obtain ⟨c, i, hget, harr, hring'⟩ := hring.get_cons
      exact ⟨a, l, c, i, rfl, by rw [queueIndex, hq, if_pos rfl, hget], harr, hring'⟩

theorem ne_receiveBlocked (hr : (s.status me).onRunqueue = true) : s.status me ≠ .receiveBlocked := fun e => by
  rw [e] at hr
  cases hr

theorem Free.not_waiting (hfree : s.Free me) (h : Wired cfg s q) (t : τ) : me ∉ s.waiters t := fun hin => by
  obtain ⟨m', hc, -⟩ := (h.waiting t me).mp hin
  rw [hfree.call] at hc
  cases hc

theorem Sound.not_waiting_of_run (h : Sound cfg s q) (hr : (s.status me).onRunqueue = true) (t : τ) :
    me ∉ s.waiters t :=
  h.wired.not_waiting (fun e => by
    rw [e] at hr
    cases hr) t

structure ChangesSelf (s u : Messaging τ β) (me : τ) : Prop where
  other : ∀ t ≠ me, u.status t = s.status t ∧ u.waitData t = s.waitData t ∧ u.call t = s.call t
  waiters : u.waiters = s.waiters
  queue : u.queue = s.queue
  array : u.array = s.array
  stamp : u.stamp = s.stamp
  rejected : u.rejected = s.rejected

def Rests (s u : Messaging τ β) (q : τ → List (Msg τ β)) (me : τ) : Prop :=
  u.call me = .idle ∧ u.status me ≠ .receiveBlocked ∨
    u.call me = .receiving ∧ u.status me = .receiveBlocked ∧ q me = [] ∧ s.waiters me = []

theorem Rests.not_sending (h : Rests s u q me) (t : τ) (m : Msg τ β) : u.call me ≠ .sending t m := fun e => by
  rcases h with ⟨hc, -⟩ | ⟨hc, -⟩
  · cases hc.symm.trans e
  · cases hc.symm.trans e

variable [DecidableEq τ]

structure Takes (cfg : MsgConfig τ) (s : Messaging τ β) (q : τ → List (Msg τ β)) (u : Messaging τ β)
    (q' : τ → List (Msg τ β)) (me x : τ) (ws : List τ) (m : Msg τ β) : Prop where
  first : s.waiters me = x :: ws
  rest : u.waiters me = ws
  other : ∀ t ≠ me, u.waiters t = s.waiters t ∧ q' t = q t ∧ u.returned t = s.returned t
  ring : ∀ t, Cib.Ring (u.queue t) (cfg.size t) (u.array t) (q' t)
  full : (q' me).length = cfg.size me
  call : u.call = s.call
  status : u.status = update s.status x .pending
  data : ∀ y, y ≠ x → y ≠ me → u.waitData y = s.waitData y
  message : s.waitData x = some m
  settled : u.settled q' me = s.settled q me ++ [m]
  history : u.stamp = s.stamp ∧ u.accepted = s.accepted ∧ u.rejected = s.rejected

namespace Takes
variable {ws : List τ}

section
variable (ht : Takes cfg s q u q' me x ws m)
include ht

theorem mem : x ∈ s.waiters me := by
  rw [ht.first]
  exact mem_cons_self

theorem status_self : u.status x = .pending := by
  rw [ht.status, update_self]

theorem status_other (h : t ≠ x) : u.status t = s.status t := by
  rw [ht.status, update_of_ne h]

section
variable (h : Wired cfg s q)
include h

theorem sent : s.call x = .sending me m := by
  obtain ⟨m', hc, -, hd⟩ := h.waiter ht.mem
  cases hd.symm.trans ht.message
  exact hc

theorem mem_waiters (t y : τ) : y ∈ u.waiters t ↔ y ≠ x ∧ y ∈ s.waiters t := by
  have hnd := h.nodup me
  rw [ht.first, nodup_cons] at hnd
  by_cases em : t = me
  · subst em
    rw [ht.rest, ht.first, mem_cons]
    constructor
    · intro hin
      refine ⟨?_, .inr hin⟩
      rintro rfl
      exact hnd.1 hin
    · rintro ⟨hne, hin⟩
      exact hin.resolve_left hne
  · rw [(ht.other t em).1]
    constructor
    · intro hin
      refine ⟨?_, hin⟩
      rintro rfl
      exact em (h.waits_once hin ht.mem)
    · exact And.right

theorem wired (hfree : s.Free me) : Wired cfg u q' := by
  have hsent := ht.sent h
  refine ⟨ht.ring, ?_, ?_, ?_, ?_, ?_, ?_⟩
  · intro t hne
    by_cases e : t = me
    · rw [e]; exact ht.full
    · obtain ⟨hw, hq, -⟩ := ht.other t e
      rw [hq]; exact h.full t (hw ▸ hne)
  · intro t hb
    have ex : t ≠ x := by
      rintro rfl
      rw [ht.status_self] at hb; cases hb
    rw [ht.status_other ex] at hb
    have em : t ≠ me := by
      rintro rfl
      exact ne_receiveBlocked hfree.1 hb
    obtain ⟨hw, hq, -⟩ := ht.other t em
    rw [ht.call, hw, hq]; exact h.blocked t hb
  · intro t y
    rw [ht.mem_waiters h, ht.call]
    by_cases ex : y = x
    · subst ex
      rw [ht.status_self]
      exact ⟨fun hy => absurd rfl hy.1, fun ⟨_, _, hc⟩ => by cases hc⟩
    · rw [ht.status_other ex, ← h.waiting t y]; exact and_iff_right ex
  · intro t y m' hc
    rw [ht.call] at hc
    obtain ⟨hs, hcase⟩ := h.sending t y m' hc
    refine ⟨hs, ?_⟩
    by_cases ex : y = x
    · subst ex
      right
      rw [ht.status_self]; rfl
    · have em : y ≠ me := by
        rintro rfl
        cases hfree.call.symm.trans hc
      rw [ht.status_other ex, ht.data y ex em]; exact hcase
  · intro t hc
    rw [ht.call] at hc
    have ex : t ≠ x := by
      rintro rfl
      cases hsent.symm.trans hc
    have em : t ≠ me := by
      rintro rfl
      cases hfree.call.symm.trans hc
    rw [ht.status_other ex, ht.data t ex em]; exact h.receiving t hc
  · intro t
    by_cases em : t = me
    · subst em
      have hnd := h.nodup t
      rw [ht.first] at hnd
      rw [ht.rest]; exact hnd.of_cons
    · rw [(ht.other t em).1]; exact h.nodup t

theorem settledOther (e : t ≠ me) : u.settled q' t = s.settled q t := by
  obtain ⟨-, hq, hr⟩ := ht.other t e
  have harr : u.arriving t = s.arriving t := by
    by_cases ex : t = x
    · subst ex
      rw [arriving, arriving, ht.call, ht.sent h]
    · exact arriving_congr (by rw [ht.call]) (ht.status_other ex) fun _ => ht.data t ex e
  rw [Messaging.settled, Messaging.settled, hq, hr, harr]

theorem filed (hfree : s.Free me) (t : τ) : u.filed q' t = s.filed q t := by
  have hdata : ∀ y ∈ u.waiters t, u.waitData y = s.waitData y := by
    intro y hy
    obtain ⟨ex, hin⟩ := (ht.mem_waiters h t y).mp hy
    refine ht.data y ex ?_
    rintro rfl
    exact hfree.not_waiting h t hin
  have hheld : u.held t = (u.waiters t).filterMap s.waitData := filterMap_congr hdata
  rw [Messaging.filed, Messaging.filed, hheld]
  by_cases e : t = me
  · subst e
    rw [ht.settled, ht.rest, held, ht.first, filterMap_cons_some ht.message, append_assoc]
    rfl
  · rw [ht.settledOther h e, (ht.other t e).1, held]

end

theorem sound (h : Sound cfg s q) (hfree : s.Free me) : Sound cfg u q' := by
  have hmono : ∀ t, ∀ b ∈ s.settled q t, b ∈ u.settled q' t := by
    intro t b hb
    by_cases e : t = me
    · subst e
      rw [ht.settled]; exact mem_append_left _ hb
    · rw [ht.settledOther h.wired e]; exact hb
  refine h.keep (ht.wired h.wired hfree) (ht.filed h.wired hfree) hmono ⟨ht.history.1, ht.history.2.2⟩ ?_ ?_
  · intro p hp; exact .inl (ht.history.2.1 ▸ hp)
  · intro t y m' hc hr
    rw [ht.call] at hc
    by_cases ex : y = x
    · subst ex
      cases (ht.sent h.wired).symm.trans hc
      right
      rw [ht.settled]
      exact mem_append_right _ (mem_singleton_self m)
    · exact .inl ⟨hc, ht.status_other ex ▸ hr⟩

end

end Takes

/-! ## Receiving -/

theorem setQueue_self (s : Messaging τ β) (me : τ) : s.setQueue me (s.queue me) = s := by
  rw [setQueue, update_eq_self]

theorem wakeSender_eq (h : s.status x = .sendBlocked) :
    s.wakeSender x = (s.setWaitData x none).setStatus x .pending := by
  rw [wakeSender, if_pos]
  rw [h]
  decide

theorem takes_direct (h : Wired cfg s q) (hfree : s.Free me) {ws : List τ} (hw : s.waiters me = x :: ws)
    (hm : s.waitData x = some m) (hq : q me = []) :
    Takes cfg s q ((((s.setWaitData me none).setWaiters me ws).wakeSender x).noteReturned me m) q me x ws m := by
  obtain ⟨-, -, hsx, -⟩ := h.waiter (t := me) (x := x) (by rw [hw]; exact mem_cons_self)
  rw [wakeSender_eq (s := (s.setWaitData me none).setWaiters me ws) hsx]
  refine ⟨hw, update_self .., ?_, h.ring, ?_, rfl, rfl, ?_, hm, ?_, rfl, rfl, rfl⟩
  · intro t e
    exact ⟨update_of_ne e .., rfl, update_of_ne e ..⟩
  · exact h.full me (by rw [hw]; exact cons_ne_nil x ws)
  · intro y ex em
    exact (update_of_ne ex ..).trans (update_of_ne em ..)
  · rw [settled_of_idle hfree.call, settled_of_idle, hq, append_nil, append_nil]
    · exact update_self ..
    · exact hfree.call

theorem takes_refill (h : Wired cfg s q) (hfree : s.Free me) {ws : List τ} (hw : s.waiters me = x :: ws)
    (hm : s.waitData x = some m) {l : List (Msg τ β)} {c : Cib} (hq : q me = a :: l)
    (hring : Cib.Ring c (cfg.size me) (s.array me) l) :
    ∃ v, ((s.setQueue me c).setWaiters me ws).queueMsg me m = some v ∧
      Takes cfg s q ((v.wakeSender x).noteReturned me a) (update q me (l ++ [m])) me x ws m := by
  obtain ⟨-, -, hsx, -⟩ := h.waiter (t := me) (x := x) (by rw [hw]; exact mem_cons_self)
  have hfull := h.full me (by rw [hw]; exact cons_ne_nil x ws)
  rw [hq, length_cons] at hfull
  have hring' : Cib.Ring (((s.setQueue me c).setWaiters me ws).queue me) (cfg.size me)
      (((s.setQueue me c).setWaiters me ws).array me) l := by
    have hc : ((s.setQueue me c).setWaiters me ws).queue me = c := update_self ..
    rw [hc]; exact hring
  obtain ⟨c', i, hput, hnew⟩ := queueMsg_room hring' (by omega) m
  refine ⟨_, hput, ?_⟩
  rw [wakeSender_eq (s := (((s.setQueue me c).setWaiters me ws).setQueue me c').setSlot me i m) hsx]
  refine ⟨hw, update_self .., ?_, ?_, ?_, rfl, rfl, ?_, hm, ?_, rfl, rfl, rfl⟩
  · intro t e
    exact ⟨update_of_ne e .., update_of_ne e .., update_of_ne e ..⟩
  · intro t
    by_cases e : t = me
    · subst e
      simpa [noteReturned, setStatus, setWaitData, setSlot, setQueue, setWaiters] using hnew
    · simpa [noteReturned, setStatus, setWaitData, setSlot, setQueue, setWaiters, e] using h.ring t
  · rw [update_self, length_append]; exact hfull
  · intro y ex _; exact update_of_ne ex ..
  · rw [settled_of_idle hfree.call, settled_of_idle, update_self, hq]
    · simp [noteReturned, setStatus, setWaitData, setSlot, setQueue, setWaiters]
    · exact hfree.call

/-! ## What the sending functions return -/

def Returns (cfg : MsgConfig τ) (s : Messaging τ β) (q : τ → List (Msg τ β)) (target : Option τ) (m : Msg τ β)
    (r : Messaging τ β × Option Int) : Prop :=
  (r.2 = some 1 ∧ ∃ x q', target = some x ∧ Appends cfg s q r.1 q' x m) ∨ ∃ v ≠ 1, r = (s, some v)

section
variable (h : Wired cfg s q)
include h

theorem returns_msgSendToSelf (hx : s.status x ≠ .receiveBlocked) (m : Msg τ β) :
    Returns cfg s q (some x) m (s.msgSendToSelf x m) := by
  unfold msgSendToSelf
  split
  · rename_i u hu
    obtain ⟨q', ha⟩ := h.queueMsg hx hu
    exact .inl ⟨rfl, x, q', rfl, ha⟩
  · exact .inr ⟨0, by decide, rfl⟩

theorem returns_msgSendOneway (target : Option τ) (m : Msg τ β) :
    Returns cfg s q target m (s.msgSendOneway target m) := by
  cases target with
  | none => exact .inr ⟨-1, by decide, rfl⟩
  | some x =>
    simp only [msgSendOneway]
    split
    · rename_i hx
      exact .inl ⟨rfl, x, q, rfl, h.directCopy hx m⟩
    · rename_i hx
      split
      · rename_i u hu
        obtain ⟨q', ha⟩ := h.queueMsg hx hu
        exact .inl ⟨rfl, x, q', rfl, ha⟩
      · exact .inr ⟨0, by decide, rfl⟩

theorem msgSend_cases (me : τ) (target : Option τ) (block : Bool) (m : Msg τ β) :
    Returns cfg s q target m (s.msgSend cfg me target block m) ∨
    ∃ x, target = some x ∧ s.status x ≠ .receiveBlocked ∧ (q x).length = cfg.size x ∧
      s.msgSend cfg me target block m = (s.blockSender cfg me x m, none) := by
  cases target with
  | none => exact .inl (.inr ⟨-1, by decide, rfl⟩)
  | some x =>
    simp only [msgSend]
    split
    · rename_i hx
      split
      · rename_i u hu
        obtain ⟨q', ha⟩ := h.queueMsg hx hu
        exact .inl (.inl ⟨rfl, x, q', rfl, ha⟩)
      · rename_i hnone
        have hfull : (q x).length = cfg.size x := by
          rcases lt_or_eq_of_le (h.ring x).bound with hroom | hfull
          · obtain ⟨c, i, hsome, -⟩ := queueMsg_room (h.ring x) hroom m
            rw [hnone] at hsome; cases hsome
          · exact hfull
        cases block with
        | true => exact .inr ⟨x, rfl, hx, hfull, rfl⟩
        | false => exact .inl (.inr ⟨0, by decide, rfl⟩)
    · rename_i hx
      exact .inl (.inl ⟨rfl, x, q, rfl, h.directCopy (not_not.mp hx) m⟩)

end

theorem ChangesSelf.wired (hc : ChangesSelf s u me) (h : Wired cfg s q) (hno : ∀ t, me ∉ s.waiters t)
    (hself : Rests s u q me) : Wired cfg u q := by
  refine ⟨?_, ?_, ?_, ?_, ?_, ?_, ?_⟩
  · rw [hc.queue, hc.array]; exact h.ring
  · rw [hc.waiters]; exact h.full
  · intro t ht
    rw [hc.waiters]
    by_cases e : t = me
    · subst e
      rcases hself with ⟨-, hne⟩ | ⟨hrec, -, hq, hw⟩
      · exact absurd ht hne
      · exact ⟨hrec, hq, hw⟩
    · obtain ⟨hst, -, hcl⟩ := hc.other t e
      rw [hcl]; exact h.blocked t (hst ▸ ht)
  · intro t y
    rw [hc.waiters]
    by_cases e : y = me
    · subst e
      exact ⟨fun hin => absurd hin (hno t), fun ⟨m', hm', _⟩ => absurd hm' (hself.not_sending t m')⟩
    · obtain ⟨hst, -, hcl⟩ := hc.other y e
      rw [hst, hcl]; exact h.waiting t y
  · intro t y m' hy
    have e : y ≠ me := by
      rintro rfl
      exact hself.not_sending t m' hy
    obtain ⟨hst, hd, hcl⟩ := hc.other y e
    rw [hst, hd]; exact h.sending t y m' (hcl ▸ hy)
  · intro t ht
    by_cases e : t = me
    · subst e
      rcases hself with ⟨hidle, -⟩ | ⟨-, hb, -⟩
      · cases hidle.symm.trans ht
      · exact .inl hb
    · obtain ⟨hst, hd, hcl⟩ := hc.other t e
      rw [hst, hd]; exact h.receiving t (hcl ▸ ht)
  · rw [hc.waiters]; exact h.nodup

namespace Sound

section
variable (h : Sound cfg s q)
include h

theorem returnHead (hfree : s.Free me) (hw : s.waiters me = []) {l : List (Msg τ β)} {c : Cib}
    (hq : q me = a :: l) (hring : Cib.Ring c (cfg.size me) (s.array me) l) :
    Sound cfg ((s.setQueue me c).noteReturned me a) (update q me l) := by
  have hc : ((s.setQueue me c).noteReturned me a).queue me = c := update_self ..
  have hwired : Wired cfg ((s.setQueue me c).noteReturned me a) (update q me l) := by
    refine h.wired.requeue rfl rfl rfl rfl ?_ ?_ (fun hne => absurd hw hne) (ne_receiveBlocked hfree.1)
    · intro t e; exact ⟨update_of_ne e .., rfl⟩
    · rw [hc]; exact hring
  have hset : ∀ t, ((s.setQueue me c).noteReturned me a).settled (update q me l) t = s.settled q t := by
    intro t
    by_cases e : t = me
    · subst e
      rw [settled_of_idle hfree.call, settled_of_idle, update_self, hq]
      · simp [noteReturned, setQueue]
      · exact hfree.call
    · simp only [settled, noteReturned, update_of_ne e]; rfl
  refine h.keep hwired ?_ ?_ ⟨rfl, rfl⟩ (fun p hp => .inl hp) fun t x m hcall hr => .inl ⟨hcall, hr⟩
  · intro t
    rw [filed, hset]; rfl
  · intro t b hb
    rw [hset]; exact hb

theorem changeSelf (hc : ChangesSelf s u me) (hno : ∀ t, me ∉ s.waiters t)
    (hself : Rests s u q me) (hset : u.settled q me = s.settled q me) (hret : ∀ t ≠ me, u.returned t = s.returned t)
    (hacc : ∀ p ∈ u.accepted, p ∈ s.accepted ∨ p.2 ∈ s.settled q p.1) : Sound cfg u q := by
  have hsettled : ∀ t, u.settled q t = s.settled q t := by
    intro t
    by_cases e : t = me
    · rw [e, hset]
    · obtain ⟨hst, hd, hcl⟩ := hc.other t e
      rw [settled, settled, arriving_congr hcl hst fun _ => hd, hret t e]
  have hheld : ∀ t, u.held t = s.held t := fun t =>
    held_congr (by rw [hc.waiters]) fun y hy => (hc.other y fun e => hno t (e ▸ hy)).2.1
  refine h.keep (hc.wired h.wired hno hself) ?_ ?_ ⟨hc.stamp, hc.rejected⟩ ?_ ?_
  · intro t
    rw [filed, filed, hsettled, hheld]
  · intro t b hb
    rw [hsettled]; exact hb
  · intro p hp
    rw [hsettled]; exact hacc p hp
  · intro t y m' hy hr
    have e : y ≠ me := by
      rintro rfl
      exact hself.not_sending t m' hy
    obtain ⟨hst, -, hcl⟩ := hc.other y e
    exact .inl ⟨hcl ▸ hy, hst ▸ hr⟩

theorem blockReceiver (hfree : s.Free me) (hw : s.waiters me = []) (hq : q me = []) :
    Sound cfg (((s.setWaitData me none).setStatus me .receiveBlocked).setCall me .receiving) q := by
  have hc : (((s.setWaitData me none).setStatus me .receiveBlocked).setCall me .receiving).call me = .receiving :=
    update_self ..
  have hst : (((s.setWaitData me none).setStatus me .receiveBlocked).setCall me .receiving).status me =
    .receiveBlocked :=
    update_self ..
  refine h.changeSelf ⟨?_, rfl, rfl, rfl, rfl, rfl⟩ (hfree.not_waiting h.wired) (.inr ⟨hc, hst, hq, hw⟩) ?_
    (fun t _ => rfl) fun p hp => .inl hp
  · intro t e
    exact ⟨update_of_ne e .., update_of_ne e .., update_of_ne e ..⟩
  · have harr : (((s.setWaitData me none).setStatus me .receiveBlocked).setCall me .receiving).arriving me = [] := by
      apply arriving_of_blocked
      rw [hst]; rfl
    rw [settled, settled, harr, arriving_of_idle hfree.call]; rfl

section
variable (hr : (s.status me).onRunqueue = true)
include hr

theorem resumeSend (hc : s.call me = .sending x m) :
    Sound cfg { s.setCall me .idle with accepted := s.accepted ++ [(x, m)] } q := by
  have hidle : (s.setCall me .idle).call me = .idle := update_self ..
  refine h.changeSelf ⟨?_, rfl, rfl, rfl, rfl, rfl⟩ (h.not_waiting_of_run hr) (.inl ⟨hidle, ne_receiveBlocked hr⟩) ?_
    (fun t _ => rfl) ?_
  · intro t e; exact ⟨rfl, rfl, update_of_ne e ..⟩
  · rw [settled_of_idle, settled, arriving, hc, append_nil]
    · rfl
    · exact hidle
  · intro p hp
    rcases mem_append.mp hp with hp | hp
    · exact .inl hp
    · obtain rfl := mem_singleton.mp hp
      exact .inr (h.woken x me m hc hr)

theorem resumeReceive (hc : s.call me = .receiving)
    (hm : s.waitData me = some m) : Sound cfg ((s.setCall me .idle).noteReturned me m) q := by
  have hidle : ((s.setCall me .idle).noteReturned me m).call me = .idle := update_self ..
  refine h.changeSelf ⟨?_, rfl, rfl, rfl, rfl, rfl⟩ (h.not_waiting_of_run hr) (.inl ⟨hidle, ne_receiveBlocked hr⟩) ?_ ?_
    fun p hp => .inl hp
  · intro t e; exact ⟨rfl, rfl, update_of_ne e ..⟩
  · have harr : s.arriving me = [m] := by
      rw [arriving, hc, hr, hm]; rfl
    have hret : ((s.setCall me .idle).noteReturned me m).returned me = s.returned me ++ [m] := update_self ..
    rw [settled_of_idle hidle, hret, settled, harr]
  · intro t e; exact update_of_ne e ..

theorem resume (hc : s.call me ≠ .idle) : ∃ u, s.resume me = some u ∧ Sound cfg u q := by
  unfold Messaging.resume
  cases hcall : s.call me with
  | idle => exact absurd hcall hc
  | sending x m => exact ⟨_, rfl, h.resumeSend hr hcall⟩
  | receiving =>
    rcases h.wired.receiving me hcall with hb | ⟨-, m, hm⟩
    · exact absurd hb (ne_receiveBlocked hr)
    · simp only [hm, map_some]
      exact ⟨_, rfl, h.resumeReceive hr hcall hm⟩

end

theorem msgReceive (hfree : s.Free me) (block : Bool) :
    ∃ u q', s.msgReceive cfg me block = some u ∧ Sound cfg u q' := by
  unfold Messaging.msgReceive
  rcases queueIndex_cases h.wired me with ⟨hq, hidx⟩ | ⟨a, l, c, i, hq, hidx, harr, hring⟩
  · simp only [hidx, setQueue_self]
    split
    · exact ⟨s, q, rfl, h⟩
    · cases hw : s.waiters me with
      | nil => exact ⟨_, q, if_pos (by decide), h.blockReceiver hfree hw hq⟩
      | cons x ws =>
        obtain ⟨m, -, -, hm⟩ := h.wired.waiter (t := me) (x := x) (by rw [hw]; exact mem_cons_self)
        simp only [hm]
        exact ⟨_, q, if_pos (by decide), (takes_direct h.wired hfree hw hm hq).sound h hfree⟩
  · have hne : ¬ (i : Int) = -1 := by omega
    have hpos : ¬ (i : Int) < 0 := by omega
    simp only [hidx, hne, and_false, if_false, hpos, Int.toNat_natCast, harr]
    cases hw : s.waiters me with
    | nil => exact ⟨_, _, rfl, h.returnHead hfree hw hq hring⟩
    | cons x ws =>
      obtain ⟨m, -, -, hm⟩ := h.wired.waiter (t := me) (x := x) (by rw [hw]; exact mem_cons_self)
      obtain ⟨v, hv, ht⟩ := takes_refill h.wired hfree hw hm hq hring
      simp only [hm, hv, map_some]; exact ⟨_, _, rfl, ht.sound h hfree⟩

theorem noteSent (hm : m.stamp = s.stamp) {target : Option τ} {r : Messaging τ β × Option Int}
    (hr : Returns cfg s.nextStamp q target m r) : ∃ q', Sound cfg (r.1.noteSent target m r.2) q' := by
  rcases hr with ⟨hone, x, q', rfl, ha⟩ | ⟨v, hv, rfl⟩
  · refine ⟨q', ?_⟩
    rw [hone]; exact h.accept ha hm
  · refine ⟨q, ?_⟩
    simp only [Messaging.noteSent, if_neg hv]; exact h.reject hm

theorem step {op : Op τ β} (hu : step cfg s op = some u) : ∃ q', Sound cfg u q' := by
  cases op with
  | send t target block content =>
    simp only [Messaging.step, ite_none_right_eq_some, some.injEq] at hu
    obtain ⟨hfree, rfl⟩ := hu
    split
    · rename_i hself
      subst hself
      exact h.noteSent rfl (returns_msgSendToSelf h.wiredNext (ne_receiveBlocked hfree.1) _)
    · rcases msgSend_cases h.wiredNext t target block ⟨.thread t, content, s.stamp⟩ with hr | ⟨x, rfl, hx, hfull, hr⟩
      · exact h.noteSent rfl hr
      · rw [hr]
        obtain ⟨l1, l2, hb⟩ := blocks_blockSender (s := s.nextStamp) cfg hfree.1 x ⟨.thread t, content, s.stamp⟩
        exact ⟨q, h.block hb hfree.call (h.not_waiting_of_run hfree.1) hx hfull rfl rfl⟩
  | sendInt target content =>
    cases hu
    exact h.noteSent rfl (returns_msgSendOneway h.wiredNext target _)
  | receive t block =>
    simp only [Messaging.step, ite_none_right_eq_some] at hu
    obtain ⟨v, q', hv, hsound⟩ := h.msgReceive hu.1 block
    cases hu.2.symm.trans hv
    exact ⟨q', hsound⟩
  | resume t =>
    simp only [Messaging.step, ite_none_right_eq_some] at hu
    have hc : s.call t ≠ .idle := fun e => by
      have := hu.2
      rw [Messaging.resume, e] at this; cases this
    obtain ⟨v, hv, hsound⟩ := h.resume hu.1 hc
    cases hu.2.symm.trans hv
    exact ⟨q, hsound⟩

end

end Sound

theorem sound_of_reach {array : τ → Nat → Msg τ β} (h : ReachVia (step cfg) (fun _ _ => True) (init cfg array) s) :
    ∃ q, Sound cfg s q := by
  refine h.inv (fun s => ∃ q, Sound cfg s q) ⟨_, Sound.init cfg array⟩ ?_
  rintro s u op ⟨q, hq⟩ - hu
  exact hq.step hu

def queued (s : Messaging τ β) (t : τ) : List (Msg τ β) := (s.queue t).contents (s.array t)

/-- In every run the messages returned, arriving, queued and held for a thread are
all different and in the order in which each sender sent them. A message that was
sent with result 1 is one of those that have settled at its target and at no other
thread, and one that was sent with another result is nowhere. A message that
arrives is the one the receive returns in its next step. No receive and no return of
a call that has blocked fails. -/
theorem messages_exactly_once_in_order (cfg : MsgConfig τ) (array : τ → Nat → Msg τ β) (s : Messaging τ β)
    (h : ReachVia (step cfg) (fun _ _ => True) (init cfg array) s) :
    (∀ t, (s.filed s.queued t).Nodup ∧
      (s.filed s.queued t).Pairwise fun a b => a.sender = b.sender → a.stamp < b.stamp) ∧
    (∀ p ∈ s.accepted, p.2 ∈ s.settled s.queued p.1 ∧ ∀ t ≠ p.1, p.2 ∉ s.filed s.queued t) ∧
    (∀ m ∈ s.rejected, ∀ t, m ∉ s.filed s.queued t) ∧
    (∀ t, ∀ m ∈ s.arriving t, s.step cfg (.resume t) = some ((s.setCall t .idle).noteReturned t m)) ∧
    (∀ t block, s.Free t → ∃ u, s.step cfg (.receive t block) = some u) ∧
    (∀ t, (s.status t).onRunqueue = true → s.call t ≠ .idle → ∃ u, s.step cfg (.resume t) = some u) := by
  obtain ⟨q, hq⟩ := sound_of_reach h
  have hqueued : s.queued = q := funext fun t => (hq.wired.ring t).contents_eq
  rw [hqueued]
  refine ⟨fun t => ⟨hq.ledger.nodup t, hq.ledger.order t⟩, ?_, fun m hm => (hq.ledger.out m hm).2, ?_, ?_, ?_⟩
  · intro p hp
    have hin := hq.accepted p hp
    refine ⟨hin, fun t ht hin' => ht ?_⟩
    exact hq.ledger.apart t p.1 p.2 hin' (mem_append_left _ hin)
  · intro t m hm
    obtain ⟨hc, hr, hd⟩ := mem_arriving hm
    simp only [step, hr, if_true, resume, hc, hd, map_some]
  · intro t block hfree
    obtain ⟨u, -, hu, -⟩ := hq.msgReceive hfree block
    exact ⟨u, (if_pos hfree).trans hu⟩
  · intro t hr hc
    obtain ⟨u, hu, -⟩ := hq.resume hr hc
    exact ⟨u, (if_pos hr).trans hu⟩

end

section

def twoPlaces : MsgConfig (Fin 2) where
  priority t := t.val
  hasQueue t := t == 0
  size t := if t = 0 then 2 else 0
  size_ok t := by
    by_cases h : t = 0
    · exact .inr ⟨1, by omega, by rw [if_pos h]; rfl⟩
    · exact .inl (if_neg h)
  size_none t h := by
    rw [if_neg]
    rintro rfl
    cases h

/-- The third message waits with its sender and is queued when the first is received. -/
theorem messages_in_order_past_full_queue : ∃ s : Messaging (Fin 2) Nat,
    ReachVia (step twoPlaces) (fun _ _ => True) (init twoPlaces fun _ _ => ⟨.isr, 0, 0⟩) s ∧
    (s.returned 0).map Msg.content = [10] ∧ (s.queued 0).map Msg.content = [20, 30] ∧ s.accepted.length = 3 ∧
    (s.filed s.queued 0).Nodup := by
  have h : ReachVia (step twoPlaces) (fun _ _ => True)
    (init twoPlaces fun _ _ => ⟨.isr, 0, 0⟩ : Messaging (Fin 2) Nat) _ :=
    runAll_reach [.send 1 (some 0) true 10, .sendInt (some 0) 20, .send 1 (some 0) true 30, .receive 0 true,
      .resume 1] _ rfl
  exact ⟨_, h, rfl, rfl, rfl, ((messages_exactly_once_in_order twoPlaces _ _ h).1 0).1⟩

end

end PipRiot.Core.Messaging
