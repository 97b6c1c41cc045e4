import PipRiot.Core.Msg
import PipRiot.Lib.Ledger

/-!
# Sending messages

The messages for a thread are, in this order, those its receives have returned, the
one in the buffer of a receive that has been woken, those in its queue and those
of the threads that wait for it. A send adds one message to this list.
-/

namespace PipRiot.Core.Messaging

open Function List

section
variable {τ β : Type} (s : Messaging τ β)

def arriving (t : τ) : List (Msg τ β) :=
  match s.call t with
  | .receiving => if (s.status t).onRunqueue then (s.waitData t).toList else []
  | _ => []

def held (t : τ) : List (Msg τ β) := (s.waiters t).filterMap s.waitData

def settled (q : τ → List (Msg τ β)) (t : τ) : List (Msg τ β) := s.returned t ++ s.arriving t ++ q t

def filed (q : τ → List (Msg τ β)) (t : τ) : List (Msg τ β) := s.settled q t ++ s.held t

structure Wired (cfg : MsgConfig τ) (s : Messaging τ β) (q : τ → List (Msg τ β)) : Prop where
  ring : ∀ t, Cib.Ring (s.queue t) (cfg.size t) (s.array t) (q t)
  full : ∀ t, s.waiters t ≠ [] → (q t).length = cfg.size t
  blocked : ∀ t, s.status t = .receiveBlocked → s.call t = .receiving ∧ q t = [] ∧ s.waiters t = []
  waiting : ∀ t x, x ∈ s.waiters t ↔ ∃ m, s.call x = .sending t m ∧ s.status x = .sendBlocked
  sending : ∀ t x m, s.call x = .sending t m → m.sender = .thread x ∧
    (s.status x = .sendBlocked ∧ s.waitData x = some m ∨ (s.status x).onRunqueue = true)
  receiving : ∀ t, s.call t = .receiving → s.status t = .receiveBlocked ∨
    (s.status t).onRunqueue = true ∧ ∃ m, s.waitData t = some m
  nodup : ∀ t, (s.waiters t).Nodup

variable {cfg : MsgConfig τ} {s u : Messaging τ β} {q q' : τ → List (Msg τ β)} {t x me : τ} {m : Msg τ β}

theorem arriving_congr (hc : u.call t = s.call t) (hst : u.status t = s.status t)
    (hw : s.call t = .receiving → u.waitData t = s.waitData t) : u.arriving t = s.arriving t := by
  unfold arriving
  rw [hc, hst]
  split
  · rename_i hr
    rw [hw hr]
  · rfl

theorem mem_arriving (hm : m ∈ s.arriving t) :
    s.call t = .receiving ∧ (s.status t).onRunqueue = true ∧ s.waitData t = some m := by
  unfold arriving at hm
  split at hm
  · rename_i hc
    split at hm
    · rename_i hr
      exact ⟨hc, hr, Option.mem_toList.mp hm⟩
    · cases hm
  · cases hm

theorem held_congr (hl : u.waiters t = s.waiters t) (hw : ∀ x ∈ s.waiters t, u.waitData x = s.waitData x) :
    u.held t = s.held t := by
  rw [held, held, hl]
  exact filterMap_congr hw

theorem arriving_of_blocked (h : (s.status t).onRunqueue = false) : s.arriving t = [] := by
  unfold arriving
  split
  · rw [h, if_neg Bool.false_ne_true]
  · rfl

theorem Free.call (h : s.Free t) : s.call t = .idle := by
  have := h.2
  unfold MsgCall.isIdle at this
  split at this
  · assumption
  · cases this

theorem arriving_of_idle (h : s.call t = .idle) : s.arriving t = [] := by
  rw [arriving, h]

namespace Wired

theorem init (cfg : MsgConfig τ) (array : τ → Nat → Msg τ β) : Wired cfg (Messaging.init cfg array) fun _ => [] where
  ring t := Cib.Ring.init (cfg.size_ok t) _
  full t h := absurd rfl h
  blocked t h := by cases h
  waiting t x := by simp [Messaging.init]
  sending t x m h := by cases h
  receiving t h := by cases h
  nodup t := nodup_nil

section
variable (h : Wired cfg s q)
include h

theorem not_waiting (hx : s.status x ≠ .sendBlocked) (t : τ) : x ∉ s.waiters t := fun hin => by
  obtain ⟨m, -, hst⟩ := (h.waiting t x).mp hin
  exact hx hst

theorem waiter (hx : x ∈ s.waiters t) :
    ∃ m, s.call x = .sending t m ∧ s.status x = .sendBlocked ∧ s.waitData x = some m := by
  obtain ⟨m, hc, hst⟩ := (h.waiting t x).mp hx
  obtain ⟨-, hd | hr⟩ := h.sending t x m hc
  · exact ⟨m, hc, hst, hd.2⟩
  · rw [hst] at hr; cases hr

theorem waits_once {y : τ} (hx : y ∈ s.waiters t) (hx' : y ∈ s.waiters x) : t = x := by
  obtain ⟨m, hc, -⟩ := (h.waiting t y).mp hx
  obtain ⟨m', hc', -⟩ := (h.waiting x y).mp hx'
  rw [hc] at hc'
  cases hc'
  rfl

theorem held_sender (hm : m ∈ s.held t) : ∃ x ∈ s.waiters t, m.sender = .thread x := by
  obtain ⟨x, hx, hd⟩ := mem_filterMap.mp hm
  obtain ⟨m', hc, -, hd'⟩ := h.waiter hx
  cases hd.symm.trans hd'
  exact ⟨x, hx, (h.sending t x m hc).1⟩

theorem congr (hst : u.status = s.status) (hc : u.call = s.call) (hd : u.waitData = s.waitData)
    (hw : u.waiters = s.waiters) (hq : u.queue = s.queue) (ha : u.array = s.array) : Wired cfg u q := by
  refine ⟨?_, ?_, ?_, ?_, ?_, ?_, ?_⟩
  · rw [hq, ha]; exact h.ring
  · rw [hw]; exact h.full
  · rw [hst, hc, hw]; exact h.blocked
  · rw [hw, hc, hst]; exact h.waiting
  · rw [hc, hst, hd]; exact h.sending
  · rw [hc, hst, hd]; exact h.receiving
  · rw [hw]; exact h.nodup

end

end Wired

/-! ## The invariant -/

structure Sound (cfg : MsgConfig τ) (s : Messaging τ β) (q : τ → List (Msg τ β)) : Prop where
  wired : Wired cfg s q
  ledger : Ledger Msg.sender Msg.stamp (s.filed q) s.stamp s.rejected
  accepted : ∀ p ∈ s.accepted, p.2 ∈ s.settled q p.1
  woken : ∀ t x m, s.call x = .sending t m → (s.status x).onRunqueue = true → m ∈ s.settled q t

namespace Sound

theorem init (cfg : MsgConfig τ) (array : τ → Nat → Msg τ β) : Sound cfg (Messaging.init cfg array) fun _ => [] where
  wired := Wired.init cfg array
  ledger := by
    refine ⟨fun t => List.Pairwise.nil, fun t a ha => ?_, fun t t' a ha => ?_, fun a ha => ?_⟩ <;> cases ha
  accepted p hp := by cases hp
  woken t x m h := by cases h

theorem wiredNext (h : Sound cfg s q) : Wired cfg s.nextStamp q :=
  h.wired.congr rfl rfl rfl rfl rfl rfl

theorem reject (h : Sound cfg s q) (hm : m.stamp = s.stamp) :
    Sound cfg { s.nextStamp with rejected := s.nextStamp.rejected ++ [m] } q where
  wired := h.wired.congr rfl rfl rfl rfl rfl rfl
  ledger := h.ledger.reject hm
  accepted := h.accepted
  woken := h.woken

theorem keep (h : Sound cfg s q) (hw : Wired cfg u q') (hfiled : ∀ t, u.filed q' t = s.filed q t)
    (hset : ∀ t, ∀ m ∈ s.settled q t, m ∈ u.settled q' t) (hhist : u.stamp = s.stamp ∧ u.rejected = s.rejected)
    (hacc : ∀ p ∈ u.accepted, p ∈ s.accepted ∨ p.2 ∈ u.settled q' p.1)
    (hwoken : ∀ t x m, u.call x = .sending t m → (u.status x).onRunqueue = true →
      s.call x = .sending t m ∧ (s.status x).onRunqueue = true ∨ m ∈ u.settled q' t) : Sound cfg u q' where
  wired := hw
  ledger := by
    rw [hhist.1, hhist.2, funext hfiled]; exact h.ledger
  accepted p hp := (hacc p hp).elim (fun hp => hset p.1 p.2 (h.accepted p hp)) id
  woken t x m hc hr := (hwoken t x m hc hr).elim (fun hs => hset t m (h.woken t x m hs.1 hs.2)) id

end Sound

/-! ## Sending -/

structure Blocks (s u : Messaging τ β) (me x : τ) (m : Msg τ β) (l1 l2 : List τ) : Prop where
  split : s.waiters x = l1 ++ l2
  waiters : u.waiters x = l1 ++ me :: l2
  waitersOther : ∀ t ≠ x, u.waiters t = s.waiters t
  self : u.status me = .sendBlocked ∧ u.waitData me = some m ∧ u.call me = .sending x m
  other : ∀ t ≠ me, u.status t = s.status t ∧ u.waitData t = s.waitData t ∧ u.call t = s.call t
  queue : u.queue = s.queue
  array : u.array = s.array
  returned : u.returned = s.returned
  stamp : u.stamp = s.stamp
  accepted : u.accepted = s.accepted
  rejected : u.rejected = s.rejected

namespace Blocks
variable {l1 l2 : List τ}

section
variable (hb : Blocks s u me x m l1 l2)
include hb

theorem filterMap_eq {l : List τ} (hl : me ∉ l) : l.filterMap u.waitData = l.filterMap s.waitData :=
  filterMap_congr fun y hy => (hb.other y fun e => hl (e ▸ hy)).2.1

theorem held (hno : ∀ t, me ∉ s.waiters t) : u.held x = l1.filterMap s.waitData ++ m :: l2.filterMap s.waitData := by
  have hx := hno x
  rw [hb.split, mem_append, not_or] at hx
  rw [Messaging.held, hb.waiters, filterMap_append, filterMap_cons_some hb.self.2.1, hb.filterMap_eq hx.1,
    hb.filterMap_eq hx.2]

theorem heldOther (hno : ∀ t, me ∉ s.waiters t) (t : τ) (e : t ≠ x) : u.held t = s.held t :=
  held_congr (hb.waitersOther t e) fun y hy => (hb.other y fun e => hno t (e ▸ hy)).2.1

end

end Blocks

variable [DecidableEq τ]

structure Appends (cfg : MsgConfig τ) (s : Messaging τ β) (q : τ → List (Msg τ β)) (u : Messaging τ β)
    (q' : τ → List (Msg τ β)) (x : τ) (m : Msg τ β) : Prop where
  wired : Wired cfg u q'
  settled : ∀ t, u.settled q' t = update (s.settled q) x (s.settled q x ++ [m]) t
  held : ∀ t, u.held t = s.held t
  empty : s.held x = []
  call : u.call = s.call
  status : ∀ y t m', s.call y = .sending t m' → u.status y = s.status y
  history : u.stamp = s.stamp ∧ u.accepted = s.accepted ∧ u.rejected = s.rejected

theorem queueMsg_full {size : Nat} {l : List (Msg τ β)} (h : Cib.Ring (s.queue x) size (s.array x) l)
    (hfull : l.length = size) : s.queueMsg x m = none := by
  simp [queueMsg, h.put_full hfull]

theorem queueMsg_room {size : Nat} {l : List (Msg τ β)} (h : Cib.Ring (s.queue x) size (s.array x) l)
    (hroom : l.length < size) (m : Msg τ β) : ∃ c i, s.queueMsg x m = some ((s.setQueue x c).setSlot x i m) ∧
      Cib.Ring c size (update (s.array x) i m) (l ++ [m]) := by
  obtain ⟨c, i, hput, hring⟩ := h.put_room hroom m
  refine ⟨c, i, ?_, hring⟩
  simp [queueMsg, hput]

theorem Wired.requeue (h : Wired cfg s q) {l : List (Msg τ β)} (hst : u.status = s.status) (hc : u.call = s.call)
    (hd : u.waitData = s.waitData) (hw : u.waiters = s.waiters)
    (hother : ∀ t ≠ x, u.queue t = s.queue t ∧ u.array t = s.array t)
    (hring : Cib.Ring (u.queue x) (cfg.size x) (u.array x) l) (hfull : s.waiters x ≠ [] → l.length = cfg.size x)
    (hx : s.status x ≠ .receiveBlocked) : Wired cfg u (update q x l) := by
  refine ⟨?_, ?_, ?_, ?_, ?_, ?_, ?_⟩
  · intro t
    by_cases e : t = x
    · subst e
      rw [update_self]; exact hring
    · rw [update_of_ne e, (hother t e).1, (hother t e).2]; exact h.ring t
  · intro t ht
    rw [hw] at ht
    by_cases e : t = x
    · subst e
      rw [update_self]; exact hfull ht
    · rw [update_of_ne e]; exact h.full t ht
  · intro t ht
    rw [hst] at ht
    have e : t ≠ x := fun e => hx (e ▸ ht)
    rw [update_of_ne e, hc, hw]; exact h.blocked t ht
  · rw [hw, hc, hst]; exact h.waiting
  · rw [hc, hst, hd]; exact h.sending
  · rw [hc, hst, hd]; exact h.receiving
  · rw [hw]; exact h.nodup

theorem Wired.queueMsg (h : Wired cfg s q) (hx : s.status x ≠ .receiveBlocked) (hu : s.queueMsg x m = some u) :
    ∃ q', Appends cfg s q u q' x m := by
  rcases lt_or_eq_of_le (h.ring x).bound with hroom | hfull
  · obtain ⟨c, i, hq, hring⟩ := queueMsg_room (h.ring x) hroom m
    cases hu.symm.trans hq
    -- a queue with room has no waiters
    have hw : s.waiters x = [] := by
      by_contra hne
      exact Nat.ne_of_lt hroom (h.full x hne)
    have hqueue : ((s.setQueue x c).setSlot x i m).queue x = c := update_self ..
    have harray : ((s.setQueue x c).setSlot x i m).array x = update (s.array x) i m := update_self ..
    refine ⟨update q x (q x ++ [m]), ?_, ?_, fun t => rfl, ?_, rfl, fun y t m' _ => rfl, rfl, rfl, rfl⟩
    · refine h.requeue rfl rfl rfl rfl ?_ ?_ (fun hne => absurd hw hne) hx
      · intro t e
        exact ⟨update_of_ne e .., update_of_ne e ..⟩
      · rw [hqueue, harray]; exact hring
    · intro t
      by_cases e : t = x
      · subst e
        simp only [Messaging.settled, update_self, append_assoc]; rfl
      · simp only [Messaging.settled, update_of_ne e]; rfl
    · rw [Messaging.held, hw, filterMap_nil]
  · rw [queueMsg_full (h.ring x) hfull] at hu; cases hu

theorem Wired.directCopy (h : Wired cfg s q) (hx : s.status x = .receiveBlocked) (m : Msg τ β) :
    Appends cfg s q (s.directCopy x m) q x m := by
  obtain ⟨hcall, hq, hw⟩ := h.blocked x hx
  have hno := h.not_waiting (x := x) (by rw [hx]; decide)
  have hst : ∀ t ≠ x, (s.directCopy x m).status t = s.status t := fun t e => update_of_ne e ..
  have hd : ∀ t ≠ x, (s.directCopy x m).waitData t = s.waitData t := fun t e => update_of_ne e ..
  have hpend : (s.directCopy x m).status x = .pending := update_self ..
  have hgot : (s.directCopy x m).waitData x = some m := update_self ..
  have hcallx : ∀ y t m', s.call y = .sending t m' → y ≠ x := fun y t m' hy e => by
    rw [e, hcall] at hy; cases hy
  refine ⟨⟨h.ring, h.full, ?_, ?_, ?_, ?_, h.nodup⟩, ?_, ?_, ?_, rfl, ?_, rfl, rfl, rfl⟩
  · intro t ht
    by_cases e : t = x
    · subst e
      rw [hpend] at ht; cases ht
    · exact h.blocked t (hst t e ▸ ht)
  · intro t y
    refine (h.waiting t y).trans ?_
    constructor
    · rintro ⟨m', hc, hs⟩
      exact ⟨m', hc, (hst y (hcallx y t m' hc)).trans hs⟩
    · rintro ⟨m', hc, hs⟩
      exact ⟨m', hc, (hst y (hcallx y t m' hc)).symm.trans hs⟩
  · intro t y m' hc
    rw [hst y (hcallx y t m' hc), hd y (hcallx y t m' hc)]
    exact h.sending t y m' hc
  · intro t ht
    by_cases e : t = x
    · subst e; exact .inr ⟨by rw [hpend]; rfl, m, hgot⟩
    · rw [hst t e, hd t e]; exact h.receiving t ht
  · intro t
    by_cases e : t = x
    · subst e
      have harr : (s.directCopy t m).arriving t = [m] := by
        have hc : (s.directCopy t m).call t = .receiving := hcall
        rw [arriving, hc, hpend, hgot]; rfl
      have hold : s.arriving t = [] := arriving_of_blocked (by rw [hx]; rfl)
      rw [update_self, Messaging.settled, Messaging.settled, harr, hold, hq]
      simp only [append_nil]; rfl
    · rw [update_of_ne e, Messaging.settled, Messaging.settled,
        arriving_congr (u := s.directCopy x m) (s := s) rfl (hst t e) fun _ => hd t e]
      rfl
  · intro t
    exact held_congr rfl fun y hy => hd y fun e => hno t (e ▸ hy)
  · rw [Messaging.held, hw, filterMap_nil]
  · intro y t m' hc; exact hst y (hcallx y t m' hc)

theorem blocks_blockSender (cfg : MsgConfig τ) (hrun : (s.status me).onRunqueue = true) (x : τ) (m : Msg τ β) :
    ∃ l1 l2, Blocks s (s.blockSender cfg me x m) me x m l1 l2 := by
  obtain ⟨l1, l2, hsplit, hadd⟩ := addRanked_split cfg.priority me (s.waiters x)
  refine ⟨l1, l2, hsplit, (update_self ..).trans hadd, fun t e => update_of_ne e .., ?_, ?_,
    rfl, rfl, rfl, rfl, rfl, rfl⟩
  · have hne : s.status me ≠ .replyBlocked := fun e => by
      rw [e] at hrun; cases hrun
    refine ⟨?_, update_self .., update_self ..⟩
    simp [blockSender, setCall, setWaiters, setStatus, setWaitData, hne]
  · intro t e
    exact ⟨update_of_ne e .., update_of_ne e .., update_of_ne e ..⟩

namespace Blocks
variable {l1 l2 : List τ}

theorem settled (hb : Blocks s u me x m l1 l2) (hidle : s.call me = .idle) (q : τ → List (Msg τ β)) (t : τ) :
    u.settled q t = s.settled q t := by
  have harr : u.arriving t = s.arriving t := by
    by_cases e : t = me
    · subst e
      rw [arriving_of_idle hidle, arriving, hb.self.2.2]
    · obtain ⟨hst, hd, hc⟩ := hb.other t e
      exact arriving_congr hc hst fun _ => hd
  rw [Messaging.settled, Messaging.settled, harr, hb.returned]

end Blocks

theorem Wired.blocks (h : Wired cfg s q) {l1 l2 : List τ} (hb : Blocks s u me x m l1 l2) (hno : ∀ t, me ∉ s.waiters t)
    (hx : s.status x ≠ .receiveBlocked) (hfull : (q x).length = cfg.size x) (hs : m.sender = .thread me) :
    Wired cfg u q := by
  have hmem : ∀ t y, y ∈ u.waiters t ↔ t = x ∧ y = me ∨ y ∈ s.waiters t := by
    intro t y
    by_cases e : t = x
    · subst e
      rw [hb.waiters, hb.split]
      simp only [mem_append, mem_cons, true_and]
      tauto
    · rw [hb.waitersOther t e]
      simp [e]
  refine ⟨?_, ?_, ?_, ?_, ?_, ?_, ?_⟩
  · rw [hb.queue, hb.array]; exact h.ring
  · intro t ht
    by_cases e : t = x
    · rw [e]; exact hfull
    · exact h.full t (hb.waitersOther t e ▸ ht)
  · intro t ht
    have e : t ≠ me := by
      rintro rfl
      rw [hb.self.1] at ht; cases ht
    obtain ⟨hst, -, hc⟩ := hb.other t e
    have hb' := h.blocked t (hst ▸ ht)
    have ex : t ≠ x := by
      rintro rfl
      exact hx (hst ▸ ht)
    rw [hc, hb.waitersOther t ex]; exact hb'
  · intro t y
    rw [hmem]
    by_cases e : y = me
    · subst e
      constructor
      · rintro (⟨rfl, -⟩ | hin)
        · exact ⟨m, hb.self.2.2, hb.self.1⟩
        · exact absurd hin (hno t)
      · rintro ⟨m', hc, -⟩
        have := hb.self.2.2.symm.trans hc
        cases this; exact .inl ⟨rfl, rfl⟩
    · obtain ⟨hst, -, hc⟩ := hb.other y e
      rw [hst, hc, ← h.waiting t y]
      simp [e]
  · intro t y m' hc
    by_cases e : y = me
    · subst e
      cases hb.self.2.2.symm.trans hc
      exact ⟨hs, .inl ⟨hb.self.1, hb.self.2.1⟩⟩
    · obtain ⟨hst, hd, hcall⟩ := hb.other y e
      rw [hst, hd]; exact h.sending t y m' (hcall ▸ hc)
  · intro t hc
    have e : t ≠ me := by
      rintro rfl
      cases hb.self.2.2.symm.trans hc
    obtain ⟨hst, hd, hcall⟩ := hb.other t e
    rw [hst, hd]; exact h.receiving t (hcall ▸ hc)
  · intro t
    by_cases e : t = x
    · subst e
      have hnd := h.nodup t
      have hin := hno t
      rw [hb.split] at hnd hin
      rw [hb.waiters, nodup_middle]; exact nodup_cons.mpr ⟨hin, hnd⟩
    · rw [hb.waitersOther t e]; exact h.nodup t

namespace Sound

theorem accept (h : Sound cfg s q) (ha : Appends cfg s.nextStamp q u q' x m) (hm : m.stamp = s.stamp) :
    Sound cfg { u with accepted := u.accepted ++ [(x, m)] } q' := by
  obtain ⟨hstamp, hacc, hrej⟩ := ha.history
  have hmono : ∀ t, ∀ a ∈ s.settled q t, a ∈ u.settled q' t := by
    intro t a hin
    rw [ha.settled]
    by_cases e : t = x
    · subst e
      rw [update_self]; exact mem_append_left _ hin
    · rw [update_of_ne e]; exact hin
  have hnew : m ∈ u.settled q' x := by
    rw [ha.settled, update_self]
    exact mem_append_right _ (mem_singleton_self m)
  have hfiled : u.filed q' = update (s.filed q) x (s.filed q x ++ m :: []) := by
    funext t
    rw [filed, ha.settled, ha.held]
    by_cases e : t = x
    · subst e
      have he : s.held t = [] := ha.empty
      have hn : s.nextStamp.held t = s.held t := rfl
      rw [update_self, update_self, filed, hn, he, append_nil, append_nil]; rfl
    · rw [update_of_ne e, update_of_ne e]; rfl
  refine ⟨ha.wired.congr rfl rfl rfl rfl rfl rfl, ?_, ?_, ?_⟩
  · have hend : s.filed q x = s.filed q x ++ [] := (append_nil _).symm
    have hadd := h.ledger.add hm hend fun b hb => absurd hb not_mem_nil
    rw [← hfiled] at hadd
    rw [hstamp, hrej]; exact hadd
  · intro p hp
    rcases mem_append.mp hp with hp | hp
    · rw [hacc] at hp; exact hmono p.1 p.2 (h.accepted p hp)
    · obtain rfl := mem_singleton.mp hp
      exact hnew
  · intro t y m' hc hr
    have hc' : s.call y = .sending t m' := ha.call ▸ hc
    have hst : u.status y = s.status y := ha.status y t m' hc'
    exact hmono t m' (h.woken t y m' hc' (hst ▸ hr))

theorem block (h : Sound cfg s q) {l1 l2 : List τ} (hb : Blocks s.nextStamp u me x m l1 l2) (hidle : s.call me = .idle)
    (hno : ∀ t, me ∉ s.waiters t) (hx : s.status x ≠ .receiveBlocked) (hfull : (q x).length = cfg.size x)
    (hm : m.stamp = s.stamp) (hs : m.sender = .thread me) : Sound cfg u q := by
  have hwired := h.wiredNext.blocks hb hno hx hfull hs
  have hset := hb.settled hidle q
  refine ⟨hwired, ?_, ?_, ?_⟩
  · have hlate : ∀ b ∈ l2.filterMap s.waitData, b.sender ≠ m.sender := by
      intro b hin
      have hheld : b ∈ s.held x := by
        have hsplit : s.waiters x = l1 ++ l2 := hb.split
        rw [held, hsplit, filterMap_append]; exact mem_append_right _ hin
      obtain ⟨y, hy, hsend⟩ := h.wired.held_sender hheld
      rw [hsend, hs]
      intro e
      cases e; exact hno x hy
    have hold : s.filed q x = (s.settled q x ++ l1.filterMap s.waitData) ++ l2.filterMap s.waitData := by
      have hsplit : s.waiters x = l1 ++ l2 := hb.split
      rw [filed, held, hsplit, filterMap_append, append_assoc]
    have hfiled : u.filed q = update (s.filed q) x
        ((s.settled q x ++ l1.filterMap s.waitData) ++ m :: l2.filterMap s.waitData) := by
      funext t
      rw [filed, hset]
      by_cases e : t = x
      · subst e
        rw [update_self, hb.held hno, append_assoc]; rfl
      · rw [update_of_ne e, hb.heldOther hno t e]; rfl
    have hadd := h.ledger.add hm hold hlate
    rw [← hfiled] at hadd
    rw [hb.stamp, hb.rejected]; exact hadd
  · intro p hp
    rw [hset]; exact h.accepted p (hb.accepted ▸ hp)
  · intro t y m' hc hr
    rw [hset]
    have e : y ≠ me := by
      rintro rfl
      rw [hb.self.1] at hr; cases hr
    obtain ⟨hst, -, hcall⟩ := hb.other y e
    exact h.woken t y m' (hcall ▸ hc) (hst ▸ hr)

end Sound

end

end PipRiot.Core.Messaging
