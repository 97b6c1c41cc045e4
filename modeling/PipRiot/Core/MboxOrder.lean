import PipRiot.Core.Mbox
import PipRiot.Lib.Receipts

/-!
# Wake-up and order of a mailbox

Whatever the threads do, a message that was put is handed to one reader. It is handed
over in turn as long as no writer that was woken queues a message past a reader.
-/

namespace PipRiot.Core.Mbox

open Function List Option

section
variable {τ β : Type} {size n : Nat} {s : Mbox τ β} {q l : List (Msg τ β)} {t x r : τ} {rs ws : List τ} {m a : Msg τ β}
  {u : Mbox τ β} {priority : τ → Nat} {v : Mbox τ β × Option Int} {op : Op τ β}

def arriving (s : Mbox τ β) (t : τ) : List (Msg τ β) :=
  match s.call t with
  | .getting => (s.waitData t).toList
  | _ => []

def queued (s : Mbox τ β) : List (Msg τ β) := s.cib.contents s.array

def BlockedInGet (s : Mbox τ β) (t : τ) : Prop := s.call t = .getting ∧ s.status t = .mboxBlocked

structure Wired (size : Nat) (s : Mbox τ β) (q : List (Msg τ β)) : Prop where
  ring : Cib.Ring s.cib size s.array q
  reader : ∀ t, t ∈ s.readers ↔ s.call t = .getting ∧ s.status t = .mboxBlocked
  writer : ∀ t, t ∈ s.writers ↔ (∃ m, s.call t = .putting m) ∧ s.status t = .mboxBlocked
  readers_nodup : s.readers.Nodup
  writers_nodup : s.writers.Nodup
  data : ∀ t, s.call t = .getting → (s.status t = .mboxBlocked ↔ s.waitData t = none)

def New (s : Mbox τ β) (k : Nat) : Prop :=
  (∀ p ∈ s.accepted, p.1.stamp ≠ k) ∧ ∀ t m, s.call t = .putting m → m.stamp ≠ k

/-- Messages come with the order of their queue: handed over first, then queued. -/
def InTurn (s : Mbox τ β) (q : List (Msg τ β)) : Prop :=
  s.handed.map Prod.snd ++ q = s.accepted.map Prod.fst ∧ (s.readers ≠ [] → q = [])

theorem InTurn.readers_eq_nil (h : InTurn s (a :: l)) : s.readers = [] := by
  by_contra hne
  cases h.2 hne

theorem Wired.queued_eq (h : Wired size s q) : s.queued = q := h.ring.contents_eq

theorem Wired.not_writer (h : Wired size s q) (hc : s.call t = .getting) : t ∉ s.writers := fun hin => by
  obtain ⟨⟨m, hm⟩, -⟩ := (h.writer t).mp hin
  cases hc.symm.trans hm

theorem Wired.not_reader (h : Wired size s q) (hc : s.call t = .putting m) : t ∉ s.readers := fun hin => by
  cases ((h.reader t).mp hin).1.symm.trans hc

def Idle (s : Mbox τ β) (t : τ) : Prop := s.call t = .idle ∧ s.status t ≠ .mboxBlocked

theorem onRunqueue_ne (h : (s.status t).onRunqueue = true) : s.status t ≠ .mboxBlocked := fun e => by
  rw [e] at h
  cases h

theorem Free.idle (h : s.Free t) : s.Idle t := by
  refine ⟨?_, onRunqueue_ne h.1⟩
  have hc := h.2
  cases e : s.call t with
  | idle => rfl
  | putting m | getting => rw [e] at hc; cases hc

theorem arriving_of_idle (h : s.call t = .idle) : s.arriving t = [] := by
  rw [arriving, h]

theorem nodup_addRanked (priority : τ → Nat) (h : rs.Nodup) (ht : t ∉ rs) : (addRanked priority t rs).Nodup :=
  (perm_orderedInsert _ t rs).nodup_iff.mpr (nodup_cons.mpr ⟨ht, h⟩)

namespace Wired

theorem init (hsize : Cib.Size size) (array : Nat → Msg τ β) : Wired size (init size array : Mbox τ β) [] where
  ring := Cib.Ring.init hsize array
  reader t := by simp [Mbox.init]
  writer t := by simp [Mbox.init]
  readers_nodup := nodup_nil
  writers_nodup := nodup_nil
  data t h := by cases h

section
variable (h : Wired size s q)
include h

theorem not_reader_of_idle (ht : s.Idle t) : t ∉ s.readers := fun hin => ht.2 ((h.reader t).mp hin).2

theorem not_writer_of_idle (ht : s.Idle t) : t ∉ s.writers := fun hin => ht.2 ((h.writer t).mp hin).2

theorem enqueue (hroom : q.length < size) (m : Msg τ β) : Wired size (s.enqueue m) (q ++ [m]) := by
  obtain ⟨c, i, hput, hring⟩ := h.ring.putUnsafe_room hroom m
  refine ⟨?_, h.reader, h.writer, h.readers_nodup, h.writers_nodup, h.data⟩
  simp only [Mbox.enqueue, accept, hput, Int.toNat_natCast]
  exact hring

theorem room (hfull : s.cib.full = false) : q.length < size := by
  refine lt_of_le_of_ne h.ring.bound fun e => ?_
  rw [h.ring.full_iff.mpr e] at hfull
  cases hfull

end

end Wired

variable [DecidableEq τ]

def received (s : Mbox τ β) (t : τ) : List (Msg τ β) := (s.handed.filter fun p => p.1 = t).map Prod.snd

structure Kept (s : Mbox τ β) (q : List (Msg τ β)) (n : Nat) : Prop where
  receipts : Receipts Msg.stamp s.accepted n
  writing : ∀ t m, s.call t = .putting m → m.stamp < n ∧ ∀ p ∈ s.accepted, p.1.stamp ≠ m.stamp
  apart : ∀ t t' m m', s.call t = .putting m → s.call t' = .putting m' → m.stamp = m'.stamp → t = t'
  perm : (s.handed.map Prod.snd ++ q).Perm (s.accepted.map Prod.fst)
  got : ∀ t, s.received t = s.returned t ++ s.arriving t

structure Aside (t : τ) (s u : Mbox τ β) : Prop where
  call : ∀ x ≠ t, u.call x = s.call x
  status : ∀ x ≠ t, u.status x = s.status x
  waitData : ∀ x ≠ t, u.waitData x = s.waitData x
  reader : ∀ x ≠ t, (x ∈ u.readers ↔ x ∈ s.readers)
  writer : ∀ x ≠ t, (x ∈ u.writers ↔ x ∈ s.writers)

namespace Wired

theorem aside (h : Wired size s q) (hring : Cib.Ring u.cib size u.array q) (hx : Aside t s u)
    (hrs : u.readers.Nodup) (hws : u.writers.Nodup)
    (hr : t ∈ u.readers ↔ u.call t = .getting ∧ u.status t = .mboxBlocked)
    (hw : t ∈ u.writers ↔ (∃ m, u.call t = .putting m) ∧ u.status t = .mboxBlocked)
    (hd : u.call t = .getting → (u.status t = .mboxBlocked ↔ u.waitData t = none)) : Wired size u q where
  ring := hring
  reader x := by
    by_cases e : x = t
    · exact e ▸ hr
    · rw [hx.reader x e, h.reader x, hx.call x e, hx.status x e]
  writer x := by
    by_cases e : x = t
    · exact e ▸ hw
    · rw [hx.writer x e, h.writer x, hx.call x e, hx.status x e]
  readers_nodup := hrs
  writers_nodup := hws
  data x := by
    by_cases e : x = t
    · exact e ▸ hd
    · rw [hx.call x e, hx.status x e, hx.waitData x e]; exact h.data x

theorem handOver (h : Wired size s q) (hr : s.readers = r :: rs) (m : Msg τ β) : Wired size (s.handOver r rs m) q := by
  have hcall : s.call r = .getting := ((h.reader r).mp (hr ▸ mem_cons_self)).1
  have hnd := h.readers_nodup
  rw [hr, nodup_cons] at hnd
  refine h.aside (t := r) h.ring ?_ hnd.2 h.writers_nodup ?_ ?_ ?_
  · constructor <;> intro x e <;> simp [Mbox.handOver, accept, hand, setStatus, hr, e]
  · simp [Mbox.handOver, accept, hand, setStatus, hnd.1]
  · simp [Mbox.handOver, accept, hand, setStatus, h.not_writer hcall]
  · simp [Mbox.handOver, accept, hand, setStatus]

theorem waitWriter (priority : τ → Nat) (h : Wired size s q) (ht : s.Idle t) (m : Msg τ β) :
    Wired size (s.waitWriter priority t m) q := by
  refine h.aside (t := t) h.ring ?_ h.readers_nodup
    (nodup_addRanked priority h.writers_nodup (h.not_writer_of_idle ht)) ?_ ?_ ?_
  · constructor <;> intro x e <;> simp [Mbox.waitWriter, setCall, setStatus, mem_addRanked, e]
  · simp [Mbox.waitWriter, setCall, setStatus, h.not_reader_of_idle ht]
  · simp [Mbox.waitWriter, setCall, setStatus, mem_addRanked]
  · simp [Mbox.waitWriter, setCall]

theorem waitReader (priority : τ → Nat) (h : Wired size s q) (ht : s.Idle t) :
    Wired size (s.waitReader priority t) q := by
  refine h.aside (t := t) h.ring ?_
    (nodup_addRanked priority h.readers_nodup (h.not_reader_of_idle ht)) h.writers_nodup ?_ ?_ ?_
  · constructor <;> intro x e <;> simp [Mbox.waitReader, setCall, setStatus, mem_addRanked, e]
  · simp [Mbox.waitReader, setCall, setStatus, mem_addRanked]
  · simp [Mbox.waitReader, setCall, setStatus, h.not_writer_of_idle ht]
  · simp [Mbox.waitReader, setCall, setStatus]

theorem dequeue (h : Wired size s (a :: l)) (t : τ) :
    Wired size (s.dequeue t) l ∧ (s.dequeue t).handed = s.handed ++ [(t, a)] ∧
      (s.dequeue t).returned = update s.returned t (s.returned t ++ [a]) := by
  obtain ⟨c, i, hget, harr, hring⟩ := h.ring.getUnsafe_cons
  simp only [Mbox.dequeue, hget, Int.toNat_natCast, harr]
  exact ⟨⟨hring, h.reader, h.writer, h.readers_nodup, h.writers_nodup, h.data⟩, rfl, rfl⟩

theorem wakeWriter (h : Wired size s q) : Wired size s.wakeWriter q := by
  unfold Mbox.wakeWriter
  split
  · rename_i w ws hw
    obtain ⟨m, hcall⟩ := ((h.writer w).mp (hw ▸ mem_cons_self)).1
    have hnd := h.writers_nodup
    rw [hw, nodup_cons] at hnd
    refine h.aside (t := w) h.ring ?_ h.readers_nodup hnd.2 ?_ ?_ ?_
    · constructor <;> intro x e <;> simp [setStatus, hw, e]
    · simp [setStatus, h.not_reader hcall]
    · simp [setStatus, hnd.1]
    · simp [setStatus, hcall]
  · exact h

theorem finish (h : Wired size s q) (hb : s.status t ≠ .mboxBlocked) : Wired size (s.setCall t .idle) q := by
  refine h.aside (t := t) h.ring ?_ h.readers_nodup h.writers_nodup ?_ ?_ ?_
  · constructor <;> intro x e <;> simp [setCall, e]
  · simp [setCall, h.reader t, hb]
  · simp [setCall, h.writer t, hb]
  · simp [setCall]

end Wired

theorem received_hand_self (s : Mbox τ β) (t : τ) (m : Msg τ β) : (s.hand t m).received t = s.received t ++ [m] := by
  simp [received, hand]

theorem received_hand_of_ne (s : Mbox τ β) (h : x ≠ t) (m : Msg τ β) : (s.hand t m).received x = s.received x := by
  simp [received, hand, h.symm]

theorem putting_update {c : MboxCall τ β} (h : update s.call t c x = .putting m) :
    x = t ∧ c = .putting m ∨ x ≠ t ∧ s.call x = .putting m := by
  by_cases e : x = t
  · subst e; exact .inl ⟨rfl, by simpa using h⟩
  · exact .inr ⟨e, by simpa [e] using h⟩

namespace Kept

theorem init (array : Nat → Msg τ β) : Kept (init size array : Mbox τ β) [] 0 where
  receipts := Receipts.nil _ _
  writing t m h := by cases h
  apart t t' m m' h := by cases h
  perm := List.Perm.refl _
  got t := rfl

theorem new_now (h : Kept s q s.now) : s.New s.now := by
  refine ⟨?_, ?_⟩
  · intro p hp
    have hpast := h.receipts.past p hp
    exact Nat.ne_of_lt (lt_of_le_of_lt hpast.1 hpast.2)
  · intro t m hc; exact Nat.ne_of_lt (h.writing t m hc).1

theorem later (h : Kept s q n) : Kept s q (n + 1) := { h with
  receipts := h.receipts.later
  writing t m hc := ⟨Nat.lt_succ_of_lt (h.writing t m hc).1, (h.writing t m hc).2⟩ }

theorem accept_writing (h : Kept s q n) (hm : s.New m.stamp) {t : τ} {m' : Msg τ β} (hc : s.call t = .putting m') :
    m'.stamp < n + 1 ∧ ∀ p ∈ s.accepted ++ [(m, s.now)], p.1.stamp ≠ m'.stamp := by
  obtain ⟨hlt, hout⟩ := h.writing t m' hc
  refine ⟨Nat.lt_succ_of_lt hlt, ?_⟩
  intro p hp
  rcases mem_append.mp hp with hp | hp
  · exact hout p hp
  · rw [mem_singleton.mp hp]; exact (hm.2 t m' hc).symm

theorem handOver (h : Kept s q s.now) (hw : Wired size s q) (hr : s.readers = r :: rs) (hm : s.New m.stamp)
    (hle : m.stamp ≤ s.now) : Kept (s.handOver r rs m) q (s.now + 1) := by
  obtain ⟨hcall, hblocked⟩ := (hw.reader r).mp (hr ▸ mem_cons_self)
  refine ⟨h.receipts.add hle hm.1, fun t m' => h.accept_writing hm, h.apart, ?_, ?_⟩
  · change ((s.handed ++ [(r, m)]).map Prod.snd ++ q).Perm ((s.accepted ++ [(m, s.now)]).map Prod.fst)
    rw [map_append, map_append, append_assoc]
    refine List.Perm.trans (List.Perm.append_left _ perm_append_comm) ?_
    rw [← append_assoc]; exact h.perm.append_right [m]
  · intro t
    by_cases e : t = r
    · subst e
      have hbefore : s.arriving t = [] := by rw [arriving, hcall, (hw.data t hcall).mp hblocked]; rfl
      have hafter : (s.handOver t rs m).arriving t = [m] := by
        simp [arriving, Mbox.handOver, accept, hand, setStatus, hcall]
      have hgot := h.got t
      rw [hbefore, append_nil] at hgot
      rw [hafter]
      exact (received_hand_self s t m).trans (congrArg (· ++ [m]) hgot)
    · have hsame : (s.handOver r rs m).arriving t = s.arriving t := by
        simp only [arriving, Mbox.handOver, accept, hand, setStatus, update_of_ne e]
      rw [hsame]
      exact (received_hand_of_ne s e m).trans (h.got t)

theorem enqueue (h : Kept s q s.now) (hm : s.New m.stamp) (hle : m.stamp ≤ s.now) :
    Kept (s.enqueue m) (q ++ [m]) (s.now + 1) := by
  refine ⟨h.receipts.add hle hm.1, fun t m' => h.accept_writing hm, h.apart, ?_, h.got⟩
  change (s.handed.map Prod.snd ++ (q ++ [m])).Perm ((s.accepted ++ [(m, s.now)]).map Prod.fst)
  rw [map_append, ← append_assoc]
  exact h.perm.append_right [m]

theorem waitWriter (priority : τ → Nat) (h : Kept s q s.now) (ht : s.Idle t) (hm : s.New m.stamp)
    (hle : m.stamp ≤ s.now) : Kept (s.waitWriter priority t m) q (s.now + 1) := by
  refine ⟨h.receipts.later, ?_, ?_, h.perm, ?_⟩
  · intro x m' hc
    rcases putting_update hc with ⟨-, ⟨⟩⟩ | ⟨-, hc⟩
    · exact ⟨Nat.lt_succ_of_le hle, hm.1⟩
    · exact h.later.writing x m' hc
  · intro x x' m1 m2 hc hc' heq
    rcases putting_update hc with ⟨rfl, ⟨⟩⟩ | ⟨-, hold⟩
    · rcases putting_update hc' with ⟨rfl, -⟩ | ⟨-, hold'⟩
      · rfl
      · exact absurd heq.symm (hm.2 x' m2 hold')
    · rcases putting_update hc' with ⟨-, ⟨⟩⟩ | ⟨-, hold'⟩
      · exact absurd heq (hm.2 x m1 hold)
      · exact h.apart x x' m1 m2 hold hold' heq
  · intro x
    refine (h.got x).trans (congrArg (s.returned x ++ ·) ?_)
    by_cases e : x = t
    · subst e
      rw [arriving_of_idle ht.1]
      simp [arriving, Mbox.waitWriter, setCall]
    · simp only [arriving, Mbox.waitWriter, setCall, setStatus, update_of_ne e]

theorem waitReader (priority : τ → Nat) (h : Kept s q n) (ht : s.Idle t) : Kept (s.waitReader priority t) q n := by
  have hputting {x m'} (hc : (s.waitReader priority t).call x = .putting m') : s.call x = .putting m' := by
    rcases putting_update hc with ⟨-, ⟨⟩⟩ | ⟨-, hc⟩
    exact hc
  refine ⟨h.receipts, fun x m' hc => h.writing x m' (hputting hc), ?_, h.perm, ?_⟩
  · intro x x' m1 m2 hc hc'
    exact h.apart x x' m1 m2 (hputting hc) (hputting hc')
  · intro x
    refine (h.got x).trans (congrArg (s.returned x ++ ·) ?_)
    by_cases e : x = t
    · subst e
      rw [arriving_of_idle ht.1]
      simp [arriving, Mbox.waitReader, setCall, setStatus]
    · simp only [arriving, Mbox.waitReader, setCall, setStatus, update_of_ne e]

theorem dequeue (h : Kept s (a :: l) n) (hw : Wired size s (a :: l)) (ht : s.Idle t) : Kept (s.dequeue t) l n := by
  obtain ⟨-, hhanded, hreturned⟩ := hw.dequeue t
  refine ⟨h.receipts, h.writing, h.apart, ?_, ?_⟩
  · rw [hhanded, map_append, append_assoc]; exact h.perm
  · intro x
    have hgot := h.got x
    by_cases e : x = t
    · subst e
      have hafter : (s.dequeue x).arriving x = [] := arriving_of_idle ht.1
      rw [arriving_of_idle ht.1, append_nil] at hgot
      rw [hafter, hreturned, update_self, append_nil, ← hgot, ← received_hand_self]
      simp only [received, hhanded, hand]
    · rw [hreturned, update_of_ne e]
      refine Eq.trans ?_ hgot
      rw [← received_hand_of_ne s e a]
      simp only [received, hhanded, hand]

theorem wakeWriter (h : Kept s q n) : Kept s.wakeWriter q n := by
  unfold Mbox.wakeWriter
  split
  · exact ⟨h.receipts, h.writing, h.apart, h.perm, h.got⟩
  · exact h

theorem putting_of_finish {m' : Msg τ β} (hc : (s.setCall t .idle).call x = .putting m') :
    x ≠ t ∧ s.call x = .putting m' := by
  rcases putting_update hc with ⟨-, ⟨⟩⟩ | hc
  exact hc

theorem finishPut (h : Kept s q n) (hc : s.call t = .putting m) :
    Kept (s.setCall t .idle) q n ∧ (s.setCall t .idle).New m.stamp := by
  refine ⟨⟨h.receipts, fun x m' hx => h.writing x m' (putting_of_finish hx).2, ?_, h.perm, ?_⟩,
    (h.writing t m hc).2, ?_⟩
  · intro x x' m1 m2 hx hx'
    exact h.apart x x' m1 m2 (putting_of_finish hx).2 (putting_of_finish hx').2
  · intro x
    refine (h.got x).trans (congrArg (s.returned x ++ ·) ?_)
    by_cases e : x = t
    · subst e
      simp [arriving, setCall, hc]
    · simp only [arriving, setCall, update_of_ne e]
  · intro x m' hx heq
    obtain ⟨hne, hx⟩ := putting_of_finish hx
    exact hne (h.apart x t m' m hx hc heq)

theorem finishGet (h : Kept s q n) (hc : s.call t = .getting) (hd : s.waitData t = some m) :
    Kept ((s.setCall t .idle).noteReturned t m) q n := by
  refine ⟨h.receipts, fun x m' hx => h.writing x m' (putting_of_finish hx).2, ?_, h.perm, ?_⟩
  · intro x x' m1 m2 hx hx'
    exact h.apart x x' m1 m2 (putting_of_finish hx).2 (putting_of_finish hx').2
  · intro x
    refine (h.got x).trans ?_
    by_cases e : x = t
    · subst e
      simp [arriving, setCall, noteReturned, hc, hd]
    · simp only [arriving, setCall, noteReturned, update_of_ne e]

end Kept

structure Sound (size : Nat) (s : Mbox τ β) (q : List (Msg τ β)) (n : Nat) : Prop where
  wired : Wired size s q
  kept : Kept s q n

/-- No writer queues a message when it goes on while a reader is blocked. -/
def PutsInTurn (s : Mbox τ β) : Op τ β → Prop
  | .resume t => (s.call t).isPutting = true → s.cib.full = false → s.readers = []
  | _ => True

namespace Sound

theorem putLoop (priority : τ → Nat) (h : Sound size s q s.now) (ht : s.Idle t) (hm : s.New m.stamp)
    (hle : m.stamp ≤ s.now) (blocking : Bool) :
    ∃ q', Sound size (s.putLoop priority t m blocking).1 q' (s.now + 1) ∧
      ((s.cib.full = false → s.readers = []) → InTurn s q → InTurn (s.putLoop priority t m blocking).1 q') := by
  unfold Mbox.putLoop
  cases hfull : s.cib.full with
  | true =>
    cases blocking with
    | true => exact ⟨q, ⟨h.wired.waitWriter priority ht m, h.kept.waitWriter priority ht hm hle⟩, fun _ hi => hi⟩
    | false => exact ⟨q, ⟨h.wired, h.kept.later⟩, fun _ hi => hi⟩
  | false =>
    refine ⟨_, ⟨h.wired.enqueue (h.wired.room hfull) _, h.kept.enqueue hm hle⟩, ?_⟩
    intro hgood hi
    refine ⟨?_, fun hne => absurd (hgood rfl) hne⟩
    change s.handed.map Prod.snd ++ (q ++ [_]) = (s.accepted ++ [_]).map Prod.fst
    rw [map_append, ← append_assoc, hi.1]; rfl

theorem mboxPut (priority : τ → Nat) (h : Sound size s q s.now) (ht : s.Idle t) (hm : m.stamp = s.now)
    (blocking : Bool) :
    ∃ q', Sound size (s.mboxPut priority t m blocking).1 q' (s.now + 1) ∧
      (InTurn s q → InTurn (s.mboxPut priority t m blocking).1 q') := by
  have hnew : s.New m.stamp := hm ▸ h.kept.new_now
  have hle : m.stamp ≤ s.now := hm.le
  cases hr : s.readers with
  | nil =>
    obtain ⟨q', hs, hi⟩ := h.putLoop priority ht hnew hle blocking
    simp only [Mbox.mboxPut, hr]; exact ⟨q', hs, hi fun _ => hr⟩
  | cons r rs =>
    simp only [Mbox.mboxPut, hr]
    refine ⟨q, ⟨h.wired.handOver hr m, h.kept.handOver h.wired hr hnew hle⟩, ?_⟩
    intro hi
    -- a reader is blocked, so nothing is queued before the message
    obtain rfl : q = [] := hi.2 (by rw [hr]; exact cons_ne_nil r rs)
    refine ⟨?_, fun _ => rfl⟩
    change (s.handed ++ [(r, m)]).map Prod.snd ++ [] = (s.accepted ++ [(m, s.now)]).map Prod.fst
    rw [map_append, map_append, append_nil, ← hi.1, append_nil]; rfl

theorem mboxGet (priority : τ → Nat) (h : Sound size s q s.now) (ht : s.Idle t) (blocking : Bool) :
    ∃ q', Sound size (s.mboxGet priority t blocking).1 q' (s.now + 1) ∧
      (InTurn s q → InTurn (s.mboxGet priority t blocking).1 q') := by
  unfold Mbox.mboxGet
  cases q with
  | nil =>
    rw [if_neg (not_not.mpr (h.wired.ring.avail_eq_zero_iff.mpr rfl))]
    cases blocking with
    | true =>
      exact ⟨[], ⟨h.wired.waitReader priority ht, (h.kept.waitReader priority ht).later⟩,
        fun hi => ⟨hi.1, fun _ => rfl⟩⟩
    | false => exact ⟨[], ⟨h.wired, h.kept.later⟩, fun hi => hi⟩
  | cons a l =>
    have ha : s.cib.avail ≠ 0#32 := fun e => by cases h.wired.ring.avail_eq_zero_iff.mp e
    rw [if_pos ha]
    obtain ⟨hw, hhanded, -⟩ := h.wired.dequeue t
    refine ⟨l, ⟨hw.wakeWriter, (h.kept.dequeue h.wired ht).wakeWriter.later⟩, ?_⟩
    intro hi
    have hturn : InTurn (s.dequeue t) l := by
      refine ⟨?_, fun hne => absurd hi.readers_eq_nil hne⟩
      rw [hhanded, map_append, append_assoc]; exact hi.1
    unfold Mbox.wakeWriter
    split
    · exact hturn
    · exact hturn

theorem resume (priority : τ → Nat) (h : Sound size s q s.now) (hr : (s.status t).onRunqueue = true)
    (hc : s.call t ≠ .idle) :
    ∃ v q', s.resume priority t = some v ∧ Sound size v.1 q' (s.now + 1) ∧
      (s.PutsInTurn (.resume t) → InTurn s q → InTurn v.1 q') := by
  have hb := onRunqueue_ne hr
  unfold Mbox.resume
  cases e : s.call t with
  | idle => exact absurd e hc
  | putting m =>
    obtain ⟨hk, hnew⟩ := h.kept.finishPut e
    have hs : Sound size (s.setCall t .idle) q (s.setCall t .idle).now := ⟨h.wired.finish hb, hk⟩
    have hidle : (s.setCall t .idle).Idle t := ⟨update_self t _ s.call, hb⟩
    obtain ⟨q', hs', hi⟩ := hs.putLoop priority hidle hnew (le_of_lt (h.kept.writing t m e).1) true
    refine ⟨_, q', rfl, hs', fun hgood => hi (hgood ?_)⟩
    rw [e]; rfl
  | getting =>
    obtain ⟨m, hd⟩ := ne_none_iff_exists'.mp fun hnone => hb ((h.wired.data t e).mpr hnone)
    rw [hd]
    have hw := h.wired.finish hb
    refine ⟨_, q, rfl, ⟨?_, (h.kept.finishGet e hd).later⟩, fun _ hi => hi⟩
    exact ⟨hw.ring, hw.reader, hw.writer, hw.readers_nodup, hw.writers_nodup, hw.data⟩

theorem tick (h : Sound size u q (n + 1)) (hnow : u.now = n) : Sound size u.tick q u.tick.now := by
  obtain ⟨hw, hk⟩ := h
  refine ⟨⟨hw.ring, hw.reader, hw.writer, hw.readers_nodup, hw.writers_nodup, hw.data⟩, ?_⟩
  change Kept u.tick q (u.now + 1)
  rw [hnow]
  exact ⟨hk.receipts, hk.writing, hk.apart, hk.perm, hk.got⟩

end Sound

section
variable (priority : τ → Nat) (s : Mbox τ β) (t : τ)

theorem putLoop_now (m : Msg τ β) (blocking : Bool) : (s.putLoop priority t m blocking).1.now = s.now := by
  unfold putLoop
  split
  · split
    · rfl
    · rfl
  · rfl

theorem mboxGet_now (blocking : Bool) : (s.mboxGet priority t blocking).1.now = s.now := by
  unfold mboxGet
  split
  · unfold wakeWriter
    split
    · rfl
    · rfl
  · split
    · rfl
    · rfl

theorem mboxPut_now (m : Msg τ β) (blocking : Bool) : (s.mboxPut priority t m blocking).1.now = s.now := by
  unfold mboxPut
  split
  · rfl
  · exact putLoop_now priority s t m blocking

end

theorem resume_now (h : s.resume priority t = some v) : v.1.now = s.now := by
  unfold resume at h
  split at h
  · cases h
  · cases h
    exact putLoop_now priority (s.setCall t .idle) t _ true
  · obtain ⟨m, -, rfl⟩ := map_eq_some_iff.mp h
    rfl

theorem exec_now (h : s.exec priority op = some v) : v.1.now = s.now := by
  cases op with
  | put t sender content blocking =>
    simp only [exec, ite_none_right_eq_some, some.injEq] at h
    rw [← h.2]; exact mboxPut_now ..
  | get t blocking =>
    simp only [exec, ite_none_right_eq_some, some.injEq] at h
    rw [← h.2]; exact mboxGet_now ..
  | resume t =>
    simp only [exec, ite_none_right_eq_some] at h; exact resume_now h.2

theorem Sound.exec (h : Sound size s q s.now) (hv : s.exec priority op = some v) :
    ∃ q', Sound size v.1 q' (s.now + 1) ∧ (s.PutsInTurn op → InTurn s q → InTurn v.1 q') := by
  cases op with
  | put t sender content blocking =>
    simp only [Mbox.exec, ite_none_right_eq_some, some.injEq] at hv
    obtain ⟨hfree, rfl⟩ := hv
    obtain ⟨q', hs, hi⟩ := h.mboxPut (m := ⟨sender, content, s.now⟩) priority hfree.idle rfl blocking
    exact ⟨q', hs, fun _ => hi⟩
  | get t blocking =>
    simp only [Mbox.exec, ite_none_right_eq_some, some.injEq] at hv
    obtain ⟨hfree, rfl⟩ := hv
    obtain ⟨q', hs, hi⟩ := h.mboxGet priority hfree.idle blocking
    exact ⟨q', hs, fun _ => hi⟩
  | resume t =>
    simp only [Mbox.exec, ite_none_right_eq_some] at hv
    have hc : s.call t ≠ .idle := fun e => by
      have := hv.2
      rw [Mbox.resume, e] at this; cases this
    obtain ⟨v', q', hv', hs, hi⟩ := h.resume priority hv.1 hc
    cases hv.2.symm.trans hv'
    exact ⟨q', hs, hi⟩

theorem Sound.step (h : Sound size s q s.now) (hu : s.step priority op = some u) :
    ∃ q', Sound size u q' u.now ∧ (s.PutsInTurn op → InTurn s q → InTurn u q') := by
  obtain ⟨v, hv, rfl⟩ := map_eq_some_iff.mp hu
  obtain ⟨q', hs, hi⟩ := h.exec hv
  exact ⟨q', hs.tick (exec_now hv), hi⟩

theorem Sound.init (hsize : Cib.Size size) (array : Nat → Msg τ β) : Sound size (init size array : Mbox τ β) [] 0 :=
  ⟨Wired.init hsize array, Kept.init array⟩

theorem sound_of_reach {array : Nat → Msg τ β} (hsize : Cib.Size size)
    (h : ReachVia (step priority) (fun _ _ => True) (init size array) s) : ∃ q, Sound size s q s.now := by
  refine h.inv (fun s => ∃ q, Sound size s q s.now) ⟨[], Sound.init hsize array⟩ ?_
  rintro s u op ⟨q, hq⟩ - hu
  obtain ⟨q', hs, -⟩ := hq.step hu
  exact ⟨q', hs⟩

theorem inTurn_of_reach {array : Nat → Msg τ β} (hsize : Cib.Size size)
    (h : ReachVia (step priority) PutsInTurn (init size array) s) : ∃ q, Sound size s q s.now ∧ InTurn s q := by
  refine h.inv (fun s => ∃ q, Sound size s q s.now ∧ InTurn s q)
    ⟨[], Sound.init hsize array, rfl, fun _ => rfl⟩ ?_
  rintro s u op ⟨q, hq, hi⟩ hgood hu
  obtain ⟨q', hs, hi'⟩ := hq.step hu
  exact ⟨q', hs, hi' hgood hi⟩

theorem blocked_of_not_inTurn (h : Sound size s q s.now)
    (hbad : ¬ s.PutsInTurn op) (hu : s.step priority op = some u) : ∃ t, u.BlockedInGet t ∧ u.queued ≠ [] := by
  cases op with
  | put t sender content blocking | get t blocking => exact absurd trivial hbad
  | resume t =>
    simp only [PutsInTurn, Classical.not_imp] at hbad
    obtain ⟨hputting, hfull, hne⟩ := hbad
    obtain ⟨v, hv, rfl⟩ := map_eq_some_iff.mp hu
    simp only [exec, ite_none_right_eq_some] at hv
    cases hc : s.call t with
    | idle | getting => rw [hc] at hputting; cases hputting
    | putting m =>
      have hw := h.wired.finish (onRunqueue_ne hv.1)
      have hput := hw.enqueue (hw.room hfull) { m with sender := .thread t }
      have hres := hv.2
      simp only [Mbox.resume, hc, putLoop, setCall, hfull, some.injEq, Bool.false_eq_true, if_false] at hres
      subst hres
      obtain ⟨r, hr⟩ := exists_mem_of_ne_nil _ hne
      refine ⟨r, (hput.reader r).mp hr, ?_⟩
      intro hnil
      have hq := hput.queued_eq.symm.trans hnil
      simp at hq

/-- In every run a message that was put with result 1 is queued or was handed to one
reader, and to each thread its gets return in turn what it was handed; a call that was
woken goes on. If moreover no writer queues a message past a blocked reader, then
readers are blocked at an empty queue only, and a message put before another was
offered is handed over before it. A writer that does so leaves a reader blocked. -/
theorem mbox_in_order_when_writers_in_turn (priority : τ → Nat) (array : Nat → Msg τ β) (hsize : Cib.Size size) :
    (∀ s, ReachVia (step priority) (fun _ _ => True) (init size array) s →
      (s.handed.map Prod.snd ++ s.queued).Perm (s.accepted.map Prod.fst) ∧
      (s.accepted.map fun p => p.1.stamp).Nodup ∧
      (∀ t, s.received t = s.returned t ++ s.arriving t) ∧
      (∀ t, (s.status t).onRunqueue = true → s.call t ≠ .idle → ∃ u, s.step priority (.resume t) = some u)) ∧
    (∀ s, ReachVia (step priority) PutsInTurn (init size array) s →
      (∀ t, s.BlockedInGet t → s.queued = []) ∧
      ∀ p ∈ s.accepted, ∀ p' ∈ s.accepted, p.2 < p'.1.stamp →
        [p.1, p'.1].Sublist (s.handed.map Prod.snd ++ s.queued)) ∧
    (∀ s op u, ReachVia (step priority) (fun _ _ => True) (init size array) s → ¬ s.PutsInTurn op →
      s.step priority op = some u → ∃ t, u.BlockedInGet t ∧ u.queued ≠ []) := by
  refine ⟨?_, ?_, ?_⟩
  · intro s hs
    obtain ⟨q, hq⟩ := sound_of_reach hsize hs
    rw [hq.wired.queued_eq]
    refine ⟨hq.kept.perm, hq.kept.receipts.distinct, hq.kept.got, ?_⟩
    intro t hr hc
    obtain ⟨v, -, hv, -⟩ := hq.resume priority hr hc
    refine ⟨v.1.tick, ?_⟩
    simp only [step, exec, hr, if_true, hv, map_some]
  · intro s hs
    obtain ⟨q, hq, hi⟩ := inTurn_of_reach hsize hs
    rw [hq.wired.queued_eq]
    refine ⟨fun t ht => hi.2 (ne_nil_of_mem ((hq.wired.reader t).mpr ht)), ?_⟩
    intro p hp p' hp' hlt
    rw [hi.1]
    exact hq.kept.receipts.in_order hp hp' hlt
  · intro s op u hs hbad hu
    obtain ⟨q, hq⟩ := sound_of_reach hsize hs
    exact blocked_of_not_inTurn hq hbad hu

end

section

theorem onePlace : Cib.Size 1 := .inr ⟨0, Nat.zero_le 30, rfl⟩

/-- A writer that is woken by a get and goes on before anybody else. -/
theorem mbox_in_order_past_full_queue : ∃ s : Mbox (Fin 4) Nat,
    ReachVia (step Fin.val) PutsInTurn (init 1 fun _ => ⟨.isr, 0, 0⟩) s ∧
    s.handed.map (fun p => p.2.content) = [10] ∧ s.queued.map Msg.content = [20] ∧ s.accepted.length = 2 ∧
    ∀ p ∈ s.accepted, ∀ p' ∈ s.accepted,
      p.2 < p'.1.stamp → [p.1, p'.1].Sublist (s.handed.map Prod.snd ++ s.queued) := by
  have h1 : ReachVia (step Fin.val) PutsInTurn (init 1 fun _ => ⟨.isr, 0, 0⟩ : Mbox (Fin 4) Nat) _ :=
    .next .start (a := Op.put 3 .isr 10 true) trivial rfl
  have h2 := h1.next (a := Op.put 3 .isr 20 true) trivial rfl
  have h3 := h2.next (a := Op.get 1 true) trivial rfl
  have h4 := h3.next (a := Op.resume 3) (fun _ _ => rfl) rfl
  exact ⟨_, h4, rfl, rfl, rfl, ((mbox_in_order_when_writers_in_turn Fin.val _ onePlace).2.1 _ h4).2⟩

/-- Thread 3 is woken by the get of thread 1, but thread 2 blocks before it goes on.
The message 20 is then queued beside the blocked thread, and 30 overtakes it. -/
theorem mbox_overtaken_past_blocked_reader : ∃ s u : Mbox (Fin 4) Nat,
    ReachVia (step Fin.val) (fun _ _ => True) (init 1 fun _ => ⟨.isr, 0, 0⟩) s ∧
    s.BlockedInGet 2 ∧ s.queued.map Msg.content = [20] ∧
    s.step Fin.val (.put 0 .isr 30 true) = some u ∧
    u.accepted.map (fun p => (p.1.content, p.1.stamp, p.2)) = [(10, 0, 0), (20, 1, 4), (30, 5, 5)] ∧
    u.handed.map (fun p => (p.1, p.2.content)) = [(1, 10), (2, 30)] ∧ u.queued.map Msg.content = [20] := by
  have h : ReachVia (step Fin.val) (fun _ _ => True) (init 1 fun _ => ⟨.isr, 0, 0⟩ : Mbox (Fin 4) Nat) _ :=
    runAll_reach [.put 3 .isr 10 true, .put 3 .isr 20 true, .get 1 true, .get 2 true, .resume 3] _ rfl
  exact ⟨_, _, h, ⟨rfl, rfl⟩, rfl, rfl, rfl, rfl, rfl⟩

end

end PipRiot.Core.Mbox
