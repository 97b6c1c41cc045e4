import Mathlib.Data.List.TakeWhile
import PipRiot.Lib.Arrival
import PipRiot.Lib.Linked

/-!
# Intrusive lists that end in a null pointer

A list is the pointer to its first node. `walk` goes along a list up to a node
where it stops and keeps the node before it, behind which a node is inserted or
taken out. On the nodes that the pointers spell both are operations on lists.
-/

namespace PipRiot.Slist

open Function List

section
variable {α : Type}

def Spells (next : α → Option α) (head : Option α) (l : List α) : Prop := Linked (fun a => some (next a)) head l

/-- The node before the place where the walk stops, and the node there; null at the
ends. -/
def walk (stop : α → Bool) (next : α → Option α) : Nat → Option α → Option α → Option (Option α × Option α)
  | 0, _, _ => none
  | _ + 1, prev, none => some (prev, none)
  | n + 1, prev, some a => if stop a then some (prev, some a) else walk stop next n (some a) (next a)

variable {next next' : α → Option α} {head : Option α} {l l1 l2 : List α} {a b t : α}

theorem spells_nil : Spells next head [] ↔ head = none := Iff.rfl

theorem spells_cons : Spells next head (a :: l) ↔ head = some a ∧ Spells next (next a) l := by
  constructor
  · rintro ⟨h, q, hq, hl⟩
    cases hq; exact ⟨h, hl⟩
  · rintro ⟨h, hl⟩
    exact ⟨h, _, rfl, hl⟩

namespace Spells

theorem head_eq (h : Spells next head l) : head = l.head? := by
  cases l with
  | nil => exact h
  | cons a l => exact (spells_cons.mp h).1

theorem nodup (h : Spells next head l) : l.Nodup := Linked.nodup h

theorem congr (h : Spells next head l) (hsame : ∀ b ∈ l, next' b = next b) : Spells next' head l :=
  Linked.congr h fun b hb => congrArg some (hsame b hb)

theorem walk_eq (stop : α → Bool) : ∀ {l : List α} {head : Option α} (prev : Option α) {n : Nat}, Spells next head l →
    l.length < n → walk stop next n prev head =
      some ((l.takeWhile fun a => !stop a).getLast?.or prev, (l.dropWhile fun a => !stop a).head?)
  | [], head, prev, n, h, hn => by
    obtain ⟨n, rfl⟩ := Nat.exists_eq_add_of_lt hn
    cases h
    simp [walk]
  | a :: l, head, prev, n, h, hn => by
    obtain ⟨n, rfl⟩ : ∃ k, n = k + 1 := ⟨n - 1, by simp at hn; omega⟩
    obtain ⟨rfl, hl⟩ := spells_cons.mp h
    rw [walk]
    by_cases hs : stop a = true
    · simp [hs]
    · rw [if_neg hs, walk_eq stop (some a) hl (Nat.lt_of_succ_lt_succ hn)]
      simp only [takeWhile_cons, dropWhile_cons, hs, Bool.not_false, if_true, getLast?_cons]
      cases (l.takeWhile fun a => !stop a).getLast? <;> rfl

theorem tail : ∀ {l1 : List α} {head : Option α}, Spells next head (l1 ++ l2) → ∃ v, Spells next v l2
  | [], head, h => ⟨head, h⟩
  | _ :: _, _, h => tail (spells_cons.mp h).2

end Spells

variable [DecidableEq α]

/-- `prev->next = v`, where the list itself is before its first node. -/
def setNext (next : α → Option α) (head prev v : Option α) : (α → Option α) × Option α :=
  match prev with
  | none => (next, v)
  | some p => (update next p v, head)

theorem setNext_same {prev v : Option α} (h : prev ≠ some b) : (setNext next head prev v).1 b = next b := by
  cases prev with
  | none => rfl
  | some p => exact update_of_ne (fun e : b = p => h (congrArg some e.symm)) ..

namespace Spells

theorem relink {v : Option α} (hv : Spells next v l) : ∀ {l1 : List α} {head : Option α}, Spells next head (l1 ++ l2) →
    (∀ b ∈ l1, b ∉ l) → Spells (setNext next head l1.getLast? v).1 (setNext next head l1.getLast? v).2 (l1 ++ l)
  | [], _, _, _ => hv
  | a :: l1, head, h, hl => by
    obtain ⟨rfl, hrest⟩ := spells_cons.mp h
    have hnd := nodup_cons.mp h.nodup
    have ih := relink hv hrest fun b hb => hl b (mem_cons_of_mem a hb)
    refine spells_cons.mpr ?_
    cases hlast : l1.getLast? with
    | none =>
      obtain rfl := getLast?_eq_none_iff.mp hlast
      simp only [getLast?_singleton, setNext, update_self]
      exact ⟨trivial, hv.congr fun b hb => update_of_ne (fun e : b = a => hl a mem_cons_self (e ▸ hb)) ..⟩
    | some z =>
      rw [hlast] at ih
      have haz : a ≠ z := fun e => hnd.1 (mem_append_left _ (e ▸ mem_of_getLast? hlast))
      rw [getLast?_cons, hlast]
      simp only [Option.getD_some, setNext, update_of_ne haz] at ih ⊢
      exact ⟨trivial, ih⟩

theorem insert (h : Spells next head (l1 ++ l2)) (ht : t ∉ l1 ++ l2) :
    Spells (setNext (update next t l2.head?) head l1.getLast? (some t)).1
      (setNext (update next t l2.head?) head l1.getLast? (some t)).2 (l1 ++ t :: l2) := by
  have h' : Spells (update next t l2.head?) head (l1 ++ l2) :=
    h.congr fun b hb => update_of_ne (fun e : b = t => ht (e ▸ hb)) ..
  obtain ⟨v, hv⟩ := h'.tail
  refine relink (spells_cons.mpr ⟨rfl, ?_⟩) h' fun b hb hin => ?_
  · have hhead := hv.head_eq
    subst hhead
    rwa [update_self]
  · rcases mem_cons.mp hin with rfl | hin
    · exact ht (mem_append_left l2 hb)
    · exact (nodup_append'.mp h.nodup).2.2 hb hin

theorem unlink (h : Spells next head (l1 ++ t :: l2)) :
    Spells (setNext next head l1.getLast? (next t)).1 (setNext next head l1.getLast? (next t)).2 (l1 ++ l2) := by
  obtain ⟨v, hv⟩ := h.tail
  refine relink (spells_cons.mp hv).2 h fun b hb hin => ?_
  exact (nodup_append'.mp h.nodup).2.2 hb (mem_cons_of_mem t hin)

end Spells

end

end PipRiot.Slist
