import Mathlib.Data.List.Nodup
import Mathlib.Data.List.Pairwise

/-!
# Receipts

An entry carries the time at which it was offered, and its receipt the time at
which it was accepted. Receipts are written in the order of time.
-/

namespace PipRiot

open List

section
variable {α : Type} (stamp : α → Nat)

structure Receipts (l : List (α × Nat)) (now : Nat) : Prop where
  order : l.Pairwise fun p p' => p.2 < p'.2
  past : ∀ p ∈ l, stamp p.1 ≤ p.2 ∧ p.2 < now
  distinct : (l.map fun p => stamp p.1).Nodup

namespace Receipts
variable {stamp} {l : List (α × Nat)} {now : Nat} {a : α} {p p' : α × Nat}

theorem nil (stamp : α → Nat) (now : Nat) : Receipts stamp [] now where
  order := List.Pairwise.nil
  past _ hp := absurd hp not_mem_nil
  distinct := nodup_nil

theorem later (h : Receipts stamp l now) : Receipts stamp l (now + 1) where
  order := h.order
  past p hp := ⟨(h.past p hp).1, Nat.lt_succ_of_lt (h.past p hp).2⟩
  distinct := h.distinct

theorem add (h : Receipts stamp l now) (ha : stamp a ≤ now) (hnew : ∀ p ∈ l, stamp p.1 ≠ stamp a) :
    Receipts stamp (l ++ [(a, now)]) (now + 1) := by
  refine ⟨?_, ?_, ?_⟩
  · refine pairwise_append.mpr ⟨h.order, pairwise_singleton _ _, ?_⟩
    intro p hp p' hp'
    rw [mem_singleton.mp hp']; exact (h.past p hp).2
  · intro p hp
    rcases mem_append.mp hp with hp | hp
    · exact h.later.past p hp
    · rw [mem_singleton.mp hp]; exact ⟨ha, Nat.lt_succ_self now⟩
  · rw [map_append, nodup_append]
    refine ⟨h.distinct, nodup_singleton _, ?_⟩
    intro x hx y hy
    obtain ⟨p, hp, rfl⟩ := mem_map.mp hx
    rw [mem_singleton.mp hy]; exact hnew p hp

theorem sublist_pair (h : l.Pairwise fun p p' => p.2 < p'.2) (hp : p ∈ l) (hp' : p' ∈ l) (hlt : p.2 < p'.2) :
    [p, p'].Sublist l := by
  induction l with
  | nil => cases hp
  | cons e l ih =>
    obtain ⟨he, hl⟩ := pairwise_cons.mp h
    rcases mem_cons.mp hp with rfl | hin
    · rcases mem_cons.mp hp' with rfl | hin'
      · exact absurd hlt (Nat.lt_irrefl _)
      · exact (singleton_sublist.mpr hin').cons_cons p
    · rcases mem_cons.mp hp' with rfl | hin'
      · exact absurd hlt (Nat.lt_asymm (he p hin))
      · exact (ih hl hin hin').cons e

theorem in_order (h : Receipts stamp l now) (hp : p ∈ l) (hp' : p' ∈ l) (hlt : p.2 < stamp p'.1) :
    [p.1, p'.1].Sublist (l.map Prod.fst) :=
  (sublist_pair h.order hp hp' (Nat.lt_of_lt_of_le hlt (h.past p' hp').1)).map Prod.fst

end Receipts

end

end PipRiot
