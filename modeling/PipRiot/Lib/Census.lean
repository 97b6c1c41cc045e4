import Mathlib.Data.Finset.Card

/-!
# Counting who is at a place

Of arbitrarily many individuals, each at one place, finitely many are at a given
one; `Census` says how many.
-/

namespace PipRiot

open Function

section
variable {τ α : Type} {f : τ → α} {c : α} {n : Nat}

def Census (f : τ → α) (c : α) (n : Nat) : Prop := ∃ L : Finset τ, (∀ t, t ∈ L ↔ f t = c) ∧ L.card = n

theorem Census.none (h : ∀ t, f t ≠ c) : Census f c 0 := ⟨∅, fun t => by simp [h t], rfl⟩

theorem Census.update [DecidableEq τ] [DecidableEq α] (h : Census f c n) (t : τ) (x : α) :
    ∃ n', Census (update f t x) c n' ∧ n' + (if f t = c then 1 else 0) = n + (if x = c then 1 else 0) := by
  obtain ⟨L, hL, rfl⟩ := h
  have hother : ∀ w ≠ t, update f t x w = f w := fun w e => update_of_ne e ..
  by_cases hx : x = c
  · refine ⟨(insert t L).card, ⟨insert t L, fun w => ?_, rfl⟩, ?_⟩
    · by_cases e : w = t
      · subst e
        simp [hx]
      · rw [hother w e, ← hL w, Finset.mem_insert, or_iff_right e]
    · by_cases ht : f t = c
      · rw [Finset.insert_eq_of_mem ((hL t).mpr ht), if_pos ht, if_pos hx]
      · rw [Finset.card_insert_of_notMem (mt (hL t).mp ht), if_neg ht, if_pos hx]
  · refine ⟨(L.erase t).card, ⟨L.erase t, fun w => ?_, rfl⟩, ?_⟩
    · by_cases e : w = t
      · subst e
        simp [hx]
      · rw [hother w e, ← hL w, Finset.mem_erase, and_iff_right e]
    · by_cases ht : f t = c
      · rw [if_pos ht, if_neg hx, Finset.card_erase_add_one ((hL t).mpr ht)]
        rfl
      · rw [Finset.erase_eq_of_notMem (mt (hL t).mp ht), if_neg ht, if_neg hx]

end

end PipRiot
