import Mathlib.Tactic.Ring

/-!
# Ledgers

Entries are filed under targets and numbered as they come. `Ledger` says that the
entries of one sender under one target stand in the order of their numbers, that
no entry is filed twice, and that an entry which was turned away is not filed.
-/

namespace PipRiot

open Function List

section
variable {τ α κ : Type} (sender : α → κ) (stamp : α → Nat)

def InOrder (a b : α) : Prop := sender a = sender b → stamp a < stamp b

structure Ledger (file : τ → List α) (now : Nat) (rejected : List α) : Prop where
  order : ∀ t, (file t).Pairwise (InOrder sender stamp)
  past : ∀ t, ∀ a ∈ file t, stamp a < now
  apart : ∀ t t' a, a ∈ file t → a ∈ file t' → t = t'
  out : ∀ a ∈ rejected, stamp a < now ∧ ∀ t, a ∉ file t

namespace Ledger
variable {sender stamp} {file : τ → List α} {now : Nat} {rejected : List α} {a : α}

section
variable (h : Ledger sender stamp file now rejected)
include h

theorem nodup (t : τ) : (file t).Nodup := by
  refine (h.order t).imp ?_
  rintro a _ hab rfl
  exact lt_irrefl _ (hab rfl)

theorem fresh (ha : stamp a = now) (t : τ) : a ∉ file t :=
  fun hm => lt_irrefl _ (ha ▸ h.past t a hm)

theorem reject (ha : stamp a = now) : Ledger sender stamp file (now + 1) (rejected ++ [a]) where
  order := h.order
  past t b hb := Nat.lt_succ_of_lt (h.past t b hb)
  apart := h.apart
  out b hb := by
    rcases mem_append.mp hb with hb | hb
    · exact ⟨Nat.lt_succ_of_lt (h.out b hb).1, (h.out b hb).2⟩
    · obtain rfl := mem_singleton.mp hb
      exact ⟨ha ▸ Nat.lt_succ_self _, h.fresh ha⟩

theorem add [DecidableEq τ] (ha : stamp a = now) {x : τ} {l1 l2 : List α}
    (hx : file x = l1 ++ l2) (hl : ∀ b ∈ l2, sender b ≠ sender a) :
    Ledger sender stamp (update file x (l1 ++ a :: l2)) (now + 1) rejected := by
  have hmem : ∀ t b, b ∈ update file x (l1 ++ a :: l2) t ↔ t = x ∧ b = a ∨ b ∈ file t := by
    intro t b
    by_cases e : t = x
    · subst e
      rw [update_self, hx]
      simp only [mem_append, mem_cons, true_and]
      tauto
    · simp [e]
  refine ⟨?_, ?_, ?_, ?_⟩
  · intro t
    by_cases e : t = x
    · subst e
      have hord := h.order t
      have hpast := h.past t
      rw [hx] at hord hpast
      obtain ⟨h1, h2, h12⟩ := pairwise_append.mp hord
      rw [update_self, pairwise_append, pairwise_cons]
      refine ⟨h1, ⟨fun b hb e => absurd e.symm (hl b hb), h2⟩, ?_⟩
      intro b hb c hc
      rcases mem_cons.mp hc with rfl | hc
      · intro _
        rw [ha]; exact hpast b (mem_append_left l2 hb)
      · exact h12 b hb c hc
    · rw [update_of_ne e]; exact h.order t
  · intro t b hb
    rcases (hmem t b).mp hb with ⟨-, rfl⟩ | hb
    · exact ha ▸ Nat.lt_succ_self _
    · exact Nat.lt_succ_of_lt (h.past t b hb)
  · intro t t' b hb hb'
    rcases (hmem t b).mp hb with ⟨rfl, rfl⟩ | hold
    · rcases (hmem t' b).mp hb' with ⟨rfl, -⟩ | hold'
      · rfl
      · exact absurd hold' (h.fresh ha t')
    · rcases (hmem t' b).mp hb' with ⟨-, rfl⟩ | hold'
      · exact absurd hold (h.fresh ha t)
      · exact h.apart t t' b hold hold'
  · intro b hb
    obtain ⟨hlt, hout⟩ := h.out b hb
    refine ⟨Nat.lt_succ_of_lt hlt, fun t hb' => ?_⟩
    rcases (hmem t b).mp hb' with ⟨-, rfl⟩ | hb'
    · exact lt_irrefl _ (ha ▸ hlt)
    · exact hout t hb'

end

end Ledger

end

end PipRiot
