import Mathlib.Data.List.Sort

/-!
# Queues by rank, first come first served within a rank

`addRanked` puts a newcomer behind everybody of its rank or a lower one. `Ahead`
orders by rank and then by time of arrival, and a queue that is built by
`addRanked` alone, with any removals, is sorted by it.
-/

namespace PipRiot

open List

section
variable {α : Type} (rank since : α → Nat)

def addRanked (a : α) (l : List α) : List α := l.orderedInsert (fun x y => rank x < rank y) a

def Ahead (a b : α) : Prop := rank a < rank b ∨ rank a = rank b ∧ since a < since b

variable {rank since} {a b : α} {l : List α}

theorem mem_addRanked : b ∈ addRanked rank a l ↔ b = a ∨ b ∈ l := mem_orderedInsert ..

theorem addRanked_split (rank : α → Nat) (a : α) (l : List α) :
    ∃ l1 l2, l = l1 ++ l2 ∧ addRanked rank a l = l1 ++ a :: l2 := by
  induction l with
  | nil => exact ⟨[], [], rfl, rfl⟩
  | cons e l ih =>
    by_cases h : rank a < rank e
    · refine ⟨[], e :: l, rfl, ?_⟩
      rw [addRanked, orderedInsert_cons, if_pos h, nil_append]
    · obtain ⟨l1, l2, rfl, hadd⟩ := ih
      refine ⟨e :: l1, l2, rfl, ?_⟩
      rw [addRanked, orderedInsert_cons, if_neg h, cons_append, ← hadd, addRanked]

theorem head_addRanked (h : (addRanked rank a l).head? = some b) : b = a ∨ l.head? = some b ∧ ¬ rank a < rank b := by
  cases l with
  | nil => exact .inl (Option.some.inj h).symm
  | cons e l =>
    rw [addRanked, orderedInsert_cons] at h
    by_cases hlt : rank a < rank e
    · rw [if_pos hlt] at h; exact .inl (Option.some.inj h).symm
    · rw [if_neg hlt] at h
      cases h; exact .inr ⟨rfl, hlt⟩

theorem Ahead.ne (h : Ahead rank since a b) : a ≠ b := by
  rintro rfl
  rcases h with h | h
  · exact lt_irrefl _ h
  · exact lt_irrefl _ h.2

theorem nodup_of_ahead (h : l.Pairwise (Ahead rank since)) : l.Nodup := h.imp Ahead.ne

theorem pairwise_addRanked (hl : l.Pairwise (Ahead rank since)) (hlate : ∀ b ∈ l, since b < since a) :
    (addRanked rank a l).Pairwise (Ahead rank since) := by
  induction l with
  | nil => exact pairwise_singleton _ a
  | cons e l ih =>
    obtain ⟨he, hl⟩ := pairwise_cons.mp hl
    by_cases h : rank a < rank e
    · -- everybody behind `e` has at least the rank of `e`
      rw [addRanked, orderedInsert_cons, if_pos h]
      refine pairwise_cons.mpr ⟨?_, pairwise_cons.mpr ⟨he, hl⟩⟩
      intro b hb
      left
      rcases mem_cons.mp hb with rfl | hb
      · exact h
      · rcases he b hb with hlt | heq
        · exact lt_trans h hlt
        · exact heq.1 ▸ h
    · rw [addRanked, orderedInsert_cons, if_neg h]
      refine pairwise_cons.mpr ⟨?_, ih hl fun b hb => hlate b (mem_cons_of_mem e hb)⟩
      intro b hb
      rcases mem_addRanked.mp hb with rfl | hb
      · have hs := hlate e mem_cons_self
        rcases lt_or_eq_of_le (not_lt.mp h) with hlt | heq
        · exact .inl hlt
        · exact .inr ⟨heq, hs⟩
      · exact he b hb

theorem pairwise_ahead_congr {since' : α → Nat} (h : ∀ b ∈ l, since' b = since b)
    (hl : l.Pairwise (Ahead rank since)) : l.Pairwise (Ahead rank since') := by
  refine hl.imp_of_mem ?_
  intro a b ha hb hab
  simpa only [Ahead, h a ha, h b hb] using hab

end

/-- Each of several queues has exactly those that wait for it, in order, and nobody of the future. -/
structure Lines {α ι : Type} (rank : α → Nat) (queue : ι → List α) (Waits : ι → α → Prop) (since : α → Nat)
  (now : Nat) : Prop where
  mem : ∀ i a, a ∈ queue i ↔ Waits i a
  sorted : ∀ i, (queue i).Pairwise (Ahead rank since)
  past : ∀ i, ∀ a ∈ queue i, since a < now

namespace Lines
variable {α ι : Type} {rank since since' : α → Nat} {queue queue' : ι → List α} {W W' : ι → α → Prop} {now now' : Nat}
  {i : ι} {a : α}

section
variable (h : Lines rank queue W since now)
include h

theorem keep (hq : ∀ i, queue' i = queue i) (hW : ∀ i a, W' i a ↔ W i a)
    (hsince : ∀ i a, W i a → since' a = since a) (hnow : now ≤ now') : Lines rank queue' W' since' now' := by
  refine ⟨?_, ?_, ?_⟩
  · intro i a
    rw [hq, hW, h.mem]
  · intro i
    rw [hq]
    exact pairwise_ahead_congr (fun b hb => hsince i b ((h.mem i b).mp hb)) (h.sorted i)
  · intro i a ha
    rw [hq] at ha
    rw [hsince i a ((h.mem i a).mp ha)]
    exact lt_of_lt_of_le (h.past i a ha) hnow

theorem add (hno : ∀ j, ¬ W j a) (hi : queue' i = addRanked rank a (queue i))
    (hother : ∀ j ≠ i, queue' j = queue j) (hW : ∀ j b, W' j b ↔ j = i ∧ b = a ∨ W j b) (ha : since' a = now)
    (hsince : ∀ b ≠ a, since' b = since b) : Lines rank queue' W' since' (now + 1) := by
  have hmem : ∀ j b, b ∈ queue' j ↔ j = i ∧ b = a ∨ b ∈ queue j := by
    intro j b
    by_cases e : j = i
    · subst e
      simp [hi, mem_addRanked]
    · simp [hother j e, e]
  have hold : ∀ j, ∀ b ∈ queue j, since' b = since b := by
    intro j b hb
    apply hsince
    rintro rfl
    exact hno j ((h.mem j b).mp hb)
  refine ⟨?_, ?_, ?_⟩
  · intro j b
    rw [hmem, hW, h.mem]
  · intro j
    have hsorted := pairwise_ahead_congr (hold j) (h.sorted j)
    by_cases e : j = i
    · subst e
      rw [hi]
      refine pairwise_addRanked hsorted fun b hb => ?_
      rw [hold j b hb, ha]; exact h.past j b hb
    · rw [hother j e]; exact hsorted
  · intro j b hb
    rcases (hmem j b).mp hb with ⟨-, rfl⟩ | hb
    · rw [ha]; exact Nat.lt_succ_self now
    · rw [hold j b hb]; exact Nat.lt_succ_of_lt (h.past j b hb)

theorem remove [DecidableEq α] (honly : ∀ j, W j a → j = i) (hi : queue' i = (queue i).erase a)
    (hother : ∀ j ≠ i, queue' j = queue j) (hW : ∀ j b, W' j b ↔ b ≠ a ∧ W j b) : Lines rank queue' W' since now := by
  have hsub : ∀ j, (queue' j).Sublist (queue j) := by
    intro j
    by_cases e : j = i
    · subst e
      rw [hi]; exact erase_sublist
    · rw [hother j e]
  refine ⟨?_, fun j => (h.sorted j).sublist (hsub j), fun j b hb => h.past j b ((hsub j).subset hb)⟩
  intro j b
  rw [hW]
  by_cases e : j = i
  · subst e
    rw [hi, (nodup_of_ahead (h.sorted j)).mem_erase_iff, h.mem]
  · rw [hother j e, h.mem]
    refine ⟨fun hb => ⟨?_, hb⟩, And.right⟩
    rintro rfl
    exact e (honly j hb)

end

end Lines

end PipRiot
