import Mathlib.Algebra.Order.BigOperators.Group.Finset
import Mathlib.Data.List.GetD
import Mathlib.Tactic.Ring

/-!
# Lists cut into pieces

The pieces of a list one after the other: where each begins, that they do not overlap,
that every position is in one of them, and how much some of them hold together.
-/

namespace PipRiot.Pieces

open List

section
variable {α : Type} {ps : List (List α)} {i j t x : Nat}

def size (ps : List (List α)) (j : Nat) : Nat := (ps.getD j []).length

def offset (ps : List (List α)) (j : Nat) : Nat := ∑ i ∈ Finset.range j, size ps i

@[simp] theorem offset_zero : offset ps 0 = 0 := rfl

theorem offset_succ (ps : List (List α)) (j : Nat) : offset ps (j + 1) = offset ps j + size ps j :=
  Finset.sum_range_succ ..

theorem offset_cons (p : List α) (ps : List (List α)) (j : Nat) :
    offset (p :: ps) (j + 1) = p.length + offset ps j := by
  induction j with
  | zero => simp [offset, size]
  | succ j ih =>
    rw [offset_succ, ih, offset_succ, add_assoc]
    simp [size]

theorem offset_mono (h : i ≤ j) : offset ps i ≤ offset ps j :=
  Finset.sum_le_sum_of_subset (Finset.range_mono h)

theorem offset_add_le (h : i < j) : offset ps i + size ps i ≤ offset ps j := by
  rw [← offset_succ]
  exact offset_mono h

theorem offset_length (ps : List (List α)) : offset ps ps.length = ps.flatten.length := by
  induction ps with
  | nil => rfl
  | cons p ps ih => simp [offset_cons, ih]

theorem end_le (h : j < ps.length) : offset ps j + size ps j ≤ ps.flatten.length := by
  rw [← offset_length]
  exact offset_add_le h

theorem offset_inj (hi : 0 < size ps i) (hj : 0 < size ps j) (h : offset ps i = offset ps j) : i = j := by
  rcases Nat.lt_trichotomy i j with hlt | heq | hlt
  · have hle : offset ps i + size ps i ≤ offset ps j := offset_add_le hlt
    omega
  · exact heq
  · have hle : offset ps j + size ps j ≤ offset ps i := offset_add_le hlt
    omega

theorem getElem?_flatten (h : t < size ps j) : ps.flatten[offset ps j + t]? = (ps.getD j [])[t]? := by
  induction ps generalizing j with
  | nil => simp [size] at h
  | cons p ps ih =>
    cases j with
    | zero =>
      simp only [size, getD_cons_zero] at h
      simp [getElem?_append_left h]
    | succ j =>
      rw [offset_cons, flatten_cons, add_assoc, getElem?_append_right (by omega), Nat.add_sub_cancel_left,
        getD_cons_succ]
      exact ih h

theorem exists_piece (h : x < ps.flatten.length) : ∃ j < ps.length, ∃ t < size ps j, x = offset ps j + t := by
  induction ps generalizing x with
  | nil => simp at h
  | cons p ps ih =>
    by_cases hx : x < p.length
    · exact ⟨0, by simp, x, by simpa [size] using hx, by simp⟩
    · simp only [flatten_cons, length_append] at h
      obtain ⟨j, hj, t, ht, heq⟩ := ih (x := x - p.length) (by omega)
      refine ⟨j + 1, by simpa using hj, t, by simpa [size] using ht, ?_⟩
      rw [offset_cons]; omega

theorem eq_flatten {l : List α} (hlen : l.length = ps.flatten.length)
    (h : ∀ j < ps.length, ∀ t < size ps j, l[offset ps j + t]? = (ps.getD j [])[t]?) : l = ps.flatten := by
  apply ext_getElem?
  intro x
  by_cases hx : x < ps.flatten.length
  · obtain ⟨j, hj, t, ht, rfl⟩ := exists_piece hx
    rw [h j hj t ht, getElem?_flatten ht]
  · rw [getElem?_eq_none (by omega), getElem?_eq_none (by omega)]

theorem getElem?_patch_in {l p : List α} (hle : x ≤ l.length) (ht : t < p.length) :
    (l.take x ++ p ++ l.drop (x + p.length))[x + t]? = p[t]? := by
  have hlen : (l.take x).length = x := by simpa using hle
  rw [append_assoc, getElem?_append_right (by omega), hlen, Nat.add_sub_cancel_left, getElem?_append_left ht]

theorem getElem?_patch_out {l p : List α} (hle : x + p.length ≤ l.length) (hout : t < x ∨ x + p.length ≤ t) :
    (l.take x ++ p ++ l.drop (x + p.length))[t]? = l[t]? := by
  have hlen : (l.take x).length = x := by
    rw [length_take]; omega
  rcases hout with hlt | hge
  · rw [append_assoc, getElem?_append_left (by omega), getElem?_take_of_lt hlt]
  · rw [getElem?_append_right (by rw [length_append]; omega), length_append, hlen, getElem?_drop]
    congr 1
    omega

theorem sum_sizes_le {got : List Nat} (hnodup : got.Nodup) (hlt : ∀ j ∈ got, j < ps.length) :
    (got.map (size ps)).sum ≤ ps.flatten.length := by
  rw [← sum_toFinset _ hnodup, ← offset_length]
  apply Finset.sum_le_sum_of_subset
  intro j hj
  simpa using hlt j (by simpa using hj)

theorem sum_sizes_eq_iff {got : List Nat} (hnodup : got.Nodup) (hlt : ∀ j ∈ got, j < ps.length)
    (hpos : ∀ j < ps.length, 0 < size ps j) :
    (got.map (size ps)).sum = ps.flatten.length ↔ ∀ j < ps.length, j ∈ got := by
  rw [← sum_toFinset _ hnodup, ← offset_length]
  have hsub : got.toFinset ⊆ Finset.range ps.length := by
    intro j hj
    simpa using hlt j (by simpa using hj)
  constructor
  · intro heq j hj
    by_contra hnot
    refine Nat.ne_of_lt (Finset.sum_lt_sum_of_subset hsub (Finset.mem_range.mpr hj) ?_ (hpos j hj) fun _ _ _ =>
      zero_le) heq
    simpa using hnot
  · intro hall
    have hset : got.toFinset = Finset.range ps.length := by
      apply Finset.Subset.antisymm hsub
      intro j hj
      simpa using hall j (by simpa using hj)
    rw [hset]; rfl

end

end PipRiot.Pieces
