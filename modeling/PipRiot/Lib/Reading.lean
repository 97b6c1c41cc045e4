import Mathlib.Tactic.Ring

/-!
# Computations that read a memory

A computation reads a memory by index and gives a result or gives up. The indexes that
it read are kept, so that what it returns and how far it reads are told apart.
-/

namespace PipRiot

open List

def Reading (β α : Type) : Type := (Nat → β) → Option α × List Nat

namespace Reading

section
variable {α β γ : Type}

def value (x : Reading β α) (m : Nat → β) : Option α := (x m).1

def reads (x : Reading β α) (m : Nat → β) : List Nat := (x m).2

instance : Monad (Reading β) where
  pure a := fun _ => (some a, [])
  bind x f := fun m =>
    match x m with
    | (none, l) => (none, l)
    | (some a, l) => ((f a).value m, l ++ (f a).reads m)

def fail : Reading β α := fun _ => (none, [])

def byte (i : Nat) : Reading β β := fun m => (some (m i), [i])

def bytes (i n : Nat) : Reading β (List β) :=
  fun m => (some ((range n).map fun k => m (i + k)), (range n).map (i + ·))

variable {m : Nat → β} {n i k : Nat} {x : Reading β α} {f : α → Reading β γ}

@[simp] theorem value_pure (a : α) : (pure a : Reading β α).value m = some a := rfl

@[simp] theorem value_fail : (fail : Reading β α).value m = none := rfl

@[simp] theorem value_byte : (byte i).value m = some (m i) := rfl

@[simp] theorem value_bytes : (bytes i k).value m = some ((range k).map fun j => m (i + j)) := rfl

@[simp] theorem value_bind : (x >>= f).value m = (x.value m).bind fun a => (f a).value m := by
  simp only [value, bind]
  split <;> simp_all

@[simp] theorem value_ite (c : Prop) [Decidable c] (x y : Reading β α) :
    (if c then x else y).value m = if c then x.value m else y.value m := by
  split <;> rfl

def Within (m : Nat → β) (n : Nat) (x : Reading β α) : Prop := ∀ i ∈ x.reads m, i < n

@[simp] theorem within_pure (a : α) : Within m n (pure a) := by simp [Within, reads, pure]

@[simp] theorem within_fail : Within m n (fail : Reading β α) := by simp [Within, reads, fail]

@[simp] theorem within_byte : Within m n (byte i) ↔ i < n := by simp [Within, reads, byte]

@[simp] theorem within_bytes : Within m n (bytes i k) ↔ k = 0 ∨ i + k ≤ n := by
  simp only [Within, reads, bytes, mem_map, mem_range, forall_exists_index, and_imp, forall_apply_eq_imp_iff₂]
  constructor
  · intro h
    by_cases hk : k = 0
    · exact .inl hk
    · have := h (k - 1) (by omega); omega
  · intro h j hj; omega

@[simp] theorem within_bind : Within m n (x >>= f) ↔ Within m n x ∧ ∀ a, x.value m = some a → Within m n (f a) := by
  simp only [Within, reads, value, bind]
  split
  · rename_i l h
    simp [h]
  · rename_i a l h
    simp [h, mem_append, or_imp, forall_and]

@[simp] theorem within_ite (c : Prop) [Decidable c] (x y : Reading β α) :
    Within m n (if c then x else y) ↔ (c → Within m n x) ∧ (¬ c → Within m n y) := by
  split <;> simp_all

def Holds (m : Nat → β) (i : Nat) (l : List β) : Prop := (range l.length).map (fun k => m (i + k)) = l

variable {l l' : List β}

theorem holds_iff : Holds m i l ↔ ∀ k, ∀ h : k < l.length, m (i + k) = l[k] := by
  simp only [Holds, ext_getElem_iff, length_map, length_range, true_and, getElem_map, getElem_range]
  exact ⟨fun h k hk => h k hk hk, fun h k hk _ => h k hk⟩

@[simp] theorem holds_nil : Holds m i [] := rfl

@[simp] theorem holds_cons {b : β} : Holds m i (b :: l) ↔ m i = b ∧ Holds m (i + 1) l := by
  simp only [Holds, length_cons, range_succ_eq_map, map_cons, map_map, List.cons.injEq, add_zero]
  refine and_congr_right fun _ => Eq.congr_left (map_congr_left fun k _ => ?_)
  simp only [Function.comp_apply]
  congr 1
  omega

@[simp] theorem holds_append : Holds m i (l ++ l') ↔ Holds m i l ∧ Holds m (i + l.length) l' := by
  induction l generalizing i with
  | nil => simp
  | cons b l ih =>
    simp only [cons_append, holds_cons, ih, length_cons, and_assoc]
    rw [add_right_comm, add_assoc]

theorem Holds.congr {m' : Nat → β} (h : Holds m i l) (heq : ∀ x, i ≤ x → x < i + l.length → m' x = m x) :
    Holds m' i l := by
  rw [holds_iff] at h ⊢
  intro k hk
  rw [heq _ (by omega) (by omega), h k hk]

def put (m : Nat → β) (i : Nat) (l : List β) : Nat → β := fun x => if i ≤ x then (l[x - i]?).getD (m x) else m x

theorem holds_put : Holds (put m i l) i l := by
  rw [holds_iff]
  intro k hk
  simp [put, hk]

theorem put_frame {x : Nat} (h : x < i ∨ i + l.length ≤ x) : put m i l x = m x := by
  unfold put
  split
  · rw [getElem?_eq_none (by omega), Option.getD_none]
  · rfl

theorem Holds.put {j : Nat} (h : Holds m i l) (hd : i + l.length ≤ j ∨ j + l'.length ≤ i) : Holds (put m j l') i l :=
  h.congr fun _ _ _ => put_frame (by omega)

theorem Holds.value_bytes (h : Holds m i l) (hk : l.length = k) : (bytes i k).value m = some l := by
  subst hk
  exact congrArg some h

end

/-! ## Loops -/

section
variable {β σ ρ : Type}

def loop (round : σ → Reading β (σ ⊕ ρ)) : Nat → σ → Reading β (Option ρ)
  | 0, _ => pure none
  | k + 1, s => do
    match ← round s with
    | .inl t => loop round k t
    | .inr r => pure (some r)

inductive Reaches (round : σ → Reading β (σ ⊕ ρ)) (m : Nat → β) (s : σ) : σ → Prop
  | start : Reaches round m s s
  | next {t u : σ} : Reaches round m s t → (round t).value m = some (.inl u) → Reaches round m s u

variable {round : σ → Reading β (σ ⊕ ρ)} {m : Nat → β} {n : Nat} {s t : σ} {r : ρ}

theorem value_loop_inl (h : (round s).value m = some (.inl t)) (k : Nat) :
    (loop round (k + 1) s).value m = (loop round k t).value m := by
  rw [loop, value_bind, h, Option.bind_some]

theorem value_loop_inr (h : (round s).value m = some (.inr r)) (k : Nat) :
    (loop round (k + 1) s).value m = some (some r) := by
  rw [loop, value_bind, h, Option.bind_some, value_pure]

theorem value_loop_none (h : (round s).value m = none) (k : Nat) : (loop round (k + 1) s).value m = none := by
  rw [loop, value_bind, h, Option.bind_none]

theorem Reaches.head (h : (round s).value m = some (.inl t)) {u : σ} (hu : Reaches round m t u) :
    Reaches round m s u := by
  induction hu with
  | start => exact .next .start h
  | next _ hv ih => exact .next ih hv

theorem within_loop_of_reaches (h : ∀ t, Reaches round m s t → Within m n (round t)) (k : Nat) :
    Within m n (loop round k s) := by
  induction k generalizing s with
  | zero => exact within_pure _
  | succ k ih =>
    rw [loop, within_bind]
    refine ⟨h s .start, fun a ha => ?_⟩
    cases a with
    | inl t => exact ih fun u hu => h u (hu.head ha)
    | inr r => exact within_pure _

theorem within_of_loop (h : ∀ k, Within m n (loop round k s)) : Within m n (round s) := by
  have h1 := h 1
  rw [loop, within_bind] at h1
  exact h1.1

theorem Reaches.within_loop (ht : Reaches round m s t) (h : ∀ k, Within m n (loop round k s)) :
    ∀ k, Within m n (loop round k t) := by
  induction ht with
  | start => exact h
  | next _ hv ih =>
    intro k
    have hk := ih (k + 1)
    rw [loop, within_bind] at hk; exact hk.2 _ hv

theorem within_loop_iff : (∀ k, Within m n (loop round k s)) ↔ ∀ t, Reaches round m s t → Within m n (round t) :=
  ⟨fun h _ ht => within_of_loop (ht.within_loop h), within_loop_of_reaches⟩

theorem Reaches.going (ht : Reaches round m s t) (h : ∀ k, (loop round k t).value m = some none) :
    ∀ k, (loop round k s).value m = some none := by
  induction ht with
  | start => exact h
  | next _ hv ih =>
    apply ih
    intro k
    cases k with
    | zero => rfl
    | succ k => rw [value_loop_inl hv, h]

theorem Reaches.endless (ht : Reaches round m s t) (h : (round t).value m = some (.inl t)) :
    ∀ k, (loop round k s).value m = some none := by
  apply ht.going
  intro k
  induction k with
  | zero => rfl
  | succ k ih => rw [value_loop_inl h, ih]

theorem loop_ends (f : σ → Nat) (N : Nat)
    (h : ∀ t u, Reaches round m s t → (round t).value m = some (.inl u) → f t < f u ∧ f u ≤ N) :
    ∃ k, (loop round k s).value m ≠ some none := by
  generalize hd : N - f s = d
  induction d using Nat.strongRecOn generalizing s with
  | ind d ih =>
    match hv : (round s).value m with
    | none => exact ⟨1, by rw [value_loop_none hv]; simp⟩
    | some (.inr r) => exact ⟨1, by rw [value_loop_inr hv]; simp⟩
    | some (.inl t) =>
      have hlt := h s t .start hv
      obtain ⟨k, hk⟩ := ih (N - f t) (by omega) (fun a b ha hb => h a b (ha.head hv) hb) rfl
      exact ⟨k + 1, by rwa [value_loop_inl hv]⟩

end

end Reading

end PipRiot
