import Mathlib.Data.List.Nodup

/-!
# Linked lists

`next` gives the pointer that a node holds, or nothing where there is no node. `Linked`
relates a pointer to the nodes that are met behind it; a list that ends meets no node twice.
-/

namespace PipRiot

open List

section
variable {α : Type} (next : α → Option (Option α))

def Linked : Option α → List α → Prop
  | p, [] => p = none
  | p, a :: l => p = some a ∧ ∃ q, next a = some q ∧ Linked q l

variable {next} {next' : α → Option (Option α)} {p : Option α} {a : α} {l : List α}

namespace Linked

theorem unique : ∀ {l l' : List α} {p : Option α}, Linked next p l → Linked next p l' → l = l'
  | [], [], _, _, _ => rfl
  | [], b :: l', _, h, h' => by cases h.symm.trans h'.1
  | a :: l, [], _, h, h' => by cases h'.symm.trans h.1
  | a :: l, b :: l', _, h, h' => by
    cases h.1.symm.trans h'.1
    obtain ⟨-, q, hq, hl⟩ := h
    obtain ⟨-, q', hq', hl'⟩ := h'
    cases hq.symm.trans hq'
    rw [unique hl hl']

section
variable (h : Linked next p l)
include h

theorem suffix (ha : a ∈ l) : ∃ l', Linked next (some a) (a :: l') ∧ l'.length < l.length := by
  induction l generalizing p with
  | nil => simp at ha
  | cons b l ih =>
    obtain ⟨-, q, hq, hl⟩ := h
    simp only [mem_cons] at ha
    cases ha with
    | inl hab =>
      subst hab
      exact ⟨l, ⟨rfl, q, hq, hl⟩, Nat.lt_succ_self _⟩
    | inr ha =>
      obtain ⟨l', h', hlt⟩ := ih hl ha
      exact ⟨l', h', Nat.lt_succ_of_lt hlt⟩

theorem nodup : l.Nodup := by
  induction l generalizing p with
  | nil => simp
  | cons a l ih =>
    obtain ⟨rfl, q, hq, hl⟩ := h
    simp only [nodup_cons]
    refine ⟨fun ha => ?_, ih hl⟩
    -- a second place of the node would be followed by the same nodes, but by fewer
    obtain ⟨l', h', hlt⟩ := hl.suffix ha
    have hall : Linked next (some a) (a :: l) := ⟨rfl, q, hq, hl⟩
    cases hall.unique h'
    exact Nat.lt_irrefl _ hlt

theorem congr (hsame : ∀ b ∈ l, next' b = next b) : Linked next' p l := by
  induction l generalizing p with
  | nil => exact h
  | cons a l ih =>
    obtain ⟨rfl, q, hq, hl⟩ := h
    refine ⟨rfl, q, ?_, ih hl ?_⟩
    · rw [hsame a (by simp)]; exact hq
    · intro b hb
      apply hsame
      simp [hb]

theorem exists_next (ha : a ∈ l) : ∃ q, next a = some q := by
  obtain ⟨l', ⟨-, q, hq, -⟩, -⟩ := h.suffix ha
  exact ⟨q, hq⟩

theorem next_mem {b : α} (ha : a ∈ l) (hb : next a = some (some b)) : b ∈ l := by
  induction l generalizing p with
  | nil => simp at ha
  | cons c l ih =>
    obtain ⟨-, q, hq, hl⟩ := h
    simp only [mem_cons] at ha
    cases ha with
    | inr ha => exact mem_cons_of_mem _ (ih hl ha)
    | inl hac =>
      subst hac
      cases hq.symm.trans hb
      cases l with
      | nil => cases hl
      | cons d l =>
        cases hl.1
        simp

end

end Linked

end

/-! ## Walks with fuel -/

section
variable {α : Type} (next : α → Option α)

def walked : Nat → Option α → List α
  | _, none => []
  | 0, some _ => []
  | n + 1, some a => a :: walked n (next a)

def walkEnds : Nat → Option α → Bool
  | _, none => true
  | 0, some _ => false
  | n + 1, some a => walkEnds n (next a)

variable {next} {p : Option α} {l : List α}

@[simp] theorem walked_none (n : Nat) : walked next n none = [] := by cases n <;> rfl

@[simp] theorem walkEnds_none (n : Nat) : walkEnds next n none = true := by cases n <;> rfl

theorem length_walked_le (n : Nat) (p : Option α) : (walked next n p).length ≤ n := by
  induction n generalizing p with
  | zero => cases p <;> simp [walked]
  | succ n ih =>
    cases p with
    | none => simp
    | some a => exact Nat.succ_le_succ (ih (next a))

theorem linked_of_walkEnds {n : Nat} (h : walkEnds next n p = true) :
    Linked (fun a => some (next a)) p (walked next n p) := by
  induction n generalizing p with
  | zero =>
    cases p with
    | none => rfl
    | some a => cases h
  | succ n ih =>
    cases p with
    | none => rfl
    | some a => exact ⟨rfl, next a, rfl, ih h⟩

theorem Linked.walked (h : Linked (fun a => some (next a)) p l) {n : Nat} (hn : l.length ≤ n) :
    walkEnds next n p = true ∧ PipRiot.walked next n p = l := by
  induction l generalizing p n with
  | nil =>
    cases h; simp
  | cons a l ih =>
    obtain ⟨rfl, q, hq, hl⟩ := h
    cases hq
    cases n with
    | zero => simp at hn
    | succ n =>
      obtain ⟨he, hw⟩ := ih hl (Nat.le_of_succ_le_succ hn)
      exact ⟨he, congrArg (a :: ·) hw⟩

theorem mem_walked_mono {n m : Nat} (h : n ≤ m) {a : α} (ha : a ∈ walked next n p) : a ∈ walked next m p := by
  induction n generalizing m p with
  | zero => cases p <;> simp [walked] at ha
  | succ n ih =>
    cases p with
    | none => simp at ha
    | some c =>
      obtain ⟨m, rfl⟩ := Nat.exists_eq_add_of_le' (Nat.le_trans (Nat.le_add_left 1 n) h)
      simp only [walked, mem_cons] at ha ⊢
      exact ha.imp_right (ih (Nat.le_of_succ_le_succ h))

theorem walkEnds_mono {n m : Nat} (h : n ≤ m) (he : walkEnds next n p = true) :
    walkEnds next m p = true ∧ walked next m p = walked next n p :=
  (linked_of_walkEnds he).walked (Nat.le_trans (length_walked_le n p) h)

theorem mem_walked_of_closed {S : α → Prop} (hS : ∀ a b, S a → next a = some b → S b) (hp : ∀ a ∈ p, S a) {n : Nat}
    {a : α} (ha : a ∈ walked next n p) : S a := by
  induction n generalizing p with
  | zero => cases p <;> simp [walked] at ha
  | succ n ih =>
    cases p with
    | none => simp at ha
    | some c =>
      simp only [walked, mem_cons] at ha
      cases ha with
      | inl hac =>
        subst hac; exact hp a rfl
      | inr ha => exact ih (fun b hb => hS c b (hp c rfl) hb) ha

theorem walkEnds_eq_false {S : α → Prop} (hS : ∀ a, S a → ∃ b, next a = some b ∧ S b) {a : α} (ha : S a) (n : Nat) :
    walkEnds next n (some a) = false := by
  induction n generalizing a with
  | zero => rfl
  | succ n ih =>
    obtain ⟨b, hb, hSb⟩ := hS a ha
    rw [walkEnds, hb]; exact ih hSb

theorem exists_walkEnds_iff {a : α} :
    (∃ n, walkEnds next n (some a) = true) ↔ ∃ b, (∃ n, b ∈ walked next n (some a)) ∧ next b = none := by
  constructor
  · rintro ⟨n, h⟩
    induction n generalizing a with
    | zero => cases h
    | succ n ih =>
      rw [walkEnds] at h
      cases hb : next a with
      | none => exact ⟨a, ⟨1, by simp [walked]⟩, hb⟩
      | some b =>
        rw [hb] at h
        obtain ⟨c, ⟨k, hk⟩, hc⟩ := ih h
        exact ⟨c, ⟨k + 1, by simp [walked, hb, hk]⟩, hc⟩
  · rintro ⟨b, ⟨n, hn⟩, hb⟩
    refine ⟨n, ?_⟩
    induction n generalizing a with
    | zero => simp [walked] at hn
    | succ n ih =>
      simp only [walked, mem_cons] at hn
      rw [walkEnds]
      cases hn with
      | inl hba =>
        subst hba
        rw [hb]; exact walkEnds_none n
      | inr hn =>
        cases hc : next a with
        | none => exact walkEnds_none n
        | some c =>
          rw [hc] at hn; exact ih hn

theorem exists_mem_walked_next {a b : α} (h : ∃ n, a ∈ walked next n p) (hb : next a = some b) :
    ∃ n, b ∈ walked next n p := by
  obtain ⟨n, hn⟩ := h
  refine ⟨n + 1, ?_⟩
  induction n generalizing p with
  | zero => cases p <;> simp [walked] at hn
  | succ n ih =>
    cases p with
    | none => simp at hn
    | some c =>
      simp only [walked, mem_cons] at hn
      cases hn with
      | inl hac =>
        subst hac
        simp [walked, hb]
      | inr hn => exact mem_cons_of_mem _ (ih hn)

end

end PipRiot
