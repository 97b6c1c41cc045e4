import Mathlib.Data.List.Chain
import Mathlib.Data.List.Rotate

/-!
# Circular intrusive lists

A node carries the pointer to its successor; the list holds a pointer to its
last node, whose successor is the first. `Ring` says which list of nodes the
pointers spell, and each operation is the list operation under it.
-/

namespace PipRiot.Clist

open Function List

section
variable {α : Type}

def lpeek (next : α → Option α) (list : Option α) : Option α := list.bind next

def lpoprpush (next : α → Option α) (list : Option α) : Option α := list.bind next

structure Ring (next : α → Option α) (list : Option α) (l : List α) : Prop where
  last : list = l.getLast?
  chain : l.IsChain fun a b => next a = some b
  wrap : ∀ a ∈ l.getLast?, next a = l.head?
  nodup : l.Nodup

variable {next next' : α → Option α} {list : Option α} {l : List α} {a n : α}

theorem chain_congr : ∀ {l : List α}, (∀ a ∈ l.dropLast, next' a = next a) →
    (l.IsChain fun a b => next a = some b) → l.IsChain fun a b => next' a = some b
  | [], _, _ => List.IsChain.nil
  | [a], _, _ => List.IsChain.singleton a
  | a :: b :: l, h, hc => by
    rw [isChain_cons_cons] at hc ⊢
    refine ⟨?_, chain_congr (fun c hc => h c (mem_cons_of_mem a hc)) hc.2⟩
    rw [h a mem_cons_self, hc.1]

namespace Ring

theorem nil (next : α → Option α) : Ring next none [] :=
  ⟨rfl, .nil, fun _ h => (Option.not_mem_none _ h).elim, .nil⟩

section
variable (h : Ring next list l)
include h

theorem eq_none_iff : list = none ↔ l = [] := by
  rw [h.last, getLast?_eq_none_iff]

theorem last_mem (ha : list = some a) : a ∈ l :=
  mem_of_getLast? (h.last ▸ ha)

theorem lpeek_eq : lpeek next list = l.head? := by
  cases hl : list with
  | none => rw [(h.eq_none_iff).mp hl]; rfl
  | some a => exact h.wrap a (h.last ▸ hl)

theorem congr (he : ∀ a ∈ l, next' a = next a) : Ring next' list l where
  last := h.last
  chain := chain_congr (fun a ha => he a (dropLast_subset l ha)) h.chain
  wrap a ha := by rw [he a (mem_of_getLast? ha), h.wrap a ha]
  nodup := h.nodup

end

theorem map_next_of_chain {c : α} : ∀ {l : List α} {a : α}, ((a :: l).IsChain fun a b => next a = some b) →
    (∀ b ∈ (a :: l).getLast?, next b = some c) → (a :: l).map next = (l ++ [c]).map some
  | [], a, _, hw => by simp [hw a rfl]
  | b :: l, a, hc, hw => by
    rw [isChain_cons_cons] at hc
    rw [map_cons, hc.1, map_next_of_chain hc.2 hw]; rfl

theorem map_next (h : Ring next list l) : l.map next = (l.rotate 1).map some := by
  cases l with
  | nil => rfl
  | cons a l =>
    rw [rotate_cons_succ, rotate_zero]; exact map_next_of_chain h.chain h.wrap

theorem next_mem (h : Ring next list l) {b : α} (hb : b ∈ l) : ∃ a ∈ l, next b = some a := by
  have hm : next b ∈ (l.rotate 1).map some := h.map_next ▸ mem_map_of_mem hb
  obtain ⟨a, ha, he⟩ := mem_map.mp hm
  exact ⟨a, mem_rotate.mp ha, he.symm⟩

theorem exists_next (h : Ring next list l) (ha : a ∈ l) : ∃ b ∈ l, next b = some a := by
  have hm : some a ∈ l.map next := h.map_next ▸ mem_map_of_mem (mem_rotate.mpr ha)
  exact mem_map.mp hm

theorem lpoprpush (h : Ring next list (a :: l)) : Ring next (lpoprpush next list) (l ++ [a]) := by
  have hpeek : Clist.lpoprpush next list = some a := h.lpeek_eq
  rw [hpeek]
  refine ⟨(getLast?_concat).symm, ?_, ?_, ?_⟩
  · refine isChain_append.mpr ⟨h.chain.tail, List.IsChain.singleton a, ?_⟩
    intro x hx y hy
    cases hy
    exact h.wrap x (by cases l with | nil => cases hx | cons b l => exact hx)
  · intro b hb
    rw [getLast?_concat] at hb
    cases hb
    cases l with
    | nil => exact h.wrap a rfl
    | cons b l => exact (isChain_cons_cons.mp h.chain).1
  · exact (perm_append_singleton a l).nodup_iff.mpr h.nodup

end Ring

variable [DecidableEq α]

def rpush (next : α → Option α) (list : Option α) (n : α) : (α → Option α) × Option α :=
  match list with
  | some last => (update (update next n (next last)) last (some n), some n)
  | none => (update next n (some n), some n)

def lpop (next : α → Option α) (list : Option α) : (α → Option α) × Option α :=
  match list with
  | none => (next, none)
  | some last =>
    if next last = some last then (next, none)
    else (update next last ((next last).bind next), some last)

namespace Ring

theorem rpush (h : Ring next list l) (hn : n ∉ l) : Ring (rpush next list n).1 (rpush next list n).2 (l ++ [n]) := by
  rcases eq_nil_or_concat l with rfl | ⟨xs, z, rfl⟩
  · have hl : list = none := h.last
    subst hl
    refine ⟨rfl, List.IsChain.singleton n, ?_, pairwise_singleton _ n⟩
    intro a ha
    cases ha; exact update_self ..
  · rw [concat_eq_append] at h hn ⊢
    have hl : list = some z := by rw [h.last, getLast?_concat]
    subst hl
    have hzx : z ∉ xs := fun hz => (nodup_append.mp h.nodup).2.2 z hz z (mem_singleton_self z) rfl
    have hnz : n ≠ z := fun e => hn (by simp [e])
    refine ⟨by rw [getLast?_concat]; rfl, ?_, ?_, ?_⟩
    · -- only the old last node and the new one change their pointers
      rw [append_assoc]
      refine isChain_append_cons_cons.mpr ⟨chain_congr ?_ h.chain, update_self .., List.IsChain.singleton n⟩
      intro a ha
      rw [dropLast_concat] at ha
      have haz : a ≠ z := fun e => hzx (e ▸ ha)
      have han : a ≠ n := fun e => hn (e ▸ mem_append_left [z] ha)
      simp only [Clist.rpush, update_of_ne haz, update_of_ne han]
    · intro a ha
      rw [getLast?_concat] at ha
      cases ha
      have hw := h.wrap z (by rw [getLast?_concat]; rfl)
      simp only [Clist.rpush, update_of_ne hnz, update_self, hw]; simp
    · exact nodup_append.mpr ⟨h.nodup, pairwise_singleton _ n,
        fun a ha b hb e => hn (mem_singleton.mp hb ▸ e ▸ ha)⟩

theorem lpop (h : Ring next list (a :: l)) : Ring (lpop next list).1 (lpop next list).2 l := by
  have hnd := nodup_cons.mp h.nodup
  rcases eq_nil_or_concat l with rfl | ⟨xs, z, rfl⟩
  · have hl : list = some a := h.last
    subst hl
    have hw : next a = some a := h.wrap a rfl
    simp only [Clist.lpop, hw, if_true]; exact nil next
  · rw [concat_eq_append] at h hnd ⊢
    have hlast : (a :: (xs ++ [z])).getLast? = some z := by rw [← cons_append, getLast?_concat]
    have hl : list = some z := by rw [h.last, hlast]
    subst hl
    have hw : next z = some a := h.wrap z hlast
    have haz : a ≠ z := fun e => hnd.1 (by simp [e])
    have hzx : z ∉ xs := fun hz => (nodup_append.mp hnd.2).2.2 z hz z (mem_singleton_self z) rfl
    -- the popped node points to the new first one
    have hfirst : next a = (xs ++ [z]).head? := by
      cases xs with
      | nil | cons b xs => exact (isChain_cons_cons.mp h.chain).1
    have hpop : Clist.lpop next (some z) = (update next z (xs ++ [z]).head?, some z) := by
      have hne : next z ≠ some z := by
        rw [hw]; exact fun e => haz (Option.some.inj e)
      rw [Clist.lpop, if_neg hne, hw, Option.bind_some, hfirst]
    rw [hpop]
    refine ⟨(getLast?_concat).symm, chain_congr ?_ h.chain.tail, ?_, hnd.2⟩
    · intro b hb
      rw [dropLast_concat] at hb
      exact update_of_ne (fun e : b = z => hzx (e ▸ hb)) ..
    · intro b hb
      rw [getLast?_concat] at hb
      cases hb; exact update_self ..

/-! Nodes of other lists keep their pointers. -/

theorem rpush_frame (h : Ring next list l) {b : α} (hb : b ∉ l) (hbn : b ≠ n) :
    (Clist.rpush next list n).1 b = next b := by
  cases hl : list with
  | none => exact update_of_ne hbn ..
  | some z =>
    have hbz : b ≠ z := fun e => hb (e ▸ h.last_mem hl)
    simp only [Clist.rpush, update_of_ne hbz, update_of_ne hbn]

theorem lpop_same {b : α} (hb : list ≠ some b) : (Clist.lpop next list).1 b = next b := by
  cases list with
  | none => rfl
  | some z =>
    have hbz : b ≠ z := fun e => hb (congrArg some e.symm)
    simp only [Clist.lpop]
    split
    · rfl
    · exact update_of_ne hbz ..

theorem lpop_frame (h : Ring next list l) {b : α} (hb : b ∉ l) : (Clist.lpop next list).1 b = next b :=
  lpop_same fun hl => hb (h.last_mem hl)

end Ring

end

end PipRiot.Clist
