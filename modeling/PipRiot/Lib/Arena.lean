import Mathlib.Algebra.Order.BigOperators.Group.Finset
import Mathlib.Order.Interval.Finset.Nat
import Mathlib.Tactic.Ring

/-!
# Arenas

An arena is cut into chunks, each its address and its length. `Chunks` is the canonical
list of free chunks: in the order of addresses, no two of them adjacent. `Arena` says
that they and the blocks of all owners cover the arena without overlap.
-/

namespace PipRiot

open Function

theorem ne_of_none {ι β : Type*} {f : ι → Option β} {a b : ι} {x : β} (ha : f a = some x)
    (hb : f b = none) : a ≠ b := by
  rintro rfl
  cases ha.symm.trans hb

def InChunk (c : Nat × Nat) (i : Nat) : Prop := c.1 ≤ i ∧ i < c.1 + c.2

def InChunks (l : List (Nat × Nat)) (i : Nat) : Prop := ∃ c ∈ l, InChunk c i

structure Aligned (unit size : Nat) (c : Nat × Nat) : Prop where
  start : unit ∣ c.1
  length : unit ∣ c.2
  pos : 0 < c.2
  bound : c.1 + c.2 ≤ size

def Chunks (unit size : Nat) : Nat → List (Nat × Nat) → Prop
  | _, [] => True
  | lo, c :: l => lo ≤ c.1 ∧ Aligned unit size c ∧ Chunks unit size (c.1 + c.2 + 1) l

section
variable {unit size lo i : Nat} {c : Nat × Nat} {l l' : List (Nat × Nat)}

theorem inChunks_cons : InChunks (c :: l) i ↔ InChunk c i ∨ InChunks l i := by
  simp [InChunks]

theorem not_inChunks_nil : ¬ InChunks [] i := by
  simp [InChunks]

theorem Aligned.self (h : Aligned unit size c) : InChunk c c.1 := ⟨le_rfl, Nat.lt_add_of_pos_right h.pos⟩

namespace Chunks

theorem mono {lo' : Nat} (h : Chunks unit size lo l) (hle : lo' ≤ lo) : Chunks unit size lo' l := by
  cases l with
  | nil => exact trivial
  | cons c l => exact ⟨le_trans hle h.1, h.2⟩

theorem bounds (h : Chunks unit size lo l) (hi : InChunks l i) : lo ≤ i ∧ i < size := by
  induction l generalizing lo with
  | nil => exact absurd hi not_inChunks_nil
  | cons c l ih =>
    rcases inChunks_cons.mp hi with hc | hl
    · exact ⟨le_trans h.1 hc.1, lt_of_lt_of_le hc.2 h.2.1.bound⟩
    · obtain ⟨hlo, hlt⟩ := ih h.2.2 hl
      refine ⟨le_trans h.1 ?_, hlt⟩
      exact le_trans (le_trans (Nat.le_add_right _ _) (Nat.le_succ _)) hlo

theorem aligned (h : Chunks unit size lo l) (hc : c ∈ l) : Aligned unit size c := by
  induction l generalizing lo with
  | nil => cases hc
  | cons e l ih =>
    rcases List.mem_cons.mp hc with rfl | hc
    · exact h.2.1
    · exact ih h.2.2 hc

theorem eq_single (h : Chunks unit size 0 l) (hpos : 0 < size) (hall : ∀ i < size, InChunks l i) : l = [(0, size)] := by
  cases l with
  | nil => exact absurd (hall 0 hpos) not_inChunks_nil
  | cons c l =>
    obtain ⟨-, ha, hl⟩ := h
    have hstart : c.1 = 0 := by
      rcases inChunks_cons.mp (hall 0 hpos) with hc | hc
      · exact Nat.le_zero.mp hc.1
      · exact absurd (hl.bounds hc).1 (Nat.not_succ_le_zero _)
    have hbound := ha.bound
    have hend : c.2 = size := by
      -- the byte behind the first chunk would be in no other
      by_contra hne
      rcases inChunks_cons.mp (hall (c.1 + c.2) (by omega)) with hc | hc
      · exact lt_irrefl _ hc.2
      · exact Nat.not_succ_le_self _ (hl.bounds hc).1
    have hnil : l = [] := by
      cases l with
      | nil => rfl
      | cons e l =>
        have hb := hl.2.1.bound
        have hlo := hl.1
        omega
    rw [hnil, ← hend, ← hstart]

theorem pairwise (h : Chunks unit size lo l) : l.Pairwise fun c c' => c.1 + c.2 < c'.1 := by
  induction l generalizing lo with
  | nil => exact List.Pairwise.nil
  | cons c l ih =>
    refine List.pairwise_cons.mpr ⟨?_, ih h.2.2⟩
    intro c' hc'
    exact (h.2.2.bounds ⟨c', hc', (h.2.2.aligned hc').self⟩).1

end Chunks

end

structure Arena {ω : Type} (unit size : Nat) (free : List (Nat × Nat)) (blocks : ω → Option (Nat × Nat)) : Prop where
  chunks : Chunks unit size 0 free
  aligned : ∀ o c, blocks o = some c → Aligned unit size c
  apart : ∀ o o' c c' i, blocks o = some c → blocks o' = some c' → InChunk c i → InChunk c' i → o = o'
  clear : ∀ o c i, blocks o = some c → InChunk c i → ¬ InChunks free i
  cover : ∀ i < size, InChunks free i ∨ ∃ o c, blocks o = some c ∧ InChunk c i

namespace Arena

section
variable {ω : Type} {unit size : Nat} {free free' : List (Nat × Nat)} {blocks : ω → Option (Nat × Nat)} {o o' : ω}
  {c : Nat × Nat}

theorem start (hdvd : unit ∣ size) (hpos : 0 < size) : Arena unit size [(0, size)] (fun _ : ω => none) where
  chunks := ⟨zero_le, ⟨Nat.dvd_zero unit, hdvd, hpos, le_of_eq (zero_add size)⟩, trivial⟩
  aligned o c h := by cases h
  apart o o' c c' i h := by cases h
  clear o c i h := by cases h
  cover i hi := .inl ⟨_, List.mem_cons_self, Nat.zero_le i, by rw [zero_add]; exact hi⟩

theorem all_free (h : Arena unit size free blocks) (hpos : 0 < size) (hnone : ∀ o, blocks o = none) :
    free = [(0, size)] := by
  refine h.chunks.eq_single hpos fun i hi => ?_
  rcases h.cover i hi with hf | ⟨o, c, ho, -⟩
  · exact hf
  · rw [hnone o] at ho; cases ho

variable [DecidableEq ω]

theorem sum_le (h : Arena unit size free blocks) {l : List ω} (hl : l.Nodup) :
    (l.map fun o => ((blocks o).map Prod.snd).getD 0).sum ≤ size := by
  let bytes : ω → Finset Nat := fun o => ((blocks o).map fun c => Finset.Ico c.1 (c.1 + c.2)).getD ∅
  have hcard : ∀ o, (bytes o).card = ((blocks o).map Prod.snd).getD 0 := by
    intro o
    cases ho : blocks o with
    | none | some c => simp [bytes, ho]
  have hmem : ∀ {o i}, i ∈ bytes o → ∃ c, blocks o = some c ∧ InChunk c i := by
    intro o i hi
    cases ho : blocks o with
    | none => simp [bytes, ho] at hi
    | some c =>
      simp only [bytes, ho, Option.map_some, Option.getD_some, Finset.mem_Ico] at hi
      exact ⟨c, rfl, hi⟩
  have hdisjoint : ∀ x ∈ l.toFinset, ∀ y ∈ l.toFinset, x ≠ y → Disjoint (bytes x) (bytes y) := by
    intro x _ y _ hne
    refine Finset.disjoint_left.mpr fun i hx hy => hne ?_
    obtain ⟨c, hc, hci⟩ := hmem hx
    obtain ⟨c', hc', hci'⟩ := hmem hy
    exact h.apart x y c c' i hc hc' hci hci'
  calc (l.map fun o => ((blocks o).map Prod.snd).getD 0).sum
      = ∑ o ∈ l.toFinset, (bytes o).card := by simp only [hcard, List.sum_toFinset _ hl]
    _ = (l.toFinset.biUnion bytes).card := (Finset.card_biUnion hdisjoint).symm
    _ ≤ (Finset.range size).card := by
        refine Finset.card_le_card fun i hi => ?_
        obtain ⟨o, -, ho⟩ := Finset.mem_biUnion.mp hi
        obtain ⟨c, hc, hci⟩ := hmem ho
        exact Finset.mem_range.mpr (lt_of_lt_of_le hci.2 (h.aligned o c hc).bound)
    _ = size := Finset.card_range size

theorem of_update {new : Option (Nat × Nat)} {x : ω} (h : update blocks o new x = some c) :
    x = o ∧ new = some c ∨ x ≠ o ∧ blocks x = some c := by
  by_cases e : x = o
  · subst e
    rw [update_self] at h; exact .inl ⟨rfl, h⟩
  · rw [update_of_ne e] at h; exact .inr ⟨e, h⟩

section
variable (h : Arena unit size free blocks)
include h

theorem take (ho : blocks o = none) (hchunks : Chunks unit size 0 free')
    (hc : Aligned unit size c) (hsplit : ∀ i, InChunks free i ↔ InChunks free' i ∨ InChunk c i)
    (hout : ∀ i, InChunk c i → ¬ InChunks free' i) : Arena unit size free' (update blocks o (some c)) := by
  refine ⟨hchunks, ?_, ?_, ?_, ?_⟩
  · intro x b hx
    rcases of_update hx with ⟨-, hb⟩ | ⟨-, hold⟩
    · cases hb; exact hc
    · exact h.aligned x b hold
  · intro x y b b' i hx hy hb hb'
    rcases of_update hx with ⟨rfl, hcb⟩ | ⟨-, hold⟩
    · rcases of_update hy with ⟨rfl, -⟩ | ⟨-, hold'⟩
      · rfl
      · cases hcb
        exact absurd ((hsplit i).mpr (.inr hb)) (h.clear y b' i hold' hb')
    · rcases of_update hy with ⟨rfl, hcb⟩ | ⟨-, hold'⟩
      · cases hcb
        exact absurd ((hsplit i).mpr (.inr hb')) (h.clear x b i hold hb)
      · exact h.apart x y b b' i hold hold' hb hb'
  · intro x b i hx hb
    rcases of_update hx with ⟨-, hcb⟩ | ⟨-, hold⟩
    · cases hcb; exact hout i hb
    · exact fun hf => h.clear x b i hold hb ((hsplit i).mpr (.inl hf))
  · intro i hi
    rcases h.cover i hi with hf | ⟨x, b, hx, hb⟩
    · rcases (hsplit i).mp hf with hf | hci
      · exact .inl hf
      · exact .inr ⟨o, c, update_self .., hci⟩
    · refine .inr ⟨x, b, ?_, hb⟩
      rw [update_of_ne (ne_of_none hx ho)]; exact hx

theorem cut (ho : blocks o = some c) (hchunks : Chunks unit size 0 free')
    {keep : Option (Nat × Nat)} {rest : Nat × Nat} (hkeep : ∀ b, keep = some b → Aligned unit size b)
    (hparts : ∀ i, InChunk c i ↔ (∃ b, keep = some b ∧ InChunk b i) ∨ InChunk rest i)
    (hapart : ∀ b i, keep = some b → InChunk b i → ¬ InChunk rest i)
    (hunion : ∀ i, InChunks free' i ↔ InChunks free i ∨ InChunk rest i) :
    Arena unit size free' (update blocks o keep) := by
  refine ⟨hchunks, ?_, ?_, ?_, ?_⟩
  · intro x b hx
    rcases of_update hx with ⟨-, hb⟩ | ⟨-, hold⟩
    · exact hkeep b hb
    · exact h.aligned x b hold
  · intro x y b b' i hx hy hb hb'
    rcases of_update hx with ⟨rfl, hkb⟩ | ⟨-, hold⟩
    · rcases of_update hy with ⟨rfl, -⟩ | ⟨-, hold'⟩
      · rfl
      · exact h.apart x y c b' i ho hold' ((hparts i).mpr (.inl ⟨b, hkb, hb⟩)) hb'
    · rcases of_update hy with ⟨rfl, hkb⟩ | ⟨-, hold'⟩
      · exact h.apart x y b c i hold ho hb ((hparts i).mpr (.inl ⟨b', hkb, hb'⟩))
      · exact h.apart x y b b' i hold hold' hb hb'
  · intro x b i hx hb hf
    rcases of_update hx with ⟨rfl, hkb⟩ | ⟨hxo, hold⟩
    · rcases (hunion i).mp hf with hf | hr
      · exact h.clear x c i ho ((hparts i).mpr (.inl ⟨b, hkb, hb⟩)) hf
      · exact hapart b i hkb hb hr
    · rcases (hunion i).mp hf with hf | hr
      · exact h.clear x b i hold hb hf
      · exact hxo (h.apart x o b c i hold ho hb ((hparts i).mpr (.inr hr)))
  · intro i hi
    rcases h.cover i hi with hf | ⟨x, b, hx, hb⟩
    · exact .inl ((hunion i).mpr (.inl hf))
    · by_cases e : x = o
      · subst e
        cases ho.symm.trans hx
        rcases (hparts i).mp hb with ⟨b, hkb, hb⟩ | hr
        · exact .inr ⟨x, b, (update_self ..).trans hkb, hb⟩
        · exact .inl ((hunion i).mpr (.inr hr))
      · exact .inr ⟨x, b, (update_of_ne e ..).trans hx, hb⟩

theorem give (ho : blocks o = some c) (hchunks : Chunks unit size 0 free')
    (hunion : ∀ i, InChunks free' i ↔ InChunks free i ∨ InChunk c i) :
    Arena unit size free' (update blocks o none) := by
  refine h.cut ho hchunks (fun b hb => by cases hb) (fun i => ?_) (fun b i hb => by cases hb) hunion
  simp

theorem split (ho : blocks o = some c) (ho' : blocks o' = none)
    (first : Nat × Nat) (rest : Option (Nat × Nat)) (hfirst : Aligned unit size first)
    (hrest : ∀ b, rest = some b → Aligned unit size b)
    (hparts : ∀ i, InChunk c i ↔ InChunk first i ∨ ∃ b, rest = some b ∧ InChunk b i)
    (hapart : ∀ b i, rest = some b → InChunk b i → ¬ InChunk first i) :
    Arena unit size free (update (update blocks o' (some first)) o rest) := by
  have hne : o' ≠ o := (ne_of_none ho ho').symm
  have hcases : ∀ {x b}, update (update blocks o' (some first)) o rest x = some b →
      x = o' ∧ b = first ∨ x = o ∧ rest = some b ∨ x ≠ o ∧ x ≠ o' ∧ blocks x = some b := by
    intro x b hx
    rcases of_update hx with hr | ⟨hxo, hx⟩
    · exact .inr (.inl hr)
    · rcases of_update hx with ⟨rfl, hf⟩ | ⟨hxo', hx⟩
      · exact .inl ⟨rfl, (Option.some.inj hf).symm⟩
      · exact .inr (.inr ⟨hxo, hxo', hx⟩)
  -- the byte of a part is a byte of the block that was cut
  have hpart : ∀ {x b i}, x = o' ∧ b = first ∨ x = o ∧ rest = some b → InChunk b i → InChunk c i := by
    rintro x b i (⟨-, rfl⟩ | ⟨-, hr⟩) hb
    · exact (hparts i).mpr (.inl hb)
    · exact (hparts i).mpr (.inr ⟨b, hr, hb⟩)
  refine ⟨h.chunks, ?_, ?_, ?_, ?_⟩
  · intro x b hx
    rcases hcases hx with ⟨-, rfl⟩ | ⟨-, hb⟩ | ⟨-, -, hx⟩
    · exact hfirst
    · exact hrest b hb
    · exact h.aligned x b hx
  · intro x y b b' i hx hy hb hb'
    rcases hcases hx with ⟨rfl, rfl⟩ | ⟨rfl, hrb⟩ | ⟨hxo, -, hx⟩
    · rcases hcases hy with ⟨rfl, -⟩ | ⟨rfl, hrb⟩ | ⟨hyo, -, hy⟩
      · rfl
      · exact absurd hb (hapart b' i hrb hb')
      · exact absurd (h.apart _ _ _ _ i hy ho hb' ((hparts i).mpr (.inl hb))) hyo
    · rcases hcases hy with ⟨rfl, rfl⟩ | ⟨rfl, -⟩ | ⟨hyo, -, hy⟩
      · exact absurd hb' (hapart b i hrb hb)
      · rfl
      · exact absurd (h.apart _ _ _ _ i hy ho hb' ((hparts i).mpr (.inr ⟨b, hrb, hb⟩))) hyo
    · rcases hcases hy with hp | hp | ⟨-, -, hy⟩
      · exact absurd (h.apart _ _ _ _ i hx ho hb (hpart (.inl hp) hb')) hxo
      · exact absurd (h.apart _ _ _ _ i hx ho hb (hpart (.inr hp) hb')) hxo
      · exact h.apart x y b b' i hx hy hb hb'
  · intro x b i hx hb
    rcases hcases hx with hp | hp | ⟨-, -, hx⟩
    · exact h.clear o c i ho (hpart (.inl hp) hb)
    · exact h.clear o c i ho (hpart (.inr hp) hb)
    · exact h.clear x b i hx hb
  · intro i hi
    rcases h.cover i hi with hf | ⟨x, b, hx, hb⟩
    · exact .inl hf
    · right
      by_cases e : x = o
      · subst e
        cases ho.symm.trans hx
        rcases (hparts i).mp hb with hb | ⟨b, hr, hb⟩
        · refine ⟨o', first, ?_, hb⟩
          rw [update_of_ne hne, update_self]
        · exact ⟨x, b, (update_self ..).trans hr, hb⟩
      · have e' : x ≠ o' := fun e' => by
          rw [e', ho'] at hx; cases hx
        refine ⟨x, b, ?_, hb⟩
        rw [update_of_ne e, update_of_ne e']; exact hx

end

end

end Arena

end PipRiot
