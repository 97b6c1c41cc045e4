import Mathlib.Tactic.Ring

/-!
# Loops that decide after each body

A loop body maps the state at the loop head to the next loop head (`.inl`) or
to the value the loop is left with (`.inr`). `runLoop` runs it with fuel,
`heads` lists the loop heads of a run, and `ReachBy` is the set of loop heads
behind bodies that all satisfy a condition. Safety, a bound on the number of
bodies and the comparison of two runs each have one induction rule here.
-/

namespace PipRiot

open List

section
variable {σ ρ : Type} (body : σ → σ ⊕ ρ)

def runLoop : Nat → σ → Option ρ
  | 0, _ => none
  | n + 1, s =>
    match body s with
    | .inl t => runLoop n t
    | .inr r => some r

def heads : Nat → σ → List σ
  | 0, _ => []
  | n + 1, s =>
    s :: match body s with
      | .inl t => heads n t
      | .inr _ => []

/-- Loop heads reached from `s` when every body so far started in `Good`. -/
inductive ReachBy (Good : σ → Prop) (s : σ) : σ → Prop
  | start : ReachBy Good s s
  | next {t u} : ReachBy Good s t → Good t → body t = .inl u → ReachBy Good s u

variable {body}

theorem runLoop_inl {s t : σ} (h : body s = .inl t) (n : Nat) : runLoop body (n + 1) s = runLoop body n t := by
  simp only [runLoop, h]

theorem runLoop_inr {s : σ} {r : ρ} (h : body s = .inr r) (n : Nat) : runLoop body (n + 1) s = some r := by
  simp only [runLoop, h]

theorem runLoop_mono {r : ρ} : ∀ {n m : Nat} {s : σ}, n ≤ m → runLoop body n s = some r → runLoop body m s = some r
  | 0, _, _, _, h => by cases h
  | _ + 1, 0, _, hle, _ => absurd hle (by omega)
  | n + 1, m + 1, s, hle, h => by
    cases hb : body s with
    | inr r' =>
      rw [runLoop_inr hb] at h ⊢; exact h
    | inl t =>
      rw [runLoop_inl hb] at h ⊢
      exact runLoop_mono (Nat.le_of_succ_le_succ hle) h

theorem heads_inl {s t : σ} (h : body s = .inl t) (n : Nat) : heads body (n + 1) s = s :: heads body n t := by
  simp only [heads, h]

theorem heads_inr {s : σ} {r : ρ} (h : body s = .inr r) (n : Nat) : heads body (n + 1) s = [s] := by
  simp only [heads, h]

theorem ReachBy.inv {Good : σ → Prop} {s : σ} (Inv : σ → Prop) (h0 : Inv s)
    (hstep : ∀ t u, Inv t → Good t → body t = .inl u → Inv u) {t : σ} (h : ReachBy body Good s t) : Inv t := by
  induction h with
  | start => exact h0
  | next _ hg hb ih => exact hstep _ _ ih hg hb

theorem ReachBy.trans {Good : σ → Prop} {s t u : σ} (h : ReachBy body Good s t)
    (h' : ReachBy body Good t u) : ReachBy body Good s u := by
  induction h' with
  | start => exact h
  | next _ hg hb ih => exact .next ih hg hb

theorem heads_reach {Good : σ → Prop} : ∀ (n : Nat) (s : σ), (∀ t ∈ heads body n s, Good t) →
    ∀ t ∈ heads body n s, ReachBy body Good s t
  | 0, _, _, t, ht => by simp [heads] at ht
  | n + 1, s, hg, t, ht => by
    have hs : Good s := hg s (by simp [heads])
    cases hb : body s with
    | inr r => simp only [heads, hb, mem_singleton] at ht; exact ht ▸ .start
    | inl u =>
      simp only [heads, hb, mem_cons] at ht hg
      rcases ht with rfl | ht
      · exact .start
      · have hu := heads_reach n u (fun v hv => hg v (.inr hv)) t ht
        exact (ReachBy.next .start hs hb).trans hu

theorem runLoop_last : ∀ (n : Nat) (s : σ) {r : ρ}, runLoop body n s = some r →
    ∃ t ∈ heads body n s, body t = .inr r
  | 0, _, _, h => by simp [runLoop] at h
  | n + 1, s, r, h => by
    cases hb : body s with
    | inr r' =>
      simp only [runLoop, hb, Option.some.injEq] at h
      exact ⟨s, by simp [heads], h ▸ hb⟩
    | inl u =>
      simp only [runLoop, hb] at h
      obtain ⟨t, ht, hr⟩ := runLoop_last n u h
      exact ⟨t, by simp [heads, hb, ht], hr⟩

theorem mem_heads_of_runLoop {r : ρ} : ∀ (n : Nat) (s : σ), runLoop body n s = some r →
    ∀ m, ∀ t ∈ heads body m s, t ∈ heads body n s
  | 0, _, h, _, _, _ => by simp [runLoop] at h
  | _ + 1, _, _, 0, _, ht => by simp [heads] at ht
  | n + 1, s, h, m + 1, t, ht => by
    cases hb : body s with
    | inr r' => simpa only [heads, hb] using ht
    | inl u =>
      simp only [runLoop, heads, hb, mem_cons] at h ht ⊢
      exact ht.imp_right (mem_heads_of_runLoop n u h m t)

/-! ## Bounds -/

theorem runLoop_of_measure (Inv : σ → Prop) (μ : σ → Nat) (hpos : ∀ s, Inv s → 0 < μ s)
    (hdec : ∀ s t, Inv s → body s = .inl t → Inv t ∧ μ t < μ s) :
    ∀ (n : Nat) (s : σ), Inv s → μ s ≤ n →
      (∃ r, runLoop body n s = some r) ∧ (heads body n s).length ≤ μ s
  | 0, s, hi, hn => absurd (hpos s hi) (by omega)
  | n + 1, s, hi, hn => by
    cases hb : body s with
    | inr r => simp only [runLoop, heads, hb]; exact ⟨⟨r, rfl⟩, hpos s hi⟩
    | inl t =>
      obtain ⟨ht, hlt⟩ := hdec s t hi hb
      obtain ⟨hr, hl⟩ := runLoop_of_measure Inv μ hpos hdec n t ht (by omega)
      simp only [runLoop, heads, hb, length_cons]; exact ⟨hr, by omega⟩

theorem countP_heads_le (p : σ → Bool) (Inv : σ → Prop) (ν : σ → Nat) (hmark : ∀ s, Inv s → p s = true → 0 < ν s)
    (hdec : ∀ s t, Inv s → body s = .inl t → Inv t ∧ ν t + (if p s then 1 else 0) ≤ ν s) :
    ∀ (n : Nat) (s : σ), Inv s → (heads body n s).countP p ≤ ν s
  | 0, s, _ => by simp [heads]
  | n + 1, s, hi => by
    cases hb : body s with
    | inr r =>
      simp only [heads, hb, countP_singleton]
      by_cases hp : p s = true
      · rw [if_pos hp]; exact hmark s hi hp
      · simp [hp]
    | inl t =>
      obtain ⟨ht, hle⟩ := hdec s t hi hb
      have := countP_heads_le p Inv ν hmark hdec n t ht
      simp only [heads, hb, countP_cons]; omega

/-! ## Two runs side by side -/

theorem runLoop_lockstep {ω : Type} {body' : σ → σ ⊕ ρ} (obs : σ → ω) (R : σ → σ → Prop)
    (Q : ρ → ρ → Prop) (Good : σ → Prop) (hstep : ∀ s t, R s t → Good s → obs s = obs t ∧
      ((∃ s' t', body s = .inl s' ∧ body' t = .inl t' ∧ R s' t') ∨
       (∃ r r', body s = .inr r ∧ body' t = .inr r' ∧ Q r r'))) :
    ∀ (n : Nat) (s t : σ), R s t → (∀ u ∈ heads body n s, Good u) →
      (heads body n s).map obs = (heads body' n t).map obs ∧
      ((runLoop body n s = none ∧ runLoop body' n t = none) ∨
       ∃ r r', runLoop body n s = some r ∧ runLoop body' n t = some r' ∧ Q r r')
  | 0, _, _, _, _ => by simp [heads, runLoop]
  | n + 1, s, t, hR, hg => by
    obtain ⟨ho, hb⟩ := hstep s t hR (hg s (by simp [heads]))
    rcases hb with ⟨s', t', hs, ht, hR'⟩ | ⟨r, r', hs, ht, hQ⟩
    · have hg' : ∀ u ∈ heads body n s', Good u := fun u hu => hg u (by simp [heads, hs, hu])
      obtain ⟨hm, hr⟩ := runLoop_lockstep obs R Q Good hstep n s' t' hR' hg'
      simp only [heads, runLoop, hs, ht, map_cons, ho, hm, true_and]; exact hr
    · simp only [heads, runLoop, hs, ht, map_cons, map_nil, ho, true_and]
      exact .inr ⟨r, r', rfl, rfl, hQ⟩

end

end PipRiot
