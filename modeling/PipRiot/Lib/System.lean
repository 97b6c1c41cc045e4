import Mathlib.Tactic.Ring

/-!
# Systems that answer calls

A system maps its state and a call to the next state, or refuses the call.
`runAll` makes a list of calls; `ReachVia` is the set of states behind calls
that all satisfied a condition in the state they were made in, and `AllGood`
says of a list of calls that they do.
-/

namespace PipRiot

section
variable {σ α : Type} (step : σ → α → Option σ)

def runAll : σ → List α → Option σ
  | s, [] => some s
  | s, a :: as =>
    match step s a with
    | some t => runAll t as
    | none => none

inductive ReachVia (Good : σ → α → Prop) (s : σ) : σ → Prop
  | start : ReachVia Good s s
  | next {t u a} : ReachVia Good s t → Good t a → step t a = some u → ReachVia Good s u

def AllGood (Good : σ → α → Prop) : σ → List α → Prop
  | _, [] => True
  | s, a :: as => Good s a ∧ ∀ t, step s a = some t → AllGood Good t as

instance AllGood.decidable (Good : σ → α → Prop) [∀ s a, Decidable (Good s a)] : ∀ s as,
    Decidable (AllGood step Good s as)
  | _, [] => isTrue trivial
  | s, a :: as =>
    match h : step s a with
    | none => decidable_of_iff (Good s a) ⟨fun hg => ⟨hg, fun t ht => by cases h.symm.trans ht⟩, fun hg => hg.1⟩
    | some t =>
      have := AllGood.decidable Good t as
      decidable_of_iff (Good s a ∧ AllGood step Good t as)
        ⟨fun hg => ⟨hg.1, fun u hu => by cases h.symm.trans hu; exact hg.2⟩, fun hg => ⟨hg.1, hg.2 t h⟩⟩

variable {step} {Good : σ → α → Prop} {s t u : σ}

theorem runAll_cons {a : α} (h : step s a = some t) (as : List α) : runAll step s (a :: as) = runAll step t as := by
  simp only [runAll, h]

theorem ReachVia.inv (Inv : σ → Prop) (h0 : Inv s)
    (hstep : ∀ t u a, Inv t → Good t a → step t a = some u → Inv u) (h : ReachVia step Good s t) : Inv t := by
  induction h with
  | start => exact h0
  | next _ hg hs ih => exact hstep _ _ _ ih hg hs

theorem ReachVia.mono {Good' : σ → α → Prop} (hg : ∀ s a, Good s a → Good' s a) (h : ReachVia step Good s t) :
    ReachVia step Good' s t := by
  induction h with
  | start => exact .start
  | next _ hgood hs ih => exact .next ih (hg _ _ hgood) hs

theorem ReachVia.trans (h : ReachVia step Good s t) (h' : ReachVia step Good t u) : ReachVia step Good s u := by
  induction h' with
  | start => exact h
  | next _ hg hs ih => exact .next ih hg hs

theorem runAll_reach : ∀ (as : List α) (s : σ), runAll step s as = some t →
    ReachVia step (fun _ _ => True) s t
  | [], s, h => by cases h; exact .start
  | a :: as, s, h => by
    simp only [runAll] at h
    split at h
    · rename_i u hu
      exact (ReachVia.next .start trivial hu).trans (runAll_reach as u h)
    · cases h

theorem AllGood.lockstep {R : σ → σ → Prop}
    (hstep : ∀ s s' a, R s s' → Good s a → ∃ t t', step s a = some t ∧ step s' a = some t' ∧ R t t') :
    ∀ (as : List α) {s s' : σ}, AllGood step Good s as → R s s' →
      ∃ t t', runAll step s as = some t ∧ runAll step s' as = some t' ∧ R t t'
  | [], s, s', _, hR => ⟨s, s', rfl, rfl, hR⟩
  | a :: as, s, s', hg, hR => by
    obtain ⟨t, t', ht, ht', hR'⟩ := hstep s s' a hR hg.1
    rw [runAll_cons ht, runAll_cons ht']
    exact AllGood.lockstep hstep as (hg.2 t ht) hR'

end

end PipRiot
