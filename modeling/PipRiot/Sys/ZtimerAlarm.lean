import PipRiot.Lib.System
import PipRiot.Sys.ZtimerOffsets

/-!
# Timers on time

The hardware is armed for the first timer of the list. The one way to lose this is to
set the first timer again, to a time behind that of the next one.
-/

namespace PipRiot.Sys.Clock

open List Function Option

section
variable {τ : Type} {n : Nat} {t : τ} {val : BitVec 32} {s : Clock τ}

/-- The hardware is armed for the first timer, neither before its expiry nor later than
it is due. -/
def Alarm (now64 : Bool) (s : Clock τ) : Prop :=
  ∀ t, s.running = none → s.names.head? = some t →
    ∃ a, s.armed = some a ∧ s.expiry t ≤ max a s.now ∧ (now64 = false → a ≤ max (s.expiry t) s.now)

structure Sound (now64 : Bool) (s : Clock τ) : Prop where
  listed : Listed s
  accounted : Accounted s
  alarm : Alarm now64 s

theorem exists_list_of_names {t : τ} {r : List τ} (h : s.names = t :: r) :
    ∃ o l, s.list = (t, o) :: l ∧ l.map Prod.fst = r := by
  unfold names at h
  cases hl : s.list with
  | nil => rw [hl] at h; cases h
  | cons p l =>
    rw [hl, map_cons] at h
    injection h with h1 h2
    exact ⟨p.2, l, by rw [← h1], h2⟩

theorem Listed.alarm_ztimerUpdate (now64 : Bool) (h : Listed s) (hnow : s.base = s.now) :
    Alarm now64 (s.ztimerUpdate now64) := by
  intro t _ hhead
  unfold ztimerUpdate at hhead ⊢
  split at hhead
  · rename_i e o l hl
    have hsp := h.spaced
    have he : some e = some t := by
      rw [← hhead]
      simp [names, arm, hl]
    cases he
    rw [hl] at hsp
    have hmax := hsp.1
    refine ⟨s.now + o.toNat, rfl, ?_, fun _ => ?_⟩
    · change s.expiry t ≤ max (s.now + o.toNat) s.now
      omega
    · change s.now + o.toNat ≤ max (s.expiry t) s.now
      omega
  · rename_i hl
    have hnil : s.names = [] := by rw [names, hl]; rfl
    split at hhead
    · change s.names.head? = some t at hhead
      rw [hnil] at hhead; cases hhead
    · rw [hnil] at hhead; cases hhead

theorem Listed.ztimerUpdate (now64 : Bool) (h : Listed s) : Listed (s.ztimerUpdate now64) := by
  unfold Clock.ztimerUpdate
  split
  · exact ⟨h.offset, h.base, h.near, h.spaced, h.within, h.last, h.order⟩
  · split
    · exact ⟨h.offset, h.base, h.near, h.spaced, h.within, h.last, h.order⟩
    · exact h

theorem Accounted.ztimerUpdate (now64 : Bool) (h : Accounted s) : Accounted (s.ztimerUpdate now64) := by
  unfold Clock.ztimerUpdate
  split
  · exact ⟨h.perm, h.onTime⟩
  · split
    · exact ⟨h.perm, h.onTime⟩
    · exact h

namespace Sound
variable {now64 : Bool}

theorem init (now64 : Bool) (start : Nat) : Sound now64 (init start : Clock τ) where
  listed := Listed.init start
  accounted := ⟨List.Perm.refl _, fun p hp => by cases hp⟩
  alarm t _ h := by cases h

theorem second (h : Sound now64 s) {e : τ} {o p : BitVec 32} {l : List (τ × BitVec 32)}
    (hl : s.list = (t, o) :: (e, p) :: l) :
    s.base + o.toNat = max (s.expiry t) s.base ∧ s.base + o.toNat + p.toNat = max (s.expiry e) s.base := by
  have hsp := h.listed.spaced
  rw [hl] at hsp
  exact ⟨hsp.1, hsp.2.1⟩

theorem advance (h : Sound now64 s) {d : Nat} (hd : s.list = [] ∨ s.now + d < s.base + 2 ^ 32) :
    Sound now64 { s with now := s.now + d } := by
  obtain ⟨hl, ha, halarm⟩ := h
  refine ⟨⟨hl.offset, le_trans hl.base (Nat.le_add_right _ _), fun hne => hd.resolve_left hne, hl.spaced, hl.within,
    hl.last, hl.order⟩, ⟨ha.perm, ha.onTime⟩, ?_⟩
  intro t hrun hhead
  obtain ⟨a, haa, hearly, hlate⟩ := halarm t hrun hhead
  refine ⟨a, haa, ?_, ?_⟩
  · change s.expiry t ≤ max a (s.now + d)
    omega
  · intro h64
    have := hlate h64
    change a ≤ max (s.expiry t) (s.now + d)
    omega

theorem fire (hl : Listed s) (ha : Accounted s) {t : τ} {u : Clock τ} (hu : s.nowNext = some (t, u)) :
    Sound now64 (u.fire t) := by
  obtain ⟨hnames, hdue, hlu, hrest⟩ := hl.pop hu
  have harm : u.arming = s.arming := by rw [hrest]
  have hfired : u.fired = s.fired := by rw [hrest]
  have hremoved : u.removed = s.removed := by rw [hrest]
  have hreplaced : u.replaced = s.replaced := by rw [hrest]
  have hsets : u.sets = s.sets := by rw [hrest]
  have hnow : u.now = s.now := by rw [hrest]
  refine ⟨⟨hlu.offset, hlu.base, hlu.near, hlu.spaced, hlu.within, hlu.last, hlu.order⟩, ⟨?_, ?_⟩, ?_⟩
  · have hperm := ha.perm
    have hid : u.setId = s.setId := by funext e; rw [setId, setId, harm]
    change (u.names.map u.setId ++ ((u.fired ++ [(u.arming t, u.now)]).map (fun p => p.1.id) ++
      (u.removed.map Arming.id ++ u.replaced.map Arming.id))).Perm (range u.sets)
    rw [hnames, map_cons, cons_append] at hperm
    rw [hid, hfired, hremoved, hreplaced, hsets, harm, map_append, append_assoc, ← append_assoc]
    refine List.Perm.trans ?_ hperm
    rw [← append_assoc (u.names.map s.setId)]; exact perm_middle
  · intro p hp
    rcases mem_append.mp hp with hp | hp
    · rw [hfired] at hp; exact ha.onTime p hp
    · rw [mem_singleton.mp hp, harm, hnow]; exact hdue
  · intro e hrun; cases hrun

theorem nowNext_of_zero {t : τ} {l : List (τ × BitVec 32)} (hl : s.list = (t, 0#32) :: l) :
    s.nowNext = some (t, { s with list := l, last := if l = [] then none else s.last }) := by
  simp only [nowNext, hl, if_true]

theorem trigger (h : Sound now64 s) (hdue : ∀ t, s.names.head? = some t → s.expiry t ≤ s.now) :
    Sound now64 (s.trigger now64) := by
  unfold Clock.trigger
  split
  · rename_i t o l hl
    have hto := h.listed.toHead hl (hdue t (by rw [names, hl]; rfl))
    have hu := nowNext_of_zero
      (s := { s with offset := s.offset + o, base := s.base + o.toNat, list := (t, 0#32) :: l }) rfl
    have hperm := h.accounted.perm
    rw [names, hl] at hperm
    exact fire hto ⟨hperm, h.accounted.onTime⟩ hu
  · rename_i hl
    refine ⟨h.listed.ztimerUpdate now64, h.accounted.ztimerUpdate now64, ?_⟩
    intro t _ hhead
    unfold Clock.ztimerUpdate at hhead
    rw [hl] at hhead
    have hnil : s.names = [] := by rw [names, hl]; rfl
    split at hhead
    · rename_i heq
      cases heq
    · split at hhead
      · change s.names.head? = some t at hhead
        rw [hnil] at hhead; cases hhead
      · rw [hnil] at hhead; cases hhead

theorem due (h : Sound now64 s) (hrun : s.running = none) (harmed : ∃ a ∈ s.armed, a ≤ s.now) {t : τ}
    (ht : s.names.head? = some t) : s.expiry t ≤ s.now := by
  obtain ⟨a, ha, hearly, -⟩ := h.alarm t hrun ht
  obtain ⟨a', ha', hle⟩ := harmed
  cases ha.symm.trans ha'
  omega

theorem ztimerHandler (h : Sound now64 s) (hrun : s.running = none) (harmed : ∃ a ∈ s.armed, a ≤ s.now) :
    Sound now64 (s.ztimerHandler now64) := by
  have htrigger := h.trigger fun t ht => h.due hrun harmed ht
  have hpostpone : now64 = true → ∀ v, Sound now64 (s.arm v) := by
    intro h64 v
    have hl := h.listed
    have ha := h.accounted
    refine ⟨⟨hl.offset, hl.base, hl.near, hl.spaced, hl.within, hl.last, hl.order⟩, ⟨ha.perm, ha.onTime⟩, ?_⟩
    intro t _ hhead
    refine ⟨s.now + v.toNat, rfl, ?_, fun hf => ?_⟩
    · exact le_trans (h.due hrun harmed hhead) (le_max_right _ _)
    · cases h64.symm.trans hf
  unfold Clock.ztimerHandler
  split
  · rename_i h64
    split
    · simp only
      split
      · exact hpostpone h64 _
      · exact htrigger
    · exact hpostpone h64 _
  · exact htrigger

theorem not_due_of_nowNext (h : Listed s) (hnone : s.nowNext = none) : ∀ t ∈ s.names, s.base < s.expiry t := by
  intro t ht
  cases hl : s.list with
  | nil => rw [names, hl] at ht; cases ht
  | cons p l =>
    obtain ⟨e, o⟩ := p
    have ho : o ≠ 0#32 := fun h0 => by
      simp only [nowNext, hl, h0, if_true] at hnone; cases hnone
    have hpos : 0 < o.toNat := by
      refine pos_of_ne_zero fun h0 => ho ?_
      exact BitVec.eq_of_toNat_eq h0
    have hsp := h.spaced
    have hord := h.order
    rw [hl] at hsp
    simp only [names, hl, map_cons] at hord ht
    have hfirst := hsp.1
    rcases mem_cons.mp ht with rfl | ht
    · omega
    · rcases (pairwise_cons.mp hord).1 t ht with hlt | heq
      · omega
      · omega

theorem callbackReturns (h : Sound now64 s) :
    Sound now64 (s.callbackReturns now64) ∧
      ((s.callbackReturns now64).running = none →
        ∀ t ∈ (s.callbackReturns now64).names, (s.callbackReturns now64).now < (s.callbackReturns now64).expiry t) := by
  have hu := h.listed.updateHeadOffset
  have ha := h.accounted.updateHeadOffset
  unfold Clock.callbackReturns
  split
  · rename_i hnext
    exact ⟨fire h.listed h.accounted hnext, fun hrun => by cases hrun⟩
  · simp only
    split
    · rename_i hnext
      exact ⟨fire hu ha hnext, fun hrun => by cases hrun⟩
    · rename_i hnone
      have hl : Listed { s.updateHeadOffset with running := none } :=
        ⟨hu.offset, hu.base, hu.near, hu.spaced, hu.within, hu.last, hu.order⟩
      refine ⟨⟨hl.ztimerUpdate now64, Accounted.ztimerUpdate now64 ⟨ha.perm, ha.onTime⟩,
        hl.alarm_ztimerUpdate now64 rfl⟩, ?_⟩
      intro _
      have hlate := not_due_of_nowNext hu hnone
      unfold Clock.ztimerUpdate
      split
      · exact hlate
      · split
        · exact hlate
        · exact hlate

end Sound

variable [DecidableEq τ]

/-- Outside of the handler the first timer is not set again so that the next one
becomes first, unless that is due by now or no later than the first was. -/
def KeepsAlarm (s : Clock τ) : Op τ → Prop
  | .set t val => s.running = none → ∀ o e p l, s.list = (t, o) :: (e, p) :: l →
      p = 0#32 ∨ s.base + o.toNat + p.toNat ≤ s.now ∨ s.now + val.toNat < s.base + o.toNat + p.toNat
  | _ => True

theorem Accounted.add {u v : Clock τ} (h : Accounted u) (ht : t ∉ u.names) (hnames : v.names.Perm (t :: u.names))
    (harming : v.arming = update u.arming t ⟨u.sets, n, val⟩) (hsets : v.sets = u.sets + 1)
    (hrest : v.fired = u.fired ∧ v.removed = u.removed ∧ v.replaced = u.replaced) : Accounted v := by
  obtain ⟨hf, hr, hp⟩ := hrest
  refine ⟨?_, by rw [hf]; exact h.onTime⟩
  have hself : v.setId t = u.sets := by rw [setId, harming, update_self]
  have hother : u.names.map v.setId = u.names.map u.setId := by
    refine map_congr_left fun e he => ?_
    have hne : e ≠ t := fun heq => ht (heq ▸ he)
    rw [setId, setId, harming, update_of_ne hne]
  rw [hf, hr, hp, hsets, range_succ]
  refine List.Perm.trans ((hnames.map v.setId).append_right _) ?_
  rw [map_cons, hself, hother, cons_append]
  exact List.Perm.trans (List.Perm.cons _ h.perm) (perm_append_singleton _ _).symm

structure Added (s v : Clock τ) (t : τ) (val : BitVec 32) : Prop where
  listed : Listed v
  accounted : Accounted v
  names : v.names = addRanked v.expiry t (s.names.erase t)
  self : v.expiry t = s.now + val.toNat
  other : ∀ e, e ≠ t → v.expiry e = s.expiry e
  running : v.running = s.running
  time : v.base = s.now ∧ v.now = s.now
  armed : v.armed = s.armed

theorem Sound.ztimerSet_spec {now64 : Bool} (h : Sound now64 s) (t : τ) (val : BitVec 32) :
    ∃ v, Added s v t val ∧ s.ztimerSet t val = if v.names.head? = some t then v.arm val else v := by
  have hun := unset_spec h.listed h.accounted t
  have ht : t ∉ (s.unset t).names := by
    rw [hun.names]; exact h.listed.nodup.not_mem_erase
  obtain ⟨hlisted, hnames⟩ :=
    hun.listed.add (fun e he => hun.accounted.setId_lt he) (hun.time.1.trans hun.time.2.symm) ht val
  have hperm : (((s.unset t).addEntryToList t val).noteSet t val).names.Perm (t :: (s.unset t).names) := by
    rw [hnames]; exact perm_orderedInsert _ t _
  refine ⟨((s.unset t).addEntryToList t val).noteSet t val,
    ⟨hlisted, hun.accounted.add ht hperm rfl rfl ⟨rfl, rfl, rfl⟩, ?_, ?_, ?_, hun.running, hun.time, hun.armed⟩, ?_⟩
  · rw [hnames, hun.names]
  · simp [expiry, noteSet, addEntryToList, Arming.expiry, hun.time.2]
  · intro e hne
    simp [expiry, noteSet, addEntryToList, hne, hun.arming]
  · simp only [Clock.ztimerSet, names, head?_map]

namespace Sound
variable {now64 : Bool}

theorem ztimerSet (h : Sound now64 s) (hgood : s.KeepsAlarm (.set t val)) : Sound now64 (s.ztimerSet t val) := by
  obtain ⟨v, hv, hset⟩ := h.ztimerSet_spec t val
  have hl := hv.listed
  rw [hset]
  split
  · rename_i hhead
    refine ⟨⟨hl.offset, hl.base, hl.near, hl.spaced, hl.within, hl.last, hl.order⟩,
      ⟨hv.accounted.perm, hv.accounted.onTime⟩, ?_⟩
    intro e _ he
    cases he.symm.trans hhead
    refine ⟨v.now + val.toNat, rfl, ?_, fun _ => ?_⟩
    · refine le_trans hv.self.le (le_trans ?_ (le_max_left _ _))
      rw [hv.time.2]
    · refine le_trans (le_of_eq ?_) (le_max_left _ _)
      exact (congrArg (· + val.toNat) hv.time.2).trans hv.self.symm
  · rename_i hhead
    refine ⟨hl, hv.accounted, ?_⟩
    intro e hrun he
    have hne : e ≠ t := fun heq => hhead (heq ▸ he)
    rw [hv.names] at he
    obtain ⟨hold, hbehind⟩ := (head_addRanked he).resolve_left hne
    rw [hv.self, hv.other e hne] at hbehind
    rw [hv.running] at hrun
    rw [hv.other e hne, hv.armed, hv.time.2]
    cases hn : s.names with
    | nil => rw [hn] at hold; cases hold
    | cons c r =>
      rw [hn] at hold
      obtain ⟨a, ha, hearly, hlate⟩ := h.alarm c hrun (by rw [hn]; rfl)
      by_cases hc : c = t
      · -- the first timer has moved back behind the second
        subst hc
        rw [erase_cons_head] at hold
        obtain ⟨r', rfl⟩ : ∃ r', r = e :: r' := head?_eq_some_iff.mp hold
        obtain ⟨o, l, hl, hl'⟩ := exists_list_of_names hn
        obtain ⟨q, l', rfl, rfl, -⟩ := map_eq_cons_iff.mp hl'
        obtain ⟨hfirst, hsecond⟩ := h.second hl
        have hbase := h.listed.base
        refine ⟨a, ha, ?_, ?_⟩
        · rcases hgood hrun o q.1 q.2 l' hl with hz | hdue | hbefore
          · rw [hz, BitVec.toNat_zero] at hsecond; omega
          · omega
          · omega
        · intro h64
          have := hlate h64; omega
      · rw [erase_cons_tail (by simpa using hc)] at hold
        cases hold; exact ⟨a, ha, hearly, hlate⟩

theorem ztimerRemove (h : Sound now64 s) (t : τ) : Sound now64 (s.ztimerRemove now64 t).1 := by
  unfold Clock.ztimerRemove
  split
  · rename_i hset
    have hu := h.listed.updateHeadOffset
    have ha := h.accounted.updateHeadOffset
    have hin : t ∈ s.updateHeadOffset.names := by
      rw [Listed.names_updateHeadOffset]; exact (h.listed.isSet_iff t).mp hset
    have hd := hu.delEntryFromList t
    have hnames := names_del hu t
    have hres : (s.updateHeadOffset.delEntryFromList t).2 = true :=
      (delLoop_spec t _ none hu.spaced hu.within le_rfl).2.2.trans (decide_eq_true hin)
    simp only [hres, if_true]
    have hlisted : Listed { (s.updateHeadOffset.delEntryFromList t).1 with
        removed := s.removed ++ [s.arming t] } :=
      ⟨hd.offset, hd.base, hd.near, hd.spaced, hd.within, hd.last, hd.order⟩
    refine ⟨hlisted.ztimerUpdate now64, Accounted.ztimerUpdate now64 ⟨?_, ha.onTime⟩,
      hlisted.alarm_ztimerUpdate now64 rfl⟩
    change ((s.updateHeadOffset.delEntryFromList t).1.names.map s.setId ++ (s.fired.map (fun p => p.1.id) ++
      ((s.removed ++ [s.arming t]).map Arming.id ++ s.replaced.map Arming.id))).Perm (range s.sets)
    rw [hnames, map_append]
    refine List.Perm.trans (List.Perm.append_left _ ?_) (perm_erase hin ha.perm)
    rw [append_assoc, append_assoc]
    refine List.Perm.append_left _ ?_
    rw [append_assoc]
    exact List.Perm.append_left _ perm_append_comm
  · exact h

theorem step (h : Sound now64 s) {op : Op τ} {u : Clock τ} (hgood : s.KeepsAlarm op) (hu : s.step now64 op = some u) :
    Sound now64 u := by
  cases op with
  | set t val => cases hu; exact h.ztimerSet hgood
  | remove t => cases hu; exact h.ztimerRemove t
  | advance d =>
    simp only [Clock.step, ite_none_right_eq_some, some.injEq] at hu
    obtain ⟨hd, rfl⟩ := hu
    exact h.advance hd
  | handler =>
    simp only [Clock.step, ite_none_right_eq_some, some.injEq] at hu
    obtain ⟨⟨hrun, harmed⟩, rfl⟩ := hu
    exact h.ztimerHandler hrun harmed
  | callbackReturns =>
    simp only [Clock.step, ite_none_left_eq_some, some.injEq] at hu
    obtain ⟨-, rfl⟩ := hu
    exact h.callbackReturns.1

end Sound

theorem sound_of_reach {now64 : Bool} {start : Nat} (h : ReachVia (step now64) KeepsAlarm (init start) s) :
    Sound now64 s := by
  refine h.inv (Sound now64) (Sound.init now64 start) ?_
  intro s u op hs hgood hu
  exact hs.step hgood hu

theorem early_of_not_keepsAlarm {op : Op τ} {u : Clock τ} (h : Sound false s) (hbad : ¬ s.KeepsAlarm op)
    (hu : s.step false op = some u) :
    ∃ d v w, u.step false (.advance d) = some v ∧ v.step false .handler = some w ∧ ∃ p ∈ w.fired, p.2 < p.1.expiry := by
  cases op with
  | remove t | advance d | handler | callbackReturns => exact absurd trivial hbad
  | set t val =>
    simp only [KeepsAlarm, not_forall, not_or] at hbad
    obtain ⟨hrun, o, e, p, l, hl, hp, hdue, hval⟩ := hbad
    cases hu
    obtain ⟨hfirst, hsecond⟩ := h.second hl
    have hpos : 0 < p.toNat := pos_of_ne_zero fun h0 => hp (BitVec.eq_of_toNat_eq h0)
    have hsn : s.names = t :: e :: l.map Prod.fst := by rw [names, hl]; rfl
    have hnd := h.listed.nodup
    rw [hsn, nodup_cons] at hnd
    have hne : e ≠ t := fun heq => hnd.1 (heq ▸ mem_cons_self)
    obtain ⟨a, ha, -, hlate⟩ := h.alarm t hrun (by rw [hsn]; rfl)
    have hle := hlate rfl
    obtain ⟨u, hv, hset⟩ := h.ztimerSet_spec t val
    obtain ⟨hbase', hnow⟩ := hv.time
    have hexp := hv.other e hne
    -- the next timer is first now, and the alarm is still that of the timer set again
    obtain ⟨r, hr⟩ : ∃ r, u.names = e :: r := by
      rw [hv.names, hsn, erase_cons_head, addRanked, orderedInsert_cons, hv.self, hexp, if_neg (by omega)]
      exact ⟨_, rfl⟩
    have hhead : ¬ u.names.head? = some t := by
      rw [hr]; exact fun heq => hne (some.inj heq)
    rw [hset, if_neg hhead]
    obtain ⟨o', l', hl', -⟩ := exists_list_of_names hr
    have hroom : u.now + (a - s.now) < u.base + 2 ^ 32 := by omega
    have hreached : a ≤ u.now + (a - s.now) := by omega
    refine ⟨a - s.now, { u with now := u.now + (a - s.now) }, _, if_pos (.inr hroom),
      if_pos ⟨hv.running.trans hrun, a, hv.armed.trans ha, hreached⟩, ?_⟩
    simp only [ztimerHandler, trigger, hl', nowNext, if_true, fire, Bool.false_eq_true, if_false]
    refine ⟨_, mem_append_right _ mem_cons_self, ?_⟩
    change u.now + (a - s.now) < u.expiry e
    omega

def absolutes : Nat → List (τ × BitVec 32) → List (τ × Nat)
  | _, [] => []
  | b, (t, o) :: l => (t, b + o.toNat) :: absolutes (b + o.toNat) l

omit [DecidableEq τ] in
theorem Spaced.absolutes {x : τ → Nat} {base : Nat} : ∀ {b : Nat} {l : List (τ × BitVec 32)}, Spaced x base b l →
    ∀ p ∈ absolutes b l, p.2 = max (x p.1) base
  | _, [], _, p, hp => by cases hp
  | b, (t, o) :: l, h, p, hp => by
    rcases mem_cons.mp hp with rfl | hp
    · exact h.1
    · exact h.2.absolutes p hp

/-- In every run that keeps the alarm: a timer that is not due stands at its expiry, the
list is in the order of expiry and then of setting, no callback is called early, and
every call of `ztimer_set` is in exactly one place, so that its callback is called once
and not if it was removed. `ztimer_remove` returns true for a timer that is set. When
the first timer is due the handler can come and call it, and it returns with no timer
due. A step that does not keep the alarm lets a callback run early. -/
theorem ztimer_on_time_while_alarm_kept (now64 : Bool) (start : Nat) :
    (∀ s : Clock τ, ReachVia (step now64) KeepsAlarm (init start) s →
      (s.offset = BitVec.ofNat 32 s.base ∧ ∀ p ∈ absolutes s.base s.list, s.now < s.expiry p.1 → p.2 = s.expiry p.1) ∧
      s.names.Pairwise (fun t e => s.expiry t < s.expiry e ∨ s.expiry t = s.expiry e ∧ s.setId t < s.setId e) ∧
      (∀ p ∈ s.fired, p.1.expiry ≤ p.2) ∧
      (s.names.map s.setId ++ (s.fired.map (fun p => p.1.id) ++
        (s.removed.map Arming.id ++ s.replaced.map Arming.id))).Perm (range s.sets) ∧
      (∀ t, (s.ztimerRemove now64 t).2 = true ↔ t ∈ s.names) ∧
      (now64 = false → s.running = none → ∀ t, s.names.head? = some t → s.expiry t ≤ s.now →
        ∃ u, s.step now64 .handler = some u ∧ u.running = some t) ∧
      (s.running ≠ none → ∃ u, s.step now64 .callbackReturns = some u ∧
        (u.running = none → ∀ t ∈ u.names, u.now < u.expiry t))) ∧
    (∀ (s : Clock τ) op u, ReachVia (step false) KeepsAlarm (init start) s → ¬ s.KeepsAlarm op →
      s.step false op = some u →
      ∃ d v w, u.step false (.advance d) = some v ∧ v.step false .handler = some w ∧
        ∃ p ∈ w.fired, p.2 < p.1.expiry) := by
  refine ⟨?_, fun s op u hs hbad hu => early_of_not_keepsAlarm (sound_of_reach hs) hbad hu⟩
  intro s hs
  have h := sound_of_reach hs
  have hbase := h.listed.base
  refine ⟨⟨h.listed.offset, ?_⟩, h.listed.order, h.accounted.onTime, h.accounted.perm, ?_, ?_, ?_⟩
  · intro p hp hlt
    have habs := h.listed.spaced.absolutes p hp
    omega
  · intro t
    rw [← h.listed.isSet_iff t]
    unfold ztimerRemove
    split
    · rename_i hset
      have hu := h.listed.updateHeadOffset
      have hin : t ∈ s.updateHeadOffset.names := by
        rw [Listed.names_updateHeadOffset]; exact (h.listed.isSet_iff t).mp hset
      have hres := (delLoop_spec t s.updateHeadOffset.last none hu.spaced hu.within le_rfl).2.2
      exact ⟨fun _ => hset, fun _ => hres.trans (decide_eq_true hin)⟩
    · rename_i hset
      exact ⟨(fun hf => by cases hf), fun hf => absurd hf hset⟩
  · intro h64 hrun t ht hdue
    obtain ⟨a, ha, -, hlate⟩ := h.alarm t hrun ht
    have hle := hlate h64
    obtain ⟨r, hr⟩ := head?_eq_some_iff.mp ht
    obtain ⟨o, l, hl, -⟩ := exists_list_of_names hr
    refine ⟨_, if_pos ⟨hrun, a, ha, by omega⟩, ?_⟩
    simp only [h64, ztimerHandler, trigger, hl, nowNext, if_true, fire, Bool.false_eq_true, if_false]
  · intro hrun
    exact ⟨_, if_neg hrun, h.callbackReturns.2⟩

end

section

/-- Timer 1 is set behind timer 0, timer 0 is removed, and timer 1 runs at its expiry. -/
theorem ztimer_on_time_after_remove : ∃ s : Clock (Fin 2),
    ReachVia (step false) KeepsAlarm (init 0) s ∧ s.fired.map (fun p => (p.1.expiry, p.2)) = [(20, 20)] ∧
    ∀ p ∈ s.fired, p.1.expiry ≤ p.2 := by
  have h1 : ReachVia (step false) KeepsAlarm (init 0 : Clock (Fin 2)) _ :=
    .next .start (a := Op.set 0 10#32) (by rintro - o e p l h; cases h) rfl
  have h2 := h1.next (a := Op.set 1 20#32) (by rintro - o e p l h; cases h) rfl
  have h3 := h2.next (a := Op.remove 0) trivial rfl
  have h4 := h3.next (a := Op.advance 20) trivial rfl
  have h5 := h4.next (a := Op.handler) trivial rfl
  exact ⟨_, h5, rfl, ((ztimer_on_time_while_alarm_kept false 0).1 _ h5).2.2.1⟩

/-- Timer 0 is set again while it is first. The alarm is still the one for time 10, and
the handler then calls timer 1, which was set for time 20. -/
theorem ztimer_early_after_first_set_again : ∃ s : Clock (Fin 2),
    ReachVia (step false) (fun _ _ => True) (init 0) s ∧ s.fired.map (fun p => (p.1.setAt, p.1.val, p.2)) =
      [(0, 20#32, 10)] := by
  exact ⟨_, runAll_reach [.set 0 10#32, .set 1 20#32, .advance 5, .set 0 100#32, .advance 5, .handler] _ rfl, rfl⟩

end

end PipRiot.Sys.Clock
