import PipRiot.Lib.Arrival
import PipRiot.Sys.Ztimer

/-!
# The offsets of a list of timers

`Spaced` reads the offsets of a list as times: each timer stands at its expiry, or at
the base if it was due before. Updating the base, adding and deleting keep this.
-/

namespace PipRiot.Sys.Clock

open List BitVec

section
variable {τ : Type} {x x' : τ → Nat} {base b n : Nat} {t e : τ} {o val : BitVec 32} {l l2 : List (τ × BitVec 32)}

/-- The list behind time `b`, with expiries `x` and times before `base` cut off. -/
def Spaced (x : τ → Nat) (base : Nat) : Nat → List (τ × BitVec 32) → Prop
  | _, [] => True
  | b, (t, o) :: l => b + o.toNat = max (x t) base ∧ Spaced x base (b + o.toNat) l

def Within (x : τ → Nat) (base : Nat) (l : List (τ × BitVec 32)) : Prop := ∀ t ∈ l.map Prod.fst, x t < base + 2 ^ 32

theorem Within.tail {p : τ × BitVec 32} (h : Within x base (p :: l)) : Within x base l :=
  fun t ht => h t (mem_cons_of_mem _ ht)

theorem Within.head (h : Within x base ((t, o) :: l)) : x t < base + 2 ^ 32 := h t mem_cons_self

namespace Spaced

theorem rebase (hb : base ≤ n) (hn : n ≤ b) :
    ∀ {b' : Nat} {l : List (τ × BitVec 32)}, b ≤ b' → Spaced x base b' l → Spaced x n b' l
  | _, [], _, _ => trivial
  | b', (t, o) :: l, hle, h => by
    obtain ⟨h1, h2⟩ := h
    exact ⟨by omega, rebase hb hn (le_trans hle (Nat.le_add_right _ _)) h2⟩

theorem congr (hx : ∀ t ∈ l.map Prod.fst, x' t = x t) (h : Spaced x base b l) : Spaced x' base b l := by
  induction l generalizing b with
  | nil => exact trivial
  | cons p l ih =>
    obtain ⟨h1, h2⟩ := h
    refine ⟨?_, ih (fun t ht => hx t (mem_cons_of_mem _ ht)) h2⟩
    rw [hx p.1 mem_cons_self]; exact h1

theorem updateOffsets (hbase : base ≤ n) : ∀ {b : Nat} (skip : Bool) {l : List (τ × BitVec 32)} (diff : BitVec 32),
    Spaced x base b l → b ≤ n → diff.toNat = n - b → (skip = true → b < n) →
    Spaced x n n (Clock.updateOffsets skip diff l)
  | _, _, [], _, _, _, _, _ => trivial
  | b, skip, (t, o) :: l, diff, h, hb, hdiff, hskip => by
    obtain ⟨h1, h2⟩ := h
    unfold Clock.updateOffsets
    split
    · rename_i hz
      rw [Bool.and_eq_true, decide_eq_true_eq] at hz
      obtain ⟨hs, rfl⟩ := hz
      have hlt := hskip hs
      rw [toNat_zero, add_zero] at h1 h2
      refine ⟨?_, updateOffsets hbase true diff h2 hb hdiff fun _ => hlt⟩
      rw [toNat_zero]; omega
    · split
      · -- the base moves up to the timer at most, so the others are not cut off
        rename_i hle
        rw [le_def] at hle
        have hsub : (o - diff).toNat = o.toNat - diff.toNat := toNat_sub_of_le hle
        have hsum : n + (o - diff).toNat = b + o.toNat := by omega
        refine ⟨by omega, ?_⟩
        rw [hsum]
        exact rebase (b := b + o.toNat) hbase (by omega) le_rfl h2
      · rename_i hgt
        rw [le_def] at hgt
        have hsub : (diff - o).toNat = diff.toNat - o.toNat := toNat_sub_of_le (by rw [le_def]; omega)
        rw [if_neg]
        · refine ⟨?_, updateOffsets hbase true (diff - o) h2 (by omega) (by omega) fun _ => by omega⟩
          rw [toNat_zero]; omega
        · intro e
          have := congrArg BitVec.toNat e
          rw [hsub, toNat_zero] at this; omega

end Spaced

theorem map_fst_updateOffsets (skip : Bool) (diff : BitVec 32) (l : List (τ × BitVec 32)) :
    (Clock.updateOffsets skip diff l).map Prod.fst = l.map Prod.fst := by
  induction l generalizing skip diff with
  | nil => rfl
  | cons p l ih =>
    unfold Clock.updateOffsets
    split
    · simp only [map_cons, ih]
    · split
      · rfl
      · split
        · rfl
        · simp only [map_cons, ih]

theorem Within.updateOffsets (h : Within x base l) (hle : base ≤ n) (skip : Bool) (diff : BitVec 32) :
    Within x n (Clock.updateOffsets skip diff l) := by
  intro t ht
  rw [map_fst_updateOffsets] at ht
  exact lt_of_lt_of_le (h t ht) (Nat.add_le_add_right hle _)

theorem addLoop_spec (ht : x t = base + val.toNat) (last : Option τ) :
    ∀ {b : Nat} {l : List (τ × BitVec 32)} (delta : BitVec 32), Spaced x base b l → Within x base l →
      base ≤ b → b ≤ base + val.toNat → delta.toNat = b - base →
      Spaced x base b (addLoop t val delta last l).1 ∧
        (addLoop t val delta last l).1.map Prod.fst = addRanked x t (l.map Prod.fst)
  | b, [], delta, _, _, hb, hval, hd => by
    have hsub : (val - delta).toNat = val.toNat - delta.toNat := toNat_sub_of_le (by rw [le_def]; omega)
    refine ⟨⟨?_, trivial⟩, rfl⟩
    omega
  | b, (e, o) :: l, delta, h, hw, hb, hval, hd => by
    obtain ⟨h1, h2⟩ := h
    have he := hw.head
    have hsum : (o + delta).toNat = o.toNat + delta.toNat := toNat_add_of_lt (by omega)
    have hcmp : o + delta > val ↔ x t < x e := by
      rw [gt_iff_lt, lt_def, hsum, ht]; omega
    unfold addLoop
    rw [map_cons, addRanked, orderedInsert_cons]
    by_cases hlt : x t < x e
    · have hgt : o + delta > val := hcmp.mpr hlt
      rw [if_pos hgt, if_pos hlt]
      have hsub : (val - delta).toNat = val.toNat - delta.toNat := toNat_sub_of_le (by rw [le_def]; omega)
      have hrest : (o - (val - delta)).toNat = o.toNat - (val.toNat - delta.toNat) := by
        rw [toNat_sub_of_le (by rw [le_def]; omega), hsub]
      refine ⟨⟨by omega, by omega, ?_⟩, rfl⟩
      have hpos : b + (val - delta).toNat + (o - (val - delta)).toNat = b + o.toNat := by omega
      rw [hpos]; exact h2
    · have hgt : ¬ o + delta > val := fun hc => hlt (hcmp.mp hc)
      rw [if_neg hgt, if_neg hlt]
      have hsum' : (delta + o).toNat = delta.toNat + o.toNat := by rw [BitVec.add_comm, hsum, add_comm]
      obtain ⟨hs, hm⟩ := addLoop_spec ht last (delta + o) h2 hw.tail (by omega) (by omega) (by omega)
      exact ⟨⟨h1, hs⟩, congrArg (e :: ·) hm⟩

theorem Spaced.widen (h : Spaced x base (b + o.toNat) l) (hw : Within x base l) (hb : base ≤ b) :
    Spaced x base b (widen o l) := by
  cases l with
  | nil => exact trivial
  | cons p l =>
    obtain ⟨e, p⟩ := p
    obtain ⟨h1, h2⟩ := h
    have he := hw.head
    have hsum : (p + o).toNat = p.toNat + o.toNat := toNat_add_of_lt (by omega)
    have hpos : b + (p + o).toNat = b + o.toNat + p.toNat := by omega
    refine ⟨by omega, ?_⟩
    rw [hpos]; exact h2

theorem map_fst_widen (o : BitVec 32) (l : List (τ × BitVec 32)) : (widen o l).map Prod.fst = l.map Prod.fst := by
  cases l with
  | nil | cons p l => rfl

theorem addLoop_last (t : τ) (val : BitVec 32) {last : Option τ} (delta : BitVec 32) (l : List (τ × BitVec 32))
    (h : l ≠ [] → last = (l.map Prod.fst).getLast?) :
    (addLoop t val delta last l).2 = ((addLoop t val delta last l).1.map Prod.fst).getLast? := by
  induction l generalizing delta with
  | nil => rfl
  | cons p l ih =>
    obtain ⟨e, o⟩ := p
    have hlast := h (cons_ne_nil _ _)
    unfold addLoop
    split
    · rw [hlast]
      simp only [map_cons, getLast?_cons_cons]
    · have hrec := ih (delta + o) fun hne => by
        obtain ⟨p, l', rfl⟩ := exists_cons_of_ne_nil hne
        rw [hlast]
        simp only [map_cons, getLast?_cons_cons]
      have hne : (addLoop t val (delta + o) last l).1.map Prod.fst ≠ [] := by
        cases l with
        | nil => exact cons_ne_nil _ _
        | cons p l =>
          unfold addLoop
          split
          · exact cons_ne_nil _ _
          · exact cons_ne_nil _ _
      obtain ⟨y, ys, hy⟩ := exists_cons_of_ne_nil hne
      simp only [map_cons, hrec, hy, getLast?_cons_cons]

def names (s : Clock τ) : List τ := s.list.map Prod.fst

def expiry (s : Clock τ) (t : τ) : Nat := (s.arming t).expiry

def setId (s : Clock τ) (t : τ) : Nat := (s.arming t).id

structure Listed (s : Clock τ) : Prop where
  offset : s.offset = BitVec.ofNat 32 s.base
  base : s.base ≤ s.now
  near : s.list ≠ [] → s.now < s.base + 2 ^ 32
  spaced : Spaced s.expiry s.base s.base s.list
  within : Within s.expiry s.base s.list
  last : s.last = s.names.getLast?
  order : s.names.Pairwise (Ahead s.expiry s.setId)

/-- Every `ztimer_set` is in one place: its timer is set, its callback was called,
or it was removed or replaced. No callback was early. -/
structure Accounted (s : Clock τ) : Prop where
  perm : (s.names.map s.setId ++
    (s.fired.map (fun p => p.1.id) ++ (s.removed.map Arming.id ++ s.replaced.map Arming.id))).Perm (range s.sets)
  onTime : ∀ p ∈ s.fired, p.1.expiry ≤ p.2

variable {s : Clock τ}

theorem Accounted.setId_lt (h : Accounted s) (ht : t ∈ s.names) : s.setId t < s.sets := by
  rw [← mem_range]
  exact h.perm.mem_iff.mp (mem_append_left _ (mem_map_of_mem ht))

namespace Listed

theorem nodup (h : Listed s) : s.names.Nodup := nodup_of_ahead h.order

theorem init (start : Nat) : Listed (init start : Clock τ) where
  offset := rfl
  base := Nat.zero_le _
  near h := absurd rfl h
  spaced := trivial
  within t ht := by cases ht
  last := rfl
  order := List.Pairwise.nil

theorem toNat_diff (h : Listed s) (hne : s.list ≠ []) : (BitVec.ofNat 32 s.now - s.offset).toNat = s.now - s.base := by
  have hnear := h.near hne
  have hbase := h.base
  rw [h.offset, toNat_sub, toNat_ofNat, toNat_ofNat]
  omega

theorem names_updateHeadOffset (s : Clock τ) : s.updateHeadOffset.names = s.names := map_fst_updateOffsets ..

theorem updateHeadOffset (h : Listed s) : Listed s.updateHeadOffset where
  offset := rfl
  base := le_rfl
  near _ := Nat.lt_add_of_pos_right (Nat.two_pow_pos 32)
  spaced := by
    by_cases hne : s.list = []
    · change Spaced _ _ _ (updateOffsets _ _ s.list)
      rw [hne]; exact trivial
    · exact h.spaced.updateOffsets h.base false _ h.base (h.toNat_diff hne) (fun e => by cases e)
  within := h.within.updateOffsets h.base false _
  last := by
    rw [names_updateHeadOffset]; exact h.last
  order := by
    rw [names_updateHeadOffset]; exact h.order

theorem pop (h : Listed s) {t : τ} {u : Clock τ} (hu : s.nowNext = some (t, u)) :
    s.names = t :: u.names ∧ s.expiry t ≤ s.now ∧ Listed u ∧
      u = { s with list := u.list, last := u.last } := by
  unfold nowNext at hu
  split at hu
  · rename_i e o l hl
    split at hu
    · rename_i ho
      cases hu
      subst ho
      have hsp := h.spaced
      have hw := h.within
      have hlast := h.last
      have hord := h.order
      rw [hl] at hsp hw
      simp only [names, hl, map_cons] at hlast hord
      obtain ⟨h1, h2⟩ := hsp
      rw [toNat_zero, add_zero] at h1 h2
      refine ⟨by rw [names, hl]; rfl, ?_, ?_, rfl⟩
      · have hbase := h.base
        omega
      · refine ⟨h.offset, h.base, ?_, h2, hw.tail, ?_, (pairwise_cons.mp hord).2⟩
        · intro _
          exact h.near (by rw [hl]; exact cons_ne_nil _ _)
        · cases l with
          | nil => rfl
          | cons p l =>
            rw [if_neg (cons_ne_nil _ _), hlast]
            simp only [names, map_cons, getLast?_cons_cons]
    · cases hu
  · cases hu

theorem toHead (h : Listed s) {t : τ} {o : BitVec 32} {l : List (τ × BitVec 32)} (hl : s.list = (t, o) :: l)
    (hdue : s.expiry t ≤ s.now) :
    Listed { s with offset := s.offset + o, base := s.base + o.toNat, list := (t, 0#32) :: l } := by
  have hsp := h.spaced
  have hw := h.within
  have hnear := h.near (by rw [hl]; exact cons_ne_nil _ _)
  have hbase := h.base
  rw [hl] at hsp hw
  obtain ⟨h1, h2⟩ := hsp
  have hnames : s.names = t :: l.map Prod.fst := by rw [names, hl]; rfl
  refine ⟨?_, ?_, ?_, ⟨?_, ?_⟩, ?_, ?_, ?_⟩
  · rw [h.offset, ofNat_add, ofNat_toNat, setWidth_eq]
  · change s.base + o.toNat ≤ s.now
    omega
  · intro _
    change s.now < s.base + o.toNat + 2 ^ 32
    omega
  · change s.base + o.toNat + (0#32).toNat = max (s.expiry t) (s.base + o.toNat)
    rw [toNat_zero]; omega
  · exact h2.rebase (Nat.le_add_right _ _) le_rfl le_rfl
  · intro e he
    exact lt_of_lt_of_le (hw e he) (Nat.add_le_add_right (Nat.le_add_right _ _) _)
  · exact h.last.trans (congrArg List.getLast? hnames)
  · have hord := h.order
    rw [hnames] at hord; exact hord

end Listed

theorem Accounted.updateHeadOffset (h : Accounted s) : Accounted s.updateHeadOffset := by
  refine ⟨?_, h.onTime⟩
  rw [Listed.names_updateHeadOffset]
  exact h.perm

variable [DecidableEq τ]

theorem nextOf_isSome_or (t : τ) (l : List (τ × BitVec 32)) :
    (nextOf t l).isSome = true ∨ (l.map Prod.fst).getLast? = some t ↔ t ∈ l.map Prod.fst := by
  induction l with
  | nil => simp [nextOf]
  | cons p l ih =>
    obtain ⟨e, o⟩ := p
    unfold nextOf
    cases l with
    | nil =>
      by_cases he : e = t
      · simp [he]
      · simp [he, nextOf, Ne.symm he]
    | cons p' l =>
      by_cases he : e = t
      · simp [he]
      · rw [if_neg he, map_cons, map_cons, getLast?_cons_cons, ← map_cons, ih, mem_cons]
        exact (or_iff_right (Ne.symm he)).symm

theorem Listed.isSet_iff (h : Listed s) (t : τ) : s.isSet t = true ↔ t ∈ s.names := by
  unfold isSet
  split
  · rename_i hl
    simp [names, hl]
  · rw [Bool.or_eq_true, decide_eq_true_eq, h.last]
    exact nextOf_isSome_or t s.list

theorem delLoop_spec (t : τ) (last : Option τ) : ∀ (prev : Option τ) {b : Nat} {l : List (τ × BitVec 32)},
    Spaced x base b l → Within x base l → base ≤ b →
    Spaced x base b (delLoop t last prev l).1 ∧
      (delLoop t last prev l).1.map Prod.fst = (l.map Prod.fst).erase t ∧
      (delLoop t last prev l).2.2 = decide (t ∈ l.map Prod.fst)
  | _, _, [], _, _, _ => ⟨trivial, rfl, rfl⟩
  | prev, b, (e, o) :: l, h, hw, hb => by
    unfold delLoop
    by_cases he : e = t
    · subst he
      rw [if_pos rfl]
      refine ⟨h.2.widen hw.tail hb, ?_, ?_⟩
      · rw [map_fst_widen, map_cons, erase_cons_head]
      · simp
    · rw [if_neg he]
      obtain ⟨hs, hm, hd⟩ := delLoop_spec t last (some e) h.2 hw.tail (le_trans hb (Nat.le_add_right _ _))
      refine ⟨⟨h.1, hs⟩, ?_, ?_⟩
      · rw [map_cons, map_cons, hm, erase_cons_tail (by simpa using he)]
      · rw [hd]
        simp [Ne.symm he]

theorem delLoop_last (t : τ) {last : Option τ} : ∀ (prev : Option τ) (l : List (τ × BitVec 32)),
    (l.map Prod.fst).Nodup → last = (prev.toList ++ l.map Prod.fst).getLast? →
    (delLoop t last prev l).2.1 = (prev.toList ++ (l.map Prod.fst).erase t).getLast?
  | prev, [], _, h => h
  | prev, (e, o) :: l, hnd, h => by
    rw [map_cons, nodup_cons] at hnd
    unfold delLoop
    by_cases he : e = t
    · subst he
      rw [if_pos rfl, map_cons, erase_cons_head, h]
      cases l with
      | nil => cases prev <;> simp
      | cons p l =>
        have hne : ((e, o) :: p :: l).map Prod.fst = e :: (p :: l).map Prod.fst := rfl
        have hend : (prev.toList ++ ((e, o) :: p :: l).map Prod.fst).getLast? = ((p :: l).map Prod.fst).getLast? := by
          rw [hne, map_cons, getLast?_append_cons, getLast?_cons_cons]
        have hend' : (prev.toList ++ (p :: l).map Prod.fst).getLast? = ((p :: l).map Prod.fst).getLast? := by
          rw [map_cons, getLast?_append_cons]
        rw [hend, hend', if_neg]
        intro heq; exact hnd.1 (mem_of_getLast? heq)
    · rw [if_neg he, map_cons, erase_cons_tail (by simpa using he)]
      have hrec := delLoop_last t (some e) l hnd.2 (h.trans (by
        rw [map_cons, getLast?_append_cons]
        rfl))
      rw [hrec, getLast?_append_cons]; rfl

theorem names_del (h : Listed s) (t : τ) : (s.delEntryFromList t).1.names = s.names.erase t :=
  (delLoop_spec t s.last none h.spaced h.within le_rfl).2.1

theorem Listed.delEntryFromList (h : Listed s) (t : τ) : Listed (s.delEntryFromList t).1 := by
  have hnames := names_del h t
  refine ⟨h.offset, h.base, ?_, (delLoop_spec t s.last none h.spaced h.within le_rfl).1, ?_, ?_, ?_⟩
  · intro hne
    refine h.near fun e => hne ?_
    change (delLoop t s.last none s.list).1 = []
    rw [e]; rfl
  · intro e he
    change e ∈ (s.delEntryFromList t).1.names at he
    rw [hnames] at he; exact h.within e (mem_of_mem_erase he)
  · rw [hnames]
    exact delLoop_last t none s.list h.nodup h.last
  · rw [hnames]; exact h.order.sublist erase_sublist

theorem Listed.add (h : Listed s) (hacc : ∀ e ∈ s.names, s.setId e < s.sets) (hnow : s.base = s.now) (ht : t ∉ s.names)
    (val : BitVec 32) :
    Listed ((s.addEntryToList t val).noteSet t val) ∧
      ((s.addEntryToList t val).noteSet t val).names =
        addRanked ((s.addEntryToList t val).noteSet t val).expiry t s.names := by
  have hself : ((s.addEntryToList t val).noteSet t val).expiry t = s.base + val.toNat := by
    simp [expiry, noteSet, addEntryToList, Arming.expiry, hnow]
  have hother : ∀ e ∈ s.names, ((s.addEntryToList t val).noteSet t val).expiry e = s.expiry e := by
    intro e he
    have hne : e ≠ t := fun heq => ht (heq ▸ he)
    simp [expiry, noteSet, addEntryToList, hne]
  have hid : ∀ e ∈ s.names, ((s.addEntryToList t val).noteSet t val).setId e = s.setId e := by
    intro e he
    have hne : e ≠ t := fun heq => ht (heq ▸ he)
    simp [setId, noteSet, addEntryToList, hne]
  have hidself : ((s.addEntryToList t val).noteSet t val).setId t = s.sets := by
    simp [setId, noteSet, addEntryToList]
  have hwithin : Within ((s.addEntryToList t val).noteSet t val).expiry s.base s.list := by
    intro e he
    rw [hother e he]; exact h.within e he
  obtain ⟨hs, hm⟩ := addLoop_spec hself s.last 0#32 (h.spaced.congr hother) hwithin le_rfl
    (Nat.le_add_right _ _) (by rw [toNat_zero, Nat.sub_self])
  refine ⟨⟨h.offset, h.base, ?_, hs, ?_, ?_, ?_⟩, hm⟩
  · intro _
    change s.now < s.base + 2 ^ 32
    omega
  · intro e he
    change e ∈ (addLoop t val 0#32 s.last s.list).1.map Prod.fst at he
    rw [hm, mem_addRanked] at he
    rcases he with rfl | he
    · have := val.isLt
      rw [hself]; exact Nat.add_lt_add_left this _
    · exact hwithin e he
  · refine addLoop_last t val 0#32 s.list fun _ => h.last
  · have hord : s.names.Pairwise
        (Ahead ((s.addEntryToList t val).noteSet t val).expiry ((s.addEntryToList t val).noteSet t val).setId) := by
      refine h.order.imp_of_mem ?_
      intro a b ha hb hab
      simpa only [Ahead, hother a ha, hother b hb, hid a ha, hid b hb] using hab
    change ((addLoop t val 0#32 s.last s.list).1.map Prod.fst).Pairwise _
    rw [hm]
    refine pairwise_addRanked hord ?_
    intro b hb
    rw [hid b hb, hidself]; exact hacc b hb

structure Unset (s u : Clock τ) (t : τ) : Prop where
  listed : Listed u
  accounted : Accounted u
  names : u.names = s.names.erase t
  arming : u.arming = s.arming
  running : u.running = s.running
  time : u.base = s.now ∧ u.now = s.now
  armed : u.armed = s.armed

theorem perm_erase {α : Type} {f : τ → α} {l : List τ} {l1 l2 : List α} (ht : t ∈ l) (h : (l.map f ++ l1).Perm l2) :
    ((l.erase t).map f ++ (l1 ++ [f t])).Perm l2 := by
  refine List.Perm.trans ?_ h
  have hcons : (l.map f).Perm (f t :: (l.erase t).map f) := (perm_cons_erase ht).map f
  refine List.Perm.trans ?_ (hcons.append_right l1).symm
  rw [List.cons_append, ← List.append_assoc]
  exact perm_append_singleton (f t) _

theorem unset_spec (h : Listed s) (hacc : Accounted s) (t : τ) : Unset s (s.unset t) t := by
  have hu := h.updateHeadOffset
  have hn := Listed.names_updateHeadOffset s
  have ha := hacc.updateHeadOffset
  unfold unset
  by_cases hset : s.updateHeadOffset.isSet t = true
  · have ht : t ∈ s.updateHeadOffset.names := (hu.isSet_iff t).mp hset
    have hd := hu.delEntryFromList t
    have hnames := names_del hu t
    simp only [hset, if_true]
    refine ⟨⟨hd.offset, hd.base, hd.near, hd.spaced, hd.within, hd.last, hd.order⟩, ⟨?_, ha.onTime⟩, ?_, rfl, rfl,
      ⟨rfl, rfl⟩, rfl⟩
    · change (((s.updateHeadOffset.delEntryFromList t).1.names).map s.setId ++ (s.fired.map (fun p => p.1.id) ++
        (s.removed.map Arming.id ++ (s.replaced ++ [s.arming t]).map Arming.id))).Perm (range s.sets)
      rw [hnames, map_append, ← append_assoc (s.removed.map _), ← append_assoc (s.fired.map _)]
      exact perm_erase ht ha.perm
    · exact hnames.trans (congrArg (List.erase · t) hn)
  · have ht : t ∉ s.names := fun hin => hset ((hu.isSet_iff t).mpr (hn ▸ hin))
    simp only [hset, Bool.false_eq_true, if_false]
    refine ⟨hu, ha, ?_, rfl, rfl, ⟨rfl, rfl⟩, rfl⟩
    rw [hn, erase_of_not_mem ht]

end

end PipRiot.Sys.Clock
