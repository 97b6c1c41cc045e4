import Mathlib.Data.List.Perm.Subperm
import PipRiot.Sixlowpan.FragRb
import PipRiot.Lib.Linked
import PipRiot.Lib.System

/-!
# The interval lists of the reassembly buffer

A slot is free when its end is 0, which is also the end of an interval of one byte at
offset 0. Without such fragments every slot belongs to at most one entry, so that the
lists end and every loop over them does.
-/

namespace PipRiot.Sixlowpan

open Function List

section
variable {ints : Nat → Interval} {p : Option Nat} {k : Nat} {l : List Nat}

def Chained (ints : Nat → Interval) : Option Nat → List Nat → Prop := Linked fun k => some (ints k).next

theorem chained_cons : Chained ints p (k :: l) ↔ p = some k ∧ Chained ints (ints k).next l := by
  simp [Chained, Linked]

theorem Chained.congr {ints' : Nat → Interval} (h : Chained ints p l) (hsame : ∀ k ∈ l, ints' k = ints k) :
    Chained ints' p l := by
  apply Linked.congr h
  intro k hk
  simp only [hsame k hk]

theorem checkFragments_defined (offset n : Nat) (h : Chained ints p l) {fuel : Nat} (hle : l.length ≤ fuel) :
    ∃ c, checkFragments ints offset n fuel p = some c := by
  induction l generalizing p fuel with
  | nil =>
    cases h
    cases fuel <;> exact ⟨_, rfl⟩
  | cons k l ih =>
    obtain ⟨rfl, hl⟩ := chained_cons.mp h
    cases fuel with
    | zero => simp at hle
    | succ fuel =>
      simp only [checkFragments]
      split
      · exact ⟨_, rfl⟩
      · split
        · exact ⟨_, rfl⟩
        · apply ih hl
          simpa using hle

theorem baseRm_spec (h : Chained ints p l) {fuel : Nat} (hle : l.length ≤ fuel) :
    baseRm fuel ints p = some fun k => if k ∈ l then ⟨none, 0, 0⟩ else ints k := by
  induction l generalizing ints p fuel with
  | nil =>
    cases h
    cases fuel <;> simp [baseRm]
  | cons k l ih =>
    have hnot : k ∉ l := (nodup_cons.mp (Linked.nodup h)).1
    obtain ⟨rfl, hl⟩ := chained_cons.mp h
    cases fuel with
    | zero => simp at hle
    | succ fuel =>
      have hrest : Chained (update ints k ⟨none, 0, 0⟩) (ints k).next l := by
        apply hl.congr
        intro j hj
        rw [update_of_ne]
        rintro rfl
        exact hnot hj
      rw [baseRm, ih hrest (by simpa using hle)]
      congr 1
      funext j
      by_cases hj : j = k
      · simp [hj]
      · simp [hj]

end

namespace Rb

section
variable {cfg : FragConfig} {s u : Rb} {ls : Nat → List Nat} {i : Nat} {e : Entry}

structure Chains (cfg : FragConfig) (s : Rb) (ls : Nat → List Nat) : Prop where
  linked : ∀ i < cfg.rbufSize, Chained s.ints (s.rbuf i).ints (ls i)
  bound : ∀ i < cfg.rbufSize, ∀ k ∈ ls i, k < cfg.intSize
  apart : ∀ i < cfg.rbufSize, ∀ j < cfg.rbufSize, i ≠ j → ∀ k ∈ ls i, k ∉ ls j

def InUse (cfg : FragConfig) (s : Rb) (ls : Nat → List Nat) : Prop :=
  ∀ i < cfg.rbufSize, ∀ k ∈ ls i, (s.ints k).last ≠ 0

def Sound (cfg : FragConfig) (s : Rb) : Prop := ∃ ls, Chains cfg s ls ∧ InUse cfg s ls

theorem Chains.length_le (h : Chains cfg s ls) (hi : i < cfg.rbufSize) : (ls i).length ≤ cfg.intSize := by
  have hsub : ls i ⊆ range cfg.intSize := fun k hk => mem_range.mpr (h.bound i hi k hk)
  have hnodup : (ls i).Nodup := Linked.nodup (h.linked i hi)
  have hle := (subperm_of_subset hnodup hsub).length_le
  simpa using hle

theorem Chains.init (cfg : FragConfig) : Chains cfg init fun _ => [] where
  linked i _ := rfl
  bound i _ k hk := by simp at hk
  apart i _ j _ _ k hk := by simp at hk

theorem Chains.setEntry (h : Chains cfg s ls) (he : e.ints = (s.rbuf i).ints) : Chains cfg (s.setEntry i e) ls where
  linked j hj := by
    have hsame : ((s.setEntry i e).rbuf j).ints = (s.rbuf j).ints := by
      by_cases hji : j = i
      · simp [Rb.setEntry, hji, he]
      · simp [Rb.setEntry, hji]
    rw [hsame]; exact h.linked j hj
  bound := h.bound
  apart := h.apart

theorem Sound.init (cfg : FragConfig) : Sound cfg Rb.init := ⟨_, Chains.init cfg, fun i _ k hk => by simp at hk⟩

theorem Sound.setEntry (h : Sound cfg s) (he : e.ints = (s.rbuf i).ints) : Sound cfg (s.setEntry i e) := by
  obtain ⟨ls, hc, hu⟩ := h
  exact ⟨ls, hc.setEntry he, hu⟩

def removed (s : Rb) (i : Nat) (l : List Nat) : Rb :=
  ({ s with ints := fun k => if k ∈ l then ⟨none, 0, 0⟩ else s.ints k } : Rb).setEntry i
    { s.rbuf i with ints := none, key := { (s.rbuf i).key with size := 0 }, pkt := none }

theorem Chains.remove_eq (h : Chains cfg s ls) (hi : i < cfg.rbufSize) :
    s.remove cfg i = some (s.removed i (ls i)) := by
  rw [remove, baseRm_spec (h.linked i hi) (Nat.le_succ_of_le (h.length_le hi))]
  rfl

theorem Chains.removed (h : Chains cfg s ls) (hi : i < cfg.rbufSize) :
    Chains cfg (s.removed i (ls i)) (update ls i []) where
  linked j hj := by
    by_cases hji : j = i
    · subst hji
      simp [Rb.removed, Rb.setEntry, Chained, Linked]
    · simp only [Rb.removed, Rb.setEntry, update_of_ne hji]
      apply (h.linked j hj).congr
      intro k hk
      rw [if_neg (h.apart j hj i hi hji k hk)]
  bound j hj := by
    by_cases hji : j = i
    · subst hji; simp
    · rw [update_of_ne hji]; exact h.bound j hj
  apart j hj m hm hne k hk := by
    by_cases hji : j = i
    · subst hji
      simp at hk
    · rw [update_of_ne hji] at hk
      by_cases hmi : m = i
      · subst hmi; simp
      · rw [update_of_ne hmi]; exact h.apart j hj m hm hne k hk

theorem InUse.removed (h : Chains cfg s ls) (hu : InUse cfg s ls) (hi : i < cfg.rbufSize) :
    InUse cfg (s.removed i (ls i)) (update ls i []) := by
  intro j hj k hk
  by_cases hji : j = i
  · subst hji
    simp at hk
  · rw [update_of_ne hji] at hk
    simp only [Rb.removed, Rb.setEntry, if_neg (h.apart j hj i hi hji k hk)]
    exact hu j hj k hk

theorem Sound.remove (h : Sound cfg s) (hi : i < cfg.rbufSize) : ∃ u, s.remove cfg i = some u ∧ Sound cfg u := by
  obtain ⟨ls, hc, hu⟩ := h
  exact ⟨_, hc.remove_eq hi, _, hc.removed hi, hu.removed hc hi⟩

theorem Sound.gc (now : UInt32) : ∀ {l : List Nat} {s : Rb}, Sound cfg s → (∀ i ∈ l, i < cfg.rbufSize) →
    ∃ u, gc cfg now l s = some u ∧ Sound cfg u := by
  intro l
  induction l with
  | nil =>
    intro s h _; exact ⟨s, rfl, h⟩
  | cons i l ih =>
    intro s h hl
    have hrest : ∀ j ∈ l, j < cfg.rbufSize := fun j hj => hl j (by simp [hj])
    simp only [Rb.gc]
    split
    · obtain ⟨u, hu, hs⟩ := h.remove (hl i (by simp))
      rw [hu]; exact ih hs hrest
    · exact ih h hrest

def Found (s : Rb) (key : Key) (seen : List Nat) : Search → Prop
  | .found i => i ∈ seen ∧ (s.rbuf i).pkt.isSome ∧ (s.rbuf i).key = key
  | .missing res oldest =>
    (∀ i ∈ seen, (s.rbuf i).pkt.isSome → (s.rbuf i).key ≠ key) ∧
      (∀ i, res = some i → i ∈ seen ∧ (s.rbuf i).pkt = none) ∧
      (res = none → ∀ i ∈ seen, (s.rbuf i).pkt.isSome) ∧ (∀ i, oldest = some i → i ∈ seen) ∧ (oldest = none → seen = [])

theorem getLoop_found {key : Key} {l seen : List Nat} {res oldest : Option Nat}
    (h : Found s key seen (.missing res oldest)) : Found s key (seen ++ l) (s.getLoop key l res oldest) := by
  fun_induction getLoop s key l res oldest generalizing seen with
  | case1 => simpa using h
  | case2 j l res oldest hj => exact ⟨by simp, hj.1, hj.2⟩
  | case3 j l res oldest hj ih =>
    obtain ⟨hkey, hres, hnone, hold, -⟩ := h
    rw [append_cons]
    apply ih
    refine ⟨?_, ?_, ?_, ?_, ?_⟩
    · exact forall_mem_append.2 ⟨hkey, forall_mem_singleton.2 fun hsome heq => hj ⟨hsome, heq⟩⟩
    · intro i hi
      split at hi
      · rename_i hempty
        cases hi; exact ⟨by simp, hempty.2⟩
      · have := hres i hi; exact ⟨by simp [this.1], this.2⟩
    · intro heq
      split at heq
      · cases heq
      · rename_i hempty
        refine forall_mem_append.2 ⟨hnone heq, forall_mem_singleton.2 ?_⟩
        exact Option.ne_none_iff_isSome.1 fun hp => hempty ⟨heq, hp⟩
    · intro i hi
      split at hi
      · cases hi; simp
      · split at hi
        · cases hi; simp
        · cases hi
          simp [hold i rfl]
    · intro heq
      split at heq
      · cases heq
      · split at heq <;> cases heq

theorem get_found (cfg : FragConfig) (s : Rb) (key : Key) :
    Found s key (range cfg.rbufSize) (s.getLoop key (range cfg.rbufSize) none none) := by
  have h : Found s key [] (.missing none none) := by simp [Found]
  simpa using getLoop_found (l := range cfg.rbufSize) h

theorem get_ne_missing (cfg : FragConfig) (s : Rb) (key : Key) :
    s.getLoop key (range cfg.rbufSize) none none ≠ .missing none none := by
  intro hi
  have hfound := get_found cfg s key
  rw [hi] at hfound
  exact Nat.ne_of_gt cfg.rbuf_pos (range_eq_nil.1 (hfound.2.2.2.2 rfl))

theorem Sound.create (h : Sound cfg s) (key : Key) (env : Env) (i : Nat) : Sound cfg (s.create key env i).1 := by
  unfold Rb.create
  split
  · exact h.setEntry rfl
  · exact h.setEntry rfl

theorem create_index {key : Key} {env : Env} {j : Nat} (h : (s.create key env i).2 = some j) :
    j = i ∧ ((s.create key env i).1.rbuf i).key = key := by
  unfold create at h ⊢
  split at h
  · cases h
  · cases h
    simp [setEntry]

theorem Sound.get (h : Sound cfg s) (key : Key) (env : Env) :
    ∃ r, s.get cfg key env = some r ∧ Sound cfg r.1 ∧ ∀ i, r.2 = some i → i < cfg.rbufSize ∧
      (r.1.rbuf i).key = key := by
  have hfound := get_found cfg s key
  unfold Rb.get
  split
  · rename_i i hi
    rw [hi] at hfound
    split
    · exact ⟨_, rfl, h, by simp⟩
    · refine ⟨_, rfl, h.setEntry rfl, ?_⟩
      intro j hj
      cases hj
      refine ⟨mem_range.mp hfound.1, ?_⟩
      simpa [Rb.setEntry] using hfound.2.2
  · rename_i i _ hi
    rw [hi] at hfound
    refine ⟨_, rfl, h.create key env i, ?_⟩
    intro j hj
    obtain ⟨rfl, hkey⟩ := create_index hj
    exact ⟨mem_range.mp (hfound.2.1 j rfl).1, hkey⟩
  · exact absurd ‹_› (get_ne_missing cfg s key)
  · rename_i o hi
    rw [hi] at hfound
    have ho := mem_range.mp (hfound.2.2.2.1 o rfl)
    split
    · obtain ⟨u, hu, hs⟩ := h.remove ho
      rw [hu]
      refine ⟨_, rfl, hs.create key env o, ?_⟩
      intro j hj
      obtain ⟨rfl, hkey⟩ := create_index hj
      exact ⟨ho, hkey⟩
    · exact ⟨_, rfl, h, by simp⟩

def updated (s : Rb) (i k : Nat) (offset n : Nat) : Rb :=
  let int : Interval := ⟨(s.rbuf i).ints, offset % 2 ^ 16, (offset + n - 1) % 2 ^ 16⟩
  ({ s with ints := update s.ints k int } : Rb).setEntry i { s.rbuf i with ints := some k }

theorem updateInts_cases (cfg : FragConfig) (s : Rb) (i offset n : Nat) : s.updateInts cfg i offset n = none ∨
    ∃ k < cfg.intSize, (s.ints k).last = 0 ∧ s.updateInts cfg i offset n = some (s.updated i k offset n) := by
  unfold updateInts
  cases hk : s.intGetFree cfg with
  | none => exact .inl rfl
  | some k =>
    have hfree := find?_some hk
    have hmem := mem_of_find?_eq_some hk
    refine .inr ⟨k, mem_range.mp hmem, ?_, rfl⟩
    simpa using hfree

theorem InUse.not_mem (hu : InUse cfg s ls) {k : Nat} (hk : (s.ints k).last = 0) (hi : i < cfg.rbufSize) : k ∉ ls i :=
  fun hmem => hu i hi k hmem hk

theorem Chains.updated {k : Nat} (h : Chains cfg s ls) (hu : InUse cfg s ls) (hk : k < cfg.intSize)
    (hfree : (s.ints k).last = 0)
    (hi : i < cfg.rbufSize) (offset n : Nat) : Chains cfg (s.updated i k offset n) (update ls i (k :: ls i)) where
  linked j hj := by
    have hkeep : ∀ m ∈ ls j, (s.updated i k offset n).ints m = s.ints m := by
      intro m hm
      simp only [Rb.updated, Rb.setEntry]
      rw [update_of_ne]
      rintro rfl
      exact hu.not_mem hfree hj hm
    by_cases hji : j = i
    · subst hji
      have hhead : ((s.updated j k offset n).rbuf j).ints = some k := by simp [Rb.updated, Rb.setEntry]
      have hnext : ((s.updated j k offset n).ints k).next = (s.rbuf j).ints := by simp [Rb.updated, Rb.setEntry]
      rw [update_self, hhead, chained_cons, hnext]
      exact ⟨rfl, (h.linked j hj).congr hkeep⟩
    · have hsame : (s.updated i k offset n).rbuf j = s.rbuf j := by simp [Rb.updated, Rb.setEntry, hji]
      rw [update_of_ne hji, hsame]; exact (h.linked j hj).congr hkeep
  bound j hj := by
    by_cases hji : j = i
    · subst hji
      simp only [update_self, mem_cons]
      rintro m (rfl | hm)
      · exact hk
      · exact h.bound j hj m hm
    · rw [update_of_ne hji]; exact h.bound j hj
  apart j hj m hm hne x hx := by
    by_cases hji : j = i
    · subst hji
      rw [update_of_ne hne.symm]
      simp only [update_self, mem_cons] at hx
      cases hx with
      | inl hxk =>
        subst hxk; exact hu.not_mem hfree hm
      | inr hx => exact h.apart j hj m hm hne x hx
    · rw [update_of_ne hji] at hx
      by_cases hmi : m = i
      · subst hmi
        simp only [update_self, mem_cons, not_or]
        refine ⟨?_, h.apart j hj m hm hne x hx⟩
        rintro rfl
        exact hu.not_mem hfree hj hx
      · rw [update_of_ne hmi]; exact h.apart j hj m hm hne x hx

theorem InUse.updated {k : Nat} (hu : InUse cfg s ls) (hfree : (s.ints k).last = 0) {offset n : Nat}
    (hlast : (offset + n - 1) % 2 ^ 16 ≠ 0) : InUse cfg (s.updated i k offset n) (update ls i (k :: ls i)) := by
  intro j hj m hm
  by_cases hmk : m = k
  · subst hmk
    simpa [Rb.updated, Rb.setEntry] using hlast
  · have hmem : m ∈ ls j := by
      by_cases hji : j = i
      · subst hji
        simpa [hmk] using hm
      · simpa [hji] using hm
    simp only [Rb.updated, Rb.setEntry, update_of_ne hmk]; exact hu j hj m hmem

def Keeps (cfg : FragConfig) (s : Rb) (ls : Nat → List Nat) (u : Rb) : Prop :=
  ∃ ls', Chains cfg u ls' ∧ (InUse cfg s ls → InUse cfg u ls')

theorem Keeps.remove {t : Rb} (h : Chains cfg t ls) (hu : InUse cfg s ls → InUse cfg t ls) (hi : i < cfg.rbufSize) :
    ∃ u, t.remove cfg i = some u ∧ Keeps cfg s ls u :=
  ⟨_, h.remove_eq hi, _, h.removed hi, fun hs => InUse.removed h (hu hs) hi⟩

/-- Without a result the reception of a compressed header does not return. -/
theorem store_keeps (h : Chains cfg s ls) (hi : i < cfg.rbufSize) (f : Frame) (env : Env) :
    env.iphcRecv = none ∧ s.store cfg f env i = none ∨
      ∃ r, s.store cfg f env i = some r ∧ Keeps cfg s ls r.1 ∧ (∀ j, r.2 = .entry j → j = i) ∧ r.2 ≠ .again := by
  unfold store
  have h1 : Chains cfg
    (s.setEntry i { s.rbuf i with currentSize := ((s.rbuf i).currentSize + f.fragSize cfg) % 2 ^ 16 }) ls :=
    h.setEntry rfl
  obtain ⟨u, hu, hk⟩ := Keeps.remove (s := s) h1 (fun h => h) hi
  simp only [hu]
  split
  · split
    · split
      · exact .inl ⟨‹_›, rfl⟩
      · exact .inr ⟨_, rfl, hk, by simp, by simp⟩
      · exact .inr ⟨_, rfl, ⟨ls, h1.setEntry rfl, fun h => h⟩, fun j hj => by cases hj; rfl, by simp⟩
    · exact .inr ⟨_, rfl, hk, by simp, by simp⟩
  · exact .inr ⟨_, rfl, ⟨ls, h1.setEntry rfl, fun h => h⟩, fun j hj => by cases hj; rfl, by simp⟩

theorem dispatchWhenComplete_keeps (h : Chains cfg s ls) (hi : i < cfg.rbufSize) (netif : Bool) (now : UInt32) :
    ∃ u, s.dispatchWhenComplete cfg i netif now = some u ∧ Keeps cfg s ls u := by
  unfold dispatchWhenComplete tmpRm
  split
  · generalize hs1 : (if netif then
      { s with dispatched := s.dispatched ++ [⟨(s.rbuf i).key, (s.rbuf i).pkt.getD []⟩] } else s : Rb) = s1
    have hsame : s1.ints = s.ints ∧ s1.rbuf = s.rbuf := by
      rw [← hs1]
      split <;> exact ⟨rfl, rfl⟩
    have h1 : Chains cfg s1 ls := ⟨by rw [hsame.1, hsame.2]; exact h.linked, h.bound, h.apart⟩
    have hu1 : InUse cfg s ls → InUse cfg s1 ls := by
      intro hu j hj k hk
      rw [hsame.1]; exact hu j hj k hk
    split
    · exact ⟨_, rfl, ls, h1.setEntry rfl, hu1⟩
    · exact Keeps.remove h1 hu1 hi
  · exact ⟨_, rfl, ls, h, fun h => h⟩

end

end Rb

namespace Frame
variable {cfg : FragConfig} {f : Frame}

def Fits (cfg : FragConfig) (f : Frame) : Prop := f.data.length + 2048 ≤ 2 ^ cfg.word

instance (cfg : FragConfig) (f : Frame) : Decidable (f.Fits cfg) := inferInstanceAs (Decidable (_ ≤ _))

theorem datagramSize_lt (f : Frame) : f.datagramSize < 2048 := Nat.mod_lt _ (by decide)

theorem offset_le (f : Frame) : f.offset ≤ 2040 := by
  unfold offset
  split
  · have := (f.byte 4).toNat_lt; omega
  · simp

theorem end_le (hfit : f.Fits cfg) (hle : (f.offset + f.fragSize cfg) % 2 ^ cfg.word ≤ f.datagramSize) :
    f.offset + f.fragSize cfg ≤ f.datagramSize := by
  have hoffset := f.offset_le
  unfold Fits at hfit
  have hlt : f.offset + f.fragSize cfg < 2 ^ cfg.word := by
    unfold fragSize
    split
    · rename_i hzero
      rw [hzero, zero_add]
      split
      · omega
      · split
        · exact Nat.mod_lt _ (by omega)
        · omega
    · split
      · omega
      · omega
  rwa [Nat.mod_eq_of_lt hlt] at hle

def OneByte (cfg : FragConfig) (f : Frame) : Prop := f.offset = 0 ∧ f.fragSize cfg = 1

instance (cfg : FragConfig) (f : Frame) : Decidable (f.OneByte cfg) := inferInstanceAs (Decidable (_ ∧ _))

theorem last_ne (hfit : f.Fits cfg) (hn : f.fragSize cfg ≠ 0) (hone : ¬ f.OneByte cfg)
    (hle : (f.offset + f.fragSize cfg) % 2 ^ cfg.word ≤ f.datagramSize) :
      (f.offset + f.fragSize cfg - 1) % 2 ^ 16 ≠ 0 := by
  have hend := end_le hfit hle
  have hsize := f.datagramSize_lt
  unfold OneByte at hone
  omega

end Frame

namespace Rb

section
variable {cfg : FragConfig} {s : Rb} {i : Nat} {f : Frame}

def After (cfg : FragConfig) (f : Frame) (u : Rb) : Prop :=
  ∃ ls, Chains cfg u ls ∧ (f.Fits cfg → ¬ f.OneByte cfg → InUse cfg u ls)

theorem Sound.after {u : Rb} (h : Sound cfg u) : After cfg f u := by
  obtain ⟨ls, hc, hu⟩ := h
  exact ⟨ls, hc, fun _ _ => hu⟩

theorem Sound.addTo (h : Sound cfg s) (hi : i < cfg.rbufSize) (hkey : (s.rbuf i).key = f.key) (hn : f.fragSize cfg ≠ 0)
    (env : Env) : env.iphcRecv = none ∧ s.addTo cfg f env i = none ∨
      ∃ r, s.addTo cfg f env i = some r ∧ After cfg f r.1 ∧ (∀ j, r.2 = .entry j → j = i) ∧
        (r.2 = .again → Sound cfg r.1) := by
  unfold Rb.addTo
  simp only
  split
  · obtain ⟨u, hu, hs⟩ := h.remove hi
    rw [hu]
    exact .inr ⟨_, rfl, hs.after, by simp, by simp⟩
  · rename_i hle
    obtain ⟨ls, hc, hu⟩ := h
    obtain ⟨c, hc'⟩ := checkFragments_defined f.offset (f.fragSize cfg) (hc.linked i hi)
      (Nat.le_succ_of_le (hc.length_le hi))
    rw [hc']
    cases c with
    | again =>
      obtain ⟨u, hr, hs⟩ := Sound.remove ⟨ls, hc, hu⟩ hi
      simp only [hr]
      exact .inr ⟨_, rfl, hs.after, by simp, fun _ => hs⟩
    | duplicate => exact .inr ⟨_, rfl, Sound.after ⟨ls, hc, hu⟩, fun j hj => by cases hj; rfl, by simp⟩
    | success =>
      rcases updateInts_cases cfg s i f.offset (f.fragSize cfg) with hnone | ⟨k, hk, hfree, hsome⟩
      · obtain ⟨u, hr, hs⟩ := Sound.remove ⟨ls, hc, hu⟩ hi
        simp only [hnone, hr]
        exact .inr ⟨_, rfl, hs.after, by simp, by simp⟩
      · simp only [hsome]
        refine (store_keeps (hc.updated hu hk hfree hi f.offset (f.fragSize cfg)) hi f env).imp_right ?_
        rintro ⟨r, hr, ⟨ls', hls, huse⟩, hindex, hagain⟩
        refine ⟨r, hr, ⟨ls', hls, fun hfit hone => huse (hu.updated hfree ?_)⟩, hindex, fun h => absurd h hagain⟩
        apply Frame.last_ne hfit hn hone
        rw [hkey] at hle
        simpa [Frame.key] using hle

theorem Sound.add (h : Sound cfg s) (f : Frame) (env : Env) : env.iphcRecv = none ∧ s.add cfg f env = none ∨
    ∃ r, s.add cfg f env = some r ∧ After cfg f r.1 ∧ (∀ j, r.2 = .entry j → j < cfg.rbufSize) ∧
      (r.2 = .again → Sound cfg r.1) := by
  unfold Rb.add
  split
  · exact .inr ⟨_, rfl, h.after, by simp, by simp⟩
  · rename_i hn
    obtain ⟨s1, h1, hs1⟩ := h.gc env.gcTime (l := range cfg.rbufSize) (by simp)
    rw [h1]
    simp only [Option.bind_some]
    obtain ⟨⟨s2, res⟩, h2, hs2, hres⟩ := hs1.get f.key env
    rw [h2]
    cases res with
    | none => exact .inr ⟨_, rfl, hs2.after, by simp, by simp⟩
    | some i =>
      obtain ⟨hi, hkey⟩ := hres i rfl
      refine (hs2.addTo hi hkey hn env).imp_right ?_
      rintro ⟨r, hr, hafter, hindex, hagain⟩
      refine ⟨r, hr, hafter, ?_, hagain⟩
      intro j hj
      rw [hindex j hj]; exact hi

theorem Sound.rbAdd (h : Sound cfg s) (f : Frame) (env env' : Env) :
    (env.iphcRecv = none ∨ env'.iphcRecv = none) ∧ s.rbAdd cfg f env env' = none ∨
      ∃ r, s.rbAdd cfg f env env' = some r ∧ After cfg f r.1 ∧ ∀ j, r.2 = .entry j → j < cfg.rbufSize := by
  unfold Rb.rbAdd
  rcases h.add f env with ⟨hnone, h1⟩ | ⟨⟨s1, res⟩, h1, hafter, hindex, hagain⟩
  · rw [h1]; exact .inl ⟨.inl hnone, rfl⟩
  · rw [h1]
    cases res with
    | again =>
      refine ((hagain rfl).add f env').imp (fun h => ⟨.inr h.1, h.2⟩) ?_
      rintro ⟨r, hr, hafter, hindex, -⟩
      exact ⟨r, hr, hafter, hindex⟩
    | entry i | error => exact .inr ⟨_, rfl, hafter, hindex⟩

def NotOneByte (cfg : FragConfig) : Op → Prop
  | .recv f .. => f.Fits cfg ∧ ¬ f.OneByte cfg
  | .gc _ => True

/-- The reception of a compressed header returns. -/
def Op.Received : Op → Prop
  | .recv _ env env' .. => env.iphcRecv ≠ none ∧ env'.iphcRecv ≠ none
  | .gc _ => True

theorem Sound.step (h : Sound cfg s) (op : Op) :
    ¬ op.Received ∧ step cfg s op = none ∨ ∃ u, step cfg s op = some u ∧ (NotOneByte cfg op → Sound cfg u) := by
  cases op with
  | gc now =>
    obtain ⟨u, hu, hs⟩ := h.gc now (l := range cfg.rbufSize) (by simp)
    exact .inr ⟨u, hu, fun _ => hs⟩
  | recv f env env' netif now =>
    simp only [Rb.step]
    split
    · rcases h.rbAdd f env env' with ⟨hnone, h1⟩ | ⟨⟨s1, res⟩, h1, ⟨ls, hc, huse⟩, hindex⟩
      · rw [h1]
        exact .inl ⟨fun hop => hnone.elim hop.1 hop.2, rfl⟩
      rw [h1]
      have hend : ∀ {u : Rb}, Keeps cfg s1 ls u → NotOneByte cfg (.recv f env env' netif now) → Sound cfg u := by
        rintro u ⟨ls', hc', hkeep⟩ ⟨hfit, hone⟩
        exact ⟨ls', hc', hkeep (huse hfit hone)⟩
      cases res with
      | entry i =>
        obtain ⟨u, hu, hkeep⟩ := dispatchWhenComplete_keeps hc (hindex i rfl) netif now
        exact .inr ⟨u, hu, hend hkeep⟩
      | again | error => exact .inr ⟨_, rfl, hend ⟨ls, hc, fun h => h⟩⟩
    · exact .inr ⟨s, rfl, fun _ => h⟩

theorem interval_lists_end_without_one_byte_fragments (h : ReachVia (step cfg) (fun _ op => NotOneByte cfg op) init s) :
    (∃ ls : Nat → List Nat, (∀ i < cfg.rbufSize, Chained s.ints (s.rbuf i).ints (ls i) ∧ (ls i).Nodup ∧
      ∀ k ∈ ls i, k < cfg.intSize ∧ (s.ints k).last ≠ 0 ∧ ∀ j < cfg.rbufSize, j ≠ i → k ∉ ls j)) ∧
    (∀ i < cfg.rbufSize, (∀ offset n, ∃ c, checkFragments s.ints offset n (cfg.intSize + 1) (s.rbuf i).ints = some c) ∧
      ∃ u, s.remove cfg i = some u) ∧
    ∀ op : Op, op.Received → ∃ u, step cfg s op = some u := by
  have hs : Sound cfg s := by
    apply h.inv (Sound cfg) (Sound.init cfg)
    intro t u op ht hgood hstep
    rcases ht.step op with ⟨-, hnone⟩ | ⟨u', hu', hsound⟩
    · cases hstep.symm.trans hnone
    · cases hstep.symm.trans hu'
      exact hsound hgood
  have hremove := fun i (hi : i < cfg.rbufSize) => (hs.remove hi).imp fun u hu => hu.1
  refine ⟨?_, ?_, fun op hop => ?_⟩
  · obtain ⟨ls, hc, hu⟩ := hs
    refine ⟨ls, fun i hi =>
      ⟨hc.linked i hi, Linked.nodup (hc.linked i hi), fun k hk => ⟨hc.bound i hi k hk, hu i hi k hk, ?_⟩⟩⟩
    intro j hj hne; exact hc.apart i hi j hj hne.symm k hk
  · obtain ⟨ls, hc, -⟩ := hs
    intro i hi
    exact ⟨fun offset n => checkFragments_defined offset n (hc.linked i hi) (Nat.le_succ_of_le (hc.length_le hi)),
      hremove i hi⟩
  · rcases hs.step op with ⟨hnot, -⟩ | ⟨u, hu, -⟩
    · exact absurd hop hnot
    · exact ⟨u, hu⟩

end

def defaultConfig : FragConfig where
  word := 32
  rbufSize := 4
  intSize := 52
  timeout := 3000000
  delTimer := 0
  doNotOverride := false
  iphc := true
  rbuf_pos := by decide
  word_ge := by decide

def plainRecv (data : List UInt8) : Op :=
  let env : Env := ⟨0, 0, some fun _ => 0, true, some none⟩
  .recv ⟨[1], [2], data, fun _ => 0⟩ env env true 0

def secondFragment : Op := plainRecv [0xe0, 24, 0, 1, 1, 0, 0, 0, 0, 0, 0, 0, 0]

def thirdFragment : Op := plainRecv [0xe0, 24, 0, 1, 2, 0, 0, 0, 0, 0, 0, 0, 0]

theorem interval_lists_end_after_third_fragment :
    ∃ s, runAll (step defaultConfig) init [secondFragment, thirdFragment] = some s ∧
      (s.rbuf 0).ints = some 1 ∧ (s.ints 1).next = some 0 ∧ (s.ints 0).next = none ∧
      ∀ op : Op, op.Received → ∃ u, step defaultConfig s op = some u := by
  refine ⟨_, rfl, rfl, rfl, rfl, ?_⟩
  have hsecond : ReachVia (step defaultConfig) (fun _ op => NotOneByte defaultConfig op) init _ :=
    .next (a := secondFragment) .start ⟨by decide, by decide⟩ rfl
  have hthird := hsecond.next (a := thirdFragment) ⟨by decide, by decide⟩ rfl
  exact (interval_lists_end_without_one_byte_fragments hthird).2.2

theorem checkFragments_stuck {ints : Nat → Interval} {k offset n : Nat} (hnext : (ints k).next = some k)
    (hover : overlapPartially (ints k) (offset % 2 ^ 16) ((offset + n - 1) % 2 ^ 16) = false)
    (hstart : (ints k).start ≠ offset) : ∀ fuel, checkFragments ints offset n fuel (some k) = none := by
  intro fuel
  induction fuel with
  | zero => rfl
  | succ fuel ih =>
    rw [checkFragments, hover, hnext]
    simpa [hstart] using ih

/-- One byte at offset 0, then the second fragment: it takes the same slot, which is then
linked to itself, and the third fragment is compared with it for ever. -/
theorem interval_list_of_one_byte_fragment_loops : ∃ s,
    runAll (step defaultConfig) init [plainRecv [0xc0, 24, 0, 1, 0x41, 0], secondFragment] = some s ∧
      (s.rbuf 0).ints = some 0 ∧ (s.ints 0).next = some 0 ∧ (∀ l, ¬ Chained s.ints (s.rbuf 0).ints l) ∧
      (∀ fuel, checkFragments s.ints 16 8 fuel (s.rbuf 0).ints = none) ∧
      step defaultConfig s thirdFragment = none := by
  refine ⟨_, rfl, rfl, rfl, ?_, ?_, rfl⟩
  · intro l hl
    cases l with
    | nil => cases hl
    | cons k l =>
      have hnot := (nodup_cons.mp (Linked.nodup hl)).1
      obtain ⟨hk, hrest⟩ := chained_cons.mp hl
      cases hk
      cases l with
      | nil => cases hrest
      | cons j l =>
        obtain ⟨hj, -⟩ := chained_cons.mp hrest
        cases hj
        simp at hnot
  · exact checkFragments_stuck rfl rfl (by decide)

end Rb

end PipRiot.Sixlowpan
