import PipRiot.Sixlowpan.FragRbLists

/-!
# Fragments of other datagrams

While no entry times out or is evicted, a frame with another key leaves the entry of a
datagram, its intervals and its deliveries as they are.
-/

namespace PipRiot.Sixlowpan.Rb

open Function List

section
variable {cfg : FragConfig} {s t u : Rb} {ls ls' ls'' : Nat → List Nat} {i k : Nat} {e : Entry}
  {key other : Key} {f : Frame}

structure Tidy (cfg : FragConfig) (s : Rb) (ls : Nat → List Nat) : Prop where
  chains : Chains cfg s ls
  inUse : InUse cfg s ls
  empty : ∀ i < cfg.rbufSize, (s.rbuf i).pkt = none → ls i = []

def Has (key : Key) (s : Rb) (i : Nat) : Prop := (s.rbuf i).pkt.isSome ∧ (s.rbuf i).key = key

instance (key : Key) (s : Rb) (i : Nat) : Decidable (Has key s i) := inferInstanceAs (Decidable (_ ∧ _))

def deliveries (key : Key) (s : Rb) : List Delivery := s.dispatched.filter fun x => x.key = key

structure Aside (cfg : FragConfig) (key : Key) (s : Rb) (ls : Nat → List Nat) (u : Rb)
  (ls' : Nat → List Nat) : Prop where
  keep : ∀ i < cfg.rbufSize, Has key s i → u.rbuf i = s.rbuf i ∧ ls' i = ls i ∧ ∀ k ∈ ls i, u.ints k = s.ints k
  back : ∀ i < cfg.rbufSize, Has key u i → Has key s i
  same : deliveries key u = deliveries key s

theorem Has.ne (h : Has other s i) (hne : other ≠ key) : ¬ Has key s i := fun h' => hne (h.2.symm.trans h'.2)

theorem Tidy.init (cfg : FragConfig) : Tidy cfg init fun _ => [] :=
  ⟨Chains.init cfg, fun _ _ k hk => by simp at hk, fun _ _ _ => rfl⟩

namespace Aside

theorem refl (cfg : FragConfig) (key : Key) (s : Rb) (ls : Nat → List Nat) : Aside cfg key s ls s ls :=
  ⟨fun _ _ _ => ⟨rfl, rfl, fun _ _ => rfl⟩, fun _ _ h => h, rfl⟩

theorem trans (h : Aside cfg key s ls t ls') (h' : Aside cfg key t ls' u ls'') : Aside cfg key s ls u ls'' := by
  refine ⟨?_, fun i hi hu => h.back i hi (h'.back i hi hu), h'.same.trans h.same⟩
  intro i hi hs
  obtain ⟨h1, h2, h3⟩ := h.keep i hi hs
  have ht : Has key t i := by
    unfold Has
    rw [h1]; exact hs
  obtain ⟨h1', h2', h3'⟩ := h'.keep i hi ht
  refine ⟨h1'.trans h1, h2'.trans h2, fun k hk => ?_⟩
  rw [h3' k (by rw [h2]; exact hk), h3 k hk]

theorem setEntry (hnot : ¬ Has key s i) (hnew : ¬ (e.pkt.isSome ∧ e.key = key)) :
    Aside cfg key s ls (s.setEntry i e) ls := by
  refine ⟨?_, ?_, rfl⟩
  · intro j _ hj
    have hne : j ≠ i := by
      rintro rfl
      exact hnot hj
    exact ⟨by simp [Rb.setEntry, hne], rfl, fun _ _ => rfl⟩
  · intro j _ hj
    by_cases hji : j = i
    · subst hji
      simp only [Has, Rb.setEntry, update_self] at hj; exact absurd hj hnew
    · simpa [Has, Rb.setEntry, hji] using hj

theorem removed (h : Tidy cfg s ls) (hi : i < cfg.rbufSize) (hnot : ¬ Has key s i) :
    Aside cfg key s ls (s.removed i (ls i)) (update ls i []) := by
  refine ⟨?_, ?_, rfl⟩
  · intro j hj hs
    have hne : j ≠ i := by
      rintro rfl
      exact hnot hs
    refine ⟨by simp [Rb.removed, Rb.setEntry, hne], by simp [hne], fun k hk => ?_⟩
    simp only [Rb.removed, Rb.setEntry, if_neg (h.chains.apart j hj i hi hne k hk)]
  · intro j _ hj
    by_cases hji : j = i
    · subst hji
      simp [Has, Rb.removed, Rb.setEntry] at hj
    · simpa [Has, Rb.removed, Rb.setEntry, hji] using hj

theorem updated (h : Tidy cfg s ls) (hfree : (s.ints k).last = 0) (hnot : ¬ Has key s i) (offset n : Nat) :
    Aside cfg key s ls (s.updated i k offset n) (update ls i (k :: ls i)) := by
  refine ⟨?_, ?_, rfl⟩
  · intro j hj hs
    have hne : j ≠ i := by
      rintro rfl
      exact hnot hs
    refine ⟨by simp [Rb.updated, Rb.setEntry, hne], by simp [hne], fun m hm => ?_⟩
    simp only [Rb.updated, Rb.setEntry]
    rw [update_of_ne]
    rintro rfl
    exact h.inUse.not_mem hfree hj hm
  · intro j _ hj
    by_cases hji : j = i
    · subst hji
      simpa [Has, Rb.updated, Rb.setEntry] using hj
    · simpa [Has, Rb.updated, Rb.setEntry, hji] using hj

end Aside

namespace Tidy

section
variable (h : Tidy cfg s ls)
include h

theorem setEntry (hints : e.ints = (s.rbuf i).ints) (hpkt : e.pkt = none → (s.rbuf i).pkt = none) :
    Tidy cfg (s.setEntry i e) ls := by
  refine ⟨h.chains.setEntry hints, h.inUse, ?_⟩
  intro j hj hnone
  by_cases hji : j = i
  · subst hji
    simp only [Rb.setEntry, update_self] at hnone
    exact h.empty j hj (hpkt hnone)
  · exact h.empty j hj (by simpa [Rb.setEntry, hji] using hnone)

theorem removed (hi : i < cfg.rbufSize) : Tidy cfg (s.removed i (ls i)) (update ls i []) := by
  refine ⟨h.chains.removed hi, h.inUse.removed h.chains hi, ?_⟩
  intro j hj hnone
  by_cases hji : j = i
  · simp [hji]
  · rw [update_of_ne hji]
    exact h.empty j hj (by simpa [Rb.removed, Rb.setEntry, hji] using hnone)

theorem updated (hk : k < cfg.intSize) (hfree : (s.ints k).last = 0) (hi : i < cfg.rbufSize)
    (hpkt : (s.rbuf i).pkt.isSome) {offset n : Nat} (hlast : (offset + n - 1) % 2 ^ 16 ≠ 0) :
    Tidy cfg (s.updated i k offset n) (update ls i (k :: ls i)) := by
  refine ⟨h.chains.updated h.inUse hk hfree hi offset n, h.inUse.updated hfree hlast, ?_⟩
  intro j hj hnone
  by_cases hji : j = i
  · subst hji
    have hnone' : (s.rbuf j).pkt = none := by simpa [Rb.updated, Rb.setEntry] using hnone
    simp [hnone'] at hpkt
  · rw [update_of_ne hji]
    exact h.empty j hj (by simpa [Rb.updated, Rb.setEntry, hji] using hnone)

end

end Tidy

theorem Tidy.log (h : Tidy cfg s ls) (l : List Delivery) : Tidy cfg { s with dispatched := l } ls :=
  ⟨⟨h.chains.linked, h.chains.bound, h.chains.apart⟩, h.inUse, h.empty⟩

def Calm (cfg : FragConfig) (s : Rb) (now : UInt32) : Prop := ∀ i < cfg.rbufSize, s.expired cfg now i = false

instance (cfg : FragConfig) (s : Rb) (now : UInt32) : Decidable (Calm cfg s now) :=
  inferInstanceAs (Decidable (∀ _ < _, _))

theorem gc_calm {now : UInt32} {l : List Nat} (h : ∀ i ∈ l, s.expired cfg now i = false) : gc cfg now l s = some s := by
  induction l with
  | nil => rfl
  | cons i l ih =>
    simp only [gc, h i (by simp)]
    apply ih
    intro j hj; exact h j (by simp [hj])

theorem Calm.gc {now : UInt32} (h : Calm cfg s now) : gc cfg now (range cfg.rbufSize) s = some s :=
  gc_calm fun i hi => h i (mem_range.mp hi)

def Room (cfg : FragConfig) (s : Rb) (key : Key) : Prop := ∃ i < cfg.rbufSize, (s.rbuf i).pkt = none ∨ Has key s i

def NoEviction (cfg : FragConfig) (s : Rb) (key : Key) (now : UInt32) : Prop :=
  Room cfg s key ∨ cfg.doNotOverride ∧ Calm cfg s now

instance (cfg : FragConfig) (s : Rb) (key : Key) : Decidable (Room cfg s key) :=
  inferInstanceAs (Decidable (∃ i < _, _))

instance (cfg : FragConfig) (s : Rb) (key : Key) (now : UInt32) : Decidable (NoEviction cfg s key now) :=
  inferInstanceAs (Decidable (_ ∨ _))

theorem get_aside {env : Env} (h : Tidy cfg s ls) (hne : other ≠ key) (hroom : NoEviction cfg s other env.getTime) :
    ∃ r, s.get cfg other env = some r ∧ Tidy cfg r.1 ls ∧ Aside cfg key s ls r.1 ls ∧
      ∀ i, r.2 = some i → i < cfg.rbufSize ∧ Has other r.1 i ∧ ∀ j, j ≠ i → r.1.rbuf j = s.rbuf j := by
  have hfound := get_found cfg s other
  unfold Rb.get
  split
  · rename_i i hi
    rw [hi] at hfound
    obtain ⟨hmem, hhas⟩ := hfound
    split
    · exact ⟨_, rfl, h, Aside.refl .., by simp⟩
    · refine ⟨_, rfl, h.setEntry rfl (fun h => h), Aside.setEntry (Has.ne hhas hne) (Has.ne hhas hne), ?_⟩
      intro j hj
      cases hj
      exact ⟨mem_range.mp hmem, by simpa [Has, Rb.setEntry] using hhas, fun j hj => by simp [Rb.setEntry, hj]⟩
  · rename_i i oldest hi
    rw [hi] at hfound
    obtain ⟨hmem, hempty⟩ := hfound.2.1 i rfl
    have hnot : ¬ Has key s i := fun hh => by simp [Has, hempty] at hh
    unfold create
    split
    · refine ⟨_, rfl, h.setEntry rfl (fun _ => hempty), Aside.setEntry hnot (by simp), by simp⟩
    · refine ⟨_, rfl, h.setEntry rfl (by simp), Aside.setEntry hnot (by simpa using hne), ?_⟩
      intro j hj
      cases hj
      exact ⟨mem_range.mp hmem, by simp [Has, Rb.setEntry], fun j hj => by simp [Rb.setEntry, hj]⟩
  · exact absurd ‹_› (get_ne_missing cfg s other)
  · rename_i o hi
    rw [hi] at hfound
    obtain ⟨hkey, -, hfull, ho, -⟩ := hfound
    -- there is no room, so nothing is replaced
    have hcalm : cfg.doNotOverride ∧ Calm cfg s env.getTime := by
      refine hroom.resolve_left ?_
      rintro ⟨j, hj, hnone | hhas⟩
      · have := hfull rfl j (mem_range.mpr hj)
        simp [hnone] at this
      · exact hkey j (mem_range.mpr hj) hhas.1 hhas.2
    have hold := hcalm.2 o (mem_range.mp (ho o rfl))
    have hsome := hfull rfl o (ho o rfl)
    simp only [expired, hsome, true_and, decide_eq_false_iff_not] at hold
    rw [if_neg (by simp only [hcalm.1]; simpa using hold)]
    exact ⟨_, rfl, h, Aside.refl .., by simp⟩

theorem store_aside (h : Tidy cfg s ls) (hi : i < cfg.rbufSize) (hhas : Has other s i) (hne : other ≠ key) (f : Frame)
    {env : Env} (hrecv : env.iphcRecv ≠ none) :
    ∃ r ls', s.store cfg f env i = some r ∧ Tidy cfg r.1 ls' ∧ Aside cfg key s ls r.1 ls' ∧
      (∀ j, r.2 = .entry j → j = i ∧ (r.1.rbuf i).key = other) ∧ r.2 ≠ .again := by
  unfold store
  simp only
  generalize hs1 : s.setEntry i { s.rbuf i with currentSize := ((s.rbuf i).currentSize + f.fragSize cfg) % 2 ^ 16 } = s1
  have h1 : Tidy cfg s1 ls := by
    rw [← hs1]; exact h.setEntry rfl fun h => h
  have hhas1 : Has other s1 i := by
    rw [← hs1]
    simpa [Has, setEntry] using hhas
  have haside : Aside cfg key s ls s1 ls := by
    rw [← hs1]
    exact Aside.setEntry (hhas.ne hne) (hhas.ne hne)
  have hremove : ∃ r ls', ((s1.remove cfg i).map fun u => (u, AddResult.error)) = some r ∧ Tidy cfg r.1 ls' ∧
      Aside cfg key s ls r.1 ls' ∧ (∀ j, r.2 = .entry j → j = i ∧ (r.1.rbuf i).key = other) ∧ r.2 ≠ .again := by
    rw [h1.chains.remove_eq hi]
    exact ⟨_, _, rfl, h1.removed hi, haside.trans (Aside.removed h1 hi (hhas1.ne hne)), by simp, by simp⟩
  have hentry : ∀ e : Entry, e.ints = (s1.rbuf i).ints → e.pkt ≠ none → e.key = other →
      Tidy cfg (s1.setEntry i e) ls ∧ Aside cfg key s ls (s1.setEntry i e) ls ∧
        ((s1.setEntry i e).rbuf i).key = other := by
    intro e hints hpkt hkey
    refine ⟨h1.setEntry hints (fun hnone => absurd hnone hpkt), haside.trans (Aside.setEntry (hhas1.ne hne) ?_), ?_⟩
    · rintro ⟨-, heq⟩
      exact hne (hkey.symm.trans heq)
    · simpa [setEntry] using hkey
  split
  · split
    · split
      · exact absurd ‹_› hrecv
      · exact hremove
      · rename_i more data _
        obtain ⟨ht, ha, hk⟩ := hentry { s1.rbuf i with
          currentSize := ((s1.rbuf i).currentSize + more) % 2 ^ 16, pkt := some data } rfl (by simp) hhas1.2
        refine ⟨_, _, rfl, ht, ha, ?_, by simp⟩
        intro j hj
        cases hj; exact ⟨rfl, hk⟩
    · exact hremove
  · obtain ⟨ht, ha, hk⟩ := hentry { s1.rbuf i with
      pkt := (s.rbuf i).pkt.map fun l =>
        l.take f.offset ++ f.bytes (f.fragSize cfg) ++ l.drop (f.offset + f.fragSize cfg) } rfl
      (by
        have := hhas.1
        cases hp : (s.rbuf i).pkt with
        | none => simp [hp] at this
        | some l => simp) hhas1.2
    refine ⟨_, _, rfl, ht, ha, ?_, by simp⟩
    intro j hj
    cases hj; exact ⟨rfl, hk⟩

theorem addTo_aside (h : Tidy cfg s ls) (hi : i < cfg.rbufSize) (hhas : Has f.key s i) (hne : f.key ≠ key)
    (hfit : f.Fits cfg) (hone : ¬ f.OneByte cfg) (hn : f.fragSize cfg ≠ 0) {env : Env} (hrecv : env.iphcRecv ≠ none) :
    ∃ r ls', s.addTo cfg f env i = some r ∧ Tidy cfg r.1 ls' ∧ Aside cfg key s ls r.1 ls' ∧
      (∀ j, r.2 = .entry j → j = i ∧ (r.1.rbuf i).key = f.key) ∧
      (r.2 = .again → (r.1.rbuf i).pkt = none ∧ ∀ j, j ≠ i → r.1.rbuf j = s.rbuf j) := by
  have hremove : ∀ res : AddResult, (∀ j, res ≠ .entry j) → ∃ r ls',
    ((s.remove cfg i).map fun u => (u, res)) = some r ∧ Tidy cfg r.1 ls' ∧
      Aside cfg key s ls r.1 ls' ∧ (∀ j, r.2 = .entry j → j = i ∧ (r.1.rbuf i).key = f.key) ∧
      (r.2 = .again → (r.1.rbuf i).pkt = none ∧ ∀ j, j ≠ i → r.1.rbuf j = s.rbuf j) := by
    intro res hres
    rw [h.chains.remove_eq hi]
    refine ⟨_, _, rfl, h.removed hi, Aside.removed h hi (hhas.ne hne), fun j hj => absurd hj (hres j), fun _ => ?_⟩
    exact ⟨by simp [removed, setEntry], fun j hj => by simp [removed, setEntry, hj]⟩
  unfold addTo
  simp only
  split
  · exact hremove .error (by simp)
  · rename_i hle
    obtain ⟨c, hc⟩ := checkFragments_defined f.offset (f.fragSize cfg) (h.chains.linked i hi)
      (Nat.le_succ_of_le (h.chains.length_le hi))
    rw [hc]
    cases c with
    | again => exact hremove .again (by simp)
    | duplicate => exact ⟨_, _, rfl, h, Aside.refl .., fun j hj => by cases hj; exact ⟨rfl, hhas.2⟩, by simp⟩
    | success =>
      rcases updateInts_cases cfg s i f.offset (f.fragSize cfg) with hnone | ⟨k, hk, hfree, hsome⟩
      · rw [hnone]; exact hremove .error (by simp)
      · rw [hsome]
        have hlast : (f.offset + f.fragSize cfg - 1) % 2 ^ 16 ≠ 0 := by
          apply Frame.last_ne hfit hn hone
          rw [hhas.2] at hle
          simpa [Frame.key] using hle
        have ht := h.updated hk hfree hi hhas.1 hlast
        have ha := Aside.updated h hfree (hhas.ne hne) f.offset (f.fragSize cfg)
        have hhas' : Has f.key (s.updated i k f.offset (f.fragSize cfg)) i := by
          simpa [Has, updated, setEntry] using hhas
        obtain ⟨r, ls', hr, ht', ha', hentry, hagain⟩ := store_aside ht hi hhas' hne f hrecv
        exact ⟨r, ls', hr, ht', ha.trans ha', hentry, fun h => absurd h hagain⟩

@[mk_iff]
structure Undisturbed (cfg : FragConfig) (s : Rb) (f : Frame) (env env' : Env) : Prop where
  calm : Calm cfg s env.gcTime
  calm' : Calm cfg s env'.gcTime
  room : NoEviction cfg s f.key env.getTime
  fits : f.Fits cfg
  notOneByte : ¬ f.OneByte cfg
  -- the reception of a compressed header returns
  recv : env.iphcRecv ≠ none
  recv' : env'.iphcRecv ≠ none

instance (cfg : FragConfig) (s : Rb) (f : Frame) (env env' : Env) : Decidable (Undisturbed cfg s f env env') :=
  decidable_of_iff' _ (undisturbed_iff cfg s f env env')

theorem add_aside {env : Env} (h : Tidy cfg s ls) (hne : f.key ≠ key) (hcalm : Calm cfg s env.gcTime)
    (hroom : NoEviction cfg s f.key env.getTime) (hfit : f.Fits cfg) (hone : ¬ f.OneByte cfg)
    (hrecv : env.iphcRecv ≠ none) :
    ∃ r ls', s.add cfg f env = some r ∧ Tidy cfg r.1 ls' ∧ Aside cfg key s ls r.1 ls' ∧
      (∀ j, r.2 = .entry j → j < cfg.rbufSize ∧ (r.1.rbuf j).key = f.key) ∧
      (r.2 = .again → ∃ i < cfg.rbufSize, (r.1.rbuf i).pkt = none ∧ ∀ j, j ≠ i → r.1.rbuf j = s.rbuf j) := by
  unfold add
  split
  · exact ⟨_, _, rfl, h, Aside.refl .., by simp, by simp⟩
  · rename_i hn
    rw [hcalm.gc]
    simp only [Option.bind_some]
    obtain ⟨⟨s2, res⟩, h2, ht2, ha2, hres⟩ := get_aside h hne hroom
    rw [h2]
    cases res with
    | none => exact ⟨_, _, rfl, ht2, ha2, by simp, by simp⟩
    | some i =>
      obtain ⟨hi, hhas, hothers⟩ := hres i rfl
      obtain ⟨r, ls', hr, ht, ha, hentry, hagain⟩ := addTo_aside ht2 hi hhas hne hfit hone hn hrecv
      refine ⟨r, ls', hr, ht, ha2.trans ha, ?_, ?_⟩
      · intro j hj
        obtain ⟨rfl, hk⟩ := hentry j hj
        exact ⟨hi, hk⟩
      · intro hj
        obtain ⟨hempty, hsame⟩ := hagain hj
        exact ⟨i, hi, hempty, fun j hj => (hsame j hj).trans (hothers j hj)⟩

theorem Calm.of_removed {now : UInt32} (h : Calm cfg s now) (hempty : (u.rbuf i).pkt = none)
    (hsame : ∀ j, j ≠ i → u.rbuf j = s.rbuf j) : Calm cfg u now := by
  intro j hj
  by_cases hji : j = i
  · subst hji
    simp [expired, hempty]
  · have := h j hj
    simpa [expired, hsame j hji] using this

theorem rbAdd_aside {env env' : Env} (h : Tidy cfg s ls) (hne : f.key ≠ key) (hu : Undisturbed cfg s f env env') :
    ∃ r ls', s.rbAdd cfg f env env' = some r ∧ Tidy cfg r.1 ls' ∧ Aside cfg key s ls r.1 ls' ∧
      ∀ j, r.2 = .entry j → j < cfg.rbufSize ∧ (r.1.rbuf j).key = f.key := by
  obtain ⟨⟨s1, res⟩, ls1, h1, ht, ha, hentry, hagain⟩ := add_aside h hne hu.calm hu.room hu.fits hu.notOneByte hu.recv
  unfold rbAdd
  rw [h1]
  cases res with
  | again =>
    obtain ⟨i, hi, hempty, hsame⟩ := hagain rfl
    have hroom : NoEviction cfg s1 f.key env'.getTime := .inl ⟨i, hi, .inl hempty⟩
    obtain ⟨r, ls', hr, ht', ha', hentry', -⟩ :=
      add_aside ht hne (hu.calm'.of_removed hempty hsame) hroom hu.fits hu.notOneByte hu.recv'
    exact ⟨r, ls', hr, ht', ha.trans ha', hentry'⟩
  | entry i | error => exact ⟨_, _, rfl, ht, ha, hentry⟩

theorem Aside.log {l : List Delivery} (h : l.filter (fun x => x.key = key) = deliveries key s) :
    Aside cfg key s ls { s with dispatched := l } ls :=
  ⟨fun _ _ _ => ⟨rfl, rfl, fun _ _ => rfl⟩, fun _ _ h => h, h⟩

section
variable (h : Tidy cfg s ls) (hi : i < cfg.rbufSize) (hkey : (s.rbuf i).key ≠ key)
include h hi hkey

theorem tmpRm_aside (now : UInt32) :
    ∃ u ls', s.tmpRm cfg i now = some u ∧ Tidy cfg u ls' ∧ Aside cfg key s ls u ls' := by
  have hnot : ¬ Has key s i := fun hh => hkey hh.2
  unfold tmpRm
  split
  · exact ⟨_, _, rfl, h.setEntry rfl (fun h => h), Aside.setEntry hnot hnot⟩
  · rw [h.chains.remove_eq hi]
    exact ⟨_, _, rfl, h.removed hi, Aside.removed h hi hnot⟩

theorem dispatch_aside (netif : Bool) (now : UInt32) :
    ∃ u ls', s.dispatchWhenComplete cfg i netif now = some u ∧ Tidy cfg u ls' ∧ Aside cfg key s ls u ls' := by
  unfold dispatchWhenComplete
  split
  · cases netif with
    | false => exact tmpRm_aside h hi hkey now
    | true =>
      generalize hl : s.dispatched ++ [⟨(s.rbuf i).key, (s.rbuf i).pkt.getD []⟩] = l
      have hsame : l.filter (fun x => x.key = key) = deliveries key s := by
        rw [← hl]
        simp [deliveries, hkey]
      obtain ⟨u, ls', hu, ht, ha⟩ := tmpRm_aside (h.log l) hi hkey now
      exact ⟨u, ls', hu, ht, (Aside.log hsame).trans ha⟩
  · exact ⟨_, _, rfl, h, Aside.refl ..⟩

end

theorem recv_aside {env env' : Env} (h : Tidy cfg s ls) (hne : f.key ≠ key) (hu : Undisturbed cfg s f env env')
    (netif : Bool) (now : UInt32) : ∃ u ls', step cfg s (.recv f env env' netif now) = some u ∧ Tidy cfg u ls' ∧
      Aside cfg key s ls u ls' := by
  simp only [step]
  split
  · obtain ⟨⟨s1, res⟩, ls1, h1, ht, ha, hentry⟩ := rbAdd_aside h hne hu
    rw [h1]
    cases res with
    | entry i =>
      obtain ⟨hi, hkey⟩ := hentry i rfl
      have hne' : (s1.rbuf i).key ≠ key := fun h => hne (hkey.symm.trans h)
      obtain ⟨u, ls', hr, ht', ha'⟩ := dispatch_aside ht hi hne' netif now
      exact ⟨u, ls', hr, ht', ha.trans ha'⟩
    | again | error => exact ⟨_, _, rfl, ht, ha⟩
  · exact ⟨_, _, rfl, h, Aside.refl ..⟩

end

end PipRiot.Sixlowpan.Rb
