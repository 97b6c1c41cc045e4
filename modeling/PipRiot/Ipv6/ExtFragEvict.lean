import PipRiot.Ipv6.ExtFrag

/-!
# Which entry a new datagram gets

The loop of `gnrc_ipv6_ext_frag_rbuf_get` moves on to later arrivals, never to an earlier
one, so that a full buffer does not drop its oldest entry. An unused entry in front of the one that is
looked for is initialised on the way.
-/

namespace PipRiot.Ipv6.ExtFrag

open List

section
variable {κ : Type}

/-- The entries arrived at the times `T`, of which they keep the low 32 bits. -/
structure Arrivals (s : Reass κ) (T : List Nat) : Prop where
  arrival : s.rbuf.map Entry.arrival = T.map (· % 2 ^ 32)
  near : ∀ a ∈ T, ∀ b ∈ T, a ≤ b + 2 ^ 31

/-- Every time but the first is far behind it, or the same. -/
def OldestFirst : List Nat → Prop
  | [] => True
  | t :: T => ∀ u ∈ T, u = t ∨ t + (2 ^ 31 - 1) ≤ u

/-- The datagram has an entry, and no unused one is in front of it. -/
def KnownFirst (k : κ) : List (Entry κ) → Prop
  | [] => False
  | e :: es => e.key = some k ∨ e.key ≠ none ∧ KnownFirst k es

variable [DecidableEq κ]

/-- The new datagram gets the entry with the earliest arrival, and the others stay. -/
def EvictsOldest (s : Reass κ) (k : κ) (T : List Nat) : Prop :=
  ∃ n t, T[n]? = some t ∧ (∀ u ∈ T, t ≤ u) ∧ (rbufGet true s k).1 = some n ∧
    (rbufGet true s k).2.rbuf[n]?.bind Entry.key = some k ∧
    ∀ j ≠ n, (rbufGet true s k).2.rbuf[j]? = s.rbuf[j]?

variable {k : κ} {s : Reass κ} {es : List (Entry κ)} {T : List Nat} {t : Nat}

/-! ## A full buffer -/

theorem replaces_iff {a b : Nat} (hab : a ≤ b + 2 ^ 31) (hba : b ≤ a + 2 ^ 31) :
    (a % 2 ^ 32 + 2 ^ 32 - b % 2 ^ 32) % 2 ^ 32 < (2 ^ 32 - 1) / 2 ↔ b ≤ a ∧ a < b + (2 ^ 31 - 1) := by
  omega

theorem search_full (hes : ∀ e ∈ es, e.key ≠ none ∧ e.key ≠ some k) (i : Nat) (o : Option (Nat × Nat)) :
    (search k i none o es).rbuf = es ∧ (search k i none o es).hit = none ∧ (search k i none o es).res = none := by
  induction es generalizing i o with
  | nil => exact ⟨rfl, rfl, rfl⟩
  | cons e es ih =>
    obtain ⟨hused, hother⟩ := hes e mem_cons_self
    simp only [search, hused, hother, if_false, false_and]
    obtain ⟨hrbuf, hhit, hres⟩ := ih (fun d hd => hes d (mem_cons_of_mem e hd)) (i + 1) _
    exact ⟨congrArg _ hrbuf, hhit, hres⟩

theorem search_oldest (hes : ∀ e ∈ es, e.key ≠ none ∧ e.key ≠ some k) (hT : es.map Entry.arrival = T.map (· % 2 ^ 32))
    (hnear : ∀ a ∈ t :: T, ∀ b ∈ t :: T, a ≤ b + 2 ^ 31) (i j : Nat) :
    ∃ n u, (search k i none (some (j, t % 2 ^ 32)) es).oldest = some (n, u % 2 ^ 32) ∧ t ≤ u ∧
      (u = t ↔ ∀ x ∈ T, x ≤ t ∨ t + (2 ^ 31 - 1) ≤ x) ∧ (n = j ∧ u = t ∨ ∃ m, n = i + m ∧ T[m]? = some u) := by
  induction es generalizing T t i j with
  | nil =>
    cases T with
    | nil => exact ⟨j, t, rfl, Nat.le_refl t, by simp, .inl ⟨rfl, rfl⟩⟩
    | cons x T => cases hT
  | cons e es ih =>
    cases T with
    | nil => cases hT
    | cons x T =>
      obtain ⟨hx, hT⟩ := List.cons.inj hT
      obtain ⟨hused, hother⟩ := hes e mem_cons_self
      have hes' := fun d hd => hes d (mem_cons_of_mem e hd)
      have hxt := hnear x (by simp) t (by simp)
      have htx := hnear t (by simp) x (by simp)
      simp only [search, hused, hother, if_false, false_and, hx, replaces_iff hxt htx]
      by_cases hmove : t ≤ x ∧ x < t + (2 ^ 31 - 1)
      · rw [if_pos hmove]
        have hnear' : ∀ a ∈ x :: T, ∀ b ∈ x :: T, a ≤ b + 2 ^ 31 := fun a ha b hb =>
          hnear a (mem_cons_of_mem t ha) b (mem_cons_of_mem t hb)
        obtain ⟨n, u, hold, hle, hstay, hin⟩ := ih hes' hT hnear' (i + 1) i
        refine ⟨n, u, hold, by omega, ⟨fun hu => ?_, fun hall => ?_⟩, .inr ?_⟩
        · obtain rfl : x = t := by omega
          intro y hy
          rcases mem_cons.mp hy with rfl | hy
          · exact .inl le_rfl
          · exact hstay.mp hu y hy
        · obtain rfl : x = t := by
            have := hall x mem_cons_self; omega
          exact hstay.mpr fun y hy => hall y (mem_cons_of_mem _ hy)
        · rcases hin with ⟨rfl, rfl⟩ | ⟨m, rfl, hm⟩
          · exact ⟨0, rfl, rfl⟩
          · exact ⟨m + 1, by omega, hm⟩
      · rw [if_neg hmove]
        have hsub : ∀ a ∈ t :: T, a ∈ t :: x :: T := by simp +contextual
        have hnear' : ∀ a ∈ t :: T, ∀ b ∈ t :: T, a ≤ b + 2 ^ 31 := fun a ha b hb =>
          hnear a (hsub a ha) b (hsub b hb)
        obtain ⟨n, u, hold, hle, hstay, hin⟩ := ih hes' hT hnear' (i + 1) j
        refine ⟨n, u, hold, hle, hstay.trans ⟨fun hall y hy => ?_, fun hall y hy => hall y (mem_cons_of_mem _ hy)⟩, ?_⟩
        · rcases mem_cons.mp hy with rfl | hy
          · omega
          · exact hall y hy
        · rcases hin with hin | ⟨m, rfl, hm⟩
          · exact .inl hin
          · exact .inr ⟨m + 1, by omega, hm⟩

theorem rbufGet_full (hes : ∀ e ∈ s.rbuf, e.key ≠ none ∧ e.key ≠ some k) (hT : Arrivals s (t :: T)) :
    ∃ n u, (t :: T)[n]? = some u ∧ t ≤ u ∧ (u = t ↔ ∀ x ∈ T, x ≤ t ∨ t + (2 ^ 31 - 1) ≤ x) ∧
      (rbufGet true s k).1 = some n ∧ (rbufGet true s k).2.rbuf = (s.del n).rbuf.modify n (·.initRbuf k) := by
  obtain ⟨hrbuf, hhit, hres⟩ := search_full hes 0 none
  have harrival := hT.arrival
  generalize hlist : s.rbuf = l at hes hrbuf hhit hres harrival
  cases l with
  | nil => cases harrival
  | cons e es =>
    obtain ⟨he, harrival⟩ := List.cons.inj harrival
    obtain ⟨hused, hother⟩ := hes e mem_cons_self
    obtain ⟨n, u, hold, hle, hstay, hin⟩ :=
      search_oldest (fun d hd => hes d (mem_cons_of_mem e hd)) harrival hT.near 1 0
    have hold' : (search k 0 none none (e :: es)).oldest = some (n, u % 2 ^ 32) := by
      simpa only [search, hused, hother, if_false, false_and, he] using hold
    refine ⟨n, u, ?_, hle, hstay, ?_⟩
    · rcases hin with ⟨rfl, rfl⟩ | ⟨m, rfl, hm⟩
      · rfl
      · rw [add_comm]; exact hm
    · have hs : ({ s with rbuf := e :: es } : Reass κ) = s := by rw [← hlist]
      simp only [rbufGet, hlist, hhit, hres, hold', hrbuf, hs, if_true, and_self]

/-! ## A known datagram -/

theorem search_known (hk : ∃ e ∈ es, e.key = some k) (i : Nat) (res : Option Nat) (o : Option (Nat × Nat)) :
    ∃ n, (search k i res o es).hit = some n := by
  induction es generalizing i res o with
  | nil => simp at hk
  | cons e es ih =>
    by_cases he : e.key = some k
    · exact ⟨i, by simp [search, he]⟩
    · simp only [search, he, if_false]
      apply ih
      simpa [he] using hk

theorem search_same_iff (hk : ∃ e ∈ es, e.key = some k) (i : Nat) (o : Option (Nat × Nat)) :
    (search k i none o es).rbuf = es ↔ KnownFirst k es := by
  induction es generalizing i o with
  | nil => simp at hk
  | cons e es ih =>
    by_cases he : e.key = some k
    · simp [search, KnownFirst, he]
    · have hk' : ∃ d ∈ es, d.key = some k := by simpa [he] using hk
      by_cases hfree : e.key = none
      · -- the unused entry has the key afterwards
        have hne : e.initRbuf k ≠ e := fun h => he (congrArg Entry.key h).symm
        simp [search, KnownFirst, hfree, hne]
      · simpa [search, KnownFirst, he, hfree] using ih hk' (i + 1) _

/-- A full buffer drops the oldest entry exactly if that is the first and every other one
arrived with it or half a period of the clock behind it. A known datagram changes nothing
exactly if no unused entry is in front of its own. -/
theorem rbufGet_evicts_oldest_iff (hT : Arrivals s T) :
    (s.rbuf ≠ [] → (∀ e ∈ s.rbuf, e.key ≠ none ∧ e.key ≠ some k) → (EvictsOldest s k T ↔ OldestFirst T)) ∧
      ((∃ e ∈ s.rbuf, e.key = some k) → ∀ override, (rbufGet override s k).2 = s ↔ KnownFirst k s.rbuf) := by
  refine ⟨fun hne hes => ?_, fun hk override => ?_⟩
  · cases T with
    | nil => exact absurd (map_eq_nil_iff.mp hT.arrival) hne
    | cons t T =>
      obtain ⟨n, u, hn, hle, hstay, hget, hrbuf⟩ := rbufGet_full hes hT
      constructor
      · rintro ⟨n', u', hn', hmin, hget', -⟩ x hx
        obtain rfl : n = n' := Option.some.inj (hget.symm.trans hget')
        obtain rfl : u = u' := Option.some.inj (hn.symm.trans hn')
        have hut := hmin t mem_cons_self
        have hux := hmin x (mem_cons_of_mem t hx)
        have := hstay.mp (by omega) x hx; omega
      · intro hfirst
        have hu : u = t := hstay.mpr fun x hx => by
          have := hfirst x hx; omega
        have hlen : n < s.rbuf.length := by
          have hlen := congrArg List.length hT.arrival
          rw [length_map, length_map] at hlen
          rw [hlen]; exact (List.getElem?_eq_some_iff.mp hn).1
        obtain ⟨e, he⟩ : ∃ e, s.rbuf[n]? = some e := ⟨_, getElem?_eq_getElem hlen⟩
        refine ⟨n, u, hn, ?_, hget, ?_, fun j hj => ?_⟩
        · intro x hx
          rcases mem_cons.mp hx with rfl | hx
          · omega
          · have := hfirst x hx; omega
        · simp [hrbuf, Reass.del, Reass.put, hlen, Entry.initRbuf]
        · simp [hrbuf, Reass.del, he, Reass.put, hj.symm]
  · obtain ⟨n, hhit⟩ := search_known hk 0 none none
    rw [← search_same_iff hk 0 none]
    simp only [rbufGet, hhit]
    exact ⟨fun h => congrArg Reass.rbuf h, fun h => by rw [h]⟩

def twoDatagrams (a b : Nat) : Reass Nat :=
  { rbuf := [{ key := some 1, arrival := a }, { key := some 2, arrival := b }], freeLimits := 0 }

/-- The second datagram came half a period of the clock behind the first. -/
theorem evicts_oldest_of_two :
    EvictsOldest (twoDatagrams 7 2147483654) 3 [7, 2147483654] ∧
      (rbufGet true (twoDatagrams 7 2147483654) 2).2 = twoDatagrams 7 2147483654 := by
  have hT : Arrivals (twoDatagrams 7 2147483654) [7, 2147483654] := ⟨by decide, by decide⟩
  obtain ⟨hevicts, -⟩ := @rbufGet_evicts_oldest_iff _ _ 3 _ _ hT
  obtain ⟨-, hknown⟩ := @rbufGet_evicts_oldest_iff _ _ 2 _ _ hT
  refine ⟨(hevicts (by decide) (by decide)).mpr ?_, (hknown (by decide) true).mpr ?_⟩
  · simp [OldestFirst]
  · simp [KnownFirst, twoDatagrams]

/-- The entry that arrived at 9 is dropped and the one that arrived at 7 stays. A fragment of
datagram 2 initialises the unused entry in front of it. -/
theorem evicts_newest :
    (rbufGet true (twoDatagrams 7 9) 3).1 = some 1 ∧
      (rbufGet true { rbuf := [{}, { key := some 2 }], freeLimits := 0 } 2).2.rbuf.map Entry.key =
        [some 2, some 2] := by
  decide

end

end PipRiot.Ipv6.ExtFrag
