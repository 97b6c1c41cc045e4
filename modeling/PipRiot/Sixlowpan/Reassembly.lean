import PipRiot.Sixlowpan.Aside
import PipRiot.Sixlowpan.Datagram

/-!
# Reassembly

The pieces of a datagram in any order, with duplicates and among the fragments of other
datagrams: its entry holds what has arrived, and it is handed up with the last piece.
-/

namespace PipRiot.Sixlowpan

open List Function Option

namespace Datagram

section
variable {d : Datagram} {j m : Nat}

def interval (d : Datagram) (j : Nat) : Nat × Nat := (d.offset j, d.offset j + d.size j - 1)

def Complete (d : Datagram) (got : List Nat) : Prop := ∀ j < d.pieces.length, j ∈ got

theorem apart (hne : m ≠ j) : d.offset m + d.size m ≤ d.offset j ∨ d.offset j + d.size j ≤ d.offset m := by
  rcases Nat.lt_or_gt_of_ne hne with hlt | hlt
  · exact .inl (Pieces.offset_add_le hlt)
  · exact .inr (Pieces.offset_add_le hlt)

theorem end_lt (hj : j < d.pieces.length) : d.offset j + d.size j - 1 < 2 ^ 16 := by
  have h1 := end_le hj
  have h2 := d.data_le
  omega

theorem overlapPartially_interval {i : Interval} (hi : (i.start, i.last) = d.interval m) (hm : m < d.pieces.length)
    (hj : j < d.pieces.length) : overlapPartially i (d.offset j) (d.offset j + d.size j - 1) = false := by
  have h1 := size_pos hm
  have h2 := size_pos hj
  simp only [interval, Prod.mk.injEq] at hi
  simp only [overlapPartially, hi.1, hi.2]
  by_cases heq : m = j
  · simp [heq]
  · have := apart (d := d) heq
    rw [decide_eq_false_iff_not]; omega

theorem checkFragments_pieces {ints : Nat → Interval} {l : List Nat} (hj : j < d.pieces.length) :
    ∀ {got : List Nat} {p : Option Nat} {fuel : Nat}, Chained ints p l → l.length ≤ fuel →
      l.map (fun k => ((ints k).start, (ints k).last)) = got.map d.interval → (∀ m ∈ got, m < d.pieces.length) →
      checkFragments ints (d.offset j) (d.size j) fuel p = some (if j ∈ got then .duplicate else .success) := by
  have hlast := end_lt hj
  have h1 := size_pos hj
  have hstart : d.offset j % 2 ^ 16 = d.offset j := Nat.mod_eq_of_lt (by omega)
  have hend : (d.offset j + d.size j - 1) % 2 ^ 16 = d.offset j + d.size j - 1 := Nat.mod_eq_of_lt hlast
  induction l with
  | nil =>
    intro got p fuel hl _ hmap _
    cases hl
    simp only [map_nil, nil_eq, map_eq_nil_iff] at hmap
    subst hmap
    cases fuel <;> rfl
  | cons k l ih =>
    intro got p fuel hl hle hmap hgot
    obtain ⟨rfl, hrest⟩ := chained_cons.mp hl
    cases got with
    | nil => simp at hmap
    | cons m got =>
      simp only [map_cons, List.cons.injEq] at hmap
      obtain ⟨hhead, htail⟩ := hmap
      have hm : m < d.pieces.length := hgot m (by simp)
      cases fuel with
      | zero => simp at hle
      | succ fuel =>
        rw [checkFragments, hstart, hend, overlapPartially_interval hhead hm hj]
        simp only [interval, Prod.mk.injEq] at hhead
        rw [hhead.1]
        by_cases heq : m = j
        · simp [heq]
        · have hoff : d.offset m ≠ d.offset j := fun h => heq (Pieces.offset_inj (size_pos hm) h1 h)
          have hgot' : ∀ m ∈ got, m < d.pieces.length := fun m hm => hgot m (by simp [hm])
          rw [if_neg (by simp), if_neg hoff, ih hrest (by simpa using hle) htail hgot']
          simp [Ne.symm heq]

end

end Datagram

namespace Rb

section
variable {cfg : FragConfig} {d : Datagram} {s t u : Rb} {ls ls' : Nat → List Nat} {got : List Nat} {i j : Nat}
  {f : Frame} {env : Env}

structure Gathered (cfg : FragConfig) (d : Datagram) (s : Rb) (ls : Nat → List Nat) (got : List Nat)
  (i : Nat) : Prop where
  index : i < cfg.rbufSize
  has : Has d.key s i
  only : ∀ j < cfg.rbufSize, Has d.key s j → j = i
  nodup : got.Nodup
  bound : ∀ j ∈ got, j < d.pieces.length
  size : (s.rbuf i).currentSize = (got.map d.size).sum
  ints : (ls i).map (fun k => ((s.ints k).start, (s.ints k).last)) = got.map d.interval
  data : ∃ l, (s.rbuf i).pkt = some l ∧ l.length = d.data.length ∧
    ∀ j ∈ got, ∀ t < d.size j, l[d.offset j + t]? = (d.piece j)[t]?

inductive Stage (cfg : FragConfig) (d : Datagram) (s : Rb) (ls : Nat → List Nat) : List Nat → Prop
  | fresh : (∀ i < cfg.rbufSize, ¬ Has d.key s i) → deliveries d.key s = [] → Stage cfg d s ls []
  | partly {got : List Nat} {i : Nat} : Gathered cfg d s ls got i → got ≠ [] → ¬ d.Complete got →
      deliveries d.key s = [] → Stage cfg d s ls got
  -- the entry stays until the deletion timer is over
  | kept {got : List Nat} {i : Nat} : cfg.delTimer > 0 → i < cfg.rbufSize → Has d.key s i →
      (∀ j < cfg.rbufSize, Has d.key s j → j = i) →
      (s.rbuf i).currentSize = 0 → d.Complete got → deliveries d.key s = [⟨d.key, d.data⟩] → Stage cfg d s ls got
  | gone {got : List Nat} : ¬ cfg.delTimer > 0 → (∀ i < cfg.rbufSize, ¬ Has d.key s i) → d.Complete got →
      deliveries d.key s = [⟨d.key, d.data⟩] → Stage cfg d s ls got

theorem Stage.aside (h : Stage cfg d s ls got) (ha : Aside cfg d.key s ls u ls') : Stage cfg d u ls' got := by
  have hhas : ∀ i < cfg.rbufSize, Has d.key s i → Has d.key u i := by
    intro i hi hs
    unfold Has
    rw [(ha.keep i hi hs).1]; exact hs
  cases h with
  | fresh hnone hdel => exact .fresh (fun i hi hu => hnone i hi (ha.back i hi hu)) (ha.same.trans hdel)
  | partly hg hne hpart hdel =>
    obtain ⟨hrbuf, hls, hints⟩ := ha.keep _ hg.index hg.has
    refine .partly ⟨hg.index, hhas _ hg.index hg.has, fun j hj hu => hg.only j hj (ha.back j hj hu), hg.nodup,
      hg.bound, ?_, ?_, ?_⟩
      hne hpart (ha.same.trans hdel)
    · rw [hrbuf]; exact hg.size
    · rw [hls, ← hg.ints]
      apply map_congr_left
      intro k hk
      rw [hints k hk]
    · rw [hrbuf]; exact hg.data
  | kept htimer hi hs honly hzero hall hdel =>
    refine .kept htimer hi (hhas _ hi hs) (fun j hj hu => honly j hj (ha.back j hj hu)) ?_ hall (ha.same.trans hdel)
    rw [(ha.keep _ hi hs).1]; exact hzero
  | gone htimer hnone hall hdel =>
    exact .gone htimer (fun i hi hu => hnone i hi (ha.back i hi hu)) hall (ha.same.trans hdel)

theorem Stage.delivered (h : Stage cfg d s ls got) :
    (d.Complete got → deliveries d.key s = [⟨d.key, d.data⟩]) ∧ (¬ d.Complete got → deliveries d.key s = []) := by
  cases h with
  | fresh _ hdel =>
    refine ⟨fun hall => ?_, fun _ => hdel⟩
    have hmem := hall 0 (length_pos_of_ne_nil d.pieces_ne)
    simp at hmem
  | partly _ _ hpart hdel => exact ⟨fun hall => absurd hall hpart, fun _ => hdel⟩
  | kept _ _ _ _ _ hall hdel | gone _ _ hall hdel => exact ⟨fun _ => hdel, fun hpart => absurd hall hpart⟩

/-! ## The entry of a piece -/

theorem get_fresh (ht : Tidy cfg s ls) (hnone : ∀ i < cfg.rbufSize, ¬ Has d.key s i) (hroom : Room cfg s d.key)
    (halloc : env.alloc ≠ none) : ∃ u i, s.get cfg d.key env = some (u, some i) ∧ Tidy cfg u ls ∧
      Gathered cfg d u ls [] i ∧ u.ints = s.ints ∧ u.dispatched = s.dispatched := by
  have hfound := get_found cfg s d.key
  unfold Rb.get
  split
  · rename_i i hi
    rw [hi] at hfound
    exact absurd hfound.2 (hnone i (mem_range.mp hfound.1))
  · rename_i i oldest hi
    rw [hi] at hfound
    obtain ⟨hmem, hempty⟩ := hfound.2.1 i rfl
    have hi := mem_range.mp hmem
    unfold create
    split
    · rename_i hno
      exact absurd hno halloc
    · rename_i mem _
      refine ⟨_, _, rfl, ht.setEntry rfl (by simp),
        ⟨hi, by simp [Has, setEntry], ?_, by simp, by simp, by simp [setEntry], ?_, ?_⟩, rfl, rfl⟩
      · intro j hj hhas
        by_contra hne
        exact hnone j hj (by simpa [Has, setEntry, hne] using hhas)
      · simp [ht.empty i hi hempty]
      · refine ⟨(range d.key.size).map fun j => if j < 8 then 0 else mem j, by simp [setEntry], ?_, by simp⟩
        rw [length_map, length_range]; rfl
  all_goals
    rename_i hi
    rw [hi] at hfound
    obtain ⟨j, hj, hempty | hhas⟩ := hroom
    · have hsome := hfound.2.2.1 rfl j (mem_range.mpr hj)
      simp [hempty] at hsome
    · exact absurd hhas (hnone j hj)

theorem getLoop_only (hi : i < cfg.rbufSize) (hhas : Has d.key s i)
    (honly : ∀ j < cfg.rbufSize, Has d.key s j → j = i) :
    s.getLoop d.key (range cfg.rbufSize) none none = .found i := by
  have hfound := get_found cfg s d.key
  cases hs : s.getLoop d.key (range cfg.rbufSize) none none with
  | found j =>
    rw [hs] at hfound
    rw [honly j (mem_range.mp hfound.1) hfound.2]
  | missing res oldest =>
    rw [hs] at hfound
    exact absurd hhas.2 (hfound.1 i (mem_range.mpr hi) hhas.1)

theorem Gathered.currentSize_pos (h : Gathered cfg d s ls got i) (hne : got ≠ []) : (s.rbuf i).currentSize ≠ 0 := by
  rw [h.size]
  obtain ⟨j, hj⟩ := exists_mem_of_ne_nil got hne
  have hle : d.size j ≤ (got.map d.size).sum := le_sum_of_mem (mem_map_of_mem hj)
  have hpos := Datagram.size_pos (h.bound j hj)
  omega

theorem Gathered.setArrival (h : Gathered cfg d s ls got i) (arrival : UInt32) :
    Gathered cfg d (s.setEntry i { s.rbuf i with arrival := arrival }) ls got i := by
  have hhas : ∀ j, Has d.key (s.setEntry i { s.rbuf i with arrival := arrival }) j ↔ Has d.key s j := by
    intro j
    by_cases hj : j = i
    · simp [Has, setEntry, hj]
    · simp [Has, setEntry, hj]
  refine ⟨h.index, (hhas i).mpr h.has, fun j hj hu => h.only j hj ((hhas j).mp hu), h.nodup, h.bound, ?_, h.ints, ?_⟩
  · simpa [setEntry] using h.size
  · simpa [setEntry] using h.data

theorem get_partly (ht : Tidy cfg s ls) (h : Gathered cfg d s ls got i) (hne : got ≠ []) (env : Env) :
    ∃ u, s.get cfg d.key env = some (u, some i) ∧ Tidy cfg u ls ∧ Gathered cfg d u ls got i ∧ u.ints = s.ints ∧
      u.dispatched = s.dispatched := by
  unfold Rb.get
  rw [getLoop_only h.index h.has h.only]
  simp only
  rw [if_neg fun hand => h.currentSize_pos hne hand.2]
  exact ⟨_, rfl, ht.setEntry rfl (fun h => h), h.setArrival env.getTime, rfl, rfl⟩

/-! ## A piece in its entry -/

def stored (cfg : FragConfig) (s : Rb) (i : Nat) (f : Frame) : Entry :=
  { s.rbuf i with
    currentSize := ((s.rbuf i).currentSize + f.fragSize cfg) % 2 ^ 16
    pkt := (s.rbuf i).pkt.map fun l =>
      l.take f.offset ++ f.bytes (f.fragSize cfg) ++ l.drop (f.offset + f.fragSize cfg) }

theorem store_piece (h : d.Carries j f) : s.store cfg f env i = some (s.setEntry i (s.stored cfg i f), .entry i) := by
  unfold store
  rw [if_neg h.not_iphc]
  simp [setEntry, stored]

theorem Gathered.add_size (h : Gathered cfg d s ls got i) (hj : j < d.pieces.length) (hnot : j ∉ got) :
    ((s.rbuf i).currentSize + d.size j) % 2 ^ 16 = ((j :: got).map d.size).sum := by
  have hsum : ((j :: got).map d.size).sum = (s.rbuf i).currentSize + d.size j := by
    rw [map_cons, sum_cons, h.size, add_comm]
  have hle : ((j :: got).map d.size).sum ≤ d.data.length := by
    refine Pieces.sum_sizes_le (nodup_cons.mpr ⟨hnot, h.nodup⟩) ?_
    intro m hm
    rcases mem_cons.mp hm with rfl | hm
    · exact hj
    · exact h.bound m hm
  have hsize := d.data_le
  rw [← hsum]
  exact Nat.mod_eq_of_lt (by omega)

theorem Gathered.add_data (h : Gathered cfg d s ls got i) (hf : d.Carries j f) (hnot : j ∉ got) :
    ∃ l, (s.stored cfg i f).pkt = some l ∧ l.length = d.data.length ∧
      ∀ m ∈ j :: got, ∀ t < d.size m, l[d.offset m + t]? = (d.piece m)[t]? := by
  obtain ⟨l, hl, hlen, hdata⟩ := h.data
  have hend := Datagram.end_le hf.index
  have hpiece : (d.piece j).length = d.size j := rfl
  refine ⟨l.take (d.offset j) ++ d.piece j ++ l.drop (d.offset j + (d.piece j).length), ?_, ?_, ?_⟩
  · simp only [stored, hl, map_some, hf.offset, hf.fragSize, hf.bytes, hpiece]
  · simp only [length_append, length_take, length_drop]; omega
  · intro m hm t ht
    rcases mem_cons.mp hm with rfl | hgot
    · exact Pieces.getElem?_patch_in (by omega) ht
    · have hne : m ≠ j := by
        rintro rfl
        exact hnot hgot
      have hout := Datagram.apart (d := d) hne
      rw [Pieces.getElem?_patch_out (by omega) (by omega)]
      exact hdata m hgot t ht

theorem Gathered.add_ints (ht : Tidy cfg s ls) (h : Gathered cfg d s ls got i) {k : Nat} (hfree : (s.ints k).last = 0)
    (hj : j < d.pieces.length) (e : Entry) :
    ((update ls i (k :: ls i)) i).map (fun m => ((((s.updated i k (d.offset j) (d.size j)).setEntry i e).ints m).start,
      (((s.updated i k (d.offset j) (d.size j)).setEntry i e).ints m).last)) = (j :: got).map d.interval := by
  have hlast := Datagram.end_lt hj
  have hpos := Datagram.size_pos hj
  have hstart : d.offset j % 2 ^ 16 = d.offset j := Nat.mod_eq_of_lt (by omega)
  have hend : (d.offset j + d.size j - 1) % 2 ^ 16 = d.offset j + d.size j - 1 := Nat.mod_eq_of_lt hlast
  rw [update_self, map_cons, map_cons, ← h.ints]
  congr 1
  · simp only [updated, setEntry, update_self, hstart, hend, Datagram.interval]
  · apply map_congr_left
    intro m hm
    have hne : m ≠ k := by
      rintro rfl
      exact ht.inUse.not_mem hfree h.index hm
    simp [updated, setEntry, hne]

theorem Gathered.updated (ht : Tidy cfg s ls) (h : Gathered cfg d s ls got i) (hf : d.Carries j f)
    (hnot : j ∉ got) {k : Nat}
    (hfree : (s.ints k).last = 0) : Gathered cfg d ((s.updated i k (d.offset j) (d.size j)).setEntry i
      ((s.updated i k (d.offset j) (d.size j)).stored cfg i f)) (update ls i (k :: ls i)) (j :: got) i := by
  have hhas : ∀ m, Has d.key ((s.updated i k (d.offset j) (d.size j)).setEntry i
      ((s.updated i k (d.offset j) (d.size j)).stored cfg i f)) m ↔ Has d.key s m := by
    intro m
    by_cases hm : m = i
    · simp [Has, Rb.updated, setEntry, stored, hm]
    · simp [Has, Rb.updated, setEntry, hm]
  refine ⟨h.index, (hhas i).mpr h.has, fun m hm hu => h.only m hm ((hhas m).mp hu),
    nodup_cons.mpr ⟨hnot, h.nodup⟩, ?_, ?_, h.add_ints ht hfree hf.index _, ?_⟩
  · intro m hm
    rcases mem_cons.mp hm with rfl | hm
    · exact hf.index
    · exact h.bound m hm
  · rw [← h.add_size hf.index hnot]
    simp [Rb.updated, setEntry, stored, hf.fragSize]
  · have hdata := h.add_data hf hnot
    simpa [Rb.updated, setEntry, stored] using hdata

theorem addTo_piece (ht : Tidy cfg s ls) (h : Gathered cfg d s ls got i) (hf : d.Carries j f) (hone : ¬ f.OneByte cfg)
    (hslot : s.intGetFree cfg ≠ none) (env : Env) :
    ∃ u ls' got', s.addTo cfg f env i = some (u, .entry i) ∧ Tidy cfg u ls' ∧
      Gathered cfg d u ls' got' i ∧ (∀ m, m ∈ got' ↔ m = j ∨ m ∈ got) ∧ u.dispatched = s.dispatched := by
  have hend := Datagram.end_le hf.index
  have hsize := d.data_le
  have hpos := Datagram.size_pos hf.index
  have hword : 2 ^ 16 ≤ 2 ^ cfg.word := Nat.pow_le_pow_right (by decide) cfg.word_ge
  have hkey : (s.rbuf i).key.size = d.data.length := by
    rw [h.has.2]; rfl
  have hcheck := Datagram.checkFragments_pieces hf.index (ht.chains.linked i h.index)
    (Nat.le_succ_of_le (ht.chains.length_le h.index)) h.ints h.bound
  unfold addTo
  rw [hf.offset, hf.fragSize, hkey, if_neg (by rw [Nat.mod_eq_of_lt (by omega)]; omega), hcheck]
  by_cases hmem : j ∈ got
  · rw [if_pos hmem]
    refine ⟨s, ls, got, rfl, ht, h, fun m => ⟨.inr, ?_⟩, rfl⟩
    rintro (rfl | hm)
    · exact hmem
    · exact hm
  · rw [if_neg hmem]
    rcases updateInts_cases cfg s i (d.offset j) (d.size j) with hnone | ⟨k, hk, hfree, hsome⟩
    · simp only [updateInts, map_eq_none_iff] at hnone; exact absurd hnone hslot
    · rw [hsome]
      have hlast : (d.offset j + d.size j - 1) % 2 ^ 16 ≠ 0 := by
        intro hzero
        refine hone ⟨?_, ?_⟩
        · rw [hf.offset]; omega
        · rw [hf.fragSize]; omega
      have htidy := ht.updated hk hfree h.index h.has.1 hlast
      refine ⟨_, _, j :: got, store_piece hf, htidy.setEntry rfl ?_, h.updated ht hf hmem hfree, by simp, rfl⟩
      simp [stored]

/-! ## The last piece -/

theorem Gathered.size_iff (h : Gathered cfg d s ls got i) :
    (s.rbuf i).currentSize = (s.rbuf i).key.size ↔ d.Complete got := by
  have hkey : (s.rbuf i).key.size = d.pieces.flatten.length := by
    rw [h.has.2]; rfl
  rw [hkey, h.size]
  exact Pieces.sum_sizes_eq_iff h.nodup h.bound fun _ hj => Datagram.size_pos hj

theorem Gathered.pkt_eq (h : Gathered cfg d s ls got i) (hall : d.Complete got) : (s.rbuf i).pkt = some d.data := by
  obtain ⟨l, hl, hlen, hdata⟩ := h.data
  have heq : l = d.pieces.flatten := Pieces.eq_flatten hlen fun j hj => hdata j (hall j hj)
  rw [hl, heq]
  rfl

theorem dispatch_piece (ht : Tidy cfg s ls) (h : Gathered cfg d s ls got i) (hne : got ≠ [])
    (hdel : deliveries d.key s = [])
    (now : UInt32) : ∃ u ls', s.dispatchWhenComplete cfg i true now = some u ∧ Tidy cfg u ls' ∧
      Stage cfg d u ls' got := by
  unfold dispatchWhenComplete
  by_cases hall : d.Complete got
  · rw [if_pos (h.size_iff.mpr hall)]
    simp only [h.pkt_eq hall, h.has.2, if_true, getD_some]
    generalize hs1 : ({ s with dispatched := s.dispatched ++ [⟨d.key, d.data⟩] } : Rb) = s1
    have hrbuf : s1.rbuf = s.rbuf := by rw [← hs1]
    have ht1 : Tidy cfg s1 ls := by
      rw [← hs1]; exact ht.log _
    have hdel1 : deliveries d.key s1 = [⟨d.key, d.data⟩] := by
      rw [← hs1]
      simp only [deliveries] at hdel ⊢
      rw [filter_append, hdel]; simp
    unfold tmpRm
    split
    · rename_i htimer
      have hhas : ∀ m, Has d.key
        (s1.setEntry i { s1.rbuf i with arrival := now - (cfg.timeout - cfg.delTimer), currentSize := 0 }) m ↔
          Has d.key s m := by
        intro m
        by_cases hm : m = i
        · simp [Has, setEntry, hm, hrbuf]
        · simp [Has, setEntry, hm, hrbuf]
      refine ⟨_, _, rfl, ht1.setEntry rfl (fun h => h),
        .kept htimer h.index ((hhas i).mpr h.has) ?_ (by simp [setEntry]) hall hdel1⟩
      exact fun m hm hu => h.only m hm ((hhas m).mp hu)
    · rename_i htimer
      rw [ht1.chains.remove_eq h.index]
      refine ⟨_, _, rfl, ht1.removed h.index, .gone htimer ?_ hall hdel1⟩
      intro m hm hu
      by_cases hmi : m = i
      · simp [Has, removed, setEntry, hmi] at hu
      · have hs : Has d.key s m := by simpa [Has, removed, setEntry, hmi, hrbuf] using hu
        exact hmi (h.only m hm hs)
  · rw [if_neg fun heq => hall (h.size_iff.mp heq)]
    exact ⟨_, _, rfl, ht, .partly h hne hall hdel⟩

/-! ## Runs -/

def Op.Brings (d : Datagram) (j : Nat) : Op → Prop
  | .recv f .. => d.Carries j f
  | .gc _ => False

/-- The reception of a piece needs room, and after the delivery an entry that still
stands for the datagram. -/
structure Ready (cfg : FragConfig) (d : Datagram) (s : Rb) (env : Env) : Prop where
  room : Room cfg s d.key
  alloc : (∀ i < cfg.rbufSize, ¬ Has d.key s i) → env.alloc ≠ none
  slot : s.intGetFree cfg ≠ none
  late : deliveries d.key s ≠ [] → cfg.delTimer > 0

def Quiet (cfg : FragConfig) (s : Rb) : Op → Prop
  | .recv f env env' _ _ => Undisturbed cfg s f env env'
  | .gc now => Calm cfg s now

instance (cfg : FragConfig) (s : Rb) : ∀ op, Decidable (Quiet cfg s op)
  | .recv f env env' _ _ => inferInstanceAs (Decidable (Undisturbed cfg s f env env'))
  | .gc now => inferInstanceAs (Decidable (Calm cfg s now))

def Pieced (cfg : FragConfig) (d : Datagram) (s : Rb) : Op → Prop
  | .recv f env _ netif _ =>
    (f.isFrag1 ∨ f.isFragN) → f.key = d.key → (∃ j, d.Carries j f) ∧ netif = true ∧ Ready cfg d s env
  | .gc _ => True

def Good (cfg : FragConfig) (d : Datagram) (s : Rb) (op : Op) : Prop := Quiet cfg s op ∧ Pieced cfg d s op

theorem recv_found {env' : Env} {netif : Bool} {now : UInt32} (hf : d.Carries j f) (hcalm : Calm cfg s env.gcTime)
    (hget : s.get cfg d.key env = some (t, some i)) (ht : Tidy cfg t ls) (h : Gathered cfg d t ls got i)
    (hone : ¬ f.OneByte cfg)
    (hslot : t.intGetFree cfg ≠ none) (hdel : deliveries d.key t = []) (hnetif : netif = true) :
    ∃ u ls' got', step cfg s (.recv f env env' netif now) = some u ∧ Tidy cfg u ls' ∧ Stage cfg d u ls' got' ∧
      ∀ m, m ∈ got' ↔ m = j ∨ m ∈ got := by
  obtain ⟨u, ls', got', hadd, ht', hg', hmem, hsame⟩ := addTo_piece ht h hf hone hslot env
  have hne : got' ≠ [] := ne_nil_of_mem ((hmem j).mpr (.inl rfl))
  have hdel' : deliveries d.key u = [] := by
    rw [deliveries, hsame]; exact hdel
  obtain ⟨v, ls'', hv, htv, hstage⟩ := dispatch_piece ht' hg' hne hdel' now
  have hsize : f.fragSize cfg ≠ 0 := by
    rw [hf.fragSize]
    exact Nat.ne_of_gt (Datagram.size_pos hf.index)
  have hadd' : s.add cfg f env = some (u, .entry i) := by
    rw [add, if_neg hsize, hcalm.gc, hf.key]
    simp only [bind_some, hget, hadd]
  have hfrag : f.isFrag1 ∨ f.isFragN := by
    rw [hf.isFrag1, hf.isFragN]
    by_cases hj : j = 0 <;> simp [hj]
  refine ⟨v, ls'', got', ?_, htv, hstage, hmem⟩
  simp only [step, if_pos hfrag, rbAdd, hadd', hnetif, hv]

section
variable (ht : Tidy cfg s ls) (h : Stage cfg d s ls got)
include ht h

theorem recv_piece {env' : Env} {netif : Bool} (hf : d.Carries j f)
    (hu : Undisturbed cfg s f env env') (hnetif : netif = true) (hready : Ready cfg d s env) (now : UInt32) :
    ∃ u ls' got', step cfg s (.recv f env env' netif now) = some u ∧ Tidy cfg u ls' ∧ Stage cfg d u ls' got' ∧
      ∀ m, m ∈ got' ↔ m = j ∨ m ∈ got := by
  cases h with
  | fresh hnone hdel =>
    obtain ⟨t, i, hget, ht', hg, hints, hsame⟩ := get_fresh ht hnone hready.room (hready.alloc hnone)
    refine recv_found hf hu.calm hget ht' hg hu.notOneByte ?_ ?_ hnetif
    · rw [intGetFree, hints]; exact hready.slot
    · rw [deliveries, hsame]; exact hdel
  | partly hg hne _ hdel =>
    obtain ⟨t, hget, ht', hg', hints, hsame⟩ := get_partly ht hg hne env
    refine recv_found hf hu.calm hget ht' hg' hu.notOneByte ?_ ?_ hnetif
    · rw [intGetFree, hints]; exact hready.slot
    · rw [deliveries, hsame]; exact hdel
  | kept htimer hi hhas honly hzero hall hdel =>
    -- the entry refuses the duplicate
    have hget : s.get cfg d.key env = some (s, none) := by
      rw [get, getLoop_only hi hhas honly]
      simp [htimer, hzero]
    have hsize : f.fragSize cfg ≠ 0 := by
      rw [hf.fragSize]
      exact Nat.ne_of_gt (Datagram.size_pos hf.index)
    have hadd : s.add cfg f env = some (s, .error) := by
      rw [add, if_neg hsize, hu.calm.gc, hf.key]
      simp only [bind_some, hget]
    refine ⟨s, ls, got, ?_, ht, .kept htimer hi hhas honly hzero hall hdel, fun m => ⟨.inr, ?_⟩⟩
    · simp [step, rbAdd, hadd]
    · rintro (rfl | hm)
      · exact hall m hf.index
      · exact hm
  | gone htimer _ _ hdel => exact absurd (hready.late (by rw [hdel]; simp)) htimer

theorem step_stage {op : Op} (hgood : Good cfg d s op) :
    ∃ u ls' got', step cfg s op = some u ∧ Tidy cfg u ls' ∧ Stage cfg d u ls' got' ∧
      ∀ m, m ∈ got' ↔ op.Brings d m ∨ m ∈ got := by
  cases op with
  | gc now =>
    have hcalm : Calm cfg s now := hgood.1
    exact ⟨s, ls, got, hcalm.gc, ht, h, fun m => by simp [Op.Brings]⟩
  | recv f env env' netif now =>
    obtain ⟨hu, hpiece⟩ := hgood
    by_cases hfrag : f.isFrag1 ∨ f.isFragN
    · by_cases hkey : f.key = d.key
      · obtain ⟨⟨j, hf⟩, hnetif, hready⟩ := hpiece hfrag hkey
        obtain ⟨u, ls', got', hstep, ht', hstage, hmem⟩ := recv_piece ht h hf hu hnetif hready now
        refine ⟨u, ls', got', hstep, ht', hstage, fun m => ?_⟩
        rw [hmem m]
        have hbrings : Op.Brings d m (.recv f env env' netif now) ↔ m = j := by
          refine ⟨fun hm => hf.index_unique hm, ?_⟩
          rintro rfl
          exact hf
        rw [hbrings]
      · obtain ⟨u, ls', hstep, ht', ha⟩ := recv_aside ht hkey hu netif now
        refine ⟨u, ls', got, hstep, ht', h.aside ha, fun m => ⟨.inr, ?_⟩⟩
        rintro (hm | hm)
        · exact absurd (Datagram.Carries.key hm) hkey
        · exact hm
    · refine ⟨s, ls, got, by simp only [step, if_neg hfrag], ht, h, fun m => ⟨.inr, ?_⟩⟩
      rintro (hm | hm)
      · refine absurd ?_ hfrag
        rw [Datagram.Carries.isFrag1 hm, Datagram.Carries.isFragN hm]
        by_cases hz : m = 0 <;> simp [hz]
      · exact hm

theorem run_stage {ops : List Op} (hgood : AllGood (step cfg) (Good cfg d) s ops) :
    ∃ u ls' got', runAll (step cfg) s ops = some u ∧ Tidy cfg u ls' ∧ Stage cfg d u ls' got' ∧
      ∀ m, m ∈ got' ↔ (∃ op ∈ ops, op.Brings d m) ∨ m ∈ got := by
  induction ops generalizing s ls got with
  | nil => exact ⟨s, ls, got, rfl, ht, h, fun m => by simp⟩
  | cons op ops ih =>
    obtain ⟨t, ls1, got1, hstep, ht1, h1, hmem1⟩ := step_stage ht h hgood.1
    obtain ⟨u, ls', got', hrun, ht', h', hmem⟩ := ih ht1 h1 (hgood.2 t hstep)
    refine ⟨u, ls', got', (runAll_cons hstep ops).trans hrun, ht', h', fun m => ?_⟩
    rw [hmem m, hmem1 m]
    simp only [mem_cons, exists_eq_or_imp]
    exact or_left_comm.trans or_assoc.symm

end

end

def twoPieces : Datagram where
  src := [1]
  dst := [2]
  tag := 1
  pieces := [[1, 2, 3, 4, 5, 6, 7, 8], [9, 10, 11, 12, 13, 14, 15, 16]]
  tag_lt := by decide
  size_le := by decide
  pieces_ne := by decide
  nonempty := by decide
  aligned := by decide

def pieceRecv (j : Nat) : Op := plainRecv (twoPieces.header j ++ twoPieces.piece j)

theorem pieceRecv_brings {j : Nat} (hj : j < 2) : (pieceRecv j).Brings twoPieces j := ⟨hj, rfl, rfl, rfl⟩

end Rb

end PipRiot.Sixlowpan
