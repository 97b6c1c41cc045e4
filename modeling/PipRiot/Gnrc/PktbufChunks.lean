import PipRiot.Lib.Arena
import PipRiot.Gnrc.Pktbuf

/-!
# The unused chunks of the packet buffer

What `_pktbuf_alloc` takes from the list of unused chunks and what
`gnrc_pktbuf_free_internal` puts into it, and that the headers are written to unused
memory only.
-/

namespace PipRiot.Gnrc

namespace PktbufConfig
variable (cfg : PktbufConfig)

def Fits (n : Nat) : Prop := n + cfg.unit ≤ 2 ^ cfg.word

variable {cfg} {n k : Nat}

theorem unit_pos : 0 < cfg.unit := by
  obtain ⟨k, -, h⟩ := cfg.unit_pow
  rw [h]
  exact Nat.two_pow_pos k

theorem dvd_align (cfg : PktbufConfig) (n : Nat) : cfg.unit ∣ cfg.align n := Nat.dvd_sub_mod _

section
variable (h : cfg.Fits n)
include h

theorem Fits.mono (hle : k ≤ n) : cfg.Fits k := le_trans (Nat.add_le_add_right hle _) h

theorem Fits.align_eq : cfg.align n = n + (cfg.unit - 1) - (n + (cfg.unit - 1)) % cfg.unit := by
  have hpos := cfg.unit_pos
  unfold Fits at h
  have hlt : n + (cfg.unit - 1) < 2 ^ cfg.word := by omega
  simp only [align, Nat.mod_eq_of_lt hlt]

theorem Fits.le_align : n ≤ cfg.align n := by
  have hlt := Nat.mod_lt (n + (cfg.unit - 1)) cfg.unit_pos
  rw [h.align_eq]
  omega

theorem Fits.align_lt : cfg.align n < n + cfg.unit := by
  have hpos := cfg.unit_pos
  rw [h.align_eq]
  omega

theorem Fits.align_unique (hd : cfg.unit ∣ k) (hle : n ≤ k) (hlt : k < n + cfg.unit) : cfg.align n = k := by
  obtain ⟨x, hx⟩ := cfg.dvd_align n
  obtain ⟨y, rfl⟩ := hd
  have h1 := h.le_align
  have h2 := h.align_lt
  have hxy : x = y := by
    rcases Nat.lt_trichotomy x y with hc | hc | hc
    · have hm := Nat.mul_le_mul_left cfg.unit hc
      rw [Nat.mul_succ] at hm; omega
    · exact hc
    · have hm := Nat.mul_le_mul_left cfg.unit hc
      rw [Nat.mul_succ] at hm; omega
  rw [hx, hxy]

theorem Fits.align_pos (hn : 0 < n) : 0 < cfg.align n := lt_of_lt_of_le hn h.le_align

theorem Fits.align_sub (hd : cfg.unit ∣ k) (hle : k ≤ n) : cfg.align (n - k) = cfg.align n - k := by
  have h1 := h.le_align
  have h2 := h.align_lt
  refine (h.mono (Nat.sub_le _ _)).align_unique (Nat.dvd_sub (cfg.dvd_align _) hd) ?_ ?_
  · omega
  · omega

end

theorem fits_snip : cfg.Fits cfg.snipSize := cfg.snip_fits

theorem fits_size : cfg.Fits cfg.size := cfg.size_fits

end PktbufConfig

namespace Pktbuf

section
variable {cfg : PktbufConfig} {n p lo i : Nat} {a b c : Nat × Nat} {l l' : List (Nat × Nat)} {mem : Nat → UInt8}

theorem distance_eq {p q : Nat} (h : q ≤ p) (hp : p ≤ cfg.size) : distance cfg p q = p - q := by
  have hf := cfg.size_fits
  have hu := cfg.unit_pos
  rw [distance, add_comm, Nat.add_sub_assoc h, Nat.add_mod_left, Nat.mod_eq_of_lt]
  omega

theorem eq_of_dvd_of_lt {x y u : Nat} (hx : u ∣ x) (hy : u ∣ y) (hle : x ≤ y) (hlt : y - x < u) : x = y := by
  have hz : y - x = 0 := Nat.eq_zero_of_dvd_of_lt (Nat.dvd_sub hy hx) hlt
  omega

theorem tooSmallHole_iff (ha : Aligned cfg.unit cfg.size a) (hb : Aligned cfg.unit cfg.size b) (hle : a.1 + a.2 ≤ b.1) :
    tooSmallHole cfg a b = true ↔ a.1 + a.2 = b.1 := by
  have hbound := hb.bound
  rw [tooSmallHole, decide_eq_true_eq, distance_eq hle (by omega)]
  constructor
  · intro hlt
    exact eq_of_dvd_of_lt (Nat.dvd_add ha.start ha.length) hb.start hle hlt
  · intro e
    rw [e, Nat.sub_self]; exact cfg.unit_pos

theorem inChunk_merge (h : a.1 + a.2 = b.1) : InChunk (mergeChunks a b) i ↔ InChunk a i ∨ InChunk b i := by
  simp only [InChunk, mergeChunks]
  omega

theorem aligned_merge (ha : Aligned cfg.unit cfg.size a) (hb : Aligned cfg.unit cfg.size b) (h : a.1 + a.2 = b.1) :
    Aligned cfg.unit cfg.size (mergeChunks a b) := by
  have hpos := ha.pos
  have hbound := hb.bound
  have hlen : (mergeChunks a b).2 = a.2 + b.2 := by
    simp only [mergeChunks]; omega
  refine ⟨ha.start, ?_, ?_, ?_⟩
  · rw [hlen]; exact Nat.dvd_add ha.length hb.length
  · omega
  · rw [hlen]
    change a.1 + (a.2 + b.2) ≤ cfg.size
    omega

def Adds (cfg : PktbufConfig) (lo : Nat) (c : Nat × Nat) (l l' : List (Nat × Nat)) : Prop :=
  Chunks cfg.unit cfg.size lo l' ∧ ∀ i, InChunks l' i ↔ InChunks l i ∨ InChunk c i

theorem le_of_apart (hb : Aligned cfg.unit cfg.size b) (hlt : a.1 < b.1)
    (hapart : ∀ i, InChunk b i → ¬ InChunk a i) : a.1 + a.2 ≤ b.1 := by
  by_contra hc
  exact hapart b.1 hb.self ⟨hlt.le, not_le.mp hc⟩

theorem joinNext_spec (ha : Aligned cfg.unit cfg.size a) (hlo : lo ≤ a.1) (hl : Chunks cfg.unit cfg.size (a.1 + 1) l)
    (hapart : ∀ i, InChunk a i → ¬ InChunks l i) : Adds cfg lo a l (joinNext cfg a l) := by
  cases l with
  | nil =>
    refine ⟨⟨hlo, ha, trivial⟩, fun i => ?_⟩
    rw [joinNext, inChunks_cons]; exact or_comm
  | cons b l =>
    obtain ⟨hab, hb, hl⟩ := hl
    have hle : a.1 + a.2 ≤ b.1 := le_of_apart hb hab fun i hbi hai => hapart i hai (inChunks_cons.mpr (.inl hbi))
    rw [joinNext]
    by_cases hmeet : a.1 + a.2 = b.1
    · rw [if_pos ((tooSmallHole_iff ha hb hle).mpr hmeet)]
      refine ⟨⟨hlo, aligned_merge ha hb hmeet, hl.mono ?_⟩, fun i => ?_⟩
      · simp only [mergeChunks]; omega
      · rw [inChunks_cons, inChunks_cons, inChunk_merge hmeet]
        tauto
    · rw [if_neg fun h => hmeet ((tooSmallHole_iff ha hb hle).mp h)]
      refine ⟨⟨hlo, ha, Nat.succ_le_of_lt (lt_of_le_of_ne hle hmeet), hb, hl⟩, fun i => ?_⟩
      rw [inChunks_cons]; exact or_comm

theorem joinPrev_spec (hp : Aligned cfg.unit cfg.size a) (hc : Aligned cfg.unit cfg.size c) (hlo : lo ≤ a.1)
    (hac : a.1 < c.1) (hl : Chunks cfg.unit cfg.size (c.1 + 1) l) (hal : Chunks cfg.unit cfg.size (a.1 + a.2 + 1) l)
    (hapart : ∀ i, InChunk c i → ¬ InChunks (a :: l) i) : Adds cfg lo c (a :: l) (joinPrev cfg a c l) := by
  have hle : a.1 + a.2 ≤ c.1 := le_of_apart hc hac fun i hci hai => hapart i hci (inChunks_cons.mpr (.inl hai))
  have hout : ∀ i, InChunk c i → ¬ InChunks l i := fun i hci hli => hapart i hci (inChunks_cons.mpr (.inr hli))
  unfold joinPrev
  by_cases hmeet : a.1 + a.2 = c.1
  · rw [if_pos ((tooSmallHole_iff hp hc hle).mpr hmeet)]
    obtain ⟨h1, h2⟩ := joinNext_spec (aligned_merge hp hc hmeet) hlo
      (hl.mono (by simp only [mergeChunks]; omega)) fun i hi hli => by
        rcases (inChunk_merge hmeet).mp hi with hai | hci
        · have hb := (hal.bounds hli).1
          have hai' := hai.2
          omega
        · exact hout i hci hli
    refine ⟨h1, fun i => ?_⟩
    rw [h2, inChunk_merge hmeet, inChunks_cons]
    tauto
  · rw [if_neg fun h => hmeet ((tooSmallHole_iff hp hc hle).mp h)]
    have hgap : a.1 + a.2 + 1 ≤ c.1 := Nat.succ_le_of_lt (lt_of_le_of_ne hle hmeet)
    obtain ⟨h1, h2⟩ := joinNext_spec hc hgap hl hout
    refine ⟨⟨hlo, hp, h1⟩, fun i => ?_⟩
    rw [inChunks_cons, inChunks_cons, h2]
    tauto

theorem lt_of_not_lt (hb : Aligned cfg.unit cfg.size b) (hc : Aligned cfg.unit cfg.size c) (hge : ¬ b.1 < c.1)
    (hapart : ∀ i, InChunk c i → ¬ InChunks (b :: l) i) : c.1 < b.1 := by
  refine lt_of_le_of_ne (not_lt.mp hge) fun e => ?_
  refine hapart c.1 hc.self (inChunks_cons.mpr (.inl ?_))
  rw [e]
  exact hb.self

theorem insertAfter_spec (hc : Aligned cfg.unit cfg.size c) : ∀ {a : Nat × Nat} {lo : Nat} {l : List (Nat × Nat)},
    Chunks cfg.unit cfg.size lo (a :: l) → a.1 < c.1 → (∀ i, InChunk c i → ¬ InChunks (a :: l) i) →
    Adds cfg lo c (a :: l) (insertAfter cfg c a l)
  | a, lo, [], h, hac, hapart => joinPrev_spec h.2.1 hc h.1 hac trivial trivial hapart
  | a, lo, b :: l, h, hac, hapart => by
    obtain ⟨hlo, ha, hl⟩ := h
    unfold insertAfter
    by_cases hbc : b.1 < c.1
    · rw [if_pos hbc]
      obtain ⟨h1, h2⟩ := insertAfter_spec hc hl hbc fun i hci hli => hapart i hci (inChunks_cons.mpr (.inr hli))
      refine ⟨⟨hlo, ha, h1⟩, fun i => ?_⟩
      rw [inChunks_cons, h2, inChunks_cons (c := a)]
      tauto
    · rw [if_neg hbc]
      have hlt := lt_of_not_lt hl.2.1 hc hbc fun i hci hli => hapart i hci (inChunks_cons.mpr (.inr hli))
      exact joinPrev_spec ha hc hlo hac ⟨hlt, hl.2⟩ hl hapart

theorem insertChunk_spec (hc : Aligned cfg.unit cfg.size c) (h : Chunks cfg.unit cfg.size 0 l)
    (hapart : ∀ i, InChunk c i → ¬ InChunks l i) : Adds cfg 0 c l (insertChunk cfg c l) := by
  cases l with
  | nil => exact joinNext_spec hc zero_le trivial hapart
  | cons b l =>
    simp only [insertChunk]
    by_cases hbc : b.1 < c.1
    · rw [if_pos hbc]; exact insertAfter_spec hc h hbc hapart
    · rw [if_neg hbc]
      exact joinNext_spec hc zero_le ⟨lt_of_not_lt h.2.1 hc hbc hapart, h.2⟩ hapart

theorem allocLoop_spec (hn : 0 < n) (hd : cfg.unit ∣ n) :
    ∀ {lo : Nat} {l : List (Nat × Nat)} {r : Nat × Option (List (Nat × Nat))},
    Chunks cfg.unit cfg.size lo l → allocLoop cfg n l = some r →
    ∃ l', r.2 = some l' ∧ Chunks cfg.unit cfg.size lo l' ∧ Aligned cfg.unit cfg.size (r.1, n) ∧ lo ≤ r.1 ∧
      (∀ i, InChunks l i ↔ InChunks l' i ∨ InChunk (r.1, n) i) ∧ ∀ i, InChunk (r.1, n) i → ¬ InChunks l' i
  | _, [], _, _, h => by cases h
  | lo, (p, m) :: l, r, hl, h => by
    obtain ⟨hlo, ha, hrest⟩ := hl
    have hbound := ha.bound
    unfold allocLoop at h
    by_cases hnm : n > m
    · rw [if_pos hnm] at h
      obtain ⟨r', hr', rfl⟩ := Option.map_eq_some_iff.mp h
      obtain ⟨l', hl', hchunks, hal, hle, hsplit, hout⟩ := allocLoop_spec hn hd hrest hr'
      refine ⟨(p, m) :: l', by rw [hl']; rfl, ⟨hlo, ha, hchunks⟩, hal, ?_, fun i => ?_, fun i hi hin => ?_⟩
      · omega
      · rw [inChunks_cons, hsplit, inChunks_cons]
        tauto
      · rcases inChunks_cons.mp hin with hp | hl'
        · have h1 := hp.2
          have h2 := hi.1
          omega
        · exact hout i hi hl'
    · rw [if_neg hnm] at h
      have hal : Aligned cfg.unit cfg.size (p, n) := ⟨ha.start, hd, hn, by simp only at hbound ⊢; omega⟩
      by_cases hsmall : cfg.unit > m - n
      · -- the rest is smaller than a header, so there is none
        rw [if_pos hsmall] at h
        cases h
        have hmn : n = m := eq_of_dvd_of_lt hd ha.length (not_lt.mp hnm) hsmall
        subst hmn
        refine ⟨l, rfl, hrest.mono (by simp only; omega), hal, hlo, fun i => ?_, fun i hi hin => ?_⟩
        · rw [inChunks_cons]; exact or_comm
        · have h1 := (hrest.bounds hin).1
          have h2 := hi.2
          omega
      · rw [if_neg hsmall] at h
        have hfit : ¬ p + n + cfg.unit > cfg.size := by
          omega
        rw [if_neg hfit] at h
        cases h
        have hpos := cfg.unit_pos
        have halr : Aligned cfg.unit cfg.size (p + n, m - n) :=
          ⟨Nat.dvd_add ha.start hd, Nat.dvd_sub ha.length hd, by simp only; omega, by simp only at hbound ⊢; omega⟩
        refine ⟨_, rfl, ⟨?_, halr, hrest.mono ?_⟩, hal, hlo, fun i => ?_, fun i hi hin => ?_⟩
        · omega
        · omega
        · rw [inChunks_cons, inChunks_cons]
          have hcut : InChunk (p, m) i ↔ InChunk (p + n, m - n) i ∨ InChunk (p, n) i := by
            simp only [InChunk]; omega
          tauto
        · rcases inChunks_cons.mp hin with hr | hin
          · have h1 := hr.1
            have h2 := hi.2
            omega
          · have h1 := (hrest.bounds hin).1
            have h2 := hi.2
            omega

theorem copy_of_not {dst m : Nat} {src : Nat → UInt8} (h : ¬ InChunk (dst, m) i) :
    copy mem dst m src i = mem i := if_neg h

theorem copy_of_mem {dst m : Nat} {src : Nat → UInt8} (h : i < m) : copy mem dst m src (dst + i) = src i := by
  rw [copy, if_pos ⟨Nat.le_add_right _ _, Nat.add_lt_add_left h _⟩, Nat.add_sub_cancel_left]

theorem inChunk_header (h : Aligned cfg.unit cfg.size c) (hi : InChunk (c.1, cfg.unit) i) : InChunk c i :=
  ⟨hi.1, lt_of_lt_of_le hi.2 (Nat.add_le_add_left (Nat.le_of_dvd h.pos h.length) _)⟩

theorem writeHeaders_of_not (h : Chunks cfg.unit cfg.size lo l) (hi : ¬ InChunks l i) :
    writeHeaders cfg l mem i = mem i := by
  induction l generalizing lo with
  | nil => rfl
  | cons c l ih =>
    obtain ⟨hc, hl⟩ := not_or.mp fun h => hi (inChunks_cons.mpr h)
    refine (copy_of_not fun hh => hc (inChunk_header h.2.1 hh)).trans ?_
    exact ih h.2.2 hl

end

end Pktbuf

end PipRiot.Gnrc
