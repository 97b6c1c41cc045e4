import PipRiot.Gnrc.PktbufOps

/-!
# Changing the size of the data of a snip

The data stays, moves to a larger chunk, or its end is given back; the bytes that
remain are those that were there.
-/

namespace PipRiot.Gnrc.Pktbuf

open Function List Option

section
variable {ν : Type} {cfg : PktbufConfig} {s u : Pktbuf ν} {a d n p : Nat} {q : Snip ν}

theorem Sound.setData {q' : Snip ν} {l : List UInt8} (hs : Sound cfg s) (hq : s.snips a = some q)
    (hsnips : u.snips = s.snips) (hcontents : u.contents = s.contents)
    (harena : Arena cfg.unit cfg.size u.free (update (blocksOf cfg s) (.data a) (dataBlock cfg q')))
    (hfits : cfg.Fits q'.size) (hnull : q'.size = 0 ↔ q'.data = none) (hlen : l.length = q'.size)
    (hbytes : ∀ d, q'.data = some d → Agrees l u.mem d)
    (hmem : ∀ b q d, b ≠ a → s.snips b = some q → q.data = some d → ∀ i, InChunk (d, cfg.align q.size) i →
      u.mem i = s.mem i) :
    Sound cfg ((u.setSnip a (some q')).noteContents a l) := by
  have hl : ((u.setSnip a (some q')).noteContents a l).contents a = l := update_self ..
  refine hs.set (a := a) (q := q') ?_ ?_ ?_ ⟨hfits, hnull, by rw [hl]; exact hlen, by rw [hl]; exact hbytes⟩ hmem
  · simp only [noteContents, setSnip, hsnips]
  · intro b hb
    simp only [noteContents, setSnip, update_of_ne hb, hcontents]
  · have hblocks : blocksOf cfg ((u.setSnip a (some q')).noteContents a l) = _ := blocksOf_setSnip cfg u a (some q')
    rw [hblocks, blocksOf_congr hsnips, map_some, bind_some, ← blocksOf_snip hq, update_eq_self]
    exact harena

theorem realloc_zero (hs : Sound cfg s) (hq : s.snips a = some q) (hd : q.data = some d) :
    Sound cfg (((s.freeInternal cfg (some d) q.size).setSnip a
      (some { q with data := none, size := 0 })).noteContents a []) := by
  have hbase : blocksOf cfg s (.data a) = some (d, cfg.align q.size) := (blocksOf_data hq).trans (dataBlock_some hd)
  have g := (Grown.refl hs).free hbase
  refine hs.setData hq g.snips g.contents g.arena ((hs.entry a q hq).fits.mono zero_le) (by simp) rfl
    (fun e he => by cases he) fun b q' e hne hb he i hi => ?_
  exact g.data_mem hb he (update_of_ne (by simpa using hne) ..) hi

theorem Grown.copyOld {s1 s2 : Pktbuf ν} (g : Grown cfg s s1 (update (blocksOf cfg s) .spare (some (p, cfg.align n))))
    (hs : Sound cfg s) (hq : s.snips a = some q) (hf : cfg.Fits n) (hlt : q.size < n)
    (h2 : s2 = if q.data ≠ none then { s1 with mem := Gnrc.copy s1.mem p q.size (s1.bytesAt q.data) } else s1) :
    Grown cfg s s2 (update (blocksOf cfg s) .spare (some (p, cfg.align n))) ∧
      Agrees (s.contents a ++ found s1.mem (p + q.size) (n - q.size)) s2.mem p := by
  have he := hs.entry a q hq
  cases hd : q.data with
  | none =>
    rw [hd, if_neg (not_not.mpr rfl)] at h2
    have hzero : q.size = 0 := he.null.mpr hd
    have hnil : s.contents a = [] := eq_nil_of_length_eq_zero (he.length.trans hzero)
    subst h2
    refine ⟨g, ?_⟩
    rw [hnil, hzero, nil_append]; exact Agrees.found s2.mem p (n - 0)
  | some d =>
    rw [if_pos (by rw [hd]; exact some_ne_none d), hd] at h2
    have hold : Agrees (s.contents a) s1.mem d :=
      he.agrees hd fun i hi => g.data_mem hq hd (update_of_ne (by simp) ..) hi
    have hin : ∀ i, InChunk (p, q.size) i → InChunk (p, cfg.align n) i := fun i hi =>
      inChunk_align hf ⟨hi.1, lt_trans hi.2 (Nat.add_lt_add_left hlt p)⟩
    subst h2
    refine ⟨g.copy (o := .spare) rfl (update_self ..) hin _, Agrees.append ?_ ?_⟩
    · exact hold.copy he.length.le
    · rw [he.length]
      refine (Agrees.found s1.mem (p + q.size) (n - q.size)).frame fun i _ => copy_of_not fun hin => ?_
      have := hin.2; omega

theorem realloc_grow {s1 s2 : Pktbuf ν} (hs : Sound cfg s) (hq : s.snips a = some q) (hf : cfg.Fits n)
    (hlt : q.size < n) (h1 : s.alloc cfg n = some (p, s1))
    (h2 : s2 = if q.data ≠ none then { s1 with mem := copy s1.mem p q.size (s1.bytesAt q.data) } else s1) :
    Sound cfg (((s2.freeInternal cfg q.data q.size).setSnip a
      (some { q with data := some p, size := n })).noteContents a
      (s.contents a ++ found s1.mem (p + q.size) (n - q.size))) := by
  have he := hs.entry a q hq
  have hn : 0 < n := Nat.zero_lt_of_lt hlt
  obtain ⟨g1, -⟩ := (Grown.refl hs).alloc (o := .spare) rfl rfl hn hf h1
  obtain ⟨g2, hbytes⟩ := g1.copyOld hs hq hf hlt h2
  have hlen : (s.contents a ++ found s1.mem (p + q.size) (n - q.size)).length = n := by
    simp only [length_append, he.length, found, length_map, length_range]; omega
  have hdata : update (blocksOf cfg s) .spare (some (p, cfg.align n)) (.data a) = dataBlock cfg q :=
    (update_of_ne (by simp) ..).trans (blocksOf_data hq)
  -- the old chunk is given back, where there is one
  have g3 : Grown cfg s (s2.freeInternal cfg q.data q.size)
      (update (update (blocksOf cfg s) .spare (some (p, cfg.align n))) (.data a) none) ∧
      Frames s2 (s2.freeInternal cfg q.data q.size) := by
    cases hd : q.data with
    | none =>
      rw [dataBlock, hd, map_none] at hdata
      refine ⟨?_, Frames.refl s2⟩
      rw [update_eq_self_iff.mpr hdata.symm]; exact g2
    | some d =>
      rw [dataBlock_some hd] at hdata
      exact ⟨g2.free hdata, (free_spec g2.arena hdata).2⟩
  obtain ⟨g3, hframes⟩ := g3
  have hspare : update (update (blocksOf cfg s) .spare (some (p, cfg.align n))) (.data a) none .spare =
      some (p, cfg.align n) := by rw [update_of_ne (by simp), update_self]
  have hmove := move_spare g3.arena hspare (update_self ..)
  have hclear : update (blocksOf cfg s) .spare none = blocksOf cfg s := update_eq_self_iff.mpr rfl
  rw [update_idem, update_comm (show Owner.data a ≠ .spare by simp), update_idem, hclear] at hmove
  refine hs.setData hq g3.snips g3.contents hmove hf
    ⟨fun h0 => absurd h0 hn.ne', fun h0 => by cases h0⟩ hlen ?_ ?_
  · intro e hd
    cases hd
    exact hbytes.of_block hlen.le fun i hi => hframes.mem_of_block g3.arena hspare (inChunk_align hf hi)
  · intro b q' e hne hb hd i hi
    refine g3.data_mem hb hd ?_ hi
    rw [update_of_ne (by simpa using hne), update_of_ne (by simp)]

theorem shrink_chunk (hs : Sound cfg s) (hbase : blocksOf cfg s (.data a) = some (d, cfg.align p)) (hf : cfg.Fits p)
    (hn : 0 < n) (hlt : n < p)
    (hu : u = if cfg.align p > cfg.align n then s.freeInternal cfg (some (d + cfg.align n)) (p - cfg.align n) else s) :
    Arena cfg.unit cfg.size u.free (update (blocksOf cfg s) (.data a) (some (d, cfg.align n))) ∧ Frames s u := by
  have hal := hs.arena.aligned _ _ hbase
  have hfn := hf.mono (hlt.le)
  have hge := hf.le_align
  have hpos := hfn.align_pos hn
  split at hu
  · rename_i hgt
    have hle : cfg.align n ≤ p := by
      refine not_lt.mp fun hcon => Nat.ne_of_gt hgt (hf.align_unique (cfg.dvd_align _) (hcon.le) ?_)
      exact lt_trans hfn.align_lt (Nat.add_lt_add_right hlt _)
    have hsub := hf.align_sub (cfg.dvd_align _) hle
    have hbound := hal.bound
    have hrest : Aligned cfg.unit cfg.size (d + cfg.align n, cfg.align (p - cfg.align n)) := by
      rw [hsub]
      refine ⟨Nat.dvd_add hal.start (cfg.dvd_align _), Nat.dvd_sub (cfg.dvd_align _) (cfg.dvd_align _),
        Nat.sub_pos_of_lt hgt, ?_⟩
      omega
    have hin : ∀ i, InChunk (d, cfg.align p) i ↔
        InChunk (d, cfg.align n) i ∨ InChunk (d + cfg.align n, cfg.align (p - cfg.align n)) i := by
      intro i
      simp only [InChunk, hsub]; omega
    obtain ⟨h2, h3, h4⟩ := freeInternal_spec hs.arena.chunks hrest
      fun i hi => hs.arena.clear _ _ i hbase ((hin i).mpr (.inr hi))
    subst hu
    refine ⟨hs.arena.cut hbase h2 ?_ ?_ ?_ h3, h4⟩
    · intro b hb
      cases hb
      exact ⟨hal.start, (cfg.dvd_align _), hpos, by simp only; omega⟩
    · intro i
      rw [hin i]; simp
    · intro b i hb hbi hri
      cases hb; exact not_lt.mpr hri.1 hbi.2
  · rename_i hsame
    subst hu
    have halign : cfg.align p = cfg.align n :=
      hf.align_unique (cfg.dvd_align _) (le_trans hge (not_lt.mp hsame))
        (lt_trans hfn.align_lt (Nat.add_lt_add_right hlt _))
    refine ⟨?_, Frames.refl u⟩
    rw [← halign, ← hbase, update_eq_self]; exact hs.arena

theorem realloc_shrink {s1 : Pktbuf ν} (hs : Sound cfg s) (hq : s.snips a = some q) (hd : q.data = some d) (hn : 0 < n)
    (hlt : n < q.size) (h1 : s1 = if cfg.align q.size > cfg.align n then
      s.freeInternal cfg (some (d + cfg.align n)) (q.size - cfg.align n) else s) :
    Sound cfg ((s1.setSnip a (some { q with size := n })).noteContents a ((s.contents a).take n)) := by
  have he := hs.entry a q hq
  have hfn := he.fits.mono (hlt.le)
  have hbase : blocksOf cfg s (.data a) = some (d, cfg.align q.size) := (blocksOf_data hq).trans (dataBlock_some hd)
  have hnew : dataBlock cfg { q with size := n } = some (d, cfg.align n) := dataBlock_some hd
  have hlen : ((s.contents a).take n).length = n := by
    rw [length_take, he.length]; exact min_eq_left (hlt.le)
  have hnull : n = 0 ↔ q.data = none := ⟨fun h0 => absurd h0 hn.ne', fun h0 => by rw [hd] at h0; cases h0⟩
  obtain ⟨harena, hframes⟩ := shrink_chunk hs hbase he.fits hn hlt h1
  refine hs.setData hq hframes.snips hframes.contents (by rw [hnew]; exact harena) hfn hnull hlen ?_ ?_
  · intro e hde
    cases hd.symm.trans hde
    exact ((he.bytes d hd).take n).of_block hlen.le fun i hi =>
      hframes.mem_of_block harena (update_self ..) (inChunk_align hfn hi)
  · intro b q' e hne hb hde i hi
    refine hframes.mem_of_block harena (o := .data b) ?_ hi
    rw [update_of_ne (by simpa using hne), blocksOf_data hb, dataBlock_some hde]

theorem reallocData_spec {r : Pktbuf ν × Int} (hs : Sound cfg s) (hf : cfg.Fits n)
    (hr : s.reallocData cfg a n = some r) :
    Sound cfg r.1 ∧ (r.2 ≠ 0 ∧ r.1 = s ∨
      r.2 = 0 ∧ ∃ q q', s.snips a = some q ∧ r.1.snips = update s.snips a (some q') ∧ q'.size = n ∧
        q'.next = q.next) := by
  revert hr
  fun_cases reallocData cfg s a n with
  | case1 | case2 => nofun
  | case3 q hq _ hsame =>
    intro hr
    cases hr
    exact ⟨hs, .inr ⟨rfl, q, q, hq, (update_eq_self_iff.mpr hq.symm).symm, hsame.symm, rfl⟩⟩
  | case4 q hq _ _ hzero =>
    intro hr
    cases hr
    obtain ⟨rfl, hsome⟩ := hzero
    obtain ⟨d, hd⟩ := ne_none_iff_exists'.mp hsome
    refine ⟨?_, .inr ⟨rfl, q, { q with data := none, size := 0 }, hq, ?_, rfl, rfl⟩⟩
    · rw [hd]; exact realloc_zero hs hq hd
    · simp only [noteContents, setSnip, freeInternal_snips]
  | case5 =>
    intro hr
    cases hr
    exact ⟨hs, .inl ⟨fun h0 => absurd h0 (by decide : enomem ≠ 0), rfl⟩⟩
  | case6 q hq _ _ _ hgt p s1 h1 k s2 =>
    intro hr
    cases hr
    have hsnips := ((Grown.refl hs).alloc (o := .spare) rfl rfl (Nat.zero_lt_of_lt hgt) hf h1).1.snips
    have hk : k = q.size := if_pos hgt
    refine ⟨realloc_grow hs hq hf hgt h1 (by rw [← hk]),
      .inr ⟨rfl, q, { q with data := some p, size := n }, hq, ?_, rfl, rfl⟩⟩
    simp only [noteContents, setSnip, freeInternal_snips, s2]
    split
    · rw [hsnips]
    · rw [hsnips]
  | case7 q hq _ hdiff hzero hle s1 =>
    intro hr
    cases hr
    have hlt : n < q.size := by omega
    obtain ⟨d, hd⟩ : ∃ d, q.data = some d := ne_none_iff_exists'.mp fun hnone => by
      have := (hs.entry a q hq).null.mpr hnone; omega
    have hn : 0 < n := pos_of_ne_zero fun h0 => hzero ⟨h0, by rw [hd]; exact some_ne_none d⟩
    refine ⟨?_, .inr ⟨rfl, q, { q with size := n }, hq, ?_, rfl, rfl⟩⟩
    · refine realloc_shrink hs hq hd hn hlt ?_
      simp only [s1, hd, map_some]
    · simp only [noteContents, setSnip, s1]
      split
      · rw [freeInternal_snips]
      · rfl

end

end PipRiot.Gnrc.Pktbuf
