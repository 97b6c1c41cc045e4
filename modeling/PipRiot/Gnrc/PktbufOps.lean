import PipRiot.Gnrc.PktbufArena

/-!
# The operations of the packet buffer

Every operation keeps the arena in order and the data of the snips in place.
-/

namespace PipRiot.Gnrc.Pktbuf

open Function Option

section
variable {ν : Type} {cfg : PktbufConfig} {s u v : Pktbuf ν} {blocks : Owner → Option (Nat × Nat)} {a d n p : Nat}
  {q : Snip ν}

structure Grown (cfg : PktbufConfig) (s u : Pktbuf ν) (blocks : Owner → Option (Nat × Nat)) : Prop where
  arena : Arena cfg.unit cfg.size u.free blocks
  snips : u.snips = s.snips
  contents : u.contents = s.contents
  mem : ∀ o c i, blocksOf cfg s o = some c → blocks o = some c → InChunk c i → u.mem i = s.mem i

namespace Grown
variable {o : Owner}

theorem refl (h : Sound cfg s) : Grown cfg s s (blocksOf cfg s) := ⟨h.arena, rfl, rfl, fun _ _ _ _ _ _ => rfl⟩

section
variable (h : Grown cfg s u blocks)
include h

theorem alloc (hbase : blocksOf cfg s o = none) (ho : blocks o = none) (hn : 0 < n) (hf : cfg.Fits n)
    (hv : u.alloc cfg n = some (p, v)) :
    Grown cfg s v (update blocks o (some (p, cfg.align n))) ∧ InChunks u.free p := by
  obtain ⟨harena, hfree, hframes⟩ := alloc_spec h.arena ho hn hf hv
  refine ⟨⟨harena, hframes.snips.trans h.snips, hframes.contents.trans h.contents, ?_⟩, hfree⟩
  intro x c i hx hb hi
  have hne : x ≠ o := ne_of_none hx hbase
  rw [hframes.mem_of_block harena hb hi]
  rw [update_of_ne hne] at hb
  exact h.mem x c i hx hb hi

theorem free (ho : blocks o = some (p, cfg.align n)) :
    Grown cfg s (u.freeInternal cfg (some p) n) (update blocks o none) := by
  obtain ⟨harena, hframes⟩ := free_spec h.arena ho
  refine ⟨harena, hframes.snips.trans h.snips, hframes.contents.trans h.contents, ?_⟩
  intro x c i hx hb hi
  have hne : x ≠ o := ne_of_none hb (update_self ..)
  rw [hframes.mem_of_block harena hb hi]
  rw [update_of_ne hne] at hb
  exact h.mem x c i hx hb hi

theorem copy (hbase : blocksOf cfg s o = none) {c : Nat × Nat} (ho : blocks o = some c)
    (hd : ∀ i, InChunk (d, n) i → InChunk c i) (src : Nat → UInt8) :
    Grown cfg s { u with mem := Gnrc.copy u.mem d n src } blocks := by
  refine ⟨h.arena, h.snips, h.contents, ?_⟩
  intro x c' i hx hb hi
  have hne : x ≠ o := ne_of_none hx hbase
  refine (copy_of_not fun hin => hne (h.arena.apart x o c' c i hb ho hi (hd i hin))).trans ?_
  exact h.mem x c' i hx hb hi

theorem data_mem (hs : s.snips a = some q) (hd : q.data = some d)
    (hb : blocks (.data a) = blocksOf cfg s (.data a)) {i : Nat} (hi : InChunk (d, cfg.align q.size) i) :
      u.mem i = s.mem i := by
  have hbase : blocksOf cfg s (.data a) = some (d, cfg.align q.size) := (blocksOf_data hs).trans (dataBlock_some hd)
  exact h.mem (.data a) _ i hbase (hb.trans hbase) hi

end

theorem sound (h : Grown cfg s u (blocksOf cfg s)) (hs : Sound cfg s) : Sound cfg u :=
  hs.of_frames h.arena h.snips h.contents fun _ _ _ hsn hd _ hi => h.data_mem hsn hd rfl hi

end Grown

theorem inChunk_align (hf : cfg.Fits n) {i : Nat} (hi : InChunk (d, n) i) : InChunk (d, cfg.align n) i :=
  ⟨hi.1, lt_of_lt_of_le hi.2 (Nat.add_le_add_left hf.le_align _)⟩

def Source.Ok (s : Pktbuf ν) (size : Nat) : Source → Prop
  | .snip a data => ∃ q, s.snips a = some q ∧ q.size = size ∧ q.data = data
  | _ => True

theorem Source.length_contents (h : Sound cfg s) (hcontents : u.contents = s.contents) {src : Source}
    (hsrc : src.Ok s n) (d : Nat) : (src.contents u d n).length = n := by
  cases src with
  | null => simp [Source.contents, found]
  | caller bytes => simp [Source.contents]
  | snip a data =>
    obtain ⟨q, hs, rfl, -⟩ := hsrc
    simp only [Source.contents, hcontents]; exact (h.entry a q hs).length

theorem Grown.copyTo {o : Owner} (h : Grown cfg s u blocks) (hbase : blocksOf cfg s o = none)
    (ho : blocks o = some (d, cfg.align n)) (hf : cfg.Fits n) (src : Source) :
      Grown cfg s (src.copyTo u d n) blocks := by
  cases src with
  | null => exact h
  | caller bytes => exact h.copy hbase ho (fun i => inChunk_align hf) bytes
  | snip a data => exact h.copy hbase ho (fun i => inChunk_align hf) _

theorem Source.agrees (hs : Sound cfg s) (h : Grown cfg s u blocks) {src : Source} (hsrc : src.Ok s n) (hn : 0 < n)
    (hb : ∀ b, s.snips b ≠ none → blocks (.data b) = blocksOf cfg s (.data b)) :
    Agrees (src.contents u d n) (src.copyTo u d n).mem d := by
  cases src with
  | null => exact Agrees.found u.mem d n
  | caller bytes => exact Agrees.caller bytes n
  | snip a data =>
    obtain ⟨q, hq, rfl, rfl⟩ := hsrc
    obtain ⟨e, he⟩ : ∃ e, q.data = some e := ne_none_iff_exists'.mp fun hnone =>
      Nat.ne_of_gt hn ((hs.entry a q hq).null.mpr hnone)
    have hold : Agrees (s.contents a) u.mem e :=
      (hs.entry a q hq).agrees he fun i hi => h.data_mem hq he (hb a (by rw [hq]; exact some_ne_none q)) hi
    simp only [Source.contents, Source.copyTo, he, h.contents]
    exact hold.copy (le_of_eq (hs.entry a q hq).length)

def withSnip (cfg : PktbufConfig) (blocks : Owner → Option (Nat × Nat)) (a : Nat) (data : Option (Nat × Nat)) :
    Owner → Option (Nat × Nat) :=
  update (update blocks (.snip a) (some (a, cfg.align cfg.snipSize))) (.data a) data

theorem withSnip_data {b : Nat} (h : b ≠ a) (data : Option (Nat × Nat)) :
    withSnip cfg blocks a data (.data b) = blocks (.data b) := by
  rw [withSnip, update_of_ne (by simpa using h), update_of_ne (by simp)]

theorem Grown.newSnip (g : Grown cfg s u (withSnip cfg (blocksOf cfg s) a (dataBlock cfg q))) (hs : Sound cfg s)
    {l : List UInt8} (hfits : cfg.Fits q.size) (hnull : q.size = 0 ↔ q.data = none) (hlen : l.length = q.size)
    (hbytes : ∀ d, q.data = some d → Agrees l u.mem d) : Sound cfg ((u.setSnip a (some q)).noteContents a l) := by
  have hl : ((u.setSnip a (some q)).noteContents a l).contents a = l := update_self ..
  refine hs.set (a := a) (q := q) ?_ ?_ ?_ ⟨hfits, hnull, by rw [hl]; exact hlen, by rw [hl]; exact hbytes⟩ ?_
  · simp only [noteContents, setSnip, g.snips]
  · intro b hb
    simp only [noteContents, setSnip, update_of_ne hb, g.contents]
  · have hblocks : blocksOf cfg ((u.setSnip a (some q)).noteContents a l) = _ := blocksOf_setSnip cfg u a (some q)
    rw [hblocks, blocksOf_congr g.snips]; exact g.arena
  · intro b q' d hne hb hd i hi
    exact g.data_mem hb hd (withSnip_data hne _) hi

theorem Grown.allocSnip (hs : Sound cfg s) (hu : s.alloc cfg cfg.snipSize = some (a, u)) :
    s.snips a = none ∧ Grown cfg s u (withSnip cfg (blocksOf cfg s) a none) := by
  have hfree := (alloc_spec (o := .spare) hs.arena rfl cfg.snip_pos cfg.fits_snip hu).2.1
  have hnone := hs.snips_none hfree
  obtain ⟨hbs, hbd⟩ := blocksOf_none cfg hnone
  refine ⟨hnone, ?_⟩
  have hsame : withSnip cfg (blocksOf cfg s) a none =
      update (blocksOf cfg s) (.snip a) (some (a, cfg.align cfg.snipSize)) := by
    refine update_eq_self_iff.mpr ?_
    exact hbd.symm
  rw [hsame]
  exact ((Grown.refl hs).alloc hbs hbs cfg.snip_pos cfg.fits_snip hu).1

theorem Grown.allocData (g : Grown cfg s u (withSnip cfg (blocksOf cfg s) a none)) (hnone : s.snips a = none)
    (hn : 0 < n) (hf : cfg.Fits n) (hv : u.alloc cfg n = some (d, v)) :
    Grown cfg s v (withSnip cfg (blocksOf cfg s) a (some (d, cfg.align n))) := by
  have h := (g.alloc (o := .data a) (blocksOf_none cfg hnone).2 (update_self ..) hn hf hv).1
  rw [withSnip, update_idem] at h
  exact h

theorem withSnip_clear (cfg : PktbufConfig) (hs : blocks (.snip a) = none) (hd : blocks (.data a) = none)
    (data : Option (Nat × Nat)) :
    update (update (withSnip cfg blocks a data) (.snip a) none) (.data a) none = blocks := by
  funext o
  by_cases h1 : o = .data a
  · rw [h1, update_self, hd]
  · rw [update_of_ne h1]
    by_cases h2 : o = .snip a
    · rw [h2, update_self, hs]
    · rw [update_of_ne h2, withSnip, update_of_ne h1, update_of_ne h2]

theorem withSnip_snip (data : Option (Nat × Nat)) :
    withSnip cfg blocks a data (.snip a) = some (a, cfg.align cfg.snipSize) := by
  rw [withSnip, update_of_ne (by simp), update_self]

theorem withSnip_self (data : Option (Nat × Nat)) : withSnip cfg blocks a data (.data a) = data := update_self ..

theorem Grown.freeSnip (g : Grown cfg s u (withSnip cfg (blocksOf cfg s) a none)) (hnone : s.snips a = none) :
    Grown cfg s (u.freeInternal cfg (some a) cfg.snipSize) (blocksOf cfg s) := by
  obtain ⟨hbs, hbd⟩ := blocksOf_none cfg hnone
  have h := g.free (withSnip_snip none)
  have hback := withSnip_clear cfg hbs hbd none
  rw [update_eq_self_iff.mpr (by rw [update_of_ne (by simp), withSnip_self])] at hback
  rw [hback] at h
  exact h

theorem Grown.freeBoth (g : Grown cfg s u (withSnip cfg (blocksOf cfg s) a (some (d, cfg.align n))))
    (hnone : s.snips a = none) :
    Grown cfg s ((u.freeInternal cfg (some a) cfg.snipSize).freeInternal cfg (some d) n) (blocksOf cfg s) := by
  obtain ⟨hbs, hbd⟩ := blocksOf_none cfg hnone
  have g1 := g.free (withSnip_snip (some (d, cfg.align n)))
  have g2 := g1.free (o := .data a) (p := d) (n := n) (by rw [update_of_ne (by simp), withSnip_self])
  rw [withSnip_clear cfg hbs hbd] at g2
  exact g2

theorem createSnip_spec (hs : Sound cfg s) (next : Option Nat) {src : Source} (hf : cfg.Fits n) (hsrc : src.Ok s n)
    (type : ν) :
    Sound cfg (s.createSnip cfg next src n type).1 ∧
      ((s.createSnip cfg next src n type).2 = none → (s.createSnip cfg next src n type).1.snips = s.snips) ∧
      ∀ a, (s.createSnip cfg next src n type).2 = some a → s.snips a = none ∧
        ∃ q, (s.createSnip cfg next src n type).1.snips = update s.snips a (some q) := by
  unfold createSnip
  split
  · exact ⟨hs, fun _ => rfl, fun a h => by cases h⟩
  · rename_i a s1 h1
    obtain ⟨hnone, g1⟩ := Grown.allocSnip hs h1
    split
    · rename_i hn
      split
      · have g2 := g1.freeSnip hnone
        exact ⟨g2.sound hs, fun _ => g2.snips, fun a h => by cases h⟩
      · rename_i d s2 h2
        have g2 := g1.allocData hnone hn hf h2
        have g3 := g2.copyTo (blocksOf_none cfg hnone).2 (update_self ..) hf src
        refine ⟨?_, (fun h => by cases h), ?_⟩
        · refine g3.newSnip hs hf ⟨fun h => absurd h hn.ne', fun h => by cases h⟩
            (src.length_contents hs g2.contents hsrc d) ?_
          intro e he
          cases he
          refine src.agrees hs g2 hsrc hn fun b hb => withSnip_data ?_ _
          rintro rfl
          exact hb hnone
        · intro b hb
          cases hb
          exact ⟨hnone, _, by simp only [noteContents, setSnip, g3.snips]; rfl⟩
    · rename_i hn
      have hzero : n = 0 := Nat.eq_zero_of_not_pos hn
      refine ⟨?_, (fun h => by cases h), ?_⟩
      · exact Grown.newSnip g1 hs hf ⟨fun _ => rfl, fun _ => hzero⟩ hzero.symm fun d hd => by cases hd
      · intro b hb
        cases hb
        exact ⟨hnone, _, by simp only [noteContents, setSnip, g1.snips]; rfl⟩

theorem move_spare {c : Nat × Nat} (h : Arena cfg.unit cfg.size s.free blocks) (hspare : blocks .spare = some c)
    (hdata : blocks (.data a) = none) :
    Arena cfg.unit cfg.size s.free (update (update blocks (.data a) (some c)) .spare none) :=
  h.split hspare hdata c none (h.aligned _ _ hspare) (fun b hb => by cases hb)
    (fun i => by simp) fun b i hb => by cases hb

section
variable {m dm : Nat} {rest : Option Nat}

section
variable (hs : Sound cfg s) (hq : s.snips a = some q)
include hs hq

theorem setMarked_sound (hnone : s.snips m = none) (hsnips : v.snips = s.snips)
    (hcontents : v.contents = s.contents) (hn : 0 < n) (hle : n ≤ q.size) (hrest : q.size - n = 0 ↔ rest = none)
    (harena : Arena cfg.unit cfg.size v.free (update (withSnip cfg (blocksOf cfg s) m (some (dm, cfg.align n)))
      (.data a) (rest.map fun e => (e, cfg.align (q.size - n)))))
    (hmarked : Agrees ((s.contents a).take n) v.mem dm)
    (hleft : ∀ e, rest = some e → Agrees ((s.contents a).drop n) v.mem e)
    (hmem : ∀ b q' d, b ≠ a → s.snips b = some q' → q'.data = some d → ∀ i, InChunk (d, cfg.align q'.size) i →
      v.mem i = s.mem i)
    (type : ν) : Sound cfg (v.setMarked a q m dm rest n type) := by
  have hne : a ≠ m := ne_of_none hq hnone
  have he := hs.entry a q hq
  refine ⟨?_, ?_⟩
  · have hblocks : blocksOf cfg (v.setMarked a q m dm rest n type) =
        update (withSnip cfg (blocksOf cfg s) m (some (dm, cfg.align n))) (.data a)
          (rest.map fun e => (e, cfg.align (q.size - n))) := by
      have htwo := blocksOf_setSnip cfg (v.setSnip m (some ⟨q.next, some dm, n, 1, type⟩)) a
        (some { q with data := rest, size := q.size - n, next := some m })
      rw [blocksOf_setSnip cfg v m, blocksOf_congr hsnips] at htwo
      have hkeep : update (withSnip cfg (blocksOf cfg s) m (some (dm, cfg.align n))) (.snip a)
          (some (a, cfg.align cfg.snipSize)) = withSnip cfg (blocksOf cfg s) m (some (dm, cfg.align n)) := by
        refine update_eq_self_iff.mpr ?_
        rw [withSnip, update_of_ne (by simp), update_of_ne (by simpa using hne)]
        exact (blocksOf_snip hq).symm
      rw [← hkeep]; exact htwo
    rw [hblocks]; exact harena
  · intro b q' hb
    change update (update v.snips m _) a _ b = some q' at hb
    have hcont : (v.setMarked a q m dm rest n type).contents b =
        update (update s.contents m ((s.contents a).take n)) a ((s.contents a).drop n) b := by
      simp only [setMarked, noteContents, setSnip, hcontents]
    by_cases hba : b = a
    · subst hba
      rw [update_self] at hb hcont
      cases hb
      refine ⟨he.fits.mono (Nat.sub_le _ _), hrest, ?_, ?_⟩
      · rw [hcont, List.length_drop, he.length]
      · rw [hcont]; exact hleft
    · rw [update_of_ne hba] at hb hcont
      by_cases hbm : b = m
      · subst hbm
        rw [update_self] at hb hcont
        cases hb
        refine ⟨he.fits.mono hle, ⟨fun h0 => absurd h0 hn.ne', fun h0 => by cases h0⟩, ?_, ?_⟩
        · rw [hcont, List.length_take, he.length]; exact min_eq_left hle
        · rw [hcont]
          intro e hm
          cases hm; exact hmarked
      · rw [update_of_ne hbm, hsnips] at hb
        rw [update_of_ne hbm] at hcont
        exact (hs.entry b q' hb).keep hcont fun e hd => hmem b q' e hba hb hd

theorem mark_inPlace (hd : q.data = some d) (hn : 0 < n) (hle : n ≤ q.size)
    (hnone : s.snips m = none) (g : Grown cfg s u (withSnip cfg (blocksOf cfg s) m none))
    (hplace : ¬ (q.size ≠ n ∧ n < cfg.align n)) (type : ν) :
    Sound cfg (u.setMarked a q m d (if q.size ≠ n then some (d + n) else none) n type) := by
  have hne : a ≠ m := ne_of_none hq hnone
  have he := hs.entry a q hq
  have hbase : blocksOf cfg s (.data a) = some (d, cfg.align q.size) := (blocksOf_data hq).trans (dataBlock_some hd)
  have hblock : withSnip cfg (blocksOf cfg s) m none (.data a) = some (d, cfg.align q.size) :=
    (withSnip_data hne none).trans hbase
  have hmarked : withSnip cfg (blocksOf cfg s) m none (.data m) = none := update_self ..
  have hal := hs.arena.aligned _ _ hbase
  have hmem : ∀ b q' e, s.snips b = some q' → q'.data = some e → ∀ i, InChunk (e, cfg.align q'.size) i →
      u.mem i = s.mem i := by
    intro b q' e hb he' i hi
    exact g.data_mem hb he' (withSnip_data (ne_of_none hb hnone) none) hi
  have hold : Agrees (s.contents a) u.mem d := he.agrees hd (hmem a q d hq hd)
  have hfn := he.fits.mono hle
  by_cases hall : q.size = n
  · rw [if_neg (not_not.mpr hall)]
    subst hall
    refine setMarked_sound hs hq hnone g.snips g.contents hn hle ⟨fun _ => rfl, fun _ => Nat.sub_self _⟩ ?_
      (hold.take _)
      (fun e he' => by cases he') (fun b q' e _ => hmem b q' e) type
    have hsplit := g.arena.split hblock hmarked (d, cfg.align q.size) none hal
      (fun b hb => by cases hb) (fun i => by simp) (fun b i hb => by cases hb)
    rw [withSnip, update_idem] at hsplit; exact hsplit
  · -- a whole number of units, so that both parts can be freed
    rw [if_pos hall]
    have halign : cfg.align n = n := by
      have hge := hfn.le_align
      omega
    have hdvd : cfg.unit ∣ n := halign ▸ (cfg.dvd_align _)
    have hsub : cfg.align (q.size - n) = cfg.align q.size - n := he.fits.align_sub hdvd hle
    have hpart : cfg.Fits (q.size - n) := he.fits.mono (Nat.sub_le _ _)
    have hrestpos : 0 < cfg.align (q.size - n) := hpart.align_pos (by omega)
    have hbound := hal.bound
    refine setMarked_sound hs hq hnone g.snips g.contents hn hle
      ⟨fun h0 => absurd h0 (by omega), fun h0 => by cases h0⟩ ?_
      (hold.take _) ?_ (fun b q' e _ => hmem b q' e) type
    · have hsplit := g.arena.split hblock hmarked (d, cfg.align n) (some (d + n, cfg.align (q.size - n)))
        ⟨hal.start, (cfg.dvd_align _), hfn.align_pos hn, by simp only; omega⟩
        (fun b hb => by
          cases hb
          exact ⟨Nat.dvd_add hal.start hdvd, (cfg.dvd_align _), hrestpos, by simp only; omega⟩)
        (fun i => by
          simp only [InChunk, some.injEq, exists_eq_left']
          omega)
        (fun b i hb hbi hfi => by
          cases hb
          have h1 := hbi.1
          have h2 := hfi.2
          omega)
      rw [withSnip, update_idem] at hsplit; exact hsplit
    · intro e he'
      cases he'
      exact hold.drop n

theorem mark_moved {s3 s4 s5 : Pktbuf ν} {dr : Nat} (hd : q.data = some d)
    (hn : 0 < n) (hlt : n < q.size) (hnone : s.snips m = none)
    (g : Grown cfg s u (withSnip cfg (blocksOf cfg s) m (some (dm, cfg.align n))))
    (hu : u.alloc cfg (q.size - n) = some (dr, s3))
    (h4 : s4 = { s3 with mem := copy s3.mem dm n (s3.bytesAt (some d)) })
    (h5 : s5 = { s4 with mem := copy s4.mem dr (q.size - n) (s4.bytesAt (some (d + n))) }) (type : ν) :
    Sound cfg ((s5.freeInternal cfg (some d) q.size).setMarked a q m dm (some dr) n type) := by
  have hne : a ≠ m := ne_of_none hq hnone
  have he := hs.entry a q hq
  have hfn := he.fits.mono (hlt.le)
  have hfr := he.fits.mono (Nat.sub_le q.size n)
  have hbase : blocksOf cfg s (.data a) = some (d, cfg.align q.size) := (blocksOf_data hq).trans (dataBlock_some hd)
  have hdm : withSnip cfg (blocksOf cfg s) m (some (dm, cfg.align n)) (.data m) = some (dm, cfg.align n) :=
    update_self ..
  have hspare : withSnip cfg (blocksOf cfg s) m (some (dm, cfg.align n)) .spare = none := by
    rfl
  obtain ⟨g3, -⟩ := g.alloc (o := .spare) rfl hspare (Nat.sub_pos_of_lt hlt) hfr hu
  generalize hW : update (withSnip cfg (blocksOf cfg s) m (some (dm, cfg.align n))) .spare
    (some (dr, cfg.align (q.size - n))) = W at g3
  have hWm : W (.data m) = some (dm, cfg.align n) := by rw [← hW, update_of_ne (by simp), hdm]
  have hWs : W .spare = some (dr, cfg.align (q.size - n)) := by rw [← hW, update_self]
  have hWb : ∀ b, s.snips b ≠ none → W (.data b) = blocksOf cfg s (.data b) := by
    intro b hb
    rw [← hW, update_of_ne (by simp), withSnip_data]
    rintro rfl
    exact hb hnone
  have hlive : ∀ {b q'}, s.snips b = some q' → s.snips b ≠ none := fun hb => by rw [hb]; exact some_ne_none _
  have g4 := g3.copy (blocksOf_none cfg hnone).2 hWm (fun i => inChunk_align hfn) (s3.bytesAt (some d))
  rw [← h4] at g4
  have g5 := g4.copy (o := .spare) rfl hWs (fun i => inChunk_align hfr) (s4.bytesAt (some (d + n)))
  rw [← h5] at g5
  have g6 := g5.free (o := .data a) ((hWb a (hlive hq)).trans hbase)
  have hold3 : Agrees (s.contents a) s3.mem d := he.agrees hd fun i hi => g3.data_mem hq hd (hWb a (hlive hq)) hi
  have hold4 : Agrees (s.contents a) s4.mem d :=
    he.agrees hd fun i hi => g4.data_mem hq hd (hWb a (hlive hq)) hi
  have hlen1 : ((s.contents a).take n).length ≤ n := List.length_take_le ..
  have hlen2 : ((s.contents a).drop n).length ≤ q.size - n := by rw [List.length_drop, he.length]
  have hframes := (free_spec g5.arena ((hWb a (hlive hq)).trans hbase)).2
  refine setMarked_sound hs hq hnone g6.snips g6.contents hn (hlt.le)
    ⟨fun h0 => absurd h0 (Nat.sub_ne_zero_of_lt hlt), fun h0 => by cases h0⟩ ?_ ?_ ?_ ?_ type
  · have hmove := move_spare (a := a) g6.arena (c := (dr, cfg.align (q.size - n)))
      (by rw [update_of_ne (by simp), hWs]) (update_self ..)
    have hsame : update (update (update W (.data a) none) (.data a)
        (some (dr, cfg.align (q.size - n)))) .spare none =
        update (withSnip cfg (blocksOf cfg s) m (some (dm, cfg.align n))) (.data a)
          (some (dr, cfg.align (q.size - n))) := by
      have hclear : update (withSnip cfg (blocksOf cfg s) m (some (dm, cfg.align n))) .spare none =
          withSnip cfg (blocksOf cfg s) m (some (dm, cfg.align n)) := update_eq_self_iff.mpr hspare.symm
      rw [update_idem, ← hW, update_comm (show Owner.data a ≠ .spare by simp), update_idem, hclear]
    rw [hsame] at hmove; exact hmove
  · -- the copy of the first part is touched neither by the second copy nor by the free
    have hfirst : Agrees ((s.contents a).take n) s4.mem dm := by
      rw [h4]; exact (hold3.take n).copy hlen1
    refine hfirst.frame fun i hi => ?_
    have hin : InChunk (dm, cfg.align n) (dm + i) :=
      inChunk_align hfn ⟨Nat.le_add_right _ _, Nat.add_lt_add_left (lt_of_lt_of_le hi hlen1) _⟩
    rw [hframes.mem_of_block g6.arena (o := .data m) (by rw [update_of_ne (by simpa using hne.symm), hWm]) hin]
    rw [h5]
    refine copy_of_not fun hin' => ?_
    have := g3.arena.apart _ _ _ _ _ hWm hWs hin (inChunk_align hfr hin')
    cases this
  · intro e he'
    cases he'
    have hsecond : Agrees ((s.contents a).drop n) s5.mem dr := by
      rw [h5]; exact (hold4.drop n).copy hlen2
    refine hsecond.frame fun i hi => ?_
    have hin : InChunk (dr, cfg.align (q.size - n)) (dr + i) :=
      inChunk_align hfr ⟨Nat.le_add_right _ _, Nat.add_lt_add_left (lt_of_lt_of_le hi hlen2) _⟩
    exact hframes.mem_of_block g6.arena (o := .spare) (by rw [update_of_ne (by simp), hWs]) hin
  · intro b q' e hba hb he' i hi
    refine g6.data_mem hb he' ?_ hi
    rw [update_of_ne (by simpa using hba)]; exact hWb b (hlive hb)

end

end

theorem mark_sound (hs : Sound cfg s) {pkt : Option Nat} {type : ν} {r : Pktbuf ν × Option Nat}
    (hr : s.mark cfg pkt n type = some r) : Sound cfg r.1 := by
  revert hr
  fun_cases mark cfg s pkt n type with
  | case2 => nofun
  | case1 | case3 | case4 | case5 =>
    intro hr
    cases hr; exact hs
  | case6 a q hq hsize d hd m s1 h1 =>
    intro hr
    cases hr
    obtain ⟨hnone, g1⟩ := Grown.allocSnip hs h1
    exact (g1.freeSnip hnone).sound hs
  | case7 a q hq hsize d hd m s1 h1 hmove dm s2 h2 =>
    intro hr
    cases hr
    obtain ⟨hnone, g1⟩ := Grown.allocSnip hs h1
    have g2 := g1.allocData hnone (by omega) ((hs.entry a q hq).fits.mono (by omega)) h2
    exact (g2.freeBoth hnone).sound hs
  | case8 a q hq hsize d hd m s1 h1 hmove dm s2 h2 dr s3 h3 =>
    intro hr
    cases hr
    have hlt : n < q.size := by omega
    obtain ⟨hnone, g1⟩ := Grown.allocSnip hs h1
    have g2 := g1.allocData hnone (by omega) ((hs.entry a q hq).fits.mono (hlt.le)) h2
    exact mark_moved hs hq hd (by omega) hlt hnone g2 h3 rfl rfl type
  | case9 a q hq hsize d hd m s1 h1 hplace =>
    intro hr
    cases hr
    obtain ⟨hnone, g1⟩ := Grown.allocSnip hs h1
    exact mark_inPlace hs hq hd (by omega) (by omega) hnone g1 hplace type

end

end PipRiot.Gnrc.Pktbuf
