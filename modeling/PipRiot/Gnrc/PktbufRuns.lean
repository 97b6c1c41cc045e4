import PipRiot.Gnrc.PktbufPackets
import PipRiot.Lib.System

/-!
# The packet buffer over whole runs

Calls in any order keep the buffer in order, as long as no data is asked to grow to a
size that `_align` wraps.
-/

namespace PipRiot.Gnrc.Pktbuf

open Function List Option

section
variable {ν : Type} {cfg : PktbufConfig} {s u : Pktbuf ν} {pkt : Option Nat} {a b d n : Nat} {l : List Nat} {q : Snip ν}
variable {fuel : Nat}

theorem pktLen_spec (hn : s.pktLen cfg fuel pkt = some n) :
    ∃ l, Linked s pkt l ∧ ((l.map s.sizeOf).sum < 2 ^ cfg.word → n = (l.map s.sizeOf).sum) := by
  fun_induction pktLen cfg s fuel pkt generalizing n with
  | case1 =>
    cases hn; exact ⟨[], rfl, fun _ => rfl⟩
  | case2 | case3 => cases hn
  | case4 fuel a q hq ih =>
    obtain ⟨m, hm, rfl⟩ := map_eq_some_iff.mp hn
    obtain ⟨l, hl, hsum⟩ := ih hm
    refine ⟨a :: l, linked_cons.mpr ⟨rfl, q, hq, hl⟩, fun hlt => ?_⟩
    rw [map_cons, sum_cons, sizeOf_snip hq] at hlt ⊢
    rw [hsum (by omega), Nat.mod_eq_of_lt hlt]

section
variable (hs : Sound cfg s)
include hs

theorem Sound.pktLen_eq (hn : s.pktLen cfg fuel pkt = some n) :
    ∃ l, Linked s pkt l ∧ n = (l.map s.sizeOf).sum ∧ n ≤ cfg.size := by
  obtain ⟨l, hl, hsum⟩ := pktLen_spec hn
  have hle := hs.sum_sizes_le hl.nodup
  have hlt : cfg.size < 2 ^ cfg.word := lt_of_lt_of_le (Nat.lt_add_of_pos_right cfg.unit_pos) cfg.size_fits
  have htotal := hsum (lt_of_le_of_lt hle hlt)
  exact ⟨l, hl, htotal, htotal ▸ hle⟩

theorem mergeLoop_sound {fuel offset : Nat} (hq : s.snips a = some q) (hd : q.data = some d)
    (hl : Linked s pkt l) (hle : offset + (l.map s.sizeOf).sum ≤ q.size)
    (hu : mergeLoop a d fuel s offset pkt = some u) : Sound cfg u := by
  fun_induction mergeLoop a d fuel s offset pkt generalizing l with
  | case1 =>
    cases hu; exact hs
  | case2 | case3 => cases hu
  | case4 fuel s offset b q' hq' ih =>
    cases l with
    | nil => cases hl
    | cons b' l =>
      obtain ⟨hb, q'', hq'', hrest⟩ := linked_cons.mp hl
      cases hb
      cases hq'.symm.trans hq''
      have he := hs.entry b q' hq'
      rw [map_cons, sum_cons, sizeOf_snip hq'] at hle
      refine ih ?_ hq (hrest.congr fun _ _ => rfl) (by rwa [add_assoc]) hu
      refine overwrite_sound hs hq hd (by rw [he.length]; omega) ?_ ?_
      · cases hd' : q'.data with
        | none =>
          have hnil : s.contents b = [] := eq_nil_of_length_eq_zero (he.length.trans (he.null.mpr hd'))
          rw [hnil]
          intro i v hi; cases hi
        | some e => exact (he.bytes e hd').copy he.length.le
      · intro i hi
        rw [he.length] at hi; exact copy_of_not hi

theorem reallocData_rest {s1 : Pktbuf ν} (hl : Linked s (some a) (a :: l)) (hn : n ≤ cfg.size)
    (h1 : s.reallocData cfg a n = some (s1, 0)) :
    ∃ q1, s1.snips a = some q1 ∧ q1.size = n ∧ (∀ b ∈ l, s1.snips b = s.snips b) ∧ Linked s1 q1.next l := by
  obtain ⟨-, ⟨hne, -⟩ | ⟨-, q, q1, hq, hsnips, hsize, hnext⟩⟩ := reallocData_spec hs (cfg.fits_size.mono hn) h1
  · exact absurd rfl hne
  · obtain ⟨-, q', hq', hrest⟩ := linked_cons.mp hl
    cases hq.symm.trans hq'
    have hsame : ∀ b ∈ l, s1.snips b = s.snips b := by
      intro b hb
      refine (congrFun hsnips b).trans (update_of_ne ?_ ..)
      rintro rfl
      exact (nodup_cons.mp hl.nodup).1 hb
    exact ⟨q1, by rw [hsnips, update_self], hsize, hsame, hnext ▸ hrest.congr hsame⟩

theorem merge_sound {r : Pktbuf ν × Int} (hr : s.merge cfg a = some r) : Sound cfg r.1 := by
  revert hr
  fun_cases merge cfg s a with
  | case1 | case2 | case4 | case6 | case7 | case8 | case9 => nofun
  | case3 =>
    rintro ⟨⟩
    exact hs
  | case5 q hq size hsize hdiff s1 res h1 hres =>
    rintro ⟨⟩
    obtain ⟨-, -, -, hfits⟩ := hs.pktLen_eq hsize
    exact (reallocData_spec hs (cfg.fits_size.mono hfits) h1).1
  | case10 q hq size hsize hdiff s1 res h1 hres q1 hq1 s2 h2 s3 h3 q3 hq3 =>
    rintro ⟨⟩
    obtain ⟨l, hl, htotal, hfits⟩ := hs.pktLen_eq hsize
    cases not_not.mp hres
    cases l with
    | nil => cases hl
    | cons a' l =>
      obtain ⟨ha, q', hq', -⟩ := linked_cons.mp hl
      cases ha
      cases hq.symm.trans hq'
      obtain ⟨q1', hq1', hsize1, hsame, hrest⟩ := reallocData_rest hs hl hfits h1
      cases hq1.symm.trans hq1'
      have hsizes : l.map s1.sizeOf = l.map s.sizeOf := by
        refine map_congr_left fun b hb => ?_
        simp only [sizeOf, hsame b hb]
      have hs1 := (reallocData_spec hs (cfg.fits_size.mono hfits) h1).1
      rw [map_cons, sum_cons, sizeOf_snip hq] at htotal
      obtain ⟨d, hd⟩ : ∃ d, q1.data = some d := ne_none_iff_exists'.mp fun hnone => by
        have := (hs1.entry a q1 hq1).null.mpr hnone; omega
      rw [hd] at h2
      have hs2 := mergeLoop_sound hs1 hq1 hd hrest (by rw [hsizes, hsize1, htotal]) h2
      exact (releaseLoop_sound hs2 h3).relabel hq3 rfl rfl

theorem deleteLoop_sound {q : Snip ν} (hu : deleteLoop b q fuel s pkt = some u) : Sound cfg u := by
  fun_induction deleteLoop b q fuel s pkt with
  | case1 =>
    cases hu; exact hs
  | case2 | case3 => cases hu
  | case4 fuel s a p hp =>
    cases hu; exact hs.relabel hp rfl rfl
  | case5 fuel s a p hp hne ih => exact ih hs hu

theorem removeSnip_sound {r : Pktbuf ν × Option Nat} (hr : s.removeSnip cfg pkt b = some r) : Sound cfg r.1 := by
  revert hr
  fun_cases removeSnip cfg s pkt b with
  | case1 | case2 | case3 => nofun
  | case4 q hq r s1 res h1 q1 hq1 =>
    intro hr
    obtain ⟨u, hu, rfl⟩ := map_eq_some_iff.mp hr
    refine releaseLoop_sound ?_ hu
    refine Sound.relabel ?_ hq1 rfl rfl
    simp only [r] at h1
    split at h1
    · cases h1; exact hs
    · obtain ⟨u, hu, heq⟩ := map_eq_some_iff.mp h1
      cases heq; exact deleteLoop_sound hs hu

end

def SizeFits (cfg : PktbufConfig) : Op ν → Prop
  | .reallocData _ size => cfg.Fits size
  | _ => True

theorem step_sound {op : Op ν} (hs : Sound cfg s) (hfits : SizeFits cfg op) (hu : step cfg s op = some u) :
    Sound cfg u := by
  cases op with
  | add next data size type =>
    cases hu
    unfold add
    split
    · exact hs
    · rename_i hle
      refine (createSnip_spec hs next (cfg.fits_size.mono (not_lt.mp hle)) ?_ type).1
      cases data with
      | none | some bytes => trivial
  | mark pkt size type =>
    obtain ⟨r, hr, rfl⟩ := map_eq_some_iff.mp hu
    exact mark_sound hs hr
  | reallocData a size =>
    obtain ⟨r, hr, rfl⟩ := map_eq_some_iff.mp hu
    exact (reallocData_spec hs hfits hr).1
  | hold pkt num => exact holdLoop_sound hs hu
  | release pkt => exact releaseLoop_sound hs hu
  | startWrite pkt =>
    obtain ⟨r, hr, rfl⟩ := map_eq_some_iff.mp hu
    exact startWrite_sound hs hr
  | merge a =>
    obtain ⟨r, hr, rfl⟩ := map_eq_some_iff.mp hu
    exact merge_sound hs hr
  | removeSnip pkt b =>
    obtain ⟨r, hr, rfl⟩ := map_eq_some_iff.mp hu
    exact removeSnip_sound hs hr
  | write a i v => exact write_sound hs hu

def Held (s : Pktbuf ν) (l : List Nat) : Prop := ∀ a ∈ l, ∀ q, s.snips a = some q → 0 < q.users

theorem holdLoop_defined {num fuel : Nat} (hl : Linked s pkt l) (hle : l.length ≤ fuel) :
    ∃ u, holdLoop cfg num fuel s pkt = some u := by
  induction l generalizing s pkt fuel with
  | nil =>
    cases hl; exact ⟨s, by rw [holdLoop]⟩
  | cons a l ih =>
    have hnot := (nodup_cons.mp hl.nodup).1
    obtain ⟨rfl, q, hq, hl⟩ := linked_cons.mp hl
    cases fuel with
    | zero => cases hle
    | succ fuel =>
      simp only [holdLoop, hq]
      refine ih (hl.congr fun b hb => update_of_ne ?_ ..) (Nat.le_of_succ_le_succ hle)
      rintro rfl
      exact hnot hb

theorem releaseSnip_snips (hne : b ≠ a) : (s.releaseSnip cfg a q).snips b = s.snips b := by
  unfold releaseSnip
  split
  · simp only [setSnip, update_of_ne hne, freeInternal_snips]
  · simp only [setSnip, update_of_ne hne]

theorem releaseLoop_defined (hl : Linked s pkt l) (hheld : Held s l) (hle : l.length ≤ fuel) :
    ∃ u, releaseLoop cfg fuel s pkt = some u ∧ ∀ b, b ∉ l → u.snips b = s.snips b := by
  induction l generalizing s pkt fuel with
  | nil =>
    cases hl
    exact ⟨s, by rw [releaseLoop], fun _ _ => rfl⟩
  | cons a l ih =>
    have hnot := (nodup_cons.mp hl.nodup).1
    obtain ⟨rfl, q, hq, hl⟩ := linked_cons.mp hl
    have hpos := hheld a mem_cons_self q hq
    have hsame : ∀ b ∈ l, (s.releaseSnip cfg a q).snips b = s.snips b := fun b hb => by
      refine releaseSnip_snips ?_
      rintro rfl
      exact hnot hb
    cases fuel with
    | zero => cases hle
    | succ fuel =>
      simp only [releaseLoop, hq, if_neg hpos.ne']
      obtain ⟨u, hu, hrest⟩ := ih (hl.congr hsame)
        (fun b hb p hp => hheld b (mem_cons_of_mem a hb) p (by rw [← hsame b hb]; exact hp))
          (Nat.le_of_succ_le_succ hle)
      refine ⟨u, hu, fun b hb => ?_⟩
      rw [hrest b fun hin => hb (mem_cons_of_mem a hin)]
      refine releaseSnip_snips ?_
      rintro rfl
      exact hb mem_cons_self

theorem pktLen_defined (hl : Linked s pkt l) (hle : l.length ≤ fuel) : ∃ n, s.pktLen cfg fuel pkt = some n := by
  induction l generalizing pkt fuel with
  | nil =>
    cases hl; exact ⟨0, by rw [pktLen]⟩
  | cons a l ih =>
    obtain ⟨rfl, q, hq, hl⟩ := linked_cons.mp hl
    cases fuel with
    | zero => cases hle
    | succ fuel =>
      obtain ⟨n, hn⟩ := ih hl (Nat.le_of_succ_le_succ hle)
      simp only [pktLen, hq, hn]; exact ⟨_, rfl⟩

theorem mergeLoop_defined {fuel offset : Nat} (hl : Linked s pkt l) (hle : l.length ≤ fuel) :
    ∃ u, mergeLoop a d fuel s offset pkt = some u ∧ u.snips = s.snips := by
  induction l generalizing s offset pkt fuel with
  | nil =>
    cases hl; exact ⟨s, by rw [mergeLoop], rfl⟩
  | cons b l ih =>
    obtain ⟨rfl, q, hq, hl⟩ := linked_cons.mp hl
    cases fuel with
    | zero => cases hle
    | succ fuel =>
      simp only [mergeLoop, hq]
      exact ih (hl.congr fun _ _ => rfl) (Nat.le_of_succ_le_succ hle)

theorem reallocData_defined (hs : Sound cfg s) (hq : s.snips a = some q) (n : Nat) :
    ∃ r, s.reallocData cfg a n = some r := by
  fun_cases reallocData cfg s a n with
  | case1 hnone => cases hq.symm.trans hnone
  | case2 q hq hnull => exact absurd (hs.entry a q hq).null hnull
  | case3 | case4 | case5 | case6 | case7 => exact ⟨_, rfl⟩

section
variable (cfg : PktbufConfig) (h : ∀ a, pkt = some a → s.snips a ≠ none)
include h

theorem mark_defined (size : Nat) (type : ν) : ∃ r, s.mark cfg pkt size type = some r := by
  fun_cases mark cfg s pkt size type with
  | case2 a hnone => exact absurd hnone (h a rfl)
  | case1 | case3 | case4 | case5 | case6 | case7 | case8 | case9 => exact ⟨_, rfl⟩

theorem startWrite_defined : ∃ r, s.startWrite cfg pkt = some r := by
  fun_cases startWrite cfg s pkt with
  | case2 a hnone => exact absurd hnone (h a rfl)
  | case1 | case3 | case4 | case5 => exact ⟨_, rfl⟩

end

theorem merge_defined (hs : Sound cfg s) (hl : Linked s (some a) l) (hheld : Held s l) :
    ∃ r, s.merge cfg a = some r := by
  obtain ⟨size, hsize⟩ : ∃ size, s.pktLen cfg cfg.size (some a) = some size := pktLen_defined hl (hs.length_le hl)
  obtain ⟨-, -, -, hfits⟩ := hs.pktLen_eq hsize
  cases l with
  | nil => cases hl
  | cons a' l =>
    have hle : l.length ≤ cfg.size := Nat.le_of_succ_le (hs.length_le hl)
    have hnot := (nodup_cons.mp hl.nodup).1
    obtain ⟨ha, q, hq, -⟩ := linked_cons.mp hl
    cases ha
    obtain ⟨⟨s1, res⟩, h1⟩ := reallocData_defined hs hq size
    unfold merge
    simp only [hq, hsize, h1]
    split
    · exact ⟨_, rfl⟩
    · split
      · exact ⟨_, rfl⟩
      · rename_i hres
        cases not_not.mp hres
        obtain ⟨q1, hq1, -, hsame, hl1⟩ := reallocData_rest hs hl hfits h1
        obtain ⟨s2, h2, hsnips2⟩ : ∃ u, mergeLoop a (q1.data.getD 0) cfg.size s1 q.size q1.next = some u ∧
          u.snips = s1.snips :=
          mergeLoop_defined hl1 hle
        obtain ⟨s3, h3, hother⟩ : ∃ u, s2.release cfg q1.next = some u ∧ ∀ b, b ∉ l → u.snips b = s2.snips b := by
          refine releaseLoop_defined (hl1.congr fun b _ => congrFun hsnips2 b) (fun b hb p hp => ?_) hle
          rw [hsnips2, hsame b hb] at hp
          exact hheld b (mem_cons_of_mem a hb) p hp
        have hq3 : s3.snips a = some q1 := by rw [hother a hnot, hsnips2, hq1]
        simp only [hq1, h2, h3, hq3]; exact ⟨_, rfl⟩

theorem deleteLoop_defined {q : Snip ν} (hl : Linked s pkt l) (hle : l.length ≤ fuel) :
    ∃ u, deleteLoop b q fuel s pkt = some u ∧ ∀ c p, s.snips c = some p →
      ∃ p', u.snips c = some p' ∧ p'.users = p.users := by
  induction l generalizing pkt fuel with
  | nil =>
    cases hl
    exact ⟨s, by rw [deleteLoop], fun c p hp => ⟨p, hp, rfl⟩⟩
  | cons a l ih =>
    obtain ⟨rfl, q', hq', hl⟩ := linked_cons.mp hl
    cases fuel with
    | zero => cases hle
    | succ fuel =>
      simp only [deleteLoop, hq']
      split
      · refine ⟨_, rfl, fun c p hp => ?_⟩
        by_cases e : c = a
        · subst e
          cases hq'.symm.trans hp
          exact ⟨_, update_self .., rfl⟩
        · exact ⟨p, (update_of_ne e ..).trans hp, rfl⟩
      · exact ih hl (Nat.le_of_succ_le_succ hle)

/-- What a caller has to keep to: packets and snips in use, and bytes that are there. -/
def Usable (s : Pktbuf ν) : Op ν → Prop
  | .add .. => True
  | .mark pkt .. => ∀ a, pkt = some a → s.snips a ≠ none
  | .reallocData a _ => s.snips a ≠ none
  | .hold pkt _ => ∃ l, Linked s pkt l
  | .release pkt => ∃ l, Linked s pkt l ∧ Held s l
  | .startWrite pkt => ∀ a, pkt = some a → s.snips a ≠ none
  | .merge a => ∃ l, Linked s (some a) l ∧ Held s l
  | .removeSnip pkt b => (∃ l, Linked s pkt l) ∧ ∃ q, s.snips b = some q ∧ 0 < q.users
  | .write a i _ => ∃ q, s.snips a = some q ∧ i < q.size

theorem removeSnip_defined (hs : Sound cfg s) (hl : Linked s pkt l) (hq : s.snips b = some q) (hpos : 0 < q.users) :
    ∃ r, s.removeSnip cfg pkt b = some r := by
  obtain ⟨s1, res, h1, q1, hq1, husers⟩ : ∃ s1 res, (if pkt = some b then some (s, q.next)
      else (deleteLoop b q cfg.size s pkt).map fun u => (u, pkt)) = some (s1, res) ∧
      ∃ q1, s1.snips b = some q1 ∧ q1.users = q.users := by
    split
    · exact ⟨s, q.next, rfl, q, hq, rfl⟩
    · obtain ⟨u, hu, hkeep⟩ := deleteLoop_defined hl (hs.length_le hl)
      obtain ⟨q1, hq1, husers⟩ := hkeep b q hq
      exact ⟨u, pkt, by rw [hu, map_some], q1, hq1, husers⟩
  have hb : (s1.setSnip b (some { q1 with next := none })).snips b = some { q1 with next := none } := update_self ..
  obtain ⟨u, hu, -⟩ : ∃ u, (s1.setSnip b (some { q1 with next := none })).release cfg (some b) = some u ∧ _ :=
    releaseLoop_defined (l := [b]) (linked_cons.mpr ⟨rfl, _, hb, rfl⟩) (fun c hc p hp => by
      cases mem_singleton.mp hc
      cases hb.symm.trans hp
      exact husers ▸ hpos) cfg.size_pos
  unfold removeSnip
  simp only [hq, h1, hq1, hu]
  exact ⟨_, rfl⟩

theorem step_defined {op : Op ν} (hs : Sound cfg s) (h : Usable s op) : ∃ u, step cfg s op = some u := by
  cases op with
  | add next data size type => exact ⟨_, rfl⟩
  | mark pkt size type =>
    obtain ⟨r, hr⟩ := mark_defined cfg h size type
    exact ⟨r.1, by simp only [step, hr, map_some]⟩
  | reallocData a size =>
    obtain ⟨q, hq⟩ := ne_none_iff_exists'.mp h
    obtain ⟨r, hr⟩ := reallocData_defined hs hq size
    exact ⟨r.1, by simp only [step, hr, map_some]⟩
  | hold pkt num =>
    obtain ⟨l, hl⟩ := h
    exact holdLoop_defined hl (hs.length_le hl)
  | release pkt =>
    obtain ⟨l, hl, hheld⟩ := h
    exact (releaseLoop_defined hl hheld (hs.length_le hl)).imp fun u hu => hu.1
  | startWrite pkt =>
    obtain ⟨r, hr⟩ := startWrite_defined cfg h
    exact ⟨r.1, by simp only [step, hr, map_some]⟩
  | merge a =>
    obtain ⟨l, hl, hheld⟩ := h
    obtain ⟨r, hr⟩ := merge_defined hs hl hheld
    exact ⟨r.1, by simp only [step, hr, map_some]⟩
  | removeSnip pkt b =>
    obtain ⟨⟨l, hl⟩, q, hq, hpos⟩ := h
    obtain ⟨r, hr⟩ := removeSnip_defined hs hl hq hpos
    exact ⟨r.1, by simp only [step, hr, map_some]⟩
  | write a i v =>
    obtain ⟨q, hq, hi⟩ := h
    exact ⟨_, by simp only [step, write, hq, if_pos hi]; rfl⟩

/-- Unused chunks in order and none next to another, everything else in use by one
owner, and the data of each snip as it was written. -/
structure InOrder (cfg : PktbufConfig) (s : Pktbuf ν) : Prop where
  sorted : s.free.Pairwise fun c c' => c.1 + c.2 < c'.1
  inside : ∀ c ∈ s.free, 0 < c.2 ∧ c.1 + c.2 ≤ cfg.size
  live : ∀ o c, blocksOf cfg s o = some c → c.1 + c.2 ≤ cfg.size ∧ ∀ i, InChunk c i → ¬ InChunks s.free i
  apart : ∀ o o' c c' i, blocksOf cfg s o = some c → blocksOf cfg s o' = some c' → InChunk c i → InChunk c' i → o = o'
  cover : ∀ i < cfg.size, InChunks s.free i ∨ ∃ o c, blocksOf cfg s o = some c ∧ InChunk c i
  data : ∀ a q d, s.snips a = some q → q.data = some d →
    q.size ≤ cfg.align q.size ∧ ∀ i < q.size, (s.contents a)[i]? = some (s.mem (d + i))
  restored : (∀ a, s.snips a = none) → s.free = [(0, cfg.size)]

theorem Sound.inOrder (hs : Sound cfg s) : InOrder cfg s where
  sorted := hs.arena.chunks.pairwise
  inside c hc := ⟨(hs.arena.chunks.aligned hc).pos, (hs.arena.chunks.aligned hc).bound⟩
  live o c ho := ⟨(hs.arena.aligned o c ho).bound, fun i => hs.arena.clear o c i ho⟩
  apart := hs.arena.apart
  cover := hs.arena.cover
  data a q d hq hd := by
    have he := hs.entry a q hq
    refine ⟨he.fits.le_align, fun i hi => ?_⟩
    rw [← he.length] at hi
    rw [getElem?_eq_getElem hi, he.bytes d hd i _ (getElem?_eq_getElem hi)]
  restored hnone := hs.arena.all_free cfg.size_pos fun o => by
    cases o with
    | snip a => exact (blocksOf_none cfg (hnone a)).1
    | data a => exact (blocksOf_none cfg (hnone a)).2
    | spare => rfl

theorem pktbuf_in_order_while_sizes_fit (mem : Nat → UInt8)
    (h : ReachVia (step cfg) (fun _ op => SizeFits cfg op) (init cfg mem : Pktbuf ν) s) :
    InOrder cfg s ∧ ∀ op, Usable s op → ∃ u, step cfg s op = some u := by
  have hs := h.inv (Sound cfg) (Sound.init cfg mem) fun _ _ _ hs hg hu => step_sound hs hg hu
  exact ⟨hs.inOrder, fun op => step_defined hs⟩

end

def smallBuffer : PktbufConfig where
  word := 32
  unit := 8
  snipSize := 24
  size := 64
  header _ _ _ := 0
  unit_pow := ⟨3, by decide, by decide⟩
  unit_dvd := by decide
  size_pos := by decide
  size_fits := by decide
  snip_pos := by decide
  snip_fits := by decide

theorem pktbuf_in_order_after_growing : ∃ s, runAll (step smallBuffer) (init smallBuffer fun _ => 0)
    [.add none (some fun _ => 7) 8 (), .reallocData 0 16] = some s ∧ s.free = [(24, 8), (48, 16)] ∧
      InOrder smallBuffer s := by
  refine ⟨_, rfl, rfl, (pktbuf_in_order_while_sizes_fit (fun _ => 0) ?_).1⟩
  refine .next (a := .reallocData 0 16) (.next (a := .add none (some fun _ => 7) 8 ()) .start trivial rfl) ?_ rfl
  exact (by decide : 16 + 8 ≤ 2 ^ 32)

/-- The new size is rounded up to zero, so that the empty snip gets the first unused
chunk and that stays unused. -/
theorem pktbuf_data_in_unused_chunk : ∃ s q, runAll (step smallBuffer) (init smallBuffer fun _ => 0)
    [.add none none 0 (), .reallocData 0 (2 ^ 32 - 4)] = some s ∧
    s.snips 0 = some q ∧ q.data = some 24 ∧ q.size = 2 ^ 32 - 4 ∧ s.free = [(24, 40)] ∧ ¬ InOrder smallBuffer s := by
  refine ⟨_, _, rfl, rfl, rfl, rfl, rfl, fun h => ?_⟩
  exact absurd (h.data 0 _ 24 rfl rfl).1 (by decide)

end PipRiot.Gnrc.Pktbuf
