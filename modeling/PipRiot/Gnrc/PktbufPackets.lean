import PipRiot.Gnrc.PktbufRealloc
import PipRiot.Lib.Linked

/-!
# Packets

A packet is a list of snips in use. Its snips are all different, so that their data
fits the buffer; the loops over a packet keep the buffer in order.
-/

namespace PipRiot.Gnrc.Pktbuf

open Function List Option

section
variable {ν : Type} {cfg : PktbufConfig} {s u : Pktbuf ν} {pkt : Option Nat} {a b d n : Nat} {l : List Nat} {q : Snip ν}

def nextOf (s : Pktbuf ν) (a : Nat) : Option (Option Nat) := (s.snips a).map Snip.next

def Linked (s : Pktbuf ν) : Option Nat → List Nat → Prop := PipRiot.Linked s.nextOf

theorem linked_cons : Linked s pkt (a :: l) ↔ pkt = some a ∧ ∃ q, s.snips a = some q ∧ Linked s q.next l := by
  cases hq : s.snips a with
  | none | some q => simp [Linked, PipRiot.Linked, nextOf, hq]

theorem Linked.congr (h : Linked s pkt l) (hsame : ∀ b ∈ l, u.snips b = s.snips b) : Linked u pkt l :=
  PipRiot.Linked.congr h fun b hb => by simp only [nextOf, hsame b hb]

theorem Linked.exists_snip (h : Linked s pkt l) (ha : a ∈ l) : ∃ q, s.snips a = some q := by
  obtain ⟨q, hq⟩ := PipRiot.Linked.exists_next h ha
  obtain ⟨p, hp, -⟩ := map_eq_some_iff.mp hq
  exact ⟨p, hp⟩

theorem Linked.nodup (h : Linked s pkt l) : l.Nodup := PipRiot.Linked.nodup h

def sizeOf (s : Pktbuf ν) (a : Nat) : Nat := ((s.snips a).map Snip.size).getD 0

theorem sizeOf_snip (hq : s.snips a = some q) : s.sizeOf a = q.size := by
  simp only [sizeOf, hq, map_some, getD_some]

section
variable (hs : Sound cfg s)
include hs

theorem Sound.size_le_block (a : Nat) : s.sizeOf a ≤ ((blocksOf cfg s (.data a)).map Prod.snd).getD 0 := by
  cases hq : s.snips a with
  | none => simp [sizeOf, hq]
  | some q =>
    have he := hs.entry a q hq
    rw [sizeOf_snip hq, blocksOf_data hq]
    cases hd : q.data with
    | none => simp [dataBlock, hd, he.null.mpr hd]
    | some d =>
      rw [dataBlock_some hd]; exact he.fits.le_align

theorem Sound.sum_sizes_le (hl : l.Nodup) : (l.map s.sizeOf).sum ≤ cfg.size := by
  have hdata : (l.map Owner.data).Nodup := hl.map fun a b h => by
    cases h; rfl
  have hsum := hs.arena.sum_le hdata
  rw [List.map_map] at hsum
  exact le_trans (sum_le_sum fun a _ => hs.size_le_block a) hsum

theorem Sound.length_le (h : Linked s pkt l) : l.length ≤ cfg.size := by
  have hsnips : (l.map Owner.snip).Nodup := h.nodup.map fun a b h => by
    cases h; rfl
  have hsum := hs.arena.sum_le hsnips
  rw [List.map_map] at hsum
  refine le_trans ?_ hsum
  have hone : (l.map fun _ => 1).sum = l.length := by simp
  rw [← hone]
  refine sum_le_sum fun a ha => ?_
  obtain ⟨q, hq⟩ := h.exists_snip ha
  simp only [comp_apply, blocksOf_snip hq, map_some, getD_some]
  exact cfg.fits_snip.align_pos cfg.snip_pos

theorem holdLoop_sound {num fuel : Nat} (hu : holdLoop cfg num fuel s pkt = some u) : Sound cfg u := by
  fun_induction holdLoop cfg num fuel s pkt with
  | case1 =>
    cases hu; exact hs
  | case2 | case3 => cases hu
  | case4 fuel s a q hq ih =>
    refine ih ?_ hu
    exact hs.relabel hq rfl rfl

theorem releaseSnip_sound (hq : s.snips a = some q) : Sound cfg (s.releaseSnip cfg a q) := by
  unfold releaseSnip
  split
  · have hdata : Grown cfg s (s.freeInternal cfg q.data q.size) (update (blocksOf cfg s) (.data a) none) := by
      cases hd : q.data with
      | none =>
        have hnone : blocksOf cfg s (.data a) = none := by rw [blocksOf_data hq, dataBlock, hd, map_none]
        have hsame : update (blocksOf cfg s) (.data a) none = blocksOf cfg s := update_eq_self_iff.mpr hnone.symm
        rw [hsame]; exact Grown.refl hs
      | some d => exact (Grown.refl hs).free ((blocksOf_data hq).trans (dataBlock_some hd))
    have g := hdata.free (o := .snip a) (by rw [update_of_ne (by simp)]; exact blocksOf_snip hq)
    refine ⟨?_, ?_⟩
    · rw [blocksOf_setSnip, blocksOf_congr g.snips, map_none, bind_none, update_comm (by simp)]
      exact g.arena
    · intro b q' hb
      simp only [setSnip] at hb
      by_cases e : b = a
      · rw [e, update_self] at hb; cases hb
      · rw [update_of_ne e, freeInternal_snips, freeInternal_snips] at hb
        refine (hs.entry b q' hb).keep (congrFun g.contents b) fun d hd i hi => g.data_mem hb hd ?_ hi
        rw [update_of_ne (by simp), update_of_ne (by simpa using e)]
  · exact hs.relabel hq rfl rfl

theorem releaseLoop_sound {fuel : Nat} (hu : releaseLoop cfg fuel s pkt = some u) : Sound cfg u := by
  fun_induction releaseLoop cfg fuel s pkt with
  | case1 =>
    cases hu; exact hs
  | case2 | case3 | case4 => cases hu
  | case5 fuel s a q hq hpos ih => exact ih (releaseSnip_sound hs hq) hu

theorem startWrite_sound {r : Pktbuf ν × Option Nat} (hr : s.startWrite cfg pkt = some r) : Sound cfg r.1 := by
  revert hr
  fun_cases startWrite cfg s pkt with
  | case2 => nofun
  | case1 | case5 =>
    intro hr
    cases hr; exact hs
  | case3 a q hq =>
    intro hr
    have hsrc : (Source.snip a q.data).Ok s q.size := ⟨q, hq, rfl, rfl⟩
    rw [← some.inj hr]
    exact (createSnip_spec hs q.next (hs.entry a q hq).fits hsrc q.type).1
  | case4 a q hq hshared r b hb =>
    intro hr
    cases hr
    have hsrc : (Source.snip a q.data).Ok s q.size := ⟨q, hq, rfl, rfl⟩
    obtain ⟨hsound, -, hnew⟩ := createSnip_spec hs q.next (hs.entry a q hq).fits hsrc q.type
    obtain ⟨hfresh, q', hsnips⟩ := hnew b hb
    refine hsound.relabel (q := q) ?_ rfl rfl
    rw [hsnips, update_of_ne (ne_of_none hq hfresh), hq]

theorem overwrite_sound {mem : Nat → UInt8} {offset : Nat} {l : List UInt8} (hq : s.snips a = some q)
    (hd : q.data = some d) (hle : offset + l.length ≤ q.size) (hl : Agrees l mem (d + offset))
    (hmem : ∀ i, ¬ InChunk (d + offset, l.length) i → mem i = s.mem i) :
    Sound cfg (({ s with mem := mem } : Pktbuf ν).noteContents a (overwrite (s.contents a) offset l)) := by
  have he := hs.entry a q hq
  have hbase : blocksOf cfg s (.data a) = some (d, cfg.align q.size) := (blocksOf_data hq).trans (dataBlock_some hd)
  have htake : ((s.contents a).take offset).length = offset := by
    rw [length_take, he.length]; omega
  have hlen : (overwrite (s.contents a) offset l).length = q.size := by
    simp only [overwrite, length_append, htake, length_drop, he.length]; omega
  have hold := he.bytes d hd
  have hnew : Agrees (overwrite (s.contents a) offset l) mem d := by
    refine Agrees.append (Agrees.append ?_ ?_) ?_
    · refine (hold.take offset).frame fun i hi => hmem _ fun hin => ?_
      have := hin.1; omega
    · rw [htake]; exact hl
    · rw [length_append, htake]
      refine (hold.drop (offset + l.length)).frame fun i hi => hmem _ fun hin => ?_
      have := hin.2; omega
  have hcontents : (({ s with mem := mem } : Pktbuf ν).noteContents a (overwrite (s.contents a) offset l)).contents a =
      overwrite (s.contents a) offset l := update_self ..
  refine hs.set (a := a) (q := q) (update_eq_self_iff.mpr hq.symm).symm ?_ ?_ ⟨he.fits, he.null, ?_, ?_⟩ ?_
  · intro b hb; exact update_of_ne hb ..
  · exact hs.arena
  · rw [hcontents]; exact hlen
  · rw [hcontents]
    intro e hde
    cases hd.symm.trans hde
    exact hnew
  · intro b q' e hne hb hde i hi
    refine hmem i fun hin => hne ?_
    have hbb : blocksOf cfg s (.data b) = some (e, cfg.align q'.size) := (blocksOf_data hb).trans (dataBlock_some hde)
    have hia : InChunk (d, cfg.align q.size) i := by
      have hge := he.fits.le_align
      have h1 := hin.1
      have h2 := hin.2
      exact ⟨by simp only; omega, by simp only; omega⟩
    cases hs.arena.apart _ _ _ _ i hbb hbase hi hia
    rfl

theorem write_sound {i : Nat} {v : UInt8} (hu : s.write a i v = some u) : Sound cfg u := by
  unfold write at hu
  split at hu
  · cases hu
  · rename_i q hq
    split at hu
    · rename_i hi
      obtain ⟨d, hd⟩ : ∃ d, q.data = some d := ne_none_iff_exists'.mp fun hnone => by
        have := (hs.entry a q hq).null.mpr hnone; omega
      rw [hd] at hu
      cases hu
      refine overwrite_sound hs hq hd hi ?_ fun j hj => copy_of_not hj
      exact Agrees.caller (fun _ => v) 1
    · cases hu

end

end

end PipRiot.Gnrc.Pktbuf
