import PipRiot.Gnrc.PktbufChunks

/-!
# Snips and data in the packet buffer

Each snip in use owns the chunk of its descriptor and that of its data. What an
operation allocates is nobody's before, and its data is where the snip says.
-/

namespace PipRiot.Gnrc

open Function List Option

inductive Owner
  | snip (a : Nat)
  | data (a : Nat)
  | spare
  deriving DecidableEq

def Agrees (l : List UInt8) (mem : Nat → UInt8) (d : Nat) : Prop := ∀ i v, l[i]? = some v → mem (d + i) = v

namespace Agrees
variable {l l' : List UInt8} {mem mem' : Nat → UInt8} {d d' n k : Nat}

section
variable (h : Agrees l mem d)
include h

theorem frame (hsame : ∀ i < l.length, mem' (d + i) = mem (d + i)) : Agrees l mem' d := by
  intro i v hi
  rw [hsame i (List.getElem?_eq_some_iff.mp hi).1]
  exact h i v hi

theorem of_block (hlen : l.length ≤ n) (hsame : ∀ i, InChunk (d, n) i → mem' i = mem i) : Agrees l mem' d :=
  h.frame fun _ hi => hsame _ ⟨Nat.le_add_right _ _, Nat.add_lt_add_left (lt_of_lt_of_le hi hlen) _⟩

theorem take (k : Nat) : Agrees (l.take k) mem d := by
  intro i v hi
  rw [getElem?_take] at hi
  split at hi
  · exact h i v hi
  · cases hi

theorem drop (k : Nat) : Agrees (l.drop k) mem (d + k) := by
  intro i v hi
  rw [getElem?_drop] at hi
  rw [add_assoc]
  exact h (k + i) v hi

theorem append (h' : Agrees l' mem (d + l.length)) : Agrees (l ++ l') mem d := by
  intro i v hi
  rw [getElem?_append] at hi
  split at hi
  · exact h i v hi
  · have hsum : d + i = d + l.length + (i - l.length) := by omega
    rw [hsum]; exact h' _ v hi

end

theorem found (mem : Nat → UInt8) (d n : Nat) : Agrees (Pktbuf.found mem d n) mem d := by
  intro i v hi
  obtain ⟨hlt, hv⟩ := List.getElem?_eq_some_iff.mp hi
  rw [← hv]
  simp only [Pktbuf.found, getElem_map, getElem_range]

theorem copy (h : Agrees l mem d) (hlen : l.length ≤ n) : Agrees l (Gnrc.copy mem' d' n fun i => mem (d + i)) d' := by
  intro i v hi
  rw [Pktbuf.copy_of_mem (lt_of_lt_of_le (List.getElem?_eq_some_iff.mp hi).1 hlen)]
  exact h i v hi

theorem caller (bytes : Nat → UInt8) (n : Nat) : Agrees ((range n).map bytes) (Gnrc.copy mem d n bytes) d := by
  intro i v hi
  obtain ⟨hlt, hv⟩ := List.getElem?_eq_some_iff.mp hi
  rw [length_map, length_range] at hlt
  rw [Pktbuf.copy_of_mem hlt, ← hv, getElem_map, getElem_range]

end Agrees

namespace Pktbuf

section
variable {ν : Type} {cfg : PktbufConfig} {s u : Pktbuf ν} {blocks : Owner → Option (Nat × Nat)} {o : Owner}
  {a d n p : Nat}

@[simp] theorem freeInternal_snips (s : Pktbuf ν) (data : Option Nat) (n : Nat) :
    (s.freeInternal cfg data n).snips = s.snips := by
  unfold freeInternal
  split
  · rfl
  · split
    · rfl
    · rfl

structure Frames (s u : Pktbuf ν) : Prop where
  mem : ∀ i, ¬ InChunks u.free i → u.mem i = s.mem i
  snips : u.snips = s.snips
  contents : u.contents = s.contents

theorem alloc_spec (h : Arena cfg.unit cfg.size s.free blocks) (ho : blocks o = none) (hn : 0 < n) (hf : cfg.Fits n)
    (hu : s.alloc cfg n = some (p, u)) :
    Arena cfg.unit cfg.size u.free (update blocks o (some (p, cfg.align n))) ∧ InChunks s.free p ∧ Frames s u := by
  unfold alloc at hu
  split at hu
  · cases hu
  · rename_i p' r hr
    cases hu
    obtain ⟨l, hl, hchunks, hal, -, hsplit, hout⟩ := allocLoop_spec (hf.align_pos hn) (cfg.dvd_align _) h.chunks hr
    subst hl
    refine ⟨h.take ho hchunks hal hsplit hout, (hsplit p).mpr (.inr hal.self), ?_, rfl, rfl⟩
    intro i hi; exact writeHeaders_of_not hchunks hi

theorem freeInternal_spec (hchunks : Chunks cfg.unit cfg.size 0 s.free)
    (hal : Aligned cfg.unit cfg.size (p, cfg.align n))
    (hapart : ∀ i, InChunk (p, cfg.align n) i → ¬ InChunks s.free i) :
    Chunks cfg.unit cfg.size 0 (s.freeInternal cfg (some p) n).free ∧
      (∀ i, InChunks (s.freeInternal cfg (some p) n).free i ↔ InChunks s.free i ∨ InChunk (p, cfg.align n) i) ∧
      Frames s (s.freeInternal cfg (some p) n) := by
  have hbound := hal.bound
  have hpos := hal.pos
  have hlt : p < cfg.size := by omega
  have hsize : (if distance cfg cfg.size (p + cfg.align n) < cfg.unit then
      cfg.align n + distance cfg cfg.size (p + cfg.align n) else cfg.align n) = cfg.align n := by
    rw [distance_eq hbound le_rfl]
    split
    · rename_i hend
      -- what is left at the end is a multiple of the unit
      have hz := eq_of_dvd_of_lt (Nat.dvd_add hal.start hal.length) cfg.unit_dvd hbound hend
      omega
    · rfl
  simp only [freeInternal, if_pos hlt, hsize]
  obtain ⟨h1, h2⟩ := insertChunk_spec hal hchunks hapart
  refine ⟨h1, h2, ?_, rfl, rfl⟩
  intro i hi
  refine (writeHeaders_of_not h1 hi).trans (copy_of_not fun hh => hi ((h2 i).mpr (.inr ?_)))
  exact inChunk_header hal hh

theorem free_spec (h : Arena cfg.unit cfg.size s.free blocks) (ho : blocks o = some (p, cfg.align n)) :
    Arena cfg.unit cfg.size (s.freeInternal cfg (some p) n).free (update blocks o none) ∧
      Frames s (s.freeInternal cfg (some p) n) := by
  obtain ⟨h1, h2, h3⟩ := freeInternal_spec h.chunks (h.aligned o _ ho) (h.clear o _ · ho)
  exact ⟨h.give ho h1 h2, h3⟩

namespace Frames

theorem refl (s : Pktbuf ν) : Frames s s := ⟨fun _ _ => rfl, rfl, rfl⟩

theorem mem_of_block (h : Frames s u) (ha : Arena cfg.unit cfg.size u.free blocks) {c : Nat × Nat}
    (ho : blocks o = some c) {i : Nat} (hi : InChunk c i) : u.mem i = s.mem i := h.mem i (ha.clear o c i ho hi)

end Frames

def dataBlock (cfg : PktbufConfig) (q : Snip ν) : Option (Nat × Nat) := q.data.map fun d => (d, cfg.align q.size)

def blocksOf (cfg : PktbufConfig) (s : Pktbuf ν) : Owner → Option (Nat × Nat)
  | .snip a => (s.snips a).map fun _ => (a, cfg.align cfg.snipSize)
  | .data a => (s.snips a).bind (dataBlock cfg)
  | .spare => none

structure Entry (cfg : PktbufConfig) (s : Pktbuf ν) (a : Nat) (q : Snip ν) : Prop where
  fits : cfg.Fits q.size
  null : q.size = 0 ↔ q.data = none
  length : (s.contents a).length = q.size
  bytes : ∀ d, q.data = some d → Agrees (s.contents a) s.mem d

structure Sound (cfg : PktbufConfig) (s : Pktbuf ν) : Prop where
  arena : Arena cfg.unit cfg.size s.free (blocksOf cfg s)
  entry : ∀ a q, s.snips a = some q → Entry cfg s a q

variable {q : Snip ν}

theorem Entry.agrees {mem : Nat → UInt8} (h : Entry cfg s a q) (hd : q.data = some d)
    (hsame : ∀ i, InChunk (d, cfg.align q.size) i → mem i = s.mem i) : Agrees (s.contents a) mem d := by
  refine (h.bytes d hd).of_block ?_ hsame
  rw [h.length]
  exact h.fits.le_align

theorem Entry.keep (h : Entry cfg s a q) (hcontents : u.contents a = s.contents a)
    (hmem : ∀ d, q.data = some d → ∀ i, InChunk (d, cfg.align q.size) i → u.mem i = s.mem i) : Entry cfg u a q := by
  refine ⟨h.fits, h.null, ?_, ?_⟩
  · rw [hcontents]; exact h.length
  · intro d hd
    rw [hcontents]; exact h.agrees hd (hmem d hd)

theorem blocksOf_setSnip (cfg : PktbufConfig) (s : Pktbuf ν) (a : Nat) (q : Option (Snip ν)) :
    blocksOf cfg (s.setSnip a q) = update (update (blocksOf cfg s) (.snip a)
      (q.map fun _ => (a, cfg.align cfg.snipSize))) (.data a) (q.bind (dataBlock cfg)) := by
  funext o
  cases o with
  | snip b =>
    by_cases e : b = a
    · subst e
      simp [blocksOf, setSnip]
    · simp [blocksOf, setSnip, e]
  | data b =>
    by_cases e : b = a
    · subst e
      simp [blocksOf, setSnip]
    · simp [blocksOf, setSnip, e]
  | spare =>
    rfl

theorem blocksOf_congr (h : u.snips = s.snips) : blocksOf cfg u = blocksOf cfg s := by
  funext o
  cases o with
  | snip b | data b => simp only [blocksOf, h]
  | spare => rfl

theorem blocksOf_data (hs : s.snips a = some q) : blocksOf cfg s (.data a) = dataBlock cfg q := by
  simp only [blocksOf, hs, bind_some]

theorem dataBlock_some (hd : q.data = some d) : dataBlock cfg q = some (d, cfg.align q.size) := by
  simp only [dataBlock, hd, map_some]

theorem blocksOf_snip (hs : s.snips a = some q) : blocksOf cfg s (.snip a) = some (a, cfg.align cfg.snipSize) := by
  simp only [blocksOf, hs, map_some]

theorem blocksOf_none (cfg : PktbufConfig) (hs : s.snips a = none) :
    blocksOf cfg s (.snip a) = none ∧ blocksOf cfg s (.data a) = none := by
  simp [blocksOf, hs]

namespace Sound

theorem init (cfg : PktbufConfig) (mem : Nat → UInt8) : Sound cfg (init cfg mem : Pktbuf ν) where
  arena := by
    have hnone : blocksOf cfg (Pktbuf.init cfg mem : Pktbuf ν) = fun _ => none := by
      funext o
      cases o <;> rfl
    rw [hnone]
    exact Arena.start cfg.unit_dvd cfg.size_pos
  entry a q h := by cases h

theorem snips_none (h : Sound cfg s) (hfree : InChunks s.free a) : s.snips a = none := by
  cases hs : s.snips a with
  | none => rfl
  | some q =>
    have hb : blocksOf cfg s (.snip a) = some (a, cfg.align cfg.snipSize) := by simp only [blocksOf, hs, map_some]
    exact absurd hfree (h.arena.clear _ _ a hb (h.arena.aligned _ _ hb).self)

theorem of_frames (h : Sound cfg s) (harena : Arena cfg.unit cfg.size u.free (blocksOf cfg s))
    (hsnips : u.snips = s.snips) (hcontents : u.contents = s.contents)
    (hmem : ∀ a q d, s.snips a = some q → q.data = some d → ∀ i, InChunk (d, cfg.align q.size) i → u.mem i = s.mem i) :
    Sound cfg u := by
  refine ⟨?_, ?_⟩
  · rw [blocksOf_congr hsnips]; exact harena
  · intro a q hs
    rw [hsnips] at hs
    exact (h.entry a q hs).keep (congrFun hcontents a) fun d hd => hmem a q d hs hd

theorem set (h : Sound cfg s) (hsnips : u.snips = update s.snips a (some q))
    (hcontents : ∀ b, b ≠ a → u.contents b = s.contents b) (harena : Arena cfg.unit cfg.size u.free (blocksOf cfg u))
    (hentry : Entry cfg u a q)
    (hmem : ∀ b q d, b ≠ a → s.snips b = some q → q.data = some d → ∀ i, InChunk (d, cfg.align q.size) i →
      u.mem i = s.mem i) :
    Sound cfg u := by
  refine ⟨harena, ?_⟩
  intro b q' hb
  rw [hsnips] at hb
  by_cases e : b = a
  · subst e
    rw [update_self] at hb
    cases hb; exact hentry
  · rw [update_of_ne e] at hb
    exact (h.entry b q' hb).keep (hcontents b e) fun d hd => hmem b q' d e hb hd

theorem relabel (h : Sound cfg s) {q q' : Snip ν} (hs : s.snips a = some q) (hd : q'.data = q.data)
    (hn : q'.size = q.size) : Sound cfg (s.setSnip a (some q')) := by
  have he := h.entry a q hs
  refine h.set (a := a) (q := q') rfl (fun _ _ => rfl) ?_ ⟨?_, ?_, ?_, ?_⟩ fun _ _ _ _ _ _ _ _ => rfl
  · have hblock : dataBlock cfg q' = dataBlock cfg q := by simp only [dataBlock, hd, hn]
    rw [blocksOf_setSnip, map_some, bind_some, hblock, ← blocksOf_snip hs, ← blocksOf_data hs,
      update_eq_self, update_eq_self]
    exact h.arena
  · rw [hn]; exact he.fits
  · rw [hn, hd]; exact he.null
  · rw [hn]; exact he.length
  · rw [hd]; exact he.bytes

end Sound

end

end Pktbuf

end PipRiot.Gnrc
