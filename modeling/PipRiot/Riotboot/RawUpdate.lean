import PipRiot.Riotboot.Chunking

/-!
# Updates in raw mode

A full block is written to the place where the round that filled it began. The update
is right if no chunk fills a block that it did not begin, the block that is kept back
apart; otherwise the start of such a block stays erased.
-/

namespace PipRiot.Riotboot

open List

/-- The state of a raw update behind `got`, where the bytes of the head are zeros. -/
structure Raw (cfg : Config) (m : Flash) (s : State) (got : List Byte) : Prop where
  offset : s.offset = got.length
  page_le : flashpageAddr cfg s.flashpage ≤ cfg.slotStart + got.length
  le_page : cfg.slotStart + got.length ≤ flashpageAddr cfg s.flashpage + cfg.pageSize
  slot_le : cfg.slotStart ≤ flashpageAddr cfg s.flashpage
  le_slot : flashpageAddr cfg s.flashpage + cfg.pageSize ≤ cfg.slotStart + cfg.slotSize
  buf_length : s.flashpageBuf.length = cfg.bufferSize
  buf : s.flashpageBuf.take (got.length % cfg.bufferSize) = got.drop (got.length - got.length % cfg.bufferSize)
  first_length : s.firstblockBuf.length = cfg.bufferSize
  first : cfg.bufferSize ≤ got.length → s.firstblockBuf = got.take cfg.bufferSize
  head : Blank s.flash cfg.slotStart (cfg.slotStart + cfg.bufferSize)
  written : ∀ i, cfg.bufferSize ≤ i → i < got.length - got.length % cfg.bufferSize →
    s.flash (cfg.slotStart + i) = got.getD i 0xff
  blank : Blank s.flash (cfg.slotStart + max cfg.bufferSize (got.length - got.length % cfg.bufferSize))
    (flashpageAddr cfg s.flashpage + cfg.pageSize)
  frame : ∀ x, x < cfg.slotStart ∨ flashpageAddr cfg s.flashpage + cfg.pageSize ≤ x → s.flash x = m x

section
variable {cfg : Config} {m : Flash} {s : State} {got piece : List Byte}

theorem enterPage_raw (hraw : cfg.raw = true) (h : Raw cfg m s got) (hfits : got.length < cfg.slotSize) :
    ∃ t, enterPage cfg s = .ok (t, cfg.slotStart + got.length - flashpageAddr cfg t.flashpage) ∧ Raw cfg m t got ∧
      cfg.slotStart + got.length < flashpageAddr cfg t.flashpage + cfg.pageSize := by
  have hoff := h.offset
  have hle := h.page_le
  have hpage := h.le_page
  have hslot := h.slot_le
  have hbuf := cfg.buffer_le
  by_cases hfull : s.offset - (flashpageAddr cfg s.flashpage - cfg.slotStart) = cfg.pageSize
  · have hend : cfg.slotStart + got.length = flashpageAddr cfg s.flashpage + cfg.pageSize := by omega
    have hnext := @addr_succ cfg s.flashpage
    have hpos := cfg.page_pos
    -- a page begins at the start of a block
    have hmod : got.length % cfg.bufferSize = 0 := by
      apply Nat.mod_eq_zero_of_dvd
      rw [← Nat.dvd_add_right (cfg.buffer_dvd_addr cfg.slotPage)]
      change cfg.bufferSize ∣ cfg.slotStart + got.length
      rw [hend, ← hnext]; exact cfg.buffer_dvd_addr _
    have hnumof : s.flashpage + 1 < cfg.numof := page_lt_numof (by omega)
    refine ⟨{ s with flashpage := s.flashpage + 1,
                     flash := erase s.flash (flashpageAddr cfg (s.flashpage + 1)) cfg.pageSize }, ?_, ?_, ?_⟩
    · simp only [enterPage, hraw, hfull, and_self, if_true, flashpageErase_ok hnumof, bind, Except.bind, pure,
        Except.pure]
      rw [show cfg.slotStart + got.length - flashpageAddr cfg (s.flashpage + 1) = 0 by omega]
    · refine { h with page_le := ?_, le_page := ?_, slot_le := ?_, le_slot := page_in_slot (hnext ▸ (by omega)),
                      head := ?_, written := ?_, blank := ?_, frame := ?_ }
      · exact (by omega : flashpageAddr cfg (s.flashpage + 1) ≤ cfg.slotStart + got.length)
      · exact (by omega : cfg.slotStart + got.length ≤ flashpageAddr cfg (s.flashpage + 1) + cfg.pageSize)
      · exact (by omega : cfg.slotStart ≤ flashpageAddr cfg (s.flashpage + 1))
      · exact h.head.congr fun x _ hx => erase_frame (by omega)
      · intro i hi hlt
        rw [← h.written i hi hlt]; exact erase_frame (by omega)
      · exact (blank_erase _ _ _).mono (by omega) le_rfl
      · intro x hx
        rw [← h.frame x (by dsimp only at hx; omega)]
        exact erase_frame (by dsimp only at hx; omega)
    · exact (by omega : cfg.slotStart + got.length < flashpageAddr cfg (s.flashpage + 1) + cfg.pageSize)
  · refine ⟨s, ?_, h, by omega⟩
    simp only [enterPage, hfull, and_false, if_false, pure, Except.pure]
    rw [show s.offset - (flashpageAddr cfg s.flashpage - cfg.slotStart) =
      cfg.slotStart + got.length - flashpageAddr cfg s.flashpage by omega]

theorem block_in_page (hpage : cfg.slotStart + got.length < flashpageAddr cfg s.flashpage + cfg.pageSize) :
    cfg.slotStart + (got.length - got.length % cfg.bufferSize + cfg.bufferSize) ≤ flashpageAddr cfg s.flashpage +
      cfg.pageSize := by
  have hdvd : cfg.bufferSize ∣ flashpageAddr cfg s.flashpage + cfg.pageSize - cfg.slotStart := by
    rw [← addr_succ]
    exact Nat.dvd_sub (cfg.buffer_dvd_addr _) (cfg.buffer_dvd_addr _)
  have := block_end_le hdvd (by omega : got.length < _)
  omega

theorem fill_raw (h : Raw cfg m s got)
    (hpage : cfg.slotStart + got.length < flashpageAddr cfg s.flashpage + cfg.pageSize)
    (hroom : got.length % cfg.bufferSize + piece.length < cfg.bufferSize) :
      Raw cfg m (fill cfg s piece) (got ++ piece) := by
  have hlen : (got ++ piece).length = got.length + piece.length := length_append
  have hmod : (got ++ piece).length % cfg.bufferSize = got.length % cfg.bufferSize + piece.length := by
    rw [hlen, mod_add hroom]
  have hbase : (got ++ piece).length - (got ++ piece).length % cfg.bufferSize =
      got.length - got.length % cfg.bufferSize := by
    omega
  have hblock := block_in_page hpage
  refine ⟨?_, ?_, ?_, h.slot_le, h.le_slot, fill_length h.buf_length ?_, ?_, h.first_length, ?_, h.head, ?_,
    ?_, h.frame⟩
  · rw [hlen, ← h.offset]; rfl
  · exact le_trans h.page_le (by omega)
  · rw [hlen]
    exact (by omega : cfg.slotStart + (got.length + piece.length) ≤ flashpageAddr cfg s.flashpage + cfg.pageSize)
  · rw [h.offset]; omega
  · rw [hbase, hmod, ← h.offset, fill_take h.buf_length, h.offset, h.buf, drop_append_of_le_length (by omega)]
  · intro hb
    have hle : cfg.bufferSize ≤ got.length := by
      by_contra hlt
      rw [Nat.mod_eq_of_lt (by omega : got.length < cfg.bufferSize)] at hroom
      omega
    rw [take_append_of_le_length hle]; exact h.first hle
  · rw [hbase]
    intro i hi hlt
    rw [getD_append _ _ _ _ (by omega)]; exact h.written i hi hlt
  · rw [hbase]; exact h.blank

theorem Raw.full (h : Raw cfg m s got) (hfull : got.length % cfg.bufferSize + piece.length = cfg.bufferSize) :
    (fill cfg s piece).flashpageBuf.length = cfg.bufferSize ∧
      (fill cfg s piece).flashpageBuf = (got ++ piece).drop (got.length - got.length % cfg.bufferSize) := by
  have hlen : (fill cfg s piece).flashpageBuf.length = cfg.bufferSize :=
    fill_length h.buf_length (by rw [h.offset]; omega)
  refine ⟨hlen, ?_⟩
  rw [drop_append_of_le_length (Nat.sub_le _ _), ← h.buf, ← h.offset, ← fill_take h.buf_length, h.offset, hfull,
    take_of_length_le (by omega)]

section
variable (hraw : cfg.raw = true)
include hraw

theorem store_raw_first (h : Raw cfg m s got) (hsmall : got.length < cfg.bufferSize)
    (hfull : got.length + piece.length = cfg.bufferSize) (pos : Nat) :
    ∃ t, store cfg (fill cfg s piece) pos = .ok t ∧ Raw cfg m t (got ++ piece) := by
  have hself := Nat.mod_eq_of_lt hsmall
  obtain ⟨hlen, hbuf⟩ := @Raw.full cfg m s got piece h (by omega)
  rw [hself, Nat.sub_self, drop_zero] at hbuf
  have hgot : (got ++ piece).length = cfg.bufferSize := by rw [length_append, hfull]
  have hle := h.page_le
  have hB := cfg.buffer_le
  have haddr : flashpageAddr cfg s.flashpage = cfg.slotStart := by
    by_contra hne
    have hslot := h.slot_le
    have hnext := @addr_lt cfg cfg.slotPage s.flashpage (by change cfg.slotStart < _; omega)
    change cfg.slotStart + cfg.pageSize ≤ _ at hnext
    omega
  refine ⟨{ fill cfg s piece with firstblockBuf := (fill cfg s piece).flashpageBuf }, ?_, ?_⟩
  · simp only [store, hraw, if_true, fill_flashpage, fill_offset, haddr, h.offset, hfull, and_self]
    rfl
  · refine { h with offset := ?_, page_le := ?_, le_page := ?_, buf_length := hlen, buf := ?_, first_length := hlen,
                    first := fun _ => ?_, written := ?_, blank := ?_ }
    · rw [length_append, ← h.offset]; rfl
    · exact le_trans hle (by omega)
    · exact (by omega : cfg.slotStart + (got ++ piece).length ≤ flashpageAddr cfg s.flashpage + cfg.pageSize)
    · simp [hgot]
    · rw [← hgot, take_length]; exact hbuf
    · omega
    · exact h.blank.mono (by omega) le_rfl

theorem store_raw (h : Raw cfg m s got)
    (hpage : cfg.slotStart + got.length < flashpageAddr cfg s.flashpage + cfg.pageSize)
    (hge : cfg.bufferSize ≤ got.length) (hq : got.length % cfg.bufferSize = 0) (hfull : piece.length = cfg.bufferSize) :
    ∃ t, store cfg (fill cfg s piece) (cfg.slotStart + got.length - flashpageAddr cfg s.flashpage) = .ok t ∧
      Raw cfg m t (got ++ piece) := by
  obtain ⟨hlen, hbuf⟩ := @Raw.full cfg m s got piece h (by omega)
  have hblock := block_in_page hpage
  rw [hq, Nat.sub_zero] at hblock hbuf
  have hgot : (got ++ piece).length = got.length + cfg.bufferSize := by rw [length_append, hfull]
  have hmod : (got ++ piece).length % cfg.bufferSize = 0 := by rw [hgot, Nat.add_mod_right, hq]
  have hle := h.page_le
  have hpos := cfg.buffer_pos
  have htarget : flashpageAddr cfg s.flashpage + (cfg.slotStart + got.length - flashpageAddr cfg s.flashpage) =
      cfg.slotStart + got.length := by
    omega
  have hwrite := writeBlock_ok (m := s.flash) (a := cfg.slotStart + got.length) hlen
    (Nat.dvd_add (cfg.buffer_dvd_addr cfg.slotPage) (Nat.dvd_of_mod_eq_zero hq)) (by have := h.le_slot; omega)
  have hblank : Blank s.flash (cfg.slotStart + got.length)
    (cfg.slotStart + got.length + (fill cfg s piece).flashpageBuf.length) :=
    h.blank.mono (by omega) (by omega)
  refine ⟨{ fill cfg s piece with
    flash := program s.flash (cfg.slotStart + got.length) (fill cfg s piece).flashpageBuf }, ?_, ?_⟩
  · have hnot : ¬ (flashpageAddr cfg s.flashpage = cfg.slotStart ∧ s.offset + piece.length = cfg.bufferSize) := by
      have := h.offset; omega
    simp only [store, hraw, if_true, fill_flashpage, fill_offset, fill_flash, if_neg hnot, htarget, hwrite]
    rfl
  · refine { h with offset := ?_, page_le := ?_, le_page := ?_, buf_length := hlen, buf := ?_, first := fun _ => ?_,
                    head := ?_, written := ?_, blank := ?_, frame := ?_ }
    · rw [length_append, ← h.offset]; rfl
    · exact le_trans hle (by omega)
    · exact (by omega : cfg.slotStart + (got ++ piece).length ≤ flashpageAddr cfg s.flashpage + cfg.pageSize)
    · rw [hmod, Nat.sub_zero, drop_length, take_zero]
    · rw [take_append_of_le_length hge]; exact h.first hge
    · exact h.head.congr fun x _ hx => program_frame (by omega)
    · intro i hi hlt
      by_cases hold : i < got.length
      · rw [getD_append _ _ _ _ hold, ← h.written i hi (by omega)]
        exact program_frame (by omega)
      · dsimp only
        rw [program_blank hblank (by omega) (by omega), hbuf,
          show cfg.slotStart + i - (cfg.slotStart + got.length) = i - got.length by omega]
        exact getD_drop (by omega)
    · refine (h.blank.mono (by omega) le_rfl).congr fun x hx _ => program_frame (.inr ?_)
      omega
    · intro x hx
      rw [← h.frame x hx]
      refine program_frame ?_
      rcases hx with hx | hx
      · omega
      · dsimp only [fill_flashpage] at hx
        exact .inr (by omega)

theorem putPiece_raw (h : Raw cfg m s got) (hpos : 0 < piece.length) (hfits : got.length + piece.length ≤ cfg.slotSize)
    (hroom : got.length % cfg.bufferSize + piece.length ≤ cfg.bufferSize)
    (hgood : KeepsBlock cfg.bufferSize got.length piece.length) :
    ∃ t, putPiece cfg true s piece = .ok t ∧ Raw cfg m t (got ++ piece) := by
  obtain ⟨u, hu, hraw', hpage⟩ := enterPage_raw hraw h (by omega)
  unfold KeepsBlock at hgood
  simp only [putPiece, hu, bind, Except.bind, h.offset, Bool.true_eq_false, or_false]
  by_cases hfull : got.length % cfg.bufferSize + piece.length = cfg.bufferSize
  · rw [if_pos hfull]
    by_cases hsmall : got.length < cfg.bufferSize
    · rw [Nat.mod_eq_of_lt hsmall] at hfull
      exact store_raw_first hraw hraw' hsmall hfull _
    · exact store_raw hraw hraw' hpage (by omega) (by omega) (by omega)
  · rw [if_neg hfull]
    exact ⟨_, rfl, fill_raw hraw' hpage (by omega)⟩

theorem putAll_raw {chunks : List (List Byte)} (h : Raw cfg m s got)
    (hfits : got.length + chunks.flatten.length ≤ cfg.slotSize)
    (hkeeps : KeepsBlocks cfg.bufferSize got.length (chunks.map List.length)) :
    ∃ t, putAll cfg s chunks = .ok t ∧ Raw cfg m t (got ++ chunks.flatten) :=
  putAll_total (Raw cfg m) (fun _ _ h => h.offset)
    (fun _ _ _ h hpos hfits hroom hgood => putPiece_raw hraw h hpos hfits hroom (hgood hraw))
    chunks s got h hfits fun _ => hkeeps

theorem initRaw_raw {o : Nat} (hpos : 0 < o) (hlt : o < cfg.bufferSize) :
    ∃ s, initRaw cfg m o = .ok s ∧ Raw cfg m s (replicate o 0) := by
  have hB := cfg.buffer_le
  have hslot : cfg.slotPage < cfg.numof := by
    have := cfg.slot_pos
    have := cfg.slot_fits; omega
  have hinit : initRaw cfg m o = .ok ⟨o, cfg.slotPage, zeros cfg, zeros cfg, erase m cfg.slotStart cfg.pageSize⟩ := by
    rw [initRaw, if_pos (by omega), if_pos ⟨hraw, by omega⟩, flashpageErase_ok hslot]
    rfl
  refine ⟨_, hinit, ?_⟩
  have hblank := blank_erase m cfg.slotStart cfg.pageSize
  refine ⟨by simp, Nat.le_add_right _ _, ?_, le_rfl, Nat.add_le_add_left (page_le_slot cfg) _, length_replicate ..,
    ?_, length_replicate .., ?_, hblank.mono le_rfl (by omega), ?_, ?_, ?_⟩
  · rw [length_replicate]; exact Nat.add_le_add_left (by omega) _
  · rw [length_replicate, Nat.mod_eq_of_lt hlt, Nat.sub_self, drop_zero, zeros, take_replicate,
      min_eq_left (by omega)]
  · intro hle
    rw [length_replicate] at hle; omega
  · intro i hi hlt'
    rw [length_replicate] at hlt'; omega
  · exact hblank.mono (by omega) le_rfl
  · exact fun x hx => erase_frame hx

theorem flush_raw (h : Raw cfg m s got) (hge : cfg.bufferSize ≤ got.length) :
    ∃ t, flush cfg s = .ok t ∧ t.firstblockBuf = s.firstblockBuf ∧
      Blank t.flash cfg.slotStart (cfg.slotStart + cfg.bufferSize) ∧
      (∀ i, cfg.bufferSize ≤ i → i < got.length → t.flash (cfg.slotStart + i) = got.getD i 0xff) ∧
      ∀ x, x < cfg.slotStart ∨ cfg.slotStart + cfg.slotSize ≤ x → t.flash x = m x := by
  have hpos := cfg.buffer_pos
  have hend := h.le_slot
  by_cases hq : got.length % cfg.bufferSize = 0
  · refine ⟨s, ?_, rfl, h.head, ?_, ?_⟩
    · simp only [flush, hraw, h.offset, hq, if_true]; rfl
    · intro i hi hlt; exact h.written i hi (by omega)
    · exact fun x hx => h.frame x (by omega)
  · -- the page is not full, so that the rest of the block lies in it
    have hlt := Nat.mod_lt got.length hpos
    have hbase := @Nat.dvd_sub_mod cfg.bufferSize got.length
    have hpage : cfg.slotStart + got.length < flashpageAddr cfg s.flashpage + cfg.pageSize := by
      rcases lt_or_eq_of_le h.le_page with hlt | heq
      · exact hlt
      · rw [← addr_succ] at heq
        have := (Nat.dvd_add_right (cfg.buffer_dvd_addr cfg.slotPage)).1 (heq ▸ cfg.buffer_dvd_addr (s.flashpage + 1))
        exact absurd (Nat.mod_eq_zero_of_dvd this) hq
    have hblock := block_in_page hpage
    have hblen := h.buf_length
    have hbuf := h.buf
    have hblank := h.blank
    have hwritten := h.written
    have hB : cfg.bufferSize ≤ got.length - got.length % cfg.bufferSize := Nat.le_of_dvd (by omega) hbase
    have hsum : got.length - got.length % cfg.bufferSize + got.length % cfg.bufferSize = got.length := by omega
    generalize got.length - got.length % cfg.bufferSize = base at hbase hblock hbuf hblank hwritten hB hsum
    replace hblank : Blank s.flash (cfg.slotStart + base) (cfg.slotStart + base + s.flashpageBuf.length) :=
      hblank.mono (by omega) (by omega)
    have hwrite := writeBlock_ok (m := s.flash) (a := cfg.slotStart + base) hblen
      (Nat.dvd_add (cfg.buffer_dvd_addr cfg.slotPage) hbase) (by omega)
    refine ⟨{ s with flash := program s.flash (cfg.slotStart + base) s.flashpageBuf }, ?_, rfl, ?_, ?_, ?_⟩
    · simp only [flush, hraw, h.offset, hq, if_true, if_false]
      rw [show got.length - got.length % cfg.bufferSize = base by omega, hwrite]
      rfl
    · exact h.head.congr fun x _ hx => program_frame (by omega)
    · intro i hi hlt
      dsimp only
      by_cases hold : i < base
      · rw [program_frame (by omega)]; exact hwritten i hi hold
      · rw [program_blank hblank (by omega) (by omega),
          show cfg.slotStart + i - (cfg.slotStart + base) = i - base by omega,
          ← getD_drop (by omega : base ≤ i), ← hbuf, getD_eq_getElem?_getD, getD_eq_getElem?_getD,
          getElem?_take_of_lt (by omega)]
    · intro x hx
      rw [← h.frame x (by omega)]; exact program_frame (by omega)

theorem finishRaw_raw {head : List Byte} (hhead : head.length < cfg.bufferSize)
    (hfirst : s.firstblockBuf.length = cfg.bufferSize)
    (hblank : Blank s.flash cfg.slotStart (cfg.slotStart + cfg.bufferSize)) :
    ∃ t, finishRaw cfg s head = .ok t ∧
      (∀ i, i < cfg.bufferSize → t.flash (cfg.slotStart + i) = (head ++ s.firstblockBuf.drop head.length).getD i 0xff) ∧
      ∀ x, x < cfg.slotStart ∨ cfg.slotStart + cfg.bufferSize ≤ x → t.flash x = s.flash x := by
  have hlen : (head ++ s.firstblockBuf.drop head.length).length = cfg.bufferSize := by
    rw [length_append, length_drop]; omega
  have hB := cfg.buffer_le
  have hwrite := writeBlock_ok (m := s.flash) (a := cfg.slotStart) hlen (cfg.buffer_dvd_addr _) (by
    have := page_le_slot cfg; omega)
  refine ⟨{ s with
    firstblockBuf := head ++ s.firstblockBuf.drop head.length
    flash := program s.flash cfg.slotStart (head ++ s.firstblockBuf.drop head.length) }, ?_, ?_, ?_⟩
  · rw [finishRaw, if_pos (by omega), if_pos hraw]
    simp only [hwrite]; rfl
  · intro i hi
    dsimp only
    rw [program_blank (by rwa [hlen]) (by omega) (by omega), Nat.add_sub_cancel_left]
  · exact fun x hx => program_frame (by omega)

theorem update_raw {head : List Byte} {chunks : List (List Byte)} (hpos : 0 < head.length)
    (hhead : head.length < cfg.bufferSize) (hge : cfg.bufferSize ≤ (head ++ chunks.flatten).length)
    (hfits : (head ++ chunks.flatten).length ≤ cfg.slotSize)
    (hkeeps : KeepsBlocks cfg.bufferSize head.length (chunks.map List.length)) :
    Updated cfg m (head ++ chunks.flatten) (update cfg m head chunks) := by
  rw [length_append] at hge hfits
  obtain ⟨s1, h1, hraw1⟩ := @initRaw_raw cfg m hraw _ hpos hhead
  have hz : (replicate head.length (0 : Byte)).length = head.length := length_replicate ..
  obtain ⟨s2, h2, hraw2⟩ := @putAll_raw cfg m s1 _ hraw chunks hraw1 (by omega) (by rwa [hz])
  have hgot : (replicate head.length (0 : Byte) ++ chunks.flatten).length =
      head.length + chunks.flatten.length := by
    rw [length_append, hz]
  obtain ⟨s3, h3, hfirst, hblank, hwritten, hframe⟩ := flush_raw hraw hraw2 (by omega)
  obtain ⟨s4, h4, hhead4, hrest⟩ := finishRaw_raw hraw hhead (hfirst ▸ hraw2.first_length) hblank
  refine ⟨s4, ?_, ?_, ?_⟩
  · simp only [update, h1, h2, h3, h4, bind, Except.bind]
  · refine slice_of_getD rfl fun i hi => ?_
    rw [length_append] at hi
    by_cases hB : i < cfg.bufferSize
    · rw [hhead4 i hB, hfirst, hraw2.first (by omega)]
      by_cases ho : i < head.length
      · rw [getD_append _ _ _ _ ho, getD_append _ _ _ _ ho]
      · rw [getD_append_right _ _ _ _ (by omega), getD_append_right _ _ _ _ (by omega), getD_drop (by omega),
          getD_eq_getElem?_getD, getElem?_take_of_lt hB, ← getD_eq_getElem?_getD,
          getD_append_right _ _ _ _ (by omega), hz]
    · rw [hrest _ (by omega), hwritten i (by omega) (by omega), getD_append_right _ _ _ _ (by omega),
        getD_append_right _ _ _ _ (by omega), hz]
  · intro x hx
    rw [hrest x (by omega), hframe x hx]

end

/-! ### Updates that go wrong -/

structure PutStep (cfg : Config) (s : State) (piece : List Byte) (t : State) : Prop where
  offset : t.offset = s.offset + piece.length
  page : s.flashpage ≤ t.flashpage
  buf : t.flashpageBuf = (fill cfg s piece).flashpageBuf
  first : t.firstblockBuf = s.firstblockBuf ∨ t.firstblockBuf = (fill cfg s piece).flashpageBuf
  below : ∀ x, cfg.slotPage ≤ s.flashpage → x < cfg.slotStart + s.offset → t.flash x = s.flash x ∨ t.flash x = 0xff
  zero : ∀ x, x < flashpageAddr cfg s.flashpage + cfg.pageSize → s.flash x = 0 → t.flash x = 0

theorem program_zero {a x : Nat} {data : List Byte} (h : m x = 0) : program m a data x = 0 := by
  unfold program
  split
  · rw [h]; exact BitVec.zero_and
  · exact h

theorem enterPage_cases {t : State} {pos : Nat} (h : enterPage cfg s = .ok (t, pos)) :
    t = s ∧ pos = s.offset - (flashpageAddr cfg s.flashpage - cfg.slotStart) ∨
      s.offset - (flashpageAddr cfg s.flashpage - cfg.slotStart) = cfg.pageSize ∧ pos = 0 ∧
        t = { s with flashpage := s.flashpage + 1,
                     flash := erase s.flash (flashpageAddr cfg (s.flashpage + 1)) cfg.pageSize } := by
  unfold enterPage at h
  simp only at h
  split at h
  · rename_i hfull
    obtain ⟨m', hm', h⟩ := bind_ok.1 h
    cases h
    rw [of_flashpageErase hm']; exact .inr ⟨hfull.2, rfl, rfl⟩
  · cases h; exact .inl ⟨rfl, rfl⟩

structure Lost (cfg : Config) (x : Nat) (s : State) : Prop where
  erased : s.flash x = 0xff
  behind : cfg.slotStart + cfg.bufferSize ≤ x
  before : x + cfg.bufferSize ≤ cfg.slotStart + s.offset
  page : cfg.slotPage ≤ s.flashpage
  buf_length : s.flashpageBuf.length = cfg.bufferSize
  first_length : s.firstblockBuf.length = cfg.bufferSize

theorem PutStep.lost {x : Nat} {t : State} (hput : PutStep cfg s piece t)
    (hroom : s.offset % cfg.bufferSize + piece.length ≤ cfg.bufferSize) (herased : s.flash x = 0xff)
    (hbehind : cfg.slotStart + cfg.bufferSize ≤ x) (hx : x < cfg.slotStart + s.offset)
    (hbefore : x + cfg.bufferSize ≤ cfg.slotStart + t.offset) (hpage : cfg.slotPage ≤ s.flashpage)
    (hbuf : s.flashpageBuf.length = cfg.bufferSize) (hfirst : s.firstblockBuf.length = cfg.bufferSize) :
    Lost cfg x t := by
  have hlen := fill_length hbuf hroom
  refine ⟨?_, hbehind, hbefore, le_trans hpage hput.page, by rw [hput.buf, hlen], ?_⟩
  · rcases hput.below x hpage hx with heq | heq
    · rw [heq, herased]
    · exact heq
  · rcases hput.first with heq | heq
    · rw [heq, hfirst]
    · rw [heq, hlen]

theorem Lost.put {x : Nat} {t : State} (h : Lost cfg x s)
    (hroom : s.offset % cfg.bufferSize + piece.length ≤ cfg.bufferSize) (hput : PutStep cfg s piece t) :
    Lost cfg x t := by
  have hpos := cfg.buffer_pos
  have hbefore := h.before
  have hoff := hput.offset
  exact hput.lost hroom h.erased h.behind (by omega) (by omega) h.page h.buf_length h.first_length

theorem keepsBlocks_of_lt {b : Nat} : ∀ {p : Nat} {ls : List Nat}, p + ls.sum < b → KeepsBlocks b p ls
  | _, [], _ => trivial
  | p, l :: ls, h => by
    rw [sum_cons] at h
    exact ⟨.inl (by omega), keepsBlocks_of_lt (by omega)⟩

section
variable (hraw : cfg.raw = true)
include hraw

theorem store_cases {t : State} {pos : Nat} (h : store cfg s pos = .ok t) :
    t = { s with firstblockBuf := s.flashpageBuf } ∨
      t = { s with flash := program s.flash (flashpageAddr cfg s.flashpage + pos) s.flashpageBuf } := by
  simp only [store, hraw, if_true] at h
  split at h
  · cases h; exact .inl rfl
  · obtain ⟨m', hm', h⟩ := bind_ok.1 h
    cases h
    rw [of_flashpageWrite hm']; exact .inr rfl

theorem putPiece_cases {t : State} (h : putPiece cfg true s piece = .ok t) :
    ∃ u pos, enterPage cfg s = .ok (u, pos) ∧
      (t = fill cfg u piece ∨ t = { fill cfg u piece with firstblockBuf := (fill cfg u piece).flashpageBuf } ∨
        t = { fill cfg u piece with
          flash := program u.flash (flashpageAddr cfg u.flashpage + pos) (fill cfg u piece).flashpageBuf }) := by
  obtain ⟨⟨u, pos⟩, hu, h⟩ := bind_ok.1 h
  refine ⟨u, pos, hu, ?_⟩
  simp only at h
  split at h
  · exact .inr (store_cases hraw h)
  · cases h; exact .inl rfl

theorem putPiece_step {t : State} (h : putPiece cfg true s piece = .ok t) : PutStep cfg s piece t := by
  obtain ⟨u, pos, hu, ht⟩ := putPiece_cases hraw h
  have hpage : s.flashpage ≤ u.flashpage ∧ u.offset = s.offset ∧ u.flashpageBuf = s.flashpageBuf ∧
      u.firstblockBuf = s.firstblockBuf := by
    rcases enterPage_cases hu with ⟨rfl, -⟩ | ⟨-, -, rfl⟩
    · exact ⟨le_rfl, rfl, rfl, rfl⟩
    · exact ⟨Nat.le_succ _, rfl, rfl, rfl⟩
  have hbuf : (fill cfg u piece).flashpageBuf = (fill cfg s piece).flashpageBuf := by
    simp only [fill, hpage.2.1, hpage.2.2.1]
  have hkept : ∀ x, u.flash x = s.flash x ∨ u.flash x = 0xff ∧ flashpageAddr cfg s.flashpage + cfg.pageSize ≤ x := by
    intro x
    rcases enterPage_cases hu with ⟨rfl, -⟩ | ⟨-, -, rfl⟩
    · exact .inl rfl
    · by_cases hx : flashpageAddr cfg (s.flashpage + 1) ≤ x ∧ x < flashpageAddr cfg (s.flashpage + 1) + cfg.pageSize
      · exact .inr ⟨erase_of_mem hx.1 hx.2, @addr_succ cfg s.flashpage ▸ hx.1⟩
      · exact .inl (erase_frame (by omega))
  -- what is programmed lies behind everything that was put before
  have htarget : cfg.slotPage ≤ s.flashpage → cfg.slotStart + s.offset ≤ flashpageAddr cfg u.flashpage + pos := by
    intro hle
    have hslot : cfg.slotStart ≤ flashpageAddr cfg s.flashpage := addr_mono hle
    rcases enterPage_cases hu with ⟨rfl, rfl⟩ | ⟨hfull, rfl, rfl⟩
    · omega
    · have := @addr_succ cfg s.flashpage
      dsimp only; omega
  have hbelow : ∀ x, u.flash x = s.flash x ∨ u.flash x = 0xff := fun x => (hkept x).imp_right And.left
  have hzero : ∀ x, x < flashpageAddr cfg s.flashpage + cfg.pageSize → s.flash x = 0 → u.flash x = 0 := by
    intro x hx h0
    rcases hkept x with h | h
    · rw [h, h0]
    · omega
  rcases ht with rfl | rfl | rfl
  · exact ⟨by rw [fill_offset, hpage.2.1], hpage.1, hbuf, .inl hpage.2.2.2, fun x _ _ => hbelow x, hzero⟩
  · exact ⟨by rw [fill_offset, hpage.2.1], hpage.1, hbuf, .inr hbuf, fun x _ _ => hbelow x, hzero⟩
  · refine ⟨by rw [fill_offset, hpage.2.1], hpage.1, hbuf, .inl hpage.2.2.2, fun x hle hx => ?_, fun x hx h0 => ?_⟩
    · dsimp only
      rw [program_frame (by omega)]; exact hbelow x
    · exact program_zero (hzero x hx h0)

theorem putLoop_inv (Inv : State → Prop) (n : Nat)
    (hstep : ∀ s t piece, Inv s → s.offset % cfg.bufferSize + piece.length ≤ cfg.bufferSize →
      s.offset + piece.length ≤ n → PutStep cfg s piece t → Inv t) :
    ∀ (k : Nat) (s t : State) (bytes : List Byte), bytes.length ≤ k → Inv s → s.offset + bytes.length ≤ n →
      putLoop cfg true k s bytes = .ok t → Inv t ∧ t.offset = s.offset + bytes.length := by
  intro k
  induction k with
  | zero =>
    intro s t bytes hk hs _ h
    rw [eq_nil_of_length_eq_zero (by omega : bytes.length = 0)] at h ⊢
    cases h; exact ⟨hs, rfl⟩
  | succ k ih =>
    intro s t bytes hk hs hn h
    by_cases hnil : bytes = []
    · rw [hnil] at h ⊢
      cases h; exact ⟨hs, rfl⟩
    · have hlt := Nat.mod_lt s.offset cfg.buffer_pos
      rw [putLoop_step hnil] at h
      have hcopy : toCopy cfg s bytes.length = min (cfg.bufferSize - s.offset % cfg.bufferSize) bytes.length := rfl
      generalize toCopy cfg s bytes.length = c at hcopy h
      have htake : (bytes.take c).length = c := by
        rw [length_take]; omega
      obtain ⟨u, hu, h⟩ := bind_ok.1 h
      have hput := putPiece_step hraw hu
      have hoff := hput.offset
      have hdrop : (bytes.drop c).length = bytes.length - c := length_drop ..
      obtain ⟨ht, hoff'⟩ := ih u t (bytes.drop c) (by omega) (hstep s u _ hs (by omega) (by omega) hput) (by omega) h
      exact ⟨ht, by omega⟩

theorem putAll_inv (Inv : State → Prop) (n : Nat)
    (hstep : ∀ s t piece, Inv s → s.offset % cfg.bufferSize + piece.length ≤ cfg.bufferSize →
      s.offset + piece.length ≤ n → PutStep cfg s piece t → Inv t) :
    ∀ (chunks : List (List Byte)) (s t : State), Inv s → s.offset + chunks.flatten.length ≤ n →
      putAll cfg s chunks = .ok t → Inv t ∧ t.offset = s.offset + chunks.flatten.length
  | [], s, t, hs, _, h => by
    cases h; exact ⟨hs, rfl⟩
  | c :: cs, s, t, hs, hn, h => by
    rw [flatten_cons, length_append] at hn ⊢
    obtain ⟨u, hu, h⟩ := bind_ok.1 h
    obtain ⟨hinv, hoff⟩ := putLoop_inv hraw Inv n hstep c.length s u c le_rfl hs (by omega) hu
    obtain ⟨ht, hoff'⟩ := putAll_inv Inv n hstep cs u t hinv (by omega) h
    exact ⟨ht, by omega⟩

theorem flush_cases {t : State} (h : flush cfg s = .ok t) :
    t = s ∧ s.offset % cfg.bufferSize = 0 ∨ s.offset % cfg.bufferSize ≠ 0 ∧
      t = { s with
        flash := program s.flash (cfg.slotStart + (s.offset - s.offset % cfg.bufferSize)) s.flashpageBuf } := by
  simp only [flush, hraw, if_true] at h
  split at h
  · rename_i hq
    cases h; exact .inl ⟨rfl, hq⟩
  · rename_i hq
    obtain ⟨m', hm', h⟩ := bind_ok.1 h
    cases h
    rw [of_flashpageWrite hm']; exact .inr ⟨hq, rfl⟩

theorem finishRaw_cases {t : State} {head : List Byte} (h : finishRaw cfg s head = .ok t) :
    t.flash = program s.flash cfg.slotStart (head ++ s.firstblockBuf.drop head.length) := by
  simp only [finishRaw, hraw, if_true] at h
  split at h
  · obtain ⟨m', hm', h⟩ := bind_ok.1 h
    cases h; exact of_flashpageWrite hm'
  · cases h

theorem Lost.finish {x : Nat} {head : List Byte} {t u : State} (h : Lost cfg x s)
    (hhead : head.length < cfg.bufferSize) (hflush : flush cfg s = .ok t) (hfinish : finishRaw cfg t head = .ok u) : u.flash x = 0xff := by
  have hbefore := h.before
  have hbehind := h.behind
  have hfirst := h.first_length
  have hlt := Nat.mod_lt s.offset cfg.buffer_pos
  have ht : t.flash x = 0xff ∧ t.firstblockBuf = s.firstblockBuf := by
    rcases flush_cases hraw hflush with ⟨rfl, -⟩ | ⟨-, rfl⟩
    · exact ⟨h.erased, rfl⟩
    · refine ⟨?_, rfl⟩
      dsimp only
      rw [program_frame (by omega), h.erased]
  rw [finishRaw_cases hraw hfinish, program_frame, ht.1]
  rw [length_append, length_drop, ht.2]
  omega

theorem putLoop_lost {bytes : List Byte} {t : State} {n : Nat} (h : Raw cfg m s got)
    (hbad : ¬ KeepsBlock cfg.bufferSize got.length bytes.length) (hn : bytes.length ≤ n)
    (hput : putLoop cfg true n s bytes = .ok t) : ∃ x, Lost cfg x t := by
  simp only [KeepsBlock, not_or, Nat.not_lt] at hbad
  obtain ⟨hge, hq, hfull⟩ := hbad
  have hlt := Nat.mod_lt got.length cfg.buffer_pos
  have hnil : bytes ≠ [] := by
    rintro rfl
    simp only [length_nil] at hfull; omega
  obtain ⟨k, rfl⟩ : ∃ k, n = k + 1 := ⟨n - 1, by have := length_pos_of_ne_nil hnil; omega⟩
  rw [putLoop_step hnil] at hput
  have hcopy : toCopy cfg s bytes.length = min (cfg.bufferSize - got.length % cfg.bufferSize) bytes.length := by
    rw [toCopy, h.offset]
  generalize toCopy cfg s bytes.length = c at hcopy hput
  have htake : (bytes.take c).length = c := by
    rw [length_take]; omega
  obtain ⟨u, hu, hrest⟩ := bind_ok.1 hput
  have hstep := putPiece_step hraw hu
  have hbase : cfg.bufferSize ≤ got.length - got.length % cfg.bufferSize :=
    Nat.le_of_dvd (by omega) (Nat.dvd_sub_mod got.length)
  have hoff := h.offset
  have hoff' := hstep.offset
  have hlepage := h.le_page
  have hlost : Lost cfg (cfg.slotStart + (got.length - got.length % cfg.bufferSize)) u :=
    hstep.lost (by rw [hoff]; omega) (h.blank _ (by omega) (by omega)) (by omega) (by omega) (by omega)
      (Nat.le_of_mul_le_mul_right h.slot_le cfg.page_pos) h.buf_length h.first_length
  refine ⟨_, (putLoop_inv hraw (Lost cfg _) _ (fun _ _ _ h hroom _ => h.put hroom) k u t _ ?_ hlost le_rfl hrest).1⟩
  rw [length_drop]
  omega

theorem putAll_lost : ∀ (chunks : List (List Byte)) (s t : State) (got : List Byte), Raw cfg m s got →
    got.length + chunks.flatten.length ≤ cfg.slotSize →
      ¬ KeepsBlocks cfg.bufferSize got.length (chunks.map List.length) →
    putAll cfg s chunks = .ok t → ∃ x, Lost cfg x t ∧ t.offset = got.length + chunks.flatten.length
  | [], _, _, _, _, _, hbad, _ => absurd trivial hbad
  | c :: cs, s, t, got, h, hfits, hbad, hput => by
    rw [flatten_cons, length_append] at hfits ⊢
    obtain ⟨u, hu, hrest⟩ := bind_ok.1 hput
    by_cases hgood : KeepsBlock cfg.bufferSize got.length c.length
    · obtain ⟨u', hu', hrawu⟩ := putLoop_total (Raw cfg m) (fun _ _ h => h.offset)
        (fun _ _ _ h hpos hfits hroom hgood => putPiece_raw hraw h hpos hfits hroom (hgood hraw)) c.length s got c
          le_rfl h (by omega) fun _ => hgood
      cases hu'.symm.trans hu
      have hlen : (got ++ c).length = got.length + c.length := length_append
      obtain ⟨x, hx, hoff⟩ :=
        putAll_lost cs u t (got ++ c) hrawu (by omega) (fun hk => hbad ⟨hgood, hlen ▸ hk⟩) hrest
      exact ⟨x, hx, by omega⟩
    · obtain ⟨x, hx⟩ := putLoop_lost hraw h hgood le_rfl hu
      have hoff := (putLoop_inv hraw (fun _ => True) _
        (fun _ _ _ _ _ _ _ => trivial) c.length s u c le_rfl trivial le_rfl hu).2
      obtain ⟨hlost, hoff'⟩ :=
        putAll_inv hraw (Lost cfg x) _ (fun _ _ _ h hroom _ => h.put hroom) cs u t hx le_rfl hrest
      have := h.offset; exact ⟨x, hlost, by omega⟩

theorem update_raw_split {o : Nat} {ls : List Nat} (hpos : 0 < o) (hlt : o < cfg.bufferSize)
    (hfits : o + ls.sum ≤ cfg.slotSize) (hbad : ¬ KeepsBlocks cfg.bufferSize o ls) :
    ¬ Updated cfg m (replicate o 0 ++ (uniform 0 ls).flatten)
      (update cfg m (replicate o 0) (uniform 0 ls)) := by
  intro hup
  obtain ⟨u, hu, hzero⟩ := hup.uniform
  obtain ⟨s1, s2, s3, h1, h2, h3, h4⟩ := update_ok hu
  have hz : (replicate o (0 : Byte)).length = o := length_replicate ..
  have hflat : (uniform 0 ls).flatten.length = ls.sum := by rw [uniform_flatten, length_replicate]
  obtain ⟨s1', h1', hraw1⟩ := @initRaw_raw cfg m hraw o hpos hlt
  rw [hz] at h1
  cases h1'.symm.trans h1
  obtain ⟨x, hx, hoff⟩ := putAll_lost hraw _ s1 s2 _ hraw1 (by omega) (by rwa [hz, uniform_lengths]) h2
  have herased := hx.finish hraw (by omega) h3 h4
  have hbehind := hx.behind
  have hbefore := hx.before
  have hbyte := hzero (x - cfg.slotStart) (by omega)
  rw [show cfg.slotStart + (x - cfg.slotStart) = x by omega, herased] at hbyte
  cases hbyte

theorem update_raw_unerased {ls : List Nat} (hpos : 0 < ls.sum) :
    ¬ Updated cfg (fun _ => 0) (replicate 0 0xff ++ (uniform 0xff ls).flatten)
      (update cfg (fun _ => 0) (replicate 0 0xff) (uniform 0xff ls)) := by
  intro hup
  obtain ⟨u, hu, hones⟩ := hup.uniform
  obtain ⟨s1, s2, s3, h1, h2, h3, h4⟩ := update_ok hu
  have hstart : s1.flash cfg.slotStart = 0 ∧ cfg.slotPage ≤ s1.flashpage := by
    rw [initRaw, if_pos (by simp), if_neg (by simp)] at h1
    cases h1; exact ⟨rfl, le_rfl⟩
  have hput : ∀ s t piece, s.flash cfg.slotStart = 0 ∧ cfg.slotPage ≤ s.flashpage → PutStep cfg s piece t →
      t.flash cfg.slotStart = 0 ∧ cfg.slotPage ≤ t.flashpage := by
    intro s t piece hs hput
    have hle : cfg.slotStart ≤ flashpageAddr cfg s.flashpage := addr_mono hs.2
    have := cfg.page_pos
    exact ⟨hput.zero _ (by omega) hs.1, le_trans hs.2 hput.page⟩
  have hzero2 := (putAll_inv hraw _ _ (fun s t piece hs _ _ => hput s t piece hs) _ s1 s2 hstart le_rfl h2).1.1
  have hzero3 : s3.flash cfg.slotStart = 0 := by
    rcases flush_cases hraw h3 with ⟨rfl, -⟩ | ⟨-, rfl⟩
    · exact hzero2
    · exact program_zero hzero2
  have hbyte := hones 0 (by omega)
  rw [finishRaw_cases hraw h4, add_zero, program_zero hzero3] at hbyte
  cases hbyte

theorem update_raw_short {o : Nat} {ls : List Nat} (hpos : 0 < o) (hlt : o + ls.sum < cfg.bufferSize) :
    ¬ Updated cfg m (replicate o 0xff ++ (uniform 0xff ls).flatten)
      (update cfg m (replicate o 0xff) (uniform 0xff ls)) := by
  intro hup
  obtain ⟨u, hu, hones⟩ := hup.uniform
  obtain ⟨s1, s2, s3, h1, h2, h3, h4⟩ := update_ok hu
  rw [length_replicate] at h1
  have hflat : (uniform 0xff ls).flatten.length = ls.sum := by rw [uniform_flatten, length_replicate]
  obtain ⟨s1', h1', hraw1⟩ := @initRaw_raw cfg m hraw o hpos (by omega)
  cases h1'.symm.trans h1
  have hz : (replicate o (0 : Byte)).length = o := length_replicate ..
  have hB := cfg.buffer_le
  have hslot := page_le_slot cfg
  obtain ⟨s2', h2', hraw2⟩ :=
    @putAll_raw cfg m s1 _ hraw (uniform 0xff ls) hraw1 (by omega)
    (by rw [hz, uniform_lengths]; exact keepsBlocks_of_lt hlt)
  cases h2'.symm.trans h2
  have hlen : (replicate o (0 : Byte) ++ (uniform 0xff ls).flatten).length = o + ls.sum := by
    rw [length_append, hz, hflat]
  have hbuf := hraw2.buf
  rw [hlen, Nat.mod_eq_of_lt hlt, Nat.sub_self, drop_zero] at hbuf
  -- the buffer begins with a zero in the place of the head
  have hfirst : s2.flashpageBuf.getD 0 0xff = 0 := by
    rw [getD_eq_getElem?_getD, ← getElem?_take_of_lt (by omega : 0 < o + ls.sum), hbuf, ← getD_eq_getElem?_getD,
      getD_append _ _ _ _ (by omega), getD_replicate _ hpos]
  have hzero3 : s3.flash cfg.slotStart = 0 := by
    have hoff := hraw2.offset
    rw [hlen] at hoff
    have hmod : s2.offset % cfg.bufferSize = o + ls.sum := by rw [hoff, Nat.mod_eq_of_lt hlt]
    rcases flush_cases hraw h3 with ⟨-, h0⟩ | ⟨-, rfl⟩
    · omega
    · dsimp only
      rw [hmod, hoff, Nat.sub_self, add_zero, program, if_pos le_rfl, Nat.sub_self, hfirst]
      exact BitVec.and_zero
  have hbyte := hones 0 (by omega)
  rw [finishRaw_cases hraw h4, add_zero, program_zero hzero3] at hbyte
  cases hbyte

theorem update_raw_empty {chunks : List (List Byte)} (hempty : chunks.flatten = []) :
    Updated cfg m ([] ++ chunks.flatten) (update cfg m [] chunks) := by
  have hput : ∀ (cs : List (List Byte)) (s : State), cs.flatten = [] → putAll cfg s cs = .ok s := by
    intro cs
    induction cs with
    | nil => exact fun _ _ => rfl
    | cons c cs ih =>
      intro s hcs
      rw [flatten_cons, append_eq_nil_iff] at hcs
      simp only [putAll, putbytes, hcs.1, putLoop_nil, bind, Except.bind]
      exact ih s hcs.2
  have hz : (zeros cfg).length = cfg.bufferSize := length_replicate ..
  have hB := cfg.buffer_le
  have hslot := page_le_slot cfg
  have hwrite := writeBlock_ok (m := m) (a := cfg.slotStart) hz (cfg.buffer_dvd_addr _) (by omega)
  refine ⟨⟨0, cfg.slotPage, zeros cfg, zeros cfg, program m cfg.slotStart (zeros cfg)⟩, ?_, by rw [hempty]; rfl, ?_⟩
  · simp only [update, initRaw, length_nil, Nat.zero_le, if_true, ne_eq, not_true, and_false, if_false, pure,
      Except.pure, bind, Except.bind, hput chunks _ hempty, flush, hraw, Nat.zero_mod, finishRaw, nil_append, drop_zero, hwrite]
  · exact fun x hx => program_frame (by omega)

end

end

end PipRiot.Riotboot
