import PipRiot.Riotboot.RawUpdate

/-!
# Updates by pages, and both modes

By pages every chunking is right, but the buffer is flushed even if it is empty: then
the page behind the image gets the page before it once more.
-/

namespace PipRiot.Riotboot

open List

structure Paged (cfg : Config) (m : Flash) (s : State) (got : List Byte) : Prop where
  offset : s.offset = got.length
  page : flashpageAddr cfg s.flashpage = cfg.slotStart + (got.length - got.length % cfg.bufferSize)
  buf_length : s.flashpageBuf.length = cfg.bufferSize
  buf : s.flashpageBuf.take (got.length % cfg.bufferSize) = got.drop (got.length - got.length % cfg.bufferSize)
  full : got.length % cfg.bufferSize = 0 → 0 < got.length → s.flashpageBuf = got.drop (got.length - cfg.bufferSize)
  written : ∀ i, i < got.length - got.length % cfg.bufferSize → s.flash (cfg.slotStart + i) = got.getD i 0xff
  frame : ∀ x, x < cfg.slotStart ∨ cfg.slotStart + (got.length - got.length % cfg.bufferSize) ≤ x → s.flash x = m x

section
variable {cfg : Config} {m : Flash} {s : State} {got piece : List Byte}

theorem Config.bufferSize_paged (hraw : cfg.raw = false) : cfg.bufferSize = cfg.pageSize := by
  simp [Config.bufferSize, bufferSizeOf, hraw]

theorem writeAndVerify_ok (hraw : cfg.raw = false) {page : Nat} {data : List Byte} (hpage : page < cfg.numof)
    (hlen : data.length = cfg.pageSize) :
    flashpageWriteAndVerify cfg m page data =
      .ok (program (erase m (flashpageAddr cfg page) cfg.pageSize) (flashpageAddr cfg page) data) := by
  have hB := cfg.bufferSize_paged hraw
  have hwrite := @flashpageWrite_ok cfg (erase m (flashpageAddr cfg page) cfg.pageSize) (flashpageAddr cfg page) data
    (by rw [hlen, hB]) (cfg.buffer_dvd_addr page) (by rw [hlen, ← addr_succ]; exact addr_mono hpage)
  have hverify : flashpageVerify cfg
      (program (erase m (flashpageAddr cfg page) cfg.pageSize) (flashpageAddr cfg page) data) page data = true := by
    rw [flashpageVerify, decide_eq_true_eq, ← hlen]
    exact slice_program (blank_erase _ _ _)
  simp only [flashpageWriteAndVerify, flashpageWritePage, flashpageErase_ok hpage, hwrite, hverify, bind, Except.bind]
  rfl

theorem rewrite_page {a n x : Nat} {data : List Byte} (hlen : data.length = n) :
    program (erase m a n) a data x = if a ≤ x ∧ x < a + n then data.getD (x - a) 0xff else m x := by
  split
  · rename_i hx
    exact program_blank (hlen ▸ blank_erase _ _ _) hx.1 (by omega)
  · rw [program_frame (by omega), erase_frame (by omega)]

section
variable (hraw : cfg.raw = false)
include hraw

theorem enterPage_paged : enterPage cfg s = .ok (s, s.offset - (flashpageAddr cfg s.flashpage - cfg.slotStart)) := by
  simp only [enterPage, hraw, Bool.false_eq_true, false_and, if_false]
  rfl

theorem putPiece_paged (h : Paged cfg m s got) (hpos : 0 < piece.length)
    (hfits : got.length + piece.length ≤ cfg.slotSize)
    (hroom : got.length % cfg.bufferSize + piece.length ≤ cfg.bufferSize) :
    ∃ t, putPiece cfg true s piece = .ok t ∧ Paged cfg m t (got ++ piece) := by
  have hB := cfg.bufferSize_paged hraw
  have hmodle := Nat.mod_le got.length cfg.bufferSize
  have hgot : (got ++ piece).length = got.length + piece.length := length_append
  have hpage := h.page
  have hlen : (fill cfg s piece).flashpageBuf.length = cfg.bufferSize := fill_length h.buf_length (by rwa [h.offset])
  have htake : (fill cfg s piece).flashpageBuf.take (got.length % cfg.bufferSize + piece.length) =
      (got ++ piece).drop (got.length - got.length % cfg.bufferSize) := by
    rw [drop_append_of_le_length (Nat.sub_le _ _), ← h.buf, ← h.offset, fill_take h.buf_length]
  simp only [putPiece, enterPage_paged hraw, bind, Except.bind, h.offset, Bool.true_eq_false, or_false]
  by_cases hfull : got.length % cfg.bufferSize + piece.length = cfg.bufferSize
  · have hmod : (got ++ piece).length % cfg.bufferSize = 0 := by rw [hgot, mod_add_eq_zero hfull]
    have hbase : (got ++ piece).length - cfg.bufferSize = got.length - got.length % cfg.bufferSize := by omega
    rw [hfull, take_of_length_le (by omega)] at htake
    have hnumof : s.flashpage < cfg.numof := page_lt_numof (by omega)
    have hwrite := @writeAndVerify_ok cfg s.flash hraw s.flashpage _ hnumof (hlen.trans hB)
    refine ⟨{ fill cfg s piece with
      flash := program (erase s.flash (flashpageAddr cfg s.flashpage) cfg.pageSize) (flashpageAddr cfg s.flashpage)
        (fill cfg s piece).flashpageBuf
      flashpage := s.flashpage + 1 }, ?_, ?_⟩
    · rw [if_pos hfull]
      simp only [store, hraw, Bool.false_eq_true, if_false, fill_flash, fill_flashpage, hwrite, bind, Except.bind]
      rfl
    · refine ⟨?_, ?_, hlen, ?_, fun _ _ => by rw [hbase]; exact htake, ?_, ?_⟩
      · rw [hgot, ← h.offset]; rfl
      · exact (addr_succ _).trans (by omega)
      · rw [hmod, Nat.sub_zero, drop_length, take_zero]
      · intro i hi
        dsimp only
        rw [rewrite_page (hlen.trans hB)]
        by_cases hold : i < got.length - got.length % cfg.bufferSize
        · rw [if_neg (by omega), h.written i hold, getD_append _ _ _ _ (by omega)]
        · rw [if_pos (by omega), htake, hpage,
            show cfg.slotStart + i - (cfg.slotStart + (got.length - got.length % cfg.bufferSize)) =
              i - (got.length - got.length % cfg.bufferSize) by omega,
            getD_drop (by omega)]
      · intro x hx
        dsimp only
        rw [rewrite_page (hlen.trans hB), if_neg (by omega)]
        exact h.frame x (by omega)
  · have hlt : got.length % cfg.bufferSize + piece.length < cfg.bufferSize := by omega
    have hmod : (got ++ piece).length % cfg.bufferSize = got.length % cfg.bufferSize + piece.length := by
      rw [hgot, mod_add hlt]
    have hbase : (got ++ piece).length - (got ++ piece).length % cfg.bufferSize =
      got.length - got.length % cfg.bufferSize := by omega
    rw [if_neg hfull]
    refine ⟨_, rfl, ⟨?_, by rw [hbase]; exact hpage, hlen, by rw [hbase, hmod]; exact htake, ?_, ?_, ?_⟩⟩
    · rw [hgot, ← h.offset]; rfl
    · omega
    · rw [hbase]
      intro i hi
      rw [getD_append _ _ _ _ (by omega)]; exact h.written i hi
    · rw [hbase]; exact h.frame

theorem putAll_paged {o : Nat} {chunks : List (List Byte)} (ho : o < cfg.bufferSize)
    (hfits : o + chunks.flatten.length ≤ cfg.slotSize) :
    ∃ s t, initRaw cfg m o = .ok s ∧ putAll cfg s chunks = .ok t ∧
      Paged cfg m t (replicate o 0 ++ chunks.flatten) := by
  have hB := cfg.bufferSize_paged hraw
  have hz : (replicate o (0 : Byte)).length = o := length_replicate ..
  have hinit : initRaw cfg m o = .ok ⟨o, cfg.slotPage, zeros cfg, zeros cfg, m⟩ := by
    simp only [initRaw, if_pos (by omega : o ≤ cfg.pageSize), hraw, Bool.false_eq_true, false_and, if_false]
    rfl
  have hstart : Paged cfg m ⟨o, cfg.slotPage, zeros cfg, zeros cfg, m⟩ (replicate o 0) := by
    refine ⟨hz.symm, ?_, length_replicate .., ?_, ?_, ?_, fun _ _ => rfl⟩
    · rw [hz, Nat.mod_eq_of_lt ho, Nat.sub_self]; rfl
    · rw [hz, Nat.mod_eq_of_lt ho, Nat.sub_self, drop_zero, zeros, take_replicate, min_eq_left (by omega)]
    · rw [hz, Nat.mod_eq_of_lt ho]; omega
    · rw [hz, Nat.mod_eq_of_lt ho]; omega
  obtain ⟨t, ht, hpaged⟩ := putAll_total (Paged cfg m) (fun _ _ h => h.offset)
    (fun _ _ _ h hpos hfits hroom _ => putPiece_paged hraw h hpos hfits hroom) chunks _ _ hstart (by omega)
      (by simp [hraw])
  exact ⟨_, t, hinit, ht, hpaged⟩

theorem flush_paged (h : Paged cfg m s got) (hfits : got.length < cfg.slotSize) :
    ∃ t, flush cfg s = .ok t ∧ (∀ i, i < got.length → t.flash (cfg.slotStart + i) = got.getD i 0xff) ∧
      ∀ x, x < cfg.slotStart ∨ cfg.slotStart + cfg.slotSize ≤ x → t.flash x = m x := by
  have hB := cfg.bufferSize_paged hraw
  have hpage := h.page
  have hlt := Nat.mod_lt got.length cfg.buffer_pos
  have hend := @page_in_slot cfg s.flashpage (by omega)
  have hwrite := @writeAndVerify_ok cfg s.flash hraw s.flashpage _ (page_lt_numof (by omega)) (h.buf_length.trans hB)
  refine ⟨{ s with
    flash := program (erase s.flash (flashpageAddr cfg s.flashpage) cfg.pageSize) (flashpageAddr cfg s.flashpage)
      s.flashpageBuf }, ?_, ?_, ?_⟩
  · simp only [flush, hraw, Bool.false_eq_true, if_false, hwrite, bind, Except.bind]
    rfl
  · intro i hi
    dsimp only
    rw [rewrite_page (h.buf_length.trans hB)]
    by_cases hold : i < got.length - got.length % cfg.bufferSize
    · rw [if_neg (by omega), h.written i hold]
    · rw [if_pos (by omega), hpage,
        show cfg.slotStart + i - (cfg.slotStart + (got.length - got.length % cfg.bufferSize)) =
          i - (got.length - got.length % cfg.bufferSize) by omega,
        ← getD_drop (by omega : got.length - got.length % cfg.bufferSize ≤ i), ← h.buf, getD_eq_getElem?_getD,
        getD_eq_getElem?_getD, getElem?_take_of_lt (by omega)]
  · intro x hx
    dsimp only
    rw [rewrite_page (h.buf_length.trans hB), if_neg (by omega)]
    exact h.frame x (by omega)

theorem finishRaw_paged {head : List Byte} (hhead : head.length ≤ cfg.pageSize) :
    ∃ t, finishRaw cfg s head = .ok t ∧ ∀ x, t.flash x =
      if cfg.slotStart ≤ x ∧ x < cfg.slotStart + head.length then head.getD (x - cfg.slotStart) 0xff
      else s.flash x := by
  have hlen : (head ++ slice s.flash (cfg.slotStart + head.length) (cfg.pageSize - head.length)).length =
      cfg.pageSize := by
    rw [length_append, slice_length]; omega
  have hslot : cfg.slotPage < cfg.numof := by
    have := cfg.slot_pos
    have := cfg.slot_fits; omega
  have hwrite := @writeAndVerify_ok cfg s.flash hraw cfg.slotPage _ hslot hlen
  refine ⟨_, by simp only [finishRaw, if_pos hhead, hraw, Bool.false_eq_true, if_false, hwrite, bind,
    Except.bind]; rfl, fun x => ?_⟩
  change program (erase s.flash cfg.slotStart cfg.pageSize) cfg.slotStart _ x = _
  rw [rewrite_page hlen]
  split
  · rename_i hx
    by_cases ho : x < cfg.slotStart + head.length
    · rw [if_pos ⟨hx.1, ho⟩, getD_append _ _ _ _ (by omega)]
    · rw [if_neg (by omega), getD_append_right _ _ _ _ (by omega), slice_getD (by omega)]
      congr 1
      omega
  · rw [if_neg (by omega)]

theorem update_paged {head : List Byte} {chunks : List (List Byte)} (hhead : head.length < cfg.bufferSize)
    (hfits : (head ++ chunks.flatten).length < cfg.slotSize) :
      Updated cfg m (head ++ chunks.flatten) (update cfg m head chunks) := by
  rw [length_append] at hfits
  have hB := cfg.bufferSize_paged hraw
  obtain ⟨s1, s2, h1, h2, hpaged⟩ := @putAll_paged cfg m hraw head.length chunks hhead (by omega)
  have hz : (replicate head.length (0 : Byte)).length = head.length := length_replicate ..
  generalize hgotdef : replicate head.length (0 : Byte) ++ chunks.flatten = got at hpaged
  have hgot : got.length = head.length + chunks.flatten.length := by rw [← hgotdef, length_append, hz]
  have himage : ∀ i, head.length ≤ i → (head ++ chunks.flatten).getD i 0xff = got.getD i 0xff := by
    intro i hi
    rw [← hgotdef, getD_append_right _ _ _ _ hi, getD_append_right _ _ _ _ (by omega), hz]
  obtain ⟨s3, h3, hwritten, hframe⟩ := flush_paged hraw hpaged (by omega)
  obtain ⟨s4, h4, hflash⟩ := @finishRaw_paged cfg s3 hraw head (by omega)
  refine ⟨s4, ?_, ?_, ?_⟩
  · simp only [update, h1, h2, h3, h4, bind, Except.bind]
  · refine slice_of_getD rfl fun i hi => ?_
    rw [length_append] at hi
    rw [hflash]
    by_cases ho : i < head.length
    · rw [if_pos ⟨by omega, by omega⟩, Nat.add_sub_cancel_left, getD_append _ _ _ _ ho]
    · rw [if_neg (by omega), himage i (by omega), hwritten i (by omega)]
  · intro x hx
    rw [hflash, if_neg (by omega), hframe x hx]

theorem update_paged_full {o : Nat} {ls : List Nat} (ho : o < cfg.bufferSize) (hfull : o + ls.sum = cfg.slotSize) :
    ¬ Updated cfg (fun _ => 0xff) (replicate o 0 ++ (uniform 0 ls).flatten)
      (update cfg (fun _ => 0xff) (replicate o 0) (uniform 0 ls)) := by
  rintro ⟨u, hu, -, hframe⟩
  obtain ⟨s1, s2, s3, h1, h2, h3, h4⟩ := update_ok hu
  have hB := cfg.bufferSize_paged hraw
  have hpos := cfg.page_pos
  have hslot := page_le_slot cfg
  have hflat : (uniform 0 ls).flatten.length = ls.sum := by rw [uniform_flatten, length_replicate]
  obtain ⟨s1', s2', h1', h2', hpaged⟩ := @putAll_paged cfg (fun _ => 0xff) hraw o (uniform 0 ls) ho (by omega)
  rw [length_replicate] at h1
  cases h1'.symm.trans h1
  cases h2'.symm.trans h2
  rw [uniform_flatten, ← replicate_add, hfull] at hpaged
  have hlen : (replicate cfg.slotSize (0 : Byte)).length = cfg.slotSize := length_replicate ..
  have hmod : cfg.slotSize % cfg.bufferSize = 0 := by
    rw [hB]; exact Nat.mul_mod_left _ _
  have hbuf : s2.flashpageBuf = replicate cfg.pageSize 0 := by
    rw [hpaged.full (by rw [hlen, hmod]) (by omega), hlen, drop_replicate, hB]
    congr 1
    omega
  have hpage := hpaged.page
  rw [hlen, hmod, Nat.sub_zero] at hpage
  have hnumof : s2.flashpage < cfg.numof := by
    by_contra hnot
    simp [flush, hraw, flashpageWriteAndVerify, flashpageWritePage, flashpageErase, hnot, bind, Except.bind] at h3
  have hblen : s2.flashpageBuf.length = cfg.pageSize := by rw [hbuf, length_replicate]
  have hwrite := @writeAndVerify_ok cfg s2.flash hraw s2.flashpage _ hnumof hblen
  simp only [flush, hraw, Bool.false_eq_true, if_false, hwrite, bind, Except.bind] at h3
  cases h3
  -- the stale buffer went to the page at the end of the slot
  obtain ⟨u', hu', hflash⟩ := @finishRaw_paged cfg _ hraw (replicate o 0) (by rw [length_replicate]; omega)
  cases hu'.symm.trans h4
  have hbyte := hframe (cfg.slotStart + cfg.slotSize) (.inr le_rfl)
  rw [hflash, if_neg (by rw [length_replicate]; omega)] at hbyte
  dsimp only at hbyte
  rw [rewrite_page hblen, hpage, if_pos (by omega), Nat.sub_self, hbuf, getD_replicate _ hpos] at hbyte
  cases hbyte

end

/-! ## Both modes -/

/-- In raw mode the head is not empty, the first block is filled and no other by a chunk
that did not begin it; by pages the image ends before the slot. -/
def Chunkable (cfg : Config) (o : Nat) (ls : List Nat) : Prop :=
  if cfg.raw then o + ls.sum = 0 ∨ 0 < o ∧ cfg.bufferSize ≤ o + ls.sum ∧ KeepsBlocks cfg.bufferSize o ls
  else o + ls.sum < cfg.slotSize

theorem update_correct_iff (cfg : Config) (o : Nat) (ls : List Nat) (ho : o < cfg.bufferSize)
    (hfits : o + ls.sum ≤ cfg.slotSize) :
    (∀ m head chunks, head.length = o → chunks.map List.length = ls →
      Updated cfg m (head ++ chunks.flatten) (update cfg m head chunks)) ↔ Chunkable cfg o ls := by
  have hlen : ∀ (head : List Byte) (chunks : List (List Byte)), head.length = o → chunks.map List.length = ls →
      (head ++ chunks.flatten).length = o + ls.sum := by
    intro head chunks hhead hchunks
    rw [length_append, length_flatten, hhead, hchunks]
  unfold Chunkable
  split
  · rename_i hraw
    constructor
    · intro h
      by_cases hempty : o + ls.sum = 0
      · exact .inl hempty
      · refine .inr ?_
        have hpos : 0 < o := by
          by_contra hzero
          obtain rfl : o = 0 := by omega
          exact update_raw_unerased hraw (by omega) (h _ _ _ rfl (uniform_lengths 0xff ls))
        refine ⟨hpos, ?_, ?_⟩
        · by_contra hshort
          exact update_raw_short hraw hpos (by omega)
            (h (fun _ => 0) _ _ (length_replicate ..) (uniform_lengths 0xff ls))
        · by_contra hsplit
          exact update_raw_split hraw hpos ho hfits hsplit
            (h (fun _ => 0) _ _ (length_replicate ..) (uniform_lengths 0 ls))
    · rintro (hempty | ⟨hpos, hge, hkeeps⟩) m head chunks hhead hchunks
      · have hnil := eq_nil_of_length_eq_zero ((hlen head chunks hhead hchunks).trans hempty)
        rw [append_eq_nil_iff] at hnil
        rw [hnil.1]; exact update_raw_empty hraw hnil.2
      · have hlen' := hlen head chunks hhead hchunks
        subst hhead hchunks
        exact update_raw hraw hpos ho (by omega) (by omega) hkeeps
  · rename_i hraw
    replace hraw : cfg.raw = false := by simpa using hraw
    constructor
    · intro h
      by_contra hfull
      exact update_paged_full hraw ho (by omega) (h (fun _ => 0xff) _ _ (length_replicate ..) (uniform_lengths 0 ls))
    · intro hlt m head chunks hhead hchunks
      have hlen' := hlen head chunks hhead hchunks
      exact update_paged hraw (by omega) (by omega)

end

theorem smallConfig_dvd (raw : Bool) :
    bufferSizeOf raw 8 1 ∣ 8 ∧ 1 ∣ bufferSizeOf raw 8 1 ∧ 2 ∣ bufferSizeOf raw 8 1 := by
  cases raw <;> decide

def smallConfig (raw : Bool) : Config :=
  ⟨raw, 8, 1, 2, 4, 1, 2, Nat.zero_lt_succ 7, (smallConfig_dvd raw).1, (smallConfig_dvd raw).2.1,
    (smallConfig_dvd raw).2.2, Nat.zero_lt_succ 1, Nat.le_succ 3⟩

theorem update_correct_whole_blocks :
    Updated (smallConfig true) (fun _ => 0) ([1] ++ [[2, 3], [4], [5, 6, 7, 8], [9]].flatten)
      (update (smallConfig true) (fun _ => 0) [1] [[2, 3], [4], [5, 6, 7, 8], [9]]) := by
  refine (update_correct_iff (smallConfig true) 1 [2, 1, 4, 1] (by decide) (by decide)).2 ?_ _ _ _ rfl rfl
  exact .inr ⟨by decide, by decide, .inl (by decide), .inl (by decide), .inr (.inl (by decide)),
    .inr (.inl (by decide)), trivial⟩

/-- The second block in two chunks, and an image of the size of the slot by pages. -/
theorem update_wrong_split_block :
    ((update (smallConfig true) (fun _ => 0) [1] [[2, 3, 4], [5, 6], [7, 8]]).map fun s => slice s.flash 8 8) =
        .ok [1, 2, 3, 4, 0xff, 0xff, 5, 6] ∧
      ¬ Updated (smallConfig true) (fun _ => 0) [1, 2, 3, 4, 5, 6, 7, 8]
        (update (smallConfig true) (fun _ => 0) [1] [[2, 3, 4], [5, 6], [7, 8]]) ∧
      ¬ Updated (smallConfig false) (fun _ => 0xff) (replicate 16 1)
        (update (smallConfig false) (fun _ => 0xff) [1] [replicate 15 1]) := by
  refine ⟨rfl, ?_, ?_⟩
  · rintro ⟨s, hs, hslice, -⟩
    cases hs
    revert hslice
    decide
  · rintro ⟨s, hs, -, hframe⟩
    cases hs
    have hbyte := hframe 24 (.inr (by decide))
    revert hbyte
    decide

end PipRiot.Riotboot
