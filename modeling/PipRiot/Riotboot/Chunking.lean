import Mathlib.Data.List.GetD
import PipRiot.Riotboot.Flashwrite

/-!
# The rounds of an update

What the flash calls leave, the buffer behind a piece, and the loop over the rounds and
the chunks: an invariant of the single rounds holds behind every list of chunks.
-/

namespace PipRiot.Riotboot

open List

section
variable {cfg : Config} {page b n : Nat} {m : Flash} {s : State}

theorem Config.buffer_pos (cfg : Config) : 0 < cfg.bufferSize := Nat.pos_of_dvd_of_pos cfg.buffer_dvd cfg.page_pos

theorem Config.buffer_le (cfg : Config) : cfg.bufferSize ≤ cfg.pageSize := Nat.le_of_dvd cfg.page_pos cfg.buffer_dvd

theorem Config.buffer_dvd_addr (cfg : Config) (page : Nat) : cfg.bufferSize ∣ flashpageAddr cfg page :=
  Dvd.dvd.mul_left cfg.buffer_dvd page

theorem addr_succ (page : Nat) : flashpageAddr cfg (page + 1) = flashpageAddr cfg page + cfg.pageSize := Nat.succ_mul ..

theorem addr_mono {p q : Nat} (h : p ≤ q) : flashpageAddr cfg p ≤ flashpageAddr cfg q := Nat.mul_le_mul_right _ h

theorem addr_lt {p q : Nat} (h : flashpageAddr cfg p < flashpageAddr cfg q) :
    flashpageAddr cfg p + cfg.pageSize ≤ flashpageAddr cfg q := by
  rw [← addr_succ]
  exact addr_mono (Nat.lt_of_mul_lt_mul_right h)

theorem slot_end (cfg : Config) : cfg.slotStart + cfg.slotSize = flashpageAddr cfg (cfg.slotPage + cfg.slotPages) :=
  (add_mul ..).symm

theorem slot_end_le (cfg : Config) : cfg.slotStart + cfg.slotSize ≤ flashpageAddr cfg cfg.numof := by
  rw [slot_end]
  exact addr_mono cfg.slot_fits

theorem page_le_slot (cfg : Config) : cfg.pageSize ≤ cfg.slotSize := Nat.le_mul_of_pos_left _ cfg.slot_pos

section
variable (h : flashpageAddr cfg page < cfg.slotStart + cfg.slotSize)
include h

theorem page_in_slot : flashpageAddr cfg page + cfg.pageSize ≤ cfg.slotStart + cfg.slotSize := by
  rw [slot_end] at h ⊢
  exact addr_lt h

theorem page_lt_numof : page < cfg.numof :=
  Nat.lt_of_mul_lt_mul_right (lt_of_lt_of_le h (slot_end_le cfg))

end

theorem block_end_le {e : Nat} (he : b ∣ e) (h : n < e) : n - n % b + b ≤ e := by
  obtain ⟨c, rfl⟩ := he
  have hdiv : n / b < c := Nat.div_lt_of_lt_mul h
  have hmul : b * (n / b) + b ≤ b * c := by
    exact Nat.mul_le_mul_left b hdiv
  have := Nat.div_add_mod n b
  omega

theorem mod_add {t : Nat} (h : n % b + t < b) : (n + t) % b = n % b + t := by
  rw [Nat.add_mod, Nat.mod_eq_of_lt (by omega : t < b), Nat.mod_eq_of_lt h]

theorem mod_add_eq_zero {t : Nat} (h : n % b + t = b) : (n + t) % b = 0 := by
  have := Nat.div_add_mod n b
  rw [show n + t = b * (n / b + 1) by rw [Nat.mul_succ]; omega, Nat.mul_mod_right]

theorem bind_ok {α β : Type} {x : Except Stop α} {f : α → Except Stop β} {r : β} :
    (x >>= f) = .ok r ↔ ∃ a, x = .ok a ∧ f a = .ok r := by
  cases x with
  | error e | ok a => simp [bind, Except.bind]

theorem flashpageErase_ok (h : page < cfg.numof) :
    flashpageErase cfg m page = .ok (erase m (flashpageAddr cfg page) cfg.pageSize) := if_pos h

theorem flashpageWrite_ok {a : Nat} {data : List Byte} (hlen : cfg.bufferSize ∣ data.length) (ha : cfg.bufferSize ∣ a)
    (hfits : a + data.length ≤ flashpageAddr cfg cfg.numof) : flashpageWrite cfg m a data = .ok (program m a data) :=
  if_pos ⟨Nat.mod_eq_zero_of_dvd (cfg.block_dvd.trans hlen), Nat.mod_eq_zero_of_dvd (cfg.align_dvd.trans ha), hfits⟩

theorem writeBlock_ok {a : Nat} {data : List Byte} (hlen : data.length = cfg.bufferSize) (ha : cfg.bufferSize ∣ a)
    (hend : a + cfg.bufferSize ≤ cfg.slotStart + cfg.slotSize) : flashpageWrite cfg m a data = .ok (program m a data) :=
  flashpageWrite_ok (hlen ▸ Nat.dvd_refl _) ha (by have := slot_end_le cfg; omega)

theorem of_flashpageWrite {m' : Flash} {a : Nat} {data : List Byte} (h : flashpageWrite cfg m a data = .ok m') :
    m' = program m a data := by
  unfold flashpageWrite at h
  split at h
  · exact (Except.ok.inj h).symm
  · cases h

theorem of_flashpageErase {m' : Flash} (h : flashpageErase cfg m page = .ok m') :
    m' = erase m (flashpageAddr cfg page) cfg.pageSize := by
  unfold flashpageErase at h
  split at h
  · exact (Except.ok.inj h).symm
  · cases h

/-! ## The buffer -/

section
variable (s : State) (piece : List Byte)

@[simp] theorem fill_offset : (fill cfg s piece).offset = s.offset + piece.length := rfl

@[simp] theorem fill_flashpage : (fill cfg s piece).flashpage = s.flashpage := rfl

@[simp] theorem fill_flash : (fill cfg s piece).flash = s.flash := rfl

end

theorem fill_take {piece : List Byte} (hlen : s.flashpageBuf.length = cfg.bufferSize) :
    (fill cfg s piece).flashpageBuf.take (s.offset % cfg.bufferSize + piece.length) =
      s.flashpageBuf.take (s.offset % cfg.bufferSize) ++ piece := by
  have hlt := Nat.mod_lt s.offset cfg.buffer_pos
  have hbuf : (fill cfg s piece).flashpageBuf = s.flashpageBuf.take (s.offset % cfg.bufferSize) ++ piece ++
      (if cfg.raw = true ∧ s.offset % cfg.bufferSize = 0 then zeros cfg else s.flashpageBuf).drop
        (s.offset % cfg.bufferSize + piece.length) := by
    simp only [fill]
    split
    · rename_i h
      rw [h.2]; rfl
    · rfl
  rw [hbuf, take_left']
  rw [length_append, length_take]
  omega

theorem fill_length {piece : List Byte} (hlen : s.flashpageBuf.length = cfg.bufferSize)
    (hfits : s.offset % cfg.bufferSize + piece.length ≤ cfg.bufferSize) :
      (fill cfg s piece).flashpageBuf.length = cfg.bufferSize := by
  have hbuf : (if cfg.raw = true ∧ s.offset % cfg.bufferSize = 0 then zeros cfg else s.flashpageBuf).length =
      cfg.bufferSize := by
    split
    · exact length_replicate ..
    · exact hlen
  simp only [fill, length_append, length_take, length_drop, hbuf]
  omega

theorem getD_drop {l : List Byte} {i : Nat} (hle : n ≤ i) : (l.drop n).getD (i - n) 0xff = l.getD i 0xff := by
  rw [getD_eq_getElem?_getD, getElem?_drop, getD_eq_getElem?_getD, show n + (i - n) = i by omega]

@[simp] theorem putLoop_nil (more : Bool) (n : Nat) (s : State) : putLoop cfg more n s [] = .ok s := by
  cases n <;> rfl

theorem putLoop_step {more : Bool} {bytes : List Byte} (h : bytes ≠ []) :
    putLoop cfg more (n + 1) s bytes =
      putPiece cfg more s (bytes.take (toCopy cfg s bytes.length)) >>= fun t =>
        putLoop cfg more n t (bytes.drop (toCopy cfg s bytes.length)) := by
  cases bytes with
  | nil => exact absurd rfl h
  | cons b bs => rfl

end

/-! ## The loop -/

def KeepsBlock (b p l : Nat) : Prop := p < b ∨ p % b = 0 ∨ p % b + l < b

instance (b p l : Nat) : Decidable (KeepsBlock b p l) := inferInstanceAs (Decidable (_ ∨ _ ∨ _))

def KeepsBlocks (b : Nat) : Nat → List Nat → Prop
  | _, [] => True
  | p, l :: ls => KeepsBlock b p l ∧ KeepsBlocks b (p + l) ls

section
variable {cfg : Config} (Inv : State → List Byte → Prop) (hoffset : ∀ s got, Inv s got → s.offset = got.length)
  (hstep : ∀ s got piece, Inv s got → 0 < piece.length → got.length + piece.length ≤ cfg.slotSize →
    got.length % cfg.bufferSize + piece.length ≤ cfg.bufferSize →
      (cfg.raw = true → KeepsBlock cfg.bufferSize got.length piece.length) →
    ∃ t, putPiece cfg true s piece = .ok t ∧ Inv t (got ++ piece))
include hoffset hstep

theorem putLoop_total : ∀ (n : Nat) (s : State) (got bytes : List Byte), bytes.length ≤ n → Inv s got →
    got.length + bytes.length ≤ cfg.slotSize → (cfg.raw = true → KeepsBlock cfg.bufferSize got.length bytes.length) →
    ∃ t, putLoop cfg true n s bytes = .ok t ∧ Inv t (got ++ bytes) := by
  intro n
  induction n with
  | zero =>
    intro s got bytes hn h _ _
    have hnil : bytes = [] := eq_nil_of_length_eq_zero (by omega)
    rw [hnil, append_nil]; exact ⟨s, putLoop_nil .., h⟩
  | succ n ih =>
    intro s got bytes hn h hfits hgood
    by_cases hnil : bytes = []
    · rw [hnil, append_nil]; exact ⟨s, putLoop_nil .., h⟩
    · have hpos := length_pos_of_ne_nil hnil
      have hlt := Nat.mod_lt got.length cfg.buffer_pos
      rw [putLoop_step hnil]
      have hcopy : toCopy cfg s bytes.length = min (cfg.bufferSize - got.length % cfg.bufferSize) bytes.length := by
        rw [toCopy, hoffset s got h]
      generalize toCopy cfg s bytes.length = k at hcopy
      have htake : (bytes.take k).length = k := by
        rw [length_take]; omega
      have hpiece : cfg.raw = true → KeepsBlock cfg.bufferSize got.length (bytes.take k).length := by
        intro hraw
        rcases hgood hraw with hsmall | hbegin | hroom
        · exact .inl hsmall
        · exact .inr (.inl hbegin)
        · exact .inr (.inr (by omega))
      obtain ⟨t, ht, hinv⟩ := hstep s got (bytes.take k) h (by omega) (by omega) (by omega) hpiece
      have hrest := ih t (got ++ bytes.take k) (bytes.drop k) ?_ hinv ?_ ?_
      · rw [append_assoc, take_append_drop] at hrest
        simpa only [ht, bind, Except.bind] using hrest
      · rw [length_drop]; omega
      · rw [length_append, length_drop]; omega
      · -- behind the first round every round begins a block
        intro _
        rw [length_append, htake, length_drop]
        by_cases hfull : got.length % cfg.bufferSize + k = cfg.bufferSize
        · exact .inr (.inl (mod_add_eq_zero hfull))
        · refine .inr (.inr ?_)
          rw [mod_add (by omega)]; omega

theorem putAll_total : ∀ (chunks : List (List Byte)) (s : State) (got : List Byte), Inv s got →
    got.length + chunks.flatten.length ≤ cfg.slotSize →
    (cfg.raw = true → KeepsBlocks cfg.bufferSize got.length (chunks.map List.length)) →
    ∃ t, putAll cfg s chunks = .ok t ∧ Inv t (got ++ chunks.flatten)
  | [], s, got, h, _, _ => ⟨s, rfl, by rwa [flatten_nil, append_nil]⟩
  | c :: cs, s, got, h, hfits, hkeeps => by
    rw [flatten_cons, length_append] at hfits
    obtain ⟨t, ht, hinv⟩ := putLoop_total Inv hoffset hstep c.length s got c le_rfl h (by omega) fun hraw =>
      (hkeeps hraw).1
    have hlen : (got ++ c).length = got.length + c.length := length_append
    obtain ⟨u, hu, hinv'⟩ := putAll_total cs t (got ++ c) hinv (by omega) fun hraw => by
      rw [hlen]; exact (hkeeps hraw).2
    refine ⟨u, ?_, by rwa [append_assoc, ← flatten_cons] at hinv'⟩
    simpa only [putAll, putbytes, ht, bind, Except.bind] using hu

end

section
variable {cfg : Config} {m : Flash}

theorem update_ok {head : List Byte} {chunks : List (List Byte)} {u : State} (h : update cfg m head chunks = .ok u) :
    ∃ s1 s2 s3, initRaw cfg m head.length = .ok s1 ∧ putAll cfg s1 chunks = .ok s2 ∧ flush cfg s2 = .ok s3 ∧
      finishRaw cfg s3 head = .ok u := by
  obtain ⟨s1, h1, h⟩ := bind_ok.1 h
  obtain ⟨s2, h2, h⟩ := bind_ok.1 h
  obtain ⟨s3, h3, h⟩ := bind_ok.1 h
  exact ⟨s1, s2, s3, h1, h2, h3, h⟩

def uniform (b : Byte) (ls : List Nat) : List (List Byte) := ls.map fun l => replicate l b

theorem uniform_lengths (b : Byte) (ls : List Nat) : (uniform b ls).map List.length = ls := by
  simp [uniform, Function.comp_def]

theorem uniform_flatten (b : Byte) (ls : List Nat) : (uniform b ls).flatten = replicate ls.sum b := by
  induction ls with
  | nil => rfl
  | cons l ls ih =>
    rw [sum_cons, replicate_add, ← ih]; rfl

theorem Updated.uniform {b : Byte} {o : Nat} {ls : List Nat} {r : Except Stop State}
    (h : Updated cfg m (replicate o b ++ (uniform b ls).flatten) r) :
    ∃ u, r = .ok u ∧ ∀ i, i < o + ls.sum → u.flash (cfg.slotStart + i) = b := by
  rw [uniform_flatten, ← replicate_add] at h
  obtain ⟨u, hu, hslice, -⟩ := h
  refine ⟨u, hu, fun i hi => ?_⟩
  rw [length_replicate] at hslice
  have hbyte := @slice_getD u.flash cfg.slotStart _ i hi 0xff
  rw [hslice, getD_replicate _ hi] at hbyte
  exact hbyte.symm

end

end PipRiot.Riotboot
