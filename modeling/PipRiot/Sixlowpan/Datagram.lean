import PipRiot.Lib.Pieces
import PipRiot.Sixlowpan.FragRbLists

/-!
# Datagrams and their fragments

An uncompressed datagram cut at multiples of 8, the frames that carry its pieces, and
what the reassembly buffer reads in them.
-/

namespace PipRiot.Sixlowpan

open List

structure Datagram where
  src : List UInt8
  dst : List UInt8
  tag : Nat
  pieces : List (List UInt8)
  tag_lt : tag < 65536
  size_le : pieces.flatten.length ≤ 2047
  pieces_ne : pieces ≠ []
  nonempty : ∀ p ∈ pieces, p ≠ []
  aligned : ∀ j < pieces.length, 8 ∣ Pieces.offset pieces j

namespace Datagram

def data (d : Datagram) : List UInt8 := d.pieces.flatten

def key (d : Datagram) : Key := ⟨d.src, d.dst, d.tag, d.data.length⟩

def offset (d : Datagram) (j : Nat) : Nat := Pieces.offset d.pieces j

def size (d : Datagram) (j : Nat) : Nat := Pieces.size d.pieces j

def piece (d : Datagram) (j : Nat) : List UInt8 := d.pieces.getD j []

def header (d : Datagram) (j : Nat) : List UInt8 :=
  let size := d.data.length
  let tag := [UInt8.ofNat (d.tag / 256), UInt8.ofNat (d.tag % 256)]
  if j = 0 then [UInt8.ofNat (0xc0 + size / 256), UInt8.ofNat (size % 256)] ++ tag ++ [Frame.uncomp]
  else [UInt8.ofNat (0xe0 + size / 256), UInt8.ofNat (size % 256)] ++ tag ++ [UInt8.ofNat (d.offset j / 8)]

structure Carries (d : Datagram) (j : Nat) (f : Frame) : Prop where
  index : j < d.pieces.length
  src : f.src = d.src
  dst : f.dst = d.dst
  data : f.data = d.header j ++ d.piece j

section
variable {d : Datagram} {i j : Nat} {f : Frame} {cfg : FragConfig}

@[simp] theorem length_header (d : Datagram) (j : Nat) : (d.header j).length = 5 := by
  unfold header
  split <;> rfl

theorem size_pos (h : j < d.pieces.length) : 0 < d.size j := by
  have hmem : d.piece j ∈ d.pieces := by
    simp only [piece, getD_eq_getElem _ _ h]; exact getElem_mem h
  exact length_pos_of_ne_nil (d.nonempty _ hmem)

theorem end_le (h : j < d.pieces.length) : d.offset j + d.size j ≤ d.data.length := Pieces.end_le h

theorem data_le (d : Datagram) : d.data.length ≤ 2047 := d.size_le

theorem offset_pos (h : j ≠ 0) : 0 < d.offset j := by
  have hfirst : 0 < d.size 0 := size_pos (length_pos_of_ne_nil d.pieces_ne)
  have hle : d.offset 0 + d.size 0 ≤ d.offset j := Pieces.offset_add_le (pos_of_ne_zero h)
  omega

theorem offset_le (h : j < d.pieces.length) : d.offset j / 8 < 256 := by
  have h1 := end_le h
  have h3 := d.data_le
  omega

namespace Carries

section
variable (h : Carries d j f)
include h

theorem byte_header {k : Nat} (hk : k < 5) : f.byte k = (d.header j).getD k 0 := by
  have hlen : k < (d.header j).length := by simpa using hk
  have hlen' : k < (d.header j ++ d.piece j).length := by
    rw [length_append]; omega
  rw [Frame.byte, h.data, getD_eq_getElem _ _ hlen', getD_eq_getElem _ _ hlen, getElem_append_left hlen]

theorem byte_piece {k : Nat} (hk : k < d.size j) : some (f.byte (5 + k)) = (d.piece j)[k]? := by
  have hlen : 5 + k < (d.header j ++ d.piece j).length := by
    rw [length_append, length_header]; exact Nat.add_lt_add_left hk 5
  rw [Frame.byte, h.data, getD_eq_getElem _ _ hlen, getElem_append_right (by simp), ← getElem?_eq_getElem]
  simp

theorem first_byte : f.byte 0 = UInt8.ofNat ((if j = 0 then 0xc0 else 0xe0) + d.data.length / 256) := by
  rw [h.byte_header (by decide), header]
  split <;> simp

theorem dispatch : f.byte 0 &&& 0xf8 = if j = 0 then 0xc0 else 0xe0 := by
  have hsize := d.data_le
  have hlt : d.data.length / 256 < 8 := by omega
  have h1 : ∀ x < 8, UInt8.ofNat (0xc0 + x) &&& 0xf8 = 0xc0 := by decide
  have h2 : ∀ x < 8, UInt8.ofNat (0xe0 + x) &&& 0xf8 = 0xe0 := by decide
  rw [h.first_byte]
  split
  · exact h1 _ hlt
  · exact h2 _ hlt

theorem isFrag1 : f.isFrag1 = decide (j = 0) := by
  rw [Frame.isFrag1, h.dispatch]
  split <;> simp_all

theorem isFragN : f.isFragN = decide (j ≠ 0) := by
  rw [Frame.isFragN, h.dispatch]
  split <;> simp_all

theorem datagramSize : f.datagramSize = d.data.length := by
  have hsize := d.data_le
  have h1 : f.byte 1 = UInt8.ofNat (d.data.length % 256) := by
    rw [h.byte_header (by decide), header]
    split <;> rfl
  rw [Frame.datagramSize, h.first_byte, h1]
  simp only [UInt8.toNat_ofNat']
  split <;> omega

theorem datagramTag : f.datagramTag = d.tag := by
  have htag := d.tag_lt
  have h2 : f.byte 2 = UInt8.ofNat (d.tag / 256) := by
    rw [h.byte_header (by decide), header]
    split <;> rfl
  have h3 : f.byte 3 = UInt8.ofNat (d.tag % 256) := by
    rw [h.byte_header (by decide), header]
    split <;> rfl
  rw [Frame.datagramTag, h2, h3]
  simp only [UInt8.toNat_ofNat']
  omega

theorem key : f.key = d.key := by
  rw [Frame.key, h.src, h.dst, h.datagramTag, h.datagramSize]
  rfl

theorem offset : f.offset = d.offset j := by
  rw [Frame.offset, h.isFragN]
  by_cases hj : j = 0
  · simp [hj, Datagram.offset]
  · have h4 : f.byte 4 = UInt8.ofNat (d.offset j / 8) := by
      rw [h.byte_header (by decide), header, if_neg hj]; rfl
    have hlt := offset_le h.index
    have hdvd : 8 ∣ d.offset j := d.aligned j h.index
    rw [if_pos (by simpa using hj), h4, UInt8.toNat_ofNat']; omega

theorem payload : f.payload = if j = 0 then 4 else 5 := by
  rw [Frame.payload, h.isFrag1]
  simp

end

theorem uncomp (h : Carries d 0 f) : f.byte 4 = Frame.uncomp := by
  rw [h.byte_header (by decide)]
  rfl

section
variable (h : Carries d j f)
include h

theorem length_data : f.data.length = 5 + d.size j := by
  rw [h.data, length_append, length_header]
  rfl

theorem fragSize : f.fragSize cfg = d.size j := by
  have h1 := end_le h.index
  have h2 := d.data_le
  have hword : 2 ^ 16 ≤ 2 ^ cfg.word := Nat.pow_le_pow_right (by decide) cfg.word_ge
  have hlen := h.length_data
  rw [Frame.fragSize, h.offset, h.payload]
  by_cases hj : j = 0
  · subst hj
    have hzero : d.offset 0 = 0 := rfl
    rw [if_pos hzero, if_neg (by omega), if_pos rfl, if_pos h.uncomp, hlen]
    have hsum : 5 + d.size 0 - 4 + 2 ^ cfg.word - 1 = d.size 0 + 2 ^ cfg.word := by omega
    rw [hsum, Nat.add_mod_right, Nat.mod_eq_of_lt (by omega)]
  · have hpos := offset_pos (d := d) hj
    rw [if_neg (by omega), if_neg (by omega), hlen]; omega

theorem bytes : f.bytes (d.size j) = d.piece j := by
  have hpos : (if f.offset = 0 ∧ f.byte f.payload = Frame.uncomp then f.payload + 1 else f.payload) = 5 := by
    rw [h.offset, h.payload]
    by_cases hj : j = 0
    · subst hj
      rw [if_pos ⟨rfl, h.uncomp⟩]; rfl
    · have hoff := offset_pos (d := d) hj
      rw [if_neg fun hand => by omega, if_neg hj]
  apply ext_getElem?
  intro k
  rw [Frame.bytes, hpos]
  by_cases hk : k < d.size j
  · rw [getElem?_map, getElem?_range hk, Option.map_some, h.byte_piece hk]
  · have hle : (d.piece j).length ≤ k := not_lt.mp hk
    rw [getElem?_eq_none (by simpa using not_lt.mp hk), getElem?_eq_none hle]

theorem not_iphc : ¬ (f.offset = 0 ∧ cfg.iphc ∧ f.isIphc) := by
  rintro ⟨hzero, -, hiphc⟩
  rw [h.offset] at hzero
  by_cases hj : j = 0
  · subst hj
    rw [Frame.isIphc, h.payload, if_pos rfl, h.uncomp] at hiphc
    exact absurd hiphc (by decide)
  · have := offset_pos (d := d) hj; omega

theorem index_unique (h' : Carries d i f) : i = j :=
  Pieces.offset_inj (size_pos h'.index) (size_pos h.index) (h'.offset.symm.trans h.offset)

end

end Carries

end

end Datagram

end PipRiot.Sixlowpan
