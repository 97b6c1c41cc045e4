import PipRiot.Rbpf.Instructions

/-!
# Compressed images

`RBF.format_compressed` and `RBF.from_rbf` of `rbf.py`. The image has the compressed
text in the place of the text; reading it back gives the sections by the lengths in
the header, and all that remains are the symbols.
-/

namespace PipRiot.Rbpf

open List Option

namespace RBF

def compressed (self : RBF) : Bool :=
  match self.header with
  | some header => header.flags % 2 == 1
  | none => false

def instructions (self : RBF) : Except ParseError (List Instruction) := parseText self.text self.compressed

def compressedHeaderOf (self : RBF) (text : List Byte) : Header :=
  self.header.getD
    { magic := magic
      version := 0
      flags := 1
      dataLen := self.data.contents.length
      rodataLen := self.rodata.contents.length
      textLen := text.length
      functionsLen := self.symbols.length }

def formatCompressed (self : RBF) : Option (List Byte) :=
  match self.instructions with
  | .error _ => none
  | .ok instructions => do
    let text ← compressText instructions
    let header ← (self.compressedHeaderOf text).pack
    let symbols ← self.symbols.mapM Symbol.pack
    return header ++ (self.data.contents ++ (self.rodata.contents ++ (text ++ symbols.flatten)))

end RBF

/-! ## Reading back -/

def ByteString.slice : ByteString → Nat → Nat → ByteString
  | .bytes b, i, j => .bytes ((b.take j).drop i)
  | .bytearray b, i, j => .bytearray ((b.take j).drop i)

def Header.unpack (bs : List Byte) : Option Header :=
  let field (k : Nat) := leValue ((bs.drop (4 * k)).take 4)
  if bs.length < 28 then none
  else
    some
      { magic := field 0
        version := field 1
        flags := field 2
        dataLen := field 3
        rodataLen := field 4
        textLen := field 5
        functionsLen := field 6 }

def unpackSymbols : List Byte → Option (List Symbol)
  | [] => some []
  | b0 :: b1 :: b2 :: b3 :: b4 :: b5 :: syms =>
    (unpackSymbols syms).map (⟨leValue [b0, b1], leValue [b2, b3], leValue [b4, b5]⟩ :: ·)
  | _ => none

def RBF.fromRbf (byteData : ByteString) : Option RBF :=
  match Header.unpack byteData.contents with
  | none => none
  | some header =>
    let rodataStart := 28 + header.dataLen
    let textStart := rodataStart + header.rodataLen
    let symsStart := textStart + header.textLen
    match unpackSymbols (byteData.contents.drop symsStart) with
    | none => none
    | some symbols =>
      let rbf := RBF.init (byteData.slice 28 rodataStart) (byteData.slice rodataStart textStart)
        (byteData.slice textStart symsStart).contents symbols (some header)
      match rbf.instructions with
      | .error .structError => none
      | _ => some rbf

def imageOf (mutable : Bool) (image : List Byte) : ByteString := if mutable then .bytearray image else .bytes image

def RBF.ComesBack (rbf : RBF) (mutable : Bool) : Prop :=
  ∃ is image rbf' js, rbf.instructions = .ok is ∧ rbf.formatCompressed = some image ∧
    RBF.fromRbf (imageOf mutable image) = some rbf' ∧ parseText rbf'.text true = .ok js ∧
    List.Forall₂ Instruction.Same is js ∧ rbf'.data.contents = rbf.data.contents ∧
    rbf'.rodata.contents = rbf.rodata.contents ∧ rbf'.symbols = rbf.symbols

structure RBF.Fits (rbf : RBF) (is : List Instruction) : Prop where
  data : rbf.data.contents.length < 2 ^ 32
  rodata : rbf.rodata.contents.length < 2 ^ 32
  text : (is.map fun i => i.kind.compressedSize).sum < 2 ^ 32
  functions : rbf.symbols.length < 2 ^ 32
  symbols : ∀ s ∈ rbf.symbols, s.nameOffset < 2 ^ 16 ∧ s.flags < 2 ^ 16 ∧ s.locationOffset < 2 ^ 16

def ByteString.Padded (b : ByteString) : Prop := b.contents.length % 8 = 0

/-! ## Packing and unpacking -/

theorem packStruct_isSome {n : Nat} : ∀ {fields : List Nat}, (∀ v ∈ fields, v < 256 ^ n) →
    packStruct n fields = some (fields.flatMap (leBytes n))
  | [], _ => rfl
  | v :: fields, h => by
    have htail := packStruct_isSome fun w hw => h w (mem_cons_of_mem v hw)
    obtain ⟨bs, hbs, he⟩ := map_eq_some_iff.mp htail
    have hv : packField n v = some (leBytes n v) := if_pos (h v mem_cons_self)
    rw [packStruct, mapM_cons, hv, hbs, flatMap_cons, ← he]; rfl

theorem Header.unpack_pack {h : Header} {bs : List Byte} (hp : h.pack = some bs) (rest : List Byte) :
    bs.length = 28 ∧ Header.unpack (bs ++ rest) = some h := by
  obtain ⟨hlt, rfl⟩ := packStruct_some hp
  have hlen := flatMap_leBytes_length 4 [h.magic, h.version, h.flags, h.dataLen, h.rodataLen, h.textLen, h.functionsLen]
  have hfield := flatMap_leBytes_slice 4 rest
    [h.magic, h.version, h.flags, h.dataLen, h.rodataLen, h.textLen, h.functionsLen]
  have hvalue : ∀ v ∈ [h.magic, h.version, h.flags, h.dataLen, h.rodataLen, h.textLen, h.functionsLen],
      leValue (leBytes 4 v) = v := by
    intro v hv
    rw [leValue_leBytes, Nat.mod_eq_of_lt (hlt v hv)]
  refine ⟨hlen, ?_⟩
  unfold Header.unpack
  rw [if_neg (by rw [length_append, hlen]; simp)]
  simp only [hfield 0 (by simp), hfield 1 (by simp), hfield 2 (by simp), hfield 3 (by simp), hfield 4 (by simp),
    hfield 5 (by simp), hfield 6 (by simp)]
  simp only [getElem_cons_zero, getElem_cons_succ, hvalue h.magic (by simp), hvalue h.version (by simp),
    hvalue h.flags (by simp), hvalue h.dataLen (by simp), hvalue h.rodataLen (by simp), hvalue h.textLen (by simp),
    hvalue h.functionsLen (by simp)]

theorem Symbol.unpack_pack {s : Symbol} {bs : List Byte} (hp : s.pack = some bs) (rest : List Byte) :
    unpackSymbols (bs ++ rest) = (unpackSymbols rest).map (s :: ·) := by
  obtain ⟨hlt, rfl⟩ := packStruct_some hp
  have hvalue : ∀ v ∈ [s.nameOffset, s.flags, s.locationOffset], leValue (leBytes 2 v) = v := by
    intro v hv
    rw [leValue_leBytes, Nat.mod_eq_of_lt (hlt v hv)]
  have h1 := hvalue s.nameOffset (by simp)
  have h2 := hvalue s.flags (by simp)
  have h3 := hvalue s.locationOffset (by simp)
  simp only [leBytes] at h1 h2 h3
  simp only [flatMap_cons, flatMap_nil, leBytes, cons_append, nil_append, unpackSymbols, h1, h2, h3]

theorem unpackSymbols_pack : ∀ {symbols : List Symbol} {bss : List (List Byte)},
    symbols.mapM Symbol.pack = some bss → unpackSymbols bss.flatten = some symbols
  | [], bss, h => by
    cases h; rfl
  | s :: symbols, bss, h => by
    simp only [mapM_cons, bind_eq_bind, bind_eq_some_iff, Option.pure_def, some.injEq] at h
    obtain ⟨bs, hbs, rest, hrest, rfl⟩ := h
    rw [flatten_cons, Symbol.unpack_pack hbs, unpackSymbols_pack hrest, map_some]

theorem Symbol.pack_isSome {s : Symbol} :
    (∃ bs, s.pack = some bs) ↔ s.nameOffset < 2 ^ 16 ∧ s.flags < 2 ^ 16 ∧ s.locationOffset < 2 ^ 16 := by
  constructor
  · rintro ⟨bs, hbs⟩
    have hlt := (packStruct_some hbs).1
    exact ⟨hlt _ (by simp), hlt _ (by simp), hlt _ (by simp)⟩
  · rintro ⟨h1, h2, h3⟩
    refine ⟨_, packStruct_isSome ?_⟩
    simp only [forall_mem_cons, not_mem_nil, false_imp_iff, implies_true, and_true]
    exact ⟨h1, h2, h3⟩

theorem roundLen_contents_iff (b : ByteString) : (roundLen b).contents = b.contents ↔
    match b with
    | .bytes _ => True
    | .bytearray b => b.length % 8 = 0 := by
  cases b with
  | bytes b => simp [roundLen]
  | bytearray b =>
    simp only [roundLen]
    split
    · rename_i hne
      refine ⟨fun h => ?_, fun h => absurd h hne⟩
      have hlen := congrArg List.length h
      simp only [ByteString.contents, length_append, length_replicate] at hlen
      omega
    · rename_i heq
      exact ⟨fun _ => not_not.mp heq, fun _ => rfl⟩

theorem slice_append (a b c : List Byte) : ((a ++ (b ++ c)).take (a.length + b.length)).drop a.length = b := by
  rw [take_length_add_append, take_left' rfl, drop_left' rfl]

theorem slice_contents (b : ByteString) (i j : Nat) : (b.slice i j).contents = (b.contents.take j).drop i := by
  cases b <;> rfl

theorem imageOf_contents (mutable : Bool) (image : List Byte) : (imageOf mutable image).contents = image := by
  cases mutable <;> rfl

theorem roundLen_slice (mutable : Bool) (image : List Byte) (i j : Nat) {b : List Byte}
    (hb : ((imageOf mutable image).slice i j).contents = b) :
    (roundLen ((imageOf mutable image).slice i j)).contents = b ↔ (mutable = true → b.length % 8 = 0) := by
  have h := roundLen_contents_iff ((imageOf mutable image).slice i j)
  rw [hb] at h
  rw [h]
  cases mutable with
  | false => simp [imageOf, ByteString.slice]
  | true =>
    have hb' : (image.take j).drop i = b := hb
    simp [imageOf, ByteString.slice, hb']

/-! ## The image -/

section
variable {rbf : RBF} {is : List Instruction} {image : List Byte} (mutable : Bool)

theorem formatCompressed_some (hi : rbf.instructions = .ok is)
    (h : rbf.formatCompressed = some image) : ∃ text header symbols, compressText is = some text ∧
      (rbf.compressedHeaderOf text).pack = some header ∧ rbf.symbols.mapM Symbol.pack = some symbols ∧
      image = header ++ (rbf.data.contents ++ (rbf.rodata.contents ++ (text ++ symbols.flatten))) := by
  simp only [RBF.formatCompressed, hi, bind_eq_bind, bind_eq_some_iff, Option.pure_def, some.injEq] at h
  obtain ⟨text, ht, header, hhead, symbols, hs, rfl⟩ := h
  exact ⟨text, header, symbols, ht, hhead, hs, rfl⟩

theorem header_fits {text : List Byte} (hh : rbf.header = none) : (∃ bs, (rbf.compressedHeaderOf text).pack = some bs) ↔
    rbf.data.contents.length < 2 ^ 32 ∧ rbf.rodata.contents.length < 2 ^ 32 ∧ text.length < 2 ^ 32 ∧
      rbf.symbols.length < 2 ^ 32 := by
  have hall : (∃ bs, (rbf.compressedHeaderOf text).pack = some bs) ↔
      ∀ v ∈ [magic, 0, 1, rbf.data.contents.length, rbf.rodata.contents.length, text.length, rbf.symbols.length],
        v < 256 ^ 4 := by
    unfold Header.pack RBF.compressedHeaderOf
    rw [hh]
    exact ⟨fun ⟨bs, hbs⟩ => (packStruct_some hbs).1, fun h => ⟨_, packStruct_isSome h⟩⟩
  rw [hall]
  simp only [forall_mem_cons, not_mem_nil, false_imp_iff, implies_true, and_true]
  constructor
  · rintro ⟨-, -, -, h1, h2, h3, h4⟩
    exact ⟨h1, h2, h3, h4⟩
  · rintro ⟨h1, h2, h3, h4⟩
    exact ⟨by decide, by decide, by decide, h1, h2, h3, h4⟩

theorem fromRbf_formatCompressed (hh : rbf.header = none) (hi : rbf.instructions = .ok is) {text : List Byte}
    (ht : compressText is = some text) {js : List Instruction} (hj : parseText text true = .ok js)
    (h : rbf.formatCompressed = some image) : ∃ rbf', RBF.fromRbf (imageOf mutable image) = some rbf' ∧
      rbf'.text = text ∧ rbf'.symbols = rbf.symbols ∧
      (rbf'.data.contents = rbf.data.contents ↔ (mutable = true → rbf.data.Padded)) ∧
      (rbf'.rodata.contents = rbf.rodata.contents ↔ (mutable = true → rbf.rodata.Padded)) := by
  obtain ⟨text', header, symbols, ht', hhead, hsyms, rfl⟩ := formatCompressed_some hi h
  rw [ht] at ht'
  cases ht'
  generalize hD : rbf.data.contents = D at *
  generalize hR : rbf.rodata.contents = R at *
  obtain ⟨hlen, hunpack⟩ := Header.unpack_pack hhead (D ++ (R ++ (text ++ symbols.flatten)))
  have hheader : rbf.compressedHeaderOf text = ⟨magic, 0, 1, D.length, R.length, text.length, rbf.symbols.length⟩ := by
    unfold RBF.compressedHeaderOf
    rw [hh, ← hD, ← hR]; rfl
  rw [hheader] at hunpack
  have hdata : ((header ++ (D ++ (R ++ (text ++ symbols.flatten)))).take (28 + D.length)).drop 28 = D := by
    rw [← hlen]; exact slice_append header D _
  have hrodata : ((header ++ (D ++ (R ++ (text ++ symbols.flatten)))).take (28 + D.length + R.length)).drop
      (28 + D.length) = R := by
    have := slice_append (header ++ D) R (text ++ symbols.flatten)
    simpa only [append_assoc, length_append, hlen] using this
  have htext : ((header ++ (D ++ (R ++ (text ++ symbols.flatten)))).take (28 + D.length + R.length + text.length)).drop
      (28 + D.length + R.length) = text := by
    have := slice_append (header ++ D ++ R) text symbols.flatten
    simpa only [append_assoc, length_append, hlen, add_assoc] using this
  have hrest : (header ++ (D ++ (R ++ (text ++ symbols.flatten)))).drop (28 + D.length + R.length + text.length) =
      symbols.flatten := by
    have : (header ++ D ++ R ++ text ++ symbols.flatten).drop (header ++ D ++ R ++ text).length = symbols.flatten :=
      drop_left' rfl
    simpa only [append_assoc, length_append, hlen, add_assoc] using this
  have hparse : ∀ (data rodata : ByteString) (syms : List Symbol),
      (RBF.init data rodata text syms
        (some ⟨magic, 0, 1, D.length, R.length, text.length, rbf.symbols.length⟩)).instructions =
        .ok js := fun _ _ _ => hj
  generalize himage : header ++ (D ++ (R ++ (text ++ symbols.flatten))) = image at *
  have hrun : RBF.fromRbf (imageOf mutable image) = some (RBF.init
      ((imageOf mutable image).slice 28 (28 + D.length))
      ((imageOf mutable image).slice (28 + D.length) (28 + D.length + R.length)) text rbf.symbols
      (some ⟨magic, 0, 1, D.length, R.length, text.length, rbf.symbols.length⟩)) := by
    simp only [RBF.fromRbf, imageOf_contents, hunpack, hrest, unpackSymbols_pack hsyms, slice_contents, htext, hparse]
  refine ⟨_, hrun, rfl, rfl, ?_, ?_⟩
  · rw [ByteString.Padded, hD]
    exact roundLen_slice mutable image _ _ (by rw [slice_contents, imageOf_contents, hdata])
  · rw [ByteString.Padded, hR]
    exact roundLen_slice mutable image _ _ (by rw [slice_contents, imageOf_contents, hrodata])

theorem formatCompressed_isSome {text : List Byte} (hh : rbf.header = none) (hi : rbf.instructions = .ok is)
    (ht : compressText is = some text) : (∃ image, rbf.formatCompressed = some image) ↔ rbf.Fits is := by
  have hlen : text.length = (is.map fun i => i.kind.compressedSize).sum := by
    obtain ⟨bss, hbss, rfl⟩ := map_eq_some_iff.mp ht
    exact compressText_length hbss
  have hsyms : (∃ bss, rbf.symbols.mapM Symbol.pack = some bss) ↔ _ := exists_mapM_iff
  constructor
  · rintro ⟨image, h⟩
    obtain ⟨text', header, symbols, ht', hhead, hs, -⟩ := formatCompressed_some hi h
    rw [ht] at ht'
    cases ht'
    obtain ⟨h1, h2, h3, h4⟩ := (header_fits hh).mp ⟨header, hhead⟩
    exact ⟨h1, h2, hlen ▸ h3, h4, fun s hs' => Symbol.pack_isSome.mp (hsyms.mp ⟨symbols, hs⟩ s hs')⟩
  · intro hf
    obtain ⟨header, hhead⟩ := (header_fits hh).mpr ⟨hf.data, hf.rodata, hlen.trans_lt hf.text, hf.functions⟩
    obtain ⟨symbols, hs⟩ := hsyms.mpr fun s hs' => Symbol.pack_isSome.mpr (hf.symbols s hs')
    refine ⟨header ++ (rbf.data.contents ++ (rbf.rodata.contents ++ (text ++ symbols.flatten))), ?_⟩
    simp only [RBF.formatCompressed, hi, ht, hhead, hs, bind_eq_bind, bind_some, Option.pure_def]

end

theorem compressed_image_comes_back_iff (data rodata : ByteString) (text : List Byte) (symbols : List Symbol)
    (mutable : Bool) (is : List Instruction) (h : parseText text false = .ok is)
    (htarget : ∀ i ∈ is, i.kind.isBranch = true → i.Leads is) :
    (RBF.init data rodata text symbols none).ComesBack mutable ↔
      (∀ i ∈ is, i.Compressible is) ∧ (RBF.init data rodata text symbols none).Fits is ∧
        (mutable = true → (roundLen data).Padded ∧ (roundLen rodata).Padded) := by
  rw [← text_round_trip_iff h htarget]
  have hh : (RBF.init data rodata text symbols none).header = none := rfl
  have hi : (RBF.init data rodata text symbols none).instructions = .ok is := h
  have hdata : (RBF.init data rodata text symbols none).data = roundLen data := rfl
  have hrodata : (RBF.init data rodata text symbols none).rodata = roundLen rodata := rfl
  constructor
  · rintro ⟨is', image, rbf', js, hi', himage, hfrom, hparse, hsame, hd, hr, -⟩
    rw [hi] at hi'
    cases hi'
    obtain ⟨ctext, -, -, ht, -, -, -⟩ := formatCompressed_some hi himage
    obtain ⟨js', hj', -⟩ := parseText_compressText h ht
    obtain ⟨rbf'', hfrom', htext, -, hdp, hrp⟩ := fromRbf_formatCompressed mutable hh hi ht hj' himage
    rw [hfrom] at hfrom'
    cases hfrom'
    rw [htext] at hparse
    refine ⟨⟨ctext, js, ht, hparse, hsame⟩, (formatCompressed_isSome hh hi ht).mp ⟨image, himage⟩, fun hm => ?_⟩
    rw [← hdata, ← hrodata]; exact ⟨hdp.mp hd hm, hrp.mp hr hm⟩
  · rintro ⟨⟨ctext, js, ht, hparse, hsame⟩, hfits, hpad⟩
    obtain ⟨image, himage⟩ := (formatCompressed_isSome hh hi ht).mpr hfits
    obtain ⟨rbf', hfrom, htext, hsyms, hdp, hrp⟩ := fromRbf_formatCompressed mutable hh hi ht hparse himage
    rw [← hdata, ← hrodata] at hpad
    exact ⟨is, image, rbf', js, hi, himage, hfrom, htext ▸ hparse, hsame, hdp.mpr fun hm => (hpad hm).1,
      hrp.mpr fun hm => (hpad hm).2, hsyms⟩

def sampleText : List Byte :=
  (insn 0x18 0 0 7 ++ insn 0 0 0 1) ++ (insn 0xb7 1 0 5 ++ (insn 0x25 1 0xfffe 0 ++ insn 0x95 0 0 0))

theorem compressed_image_comes_back_sample :
    (RBF.init (.bytearray [1, 2, 3]) (.bytearray []) sampleText [⟨0, 0, 16⟩] none).ComesBack false := by
  have hparse : ∃ is, parseText sampleText false = .ok is ∧
      (∀ i ∈ is, i.kind.isBranch = true → ∃ j < is.length, i.target = some j) ∧
      (∀ i ∈ is, i.kind ≠ .always ∧ (i.kind.isBranch = true → i.compressedOffset is = some (-14)) ∧
        (i.kind.immediateSize = 0 → i.immediate = 0)) ∧ (is.map fun i => i.kind.compressedSize).sum < 2 ^ 32 := by
    refine ⟨_, rfl, ?_, ?_, ?_⟩ <;> decide
  obtain ⟨is, hparse, htarget, hkeep, hsize⟩ := hparse
  refine (compressed_image_comes_back_iff _ _ _ _ _ is hparse ?_).mpr ⟨?_, ⟨?_, ?_, hsize, ?_, ?_⟩, ?_⟩
  · intro i hi hb
    obtain ⟨j, hlt, hj⟩ := htarget i hi hb
    exact ⟨j, is[j], hj, getElem?_eq_getElem hlt⟩
  · intro i hi
    refine ⟨(hkeep i hi).1, fun hb d hd => ?_, (hkeep i hi).2.2⟩
    rw [(hkeep i hi).2.1 hb] at hd
    cases hd; decide
  · decide
  · decide
  · decide
  · decide
  · simp

/-- `goto +0; exit`: an unconditional branch has no compressed form. -/
theorem compressed_image_fails_on_goto :
    (∃ is, parseText (insn 0x05 0 0 0 ++ insn 0x95 0 0 0) false = .ok is ∧ ∀ i ∈ is, i.kind.isBranch = true →
      i.target = some 1) ∧
    (RBF.init (.bytearray []) (.bytearray []) (insn 0x05 0 0 0 ++ insn 0x95 0 0 0) [] none).formatCompressed = none :=
  ⟨⟨_, rfl, by decide⟩, rfl⟩

end PipRiot.Rbpf
