import PipRiot.Crt0.Window

/-!
# Relocation

A binary image is its metadata followed by `.rom`, `.got` and `.rom.ram`;
`.ram` only has a size. Link-time offsets count from the start of `.rom`
through the four sections. When `_start` branches to the entry point, every
listed word holds the new address of the byte it designated and every other
byte is the initial one.
-/

namespace PipRiot.Crt0

open List BitVec

structure Image where
  entryPoint : Addr
  romRamEnd : Addr
  rom : List Byte
  got : List Byte
  romRam : List Byte
  ramSize : Addr
  patches : List Addr
  rom_words : rom.length % 4 = 0
  got_words : got.length % 4 = 0
  romRam_words : romRam.length % 4 = 0
  ram_words : ramSize.toNat % 4 = 0
  offsets_fit : rom.length + got.length + romRam.length + ramSize.toNat ≤ 2 ^ 32
  file_fits : 28 + 4 * patches.length + rom.length + got.length + romRam.length ≤ 2 ^ 32

namespace Image

variable (img : Image) {i k off : Nat}

def header : List Nat :=
  [img.entryPoint.toNat, img.rom.length, img.romRam.length, img.ramSize.toNat, img.got.length,
    img.romRamEnd.toNat, img.patches.length]

def tables : List Nat := img.header ++ img.patches.map BitVec.toNat

def sections : List Byte := img.rom ++ img.got ++ img.romRam

def bytes : List Byte := img.tables.flatMap (leBytes 4) ++ img.sections

def size : Nat := img.rom.length + img.got.length + img.romRam.length + img.ramSize.toNat

def Loaded (E : Env) : Prop := readBytes E.flash E.metadata img.bytes.length = img.bytes

def romBase (E : Env) : Addr := E.metadata + BitVec.ofNat 32 (28 + 4 * img.patches.length)

/-- Where a byte lives: `.rom` stays in flash, the other sections follow each other in
RAM. -/
def home (E : Env) (off : Nat) : Addr :=
  if off < img.rom.length then img.romBase E + BitVec.ofNat 32 off
  else E.itf.unusedRamStart + BitVec.ofNat 32 (off - img.rom.length)

def gotWord (i : Nat) : Addr := BitVec.ofNat 32 (leValue ((img.got.drop (4 * i)).take 4))

/-- The word at a link-time offset. For a word of `.ram` the flash behind
`.rom.ram` is read. -/
def linkWord (E : Env) (off : Nat) : Addr := readWord E.flash (img.romBase E + BitVec.ofNat 32 off)

def IsPatched (off : Nat) : Prop := ∃ p ∈ img.patches, p.toNat ≤ off ∧ off < p.toNat + 4

structure WordsApart : Prop where
  inside : ∀ p ∈ img.patches, p.toNat + 4 ≤ img.size
  apart : ∀ p ∈ img.patches, ∀ q ∈ img.patches, p = q ∨ p.toNat + 4 ≤ q.toNat ∨ q.toNat + 4 ≤ p.toNat

structure Relocated (E : Env) (s : State) : Prop where
  got : ∀ i, 4 * i < img.got.length → (img.gotWord i).toNat < img.size ∧
    HoldsWord s.ram (E.itf.unusedRamStart + BitVec.ofNat 32 (4 * i)) (img.home E (img.gotWord i).toNat)
  patched : ∀ p ∈ img.patches, (img.linkWord E p.toNat).toNat < img.size ∧
    HoldsWord s.ram (img.home E p.toNat) (img.home E (img.linkWord E p.toNat).toNat)
  romRam : ∀ k (hk : k < img.romRam.length), ¬ img.IsPatched (img.rom.length + img.got.length + k) →
    s.ram (E.itf.unusedRamStart + BitVec.ofNat 32 (img.got.length + k)) = some img.romRam[k]
  ram : ∀ k < img.ramSize.toNat,
    ¬ img.IsPatched (img.rom.length + img.got.length + img.romRam.length + k) →
    s.ram (E.itf.unusedRamStart + BitVec.ofNat 32 (img.got.length + img.romRam.length + k)) = some 0

/-! ## What `_start` reads of a loaded image -/

theorem tables_length : img.tables.length = 7 + img.patches.length := by
  simp [tables, header]
  omega

theorem tables_bytes_length : (img.tables.flatMap (leBytes 4)).length = 28 + 4 * img.patches.length := by
  rw [flatMap_leBytes_length, tables_length]
  omega

theorem sections_length : img.sections.length = img.rom.length + img.got.length + img.romRam.length := by
  simp [sections, add_assoc]

theorem bytes_length : img.bytes.length = 28 + 4 * img.patches.length + img.sections.length := by
  rw [bytes, length_append, tables_bytes_length]

variable {img} {E : Env} (hload : img.Loaded E)

include hload

theorem Loaded.table (hi : i < img.tables.length) :
    readWord E.flash (E.metadata + BitVec.ofNat 32 (4 * i)) = BitVec.ofNat 32 img.tables[i] := by
  apply readWord_of_bytes
  have hlen := img.tables_length
  rw [readBytes_slice E.flash E.metadata (N := img.bytes.length) (by rw [bytes_length]; omega), hload]
  exact flatMap_leBytes_slice 4 img.sections img.tables i hi

theorem Loaded.header (hi : i < 7) :
    readWord E.flash (E.metadata + BitVec.ofNat 32 (4 * i)) = BitVec.ofNat 32 (img.header.get ⟨i, hi⟩) := by
  rw [hload.table (by rw [tables_length]; omega)]
  congr 1
  exact getElem_append_left hi

theorem Loaded.slice {n : Nat} (h : k + n ≤ img.sections.length) :
    readBytes E.flash (img.romBase E + BitVec.ofNat 32 k) n = (img.sections.drop k).take n := by
  rw [romBase, BitVec.add_assoc, ← ofNat_add,
    readBytes_slice E.flash E.metadata (N := img.bytes.length) (by rw [bytes_length]; omega), hload, bytes,
    ← drop_drop, drop_left' img.tables_bytes_length]

theorem Loaded.romLen : E.romLen = img.rom.length := by
  have hf := img.file_fits
  rw [Env.romLen, Env.romSecSize]
  have h := hload.header (i := 1) (by decide)
  rw [show E.metadata + 4 = E.metadata + BitVec.ofNat 32 (4 * 1) from rfl, h]
  exact Nat.mod_eq_of_lt (show img.rom.length < 2 ^ 32 by omega)

theorem Loaded.romRamLen : E.romRamLen = img.romRam.length := by
  have hf := img.file_fits
  rw [Env.romRamLen, Env.romRamSecSize]
  have h := hload.header (i := 2) (by decide)
  rw [show E.metadata + 8 = E.metadata + BitVec.ofNat 32 (4 * 2) from rfl, h]
  exact Nat.mod_eq_of_lt (show img.romRam.length < 2 ^ 32 by omega)

theorem Loaded.ramLen : E.ramLen = img.ramSize.toNat := by
  rw [Env.ramLen, Env.ramSecSize]
  have h := hload.header (i := 3) (by decide)
  rw [show E.metadata + 12 = E.metadata + BitVec.ofNat 32 (4 * 3) from rfl, h]
  exact Nat.mod_eq_of_lt img.ramSize.isLt

theorem Loaded.gotLen : E.gotLen = img.got.length := by
  have hf := img.file_fits
  rw [Env.gotLen, Env.gotSecSize]
  have h := hload.header (i := 4) (by decide)
  rw [show E.metadata + 16 = E.metadata + BitVec.ofNat 32 (4 * 4) from rfl, h]
  exact Nat.mod_eq_of_lt (show img.got.length < 2 ^ 32 by omega)

theorem Loaded.entryNumber : E.entryNumber.toNat = img.patches.length := by
  have hf := img.file_fits
  rw [Env.entryNumber]
  have h := hload.header (i := 6) (by decide)
  rw [show E.metadata + 24 = E.metadata + BitVec.ofNat 32 (4 * 6) from rfl, h]
  exact Nat.mod_eq_of_lt (show img.patches.length < 2 ^ 32 by omega)

theorem Loaded.ptrOff (hi : i < img.patches.length) : E.ptrOff (BitVec.ofNat 32 i) = img.patches[i] := by
  have hlen : i + 7 < img.tables.length := by rw [tables_length]; omega
  have he : img.tables[i + 7] = img.patches[i].toNat := by simp [tables, Image.header]
  have ha : (E.metadata + 28 : Addr) + BitVec.ofNat 32 (4 * i) = E.metadata + BitVec.ofNat 32 (4 * (i + 7)) := by
    rw [BitVec.add_assoc, Nat.mul_add, Nat.add_comm, ofNat_add]; rfl
  rw [Env.ptrOff, shl_two, ha, hload.table hlen, he, ofNat_toNat, setWidth_eq]

theorem Loaded.romSecAddr : E.romSecAddr = img.romBase E := by
  have hn : E.entryNumber * 4 = BitVec.ofNat 32 (4 * img.patches.length) := by
    apply eq_of_toNat_eq
    rw [BitVec.toNat_mul, hload.entryNumber, toNat_ofNat, mul_comm]; rfl
  rw [Env.romSecAddr, romBase, hn, ofNat_add, BitVec.add_assoc, BitVec.add_assoc, ← BitVec.add_assoc 24 4]
  rfl

theorem Loaded.gotSecAddr : E.gotSecAddr = img.romBase E + BitVec.ofNat 32 img.rom.length := by
  rw [Env.gotSecAddr, hload.romSecAddr, ← hload.romLen, Env.romLen, ofNat_toNat, setWidth_eq]

theorem Loaded.romRamSecAddr :
    E.romRamSecAddr = img.romBase E + BitVec.ofNat 32 (img.rom.length + img.got.length) := by
  rw [Env.romRamSecAddr, hload.gotSecAddr, ofNat_add, ← BitVec.add_assoc, ← hload.gotLen, Env.gotLen,
    ofNat_toNat, setWidth_eq]

theorem Loaded.gotWord (hi : 4 * i < img.got.length) : E.gotWord i = img.gotWord i := by
  have hw := img.got_words
  have hs := hload.slice (k := img.rom.length + 4 * i) (n := 4) (by rw [sections_length]; omega)
  rw [Env.gotWord, hload.gotSecAddr, BitVec.add_assoc, ← ofNat_add, readWord, hs, Image.gotWord, sections,
    List.append_assoc, ← drop_drop, drop_left' rfl, drop_append_of_le_length (by omega),
    take_append_of_le_length (by rw [length_drop]; omega)]

theorem Loaded.romRam_byte (hk : k < img.romRam.length) :
    E.flash (E.romRamSecAddr + BitVec.ofNat 32 k) = img.romRam[k] := by
  have hs := hload.slice (k := img.rom.length + img.got.length + k) (n := 1) (by rw [sections_length]; omega)
  have hb : readBytes E.flash (img.romBase E + BitVec.ofNat 32 (img.rom.length + img.got.length + k)) 1 =
      [E.flash (E.romRamSecAddr + BitVec.ofNat 32 k)] := by
    rw [hload.romRamSecAddr, BitVec.add_assoc, ← ofNat_add]
    simp [readBytes]
  rw [hb, sections, ← drop_drop, drop_left' (length_append ..)] at hs
  rw [drop_eq_getElem_cons hk, take_succ_cons, take_zero] at hs
  exact (List.cons.inj hs).1

/-! ## The stored addresses -/

theorem Loaded.home_of_le (h : img.rom.length ≤ off) :
    img.home E off = E.itf.unusedRamStart + BitVec.ofNat 32 (off - E.romLen) := by
  rw [home, if_neg (not_lt.mpr h), hload.romLen]

theorem Loaded.splitOffset {inGot : Addr → Except Death Addr} {off addr : Addr}
    (hgot : ∀ o a, inGot o = .ok a → a = E.relGotSecAddr + o)
    (h : E.splitOffset (fun o => .ok (E.romSecAddr + o)) inGot off = .ok addr) :
    off.toNat < img.size ∧ addr = img.home E off.toNat := by
  rw [E.splitOffset_eq, hload.romLen, hload.gotLen, hload.romRamLen, hload.ramLen] at h
  unfold size
  split at h
  · rename_i hrom
    cases h
    refine ⟨by omega, ?_⟩
    rw [home, if_pos hrom, hload.romSecAddr, ofNat_toNat, setWidth_eq]
  · rename_i hrom
    rw [home, if_neg hrom]
    split at h
    · refine ⟨by omega, ?_⟩
      rw [hgot _ _ h]
      congr 1
      apply eq_of_toNat_eq
      have hr := hload.romLen
      unfold Env.romLen at hr
      rw [toNat_sub_of_le (le_def.mpr (by omega)), toNat_ofNat, hr]; omega
    · split at h
      · cases h; exact ⟨by omega, rfl⟩
      · cases h

theorem Loaded.gotStored (hi : 4 * i < img.got.length) (hv : E.GotValid i) :
    (img.gotWord i).toNat < img.size ∧ E.gotStored i = img.home E (img.gotWord i).toNat := by
  obtain ⟨addr, ha⟩ := hv
  rw [Env.gotStored, ha]
  rw [hload.gotWord hi] at ha
  exact hload.splitOffset (fun o a h => by cases h; rfl) ha

theorem Loaded.patch (hi : i < img.patches.length) (hv : E.PatchValid i) :
    img.rom.length + img.got.length ≤ img.patches[i].toNat ∧
      (img.linkWord E img.patches[i].toNat).toNat < img.size ∧
      E.patch (BitVec.ofNat 32 i) =
        .ok (img.home E img.patches[i].toNat, img.home E (img.linkWord E img.patches[i].toNat).toNat) := by
  obtain ⟨⟨ptr, addr⟩, hp⟩ := hv
  obtain ⟨hptr, haddr⟩ := Env.patch_ok hp
  rw [hload.ptrOff hi] at hptr haddr
  obtain ⟨hpe, hlo, -⟩ := Env.ptrAddr_ok hptr
  rw [hload.romLen, hload.gotLen] at hlo
  have hword : readWord E.flash (E.romSecAddr + img.patches[i]) = img.linkWord E img.patches[i].toNat := by
    rw [hload.romSecAddr, linkWord, ofNat_toNat, setWidth_eq]
  rw [hword] at haddr
  obtain ⟨hlt, hae⟩ := hload.splitOffset (fun o a h => by cases h) haddr
  have hhome := hload.home_of_le (show img.rom.length ≤ img.patches[i].toNat by omega)
  refine ⟨hlo, hlt, ?_⟩
  rw [hp, hpe, hae, hhome]

theorem Loaded.noWrap : E.NoWrap := by
  have hg := img.got_words
  have hr := img.ram_words
  have hlg := E.gotLen_lt
  constructor
  · rw [hload.ramLen] at *
    omega
  · intro _
    rw [hload.gotLen] at *
    omega

omit hload

/-! ## The words of the GOT -/

theorem gotWords_hold (n : Nat) (hn : 4 * n ≤ 2 ^ 32) (i : Nat) (hi : i < n) :
    HoldsWord (E.relocatedGot n) (E.itf.unusedRamStart + BitVec.ofNat 32 (4 * i)) (E.gotStored i) := by
  induction n with
  | zero => exact absurd hi (Nat.not_lt_zero i)
  | succ n ih =>
    rw [← E.relocatedGot_succ (by omega)]
    rcases Nat.lt_succ_iff_lt_or_eq.mp hi with hlt | rfl
    · refine HoldsWord.congr (by decide) (ih (by omega) hlt) fun x hx => overlay_of_le ?_
      rw [dist_lt_iff _ _ (by omega)] at hx
      rw [leBytes_length, Env.relGotSecAddr]
      apply not_lt.mp
      rw [dist_lt_iff _ _ (by omega)]; omega
    · exact holdsWord_overlay _ _ _ (by decide)

/-! ## The patched words -/

include hload

section
variable (hv : ∀ j < img.patches.length, E.PatchValid j)

include hv

theorem Loaded.patched_frame (x : Addr) (n : Nat) (hn : n ≤ img.patches.length)
    (hx : ∀ j (_ : j < n), 4 ≤ dist (img.home E img.patches[j].toNat) x) :
    E.patched n x = E.relocatedGot (wordCount E.gotLen) x := by
  induction n with
  | zero => rfl
  | succ n ih =>
    rw [E.patched_succ (hload.patch hn (hv n hn)).2.2, overlay_of_le (by simpa using hx n (Nat.lt_succ_self n))]
    exact ih (Nat.le_of_succ_le hn) fun j hj => hx j (Nat.lt_succ_of_lt hj)

variable (hapart : img.WordsApart)

include hapart

theorem Loaded.patch_dist (hi : i < img.patches.length) (x : Addr) :
    dist (img.home E img.patches[i].toNat) x < 4 ↔
      img.patches[i].toNat - img.rom.length ≤ dist E.itf.unusedRamStart x ∧
        dist E.itf.unusedRamStart x < img.patches[i].toNat - img.rom.length + 4 := by
  have hp := hload.patch hi (hv i hi)
  have hin := hapart.inside _ (getElem_mem hi)
  have hfit := img.offsets_fit
  unfold size at hin
  rw [hload.home_of_le (by omega), hload.romLen, dist_lt_iff _ _ (by omega)]

theorem Loaded.patchedWords_hold (n : Nat) (hn : n ≤ img.patches.length) (i : Nat) (hi : i < n) :
    HoldsWord (E.patched n) (img.home E img.patches[i].toNat)
      (img.home E (img.linkWord E img.patches[i].toNat).toNat) := by
  induction n with
  | zero => exact absurd hi (Nat.not_lt_zero i)
  | succ n ih =>
    have hnn : n < img.patches.length := hn
    have hii : i < img.patches.length := lt_of_lt_of_le hi hn
    rw [E.patched_succ (hload.patch hnn (hv n hnn)).2.2]
    rcases hapart.apart _ (getElem_mem hii) _ (getElem_mem hnn) with heq | hdisj
    · -- an entry listed again stores the same address again
      rw [heq]; exact holdsWord_overlay _ _ _ (by decide)
    · have hne : i ≠ n := by
        rintro rfl
        omega
      refine HoldsWord.congr (by decide) (ih (Nat.le_of_succ_le hn) (by omega)) fun x hx => overlay_of_le ?_
      have hpi := (hload.patch hii (hv i hii)).1
      have hpn := (hload.patch hnn (hv n hnn)).1
      rw [hload.patch_dist hv hapart hii] at hx
      rw [leBytes_length]
      apply not_lt.mp
      rw [hload.patch_dist hv hapart hnn]; omega

theorem Loaded.unpatched (hoff : off < img.size) (hlo : img.rom.length ≤ off) (hu : ¬ img.IsPatched off) :
    E.patched img.patches.length (E.itf.unusedRamStart + BitVec.ofNat 32 (off - img.rom.length)) =
      E.relocatedGot (wordCount E.gotLen) (E.itf.unusedRamStart + BitVec.ofNat 32 (off - img.rom.length)) := by
  refine hload.patched_frame hv _ _ le_rfl fun j hj => ?_
  have hfit := img.offsets_fit
  unfold size at hoff
  have hpj := (hload.patch hj (hv j hj)).1
  apply not_lt.mp
  rw [hload.patch_dist hv hapart hj, dist_add _ (by omega)]
  intro h
  exact hu ⟨_, getElem_mem hj, by omega, by omega⟩

end

/-! ## The initial bytes -/

theorem Loaded.initial (hlo : img.got.length ≤ off) (hoff : off < 2 ^ 32) :
    E.relocatedGot (wordCount E.gotLen) (E.itf.unusedRamStart + BitVec.ofNat 32 off) =
      E.zeroed (wordCount E.ramLen) (E.itf.unusedRamStart + BitVec.ofNat 32 off) := by
  have hw := img.got_words
  refine overlay_of_le ?_
  rw [Env.relGotSecAddr, dist_add _ hoff, Env.gotBytes_length, hload.gotLen, wordCount]
  omega

theorem Loaded.initial_romRam (hk : k < img.romRam.length) :
    E.zeroed (wordCount E.ramLen) (E.itf.unusedRamStart + BitVec.ofNat 32 (img.got.length + k)) =
      some img.romRam[k] := by
  have hfit := img.offsets_fit
  have hw := img.ram_words
  have hd := dist_add E.itf.unusedRamStart (i := img.got.length + k) (by omega)
  have hz : (List.replicate (4 * wordCount E.ramLen) (0 : Byte)).length ≤
      dist E.relRamSecAddr (E.itf.unusedRamStart + BitVec.ofNat 32 (img.got.length + k)) := by
    rw [length_replicate, Env.relRamSecAddr_eq, hload.gotLen, hload.romRamLen]
    apply not_lt.mp
    rw [dist_lt_iff _ _ (by rw [hload.ramLen, wordCount]; omega), hd]
    omega
  have hc : dist E.relRomRamSecAddr (E.itf.unusedRamStart + BitVec.ofNat 32 (img.got.length + k)) = k := by
    rw [Env.relRomRamSecAddr_eq, hload.gotLen, dist_shift _ _ (by rw [hd]; omega), hd]
    omega
  rw [Env.zeroed, overlay_of_le hz, Env.copied, overlay, hc, hload.romRamLen,
    getElem?_eq_getElem (by rw [readBytes_length]; exact hk), Option.some_or]
  simp only [readBytes, getElem_map, getElem_range]
  rw [hload.romRam_byte hk]

theorem Loaded.initial_ram (hk : k < img.ramSize.toNat) :
    E.zeroed (wordCount E.ramLen)
      (E.itf.unusedRamStart + BitVec.ofNat 32 (img.got.length + img.romRam.length + k)) = some 0 := by
  have hfit := img.offsets_fit
  have hd := dist_add E.itf.unusedRamStart (i := img.got.length + img.romRam.length + k) (by omega)
  have hz : dist E.relRamSecAddr
      (E.itf.unusedRamStart + BitVec.ofNat 32 (img.got.length + img.romRam.length + k)) = k := by
    rw [Env.relRamSecAddr_eq, hload.gotLen, hload.romRamLen, dist_shift _ _ (by rw [hd]; omega), hd]
    omega
  rw [Env.zeroed, overlay, hz, getElem?_replicate, if_pos, Option.some_or]
  rw [hload.ramLen, wordCount]
  omega

theorem Loaded.relocated (hapart : img.WordsApart) (hg : ∀ j, 4 * j < E.gotLen → E.GotValid j)
    (hv : ∀ j < img.patches.length, E.PatchValid j) : img.Relocated E (E.patchAt img.patches.length) := by
  have hfit := img.offsets_fit
  have hgw := img.got_words
  have hgl := hload.gotLen
  refine ⟨fun i hi => ?_, fun p hp => ?_, fun k hk hu => ?_, fun k hk hu => ?_⟩
  · have hst := hload.gotStored hi (hg i (by omega))
    refine ⟨hst.1, ?_⟩
    rw [← hst.2, Env.patchAt_ram]
    have hword := gotWords_hold (E := E) (wordCount E.gotLen) (by rw [hgl, wordCount]; omega) i
      (Env.lt_wordCount.mpr (by omega))
    -- patched words lie behind the GOT
    refine HoldsWord.congr (by decide) hword fun x hx => ?_
    rw [dist_lt_iff _ _ (by omega)] at hx
    refine hload.patched_frame hv x _ le_rfl fun j hj => ?_
    have hpj := (hload.patch hj (hv j hj)).1
    apply not_lt.mp
    rw [hload.patch_dist hv hapart hj]; omega
  · obtain ⟨i, hi, rfl⟩ := getElem_of_mem hp
    refine ⟨(hload.patch hi (hv i hi)).2.1, ?_⟩
    exact hload.patchedWords_hold hv hapart _ le_rfl i hi
  · have hsize : img.rom.length + img.got.length + k < img.size := by unfold size; omega
    have hun := hload.unpatched hv hapart hsize (by omega) hu
    rw [show img.rom.length + img.got.length + k - img.rom.length = img.got.length + k by omega] at hun
    rw [Env.patchAt_ram, hun, hload.initial (by omega) (by omega), hload.initial_romRam hk]
  · have hsize : img.rom.length + img.got.length + img.romRam.length + k < img.size := by unfold size; omega
    have hun := hload.unpatched hv hapart hsize (by omega) hu
    rw [show img.rom.length + img.got.length + img.romRam.length + k - img.rom.length =
      img.got.length + img.romRam.length + k by omega] at hun
    rw [Env.patchAt_ram, hun, hload.initial (by omega) (by omega), hload.initial_ram hk]

end Image

/-- Whatever the load address and the RAM window, an image whose listed words
do not overlap in part is relocated when `_start` reaches its entry point. -/
theorem relocation_correct (E : Env) (img : Image) (hload : img.Loaded E) (hapart : img.WordsApart)
    {n : Nat} {pc sl : Addr} {s : State} (hrun : runLoop (step E) n (init E) = some (.entry pc sl s)) :
    img.Relocated E s := by
  obtain ⟨hs, hg, hv⟩ := Env.entry_of_run hload.noWrap hrun
  rw [hload.entryNumber] at hs hv
  rw [hs]
  exact hload.relocated hapart hg hv

def sampleImage (romRam : List Nat) (patches : List Addr) (h : (romRam.flatMap (leBytes 4)).length = 8)
    (hp : patches.length ≤ 2) : Image where
  entryPoint := 0
  romRamEnd := 16
  rom := leBytes 4 0xbf00bf00
  got := leBytes 4 12
  romRam := romRam.flatMap (leBytes 4)
  ramSize := 4
  patches := patches
  rom_words := rfl
  got_words := rfl
  romRam_words := by rw [h]
  ram_words := rfl
  offsets_fit := by rw [h]; decide
  file_fits := by rw [h, leBytes_length, leBytes_length]; omega

theorem relocation_correct_sample :
    ∃ pc sl s, runLoop (step (sampleEnv sampleWords 0x20000010)) 20 (init (sampleEnv sampleWords 0x20000010)) =
        some (.entry pc sl s) ∧
      (sampleImage [16, 42] [8] rfl (by decide)).Relocated (sampleEnv sampleWords 0x20000010) s := by
  have hapart : (sampleImage [16, 42] [8] rfl (by decide)).WordsApart := by
    constructor
    · intro p hp
      rw [mem_singleton.mp hp]; decide
    · intro p hp q hq
      exact .inl ((mem_singleton.mp hp).trans (mem_singleton.mp hq).symm)
  exact ⟨_, _, _, rfl, relocation_correct _ _ (show _ = _ by decide) hapart (n := 20) rfl⟩

/-- Two listed words that share three bytes cannot both hold their address. -/
theorem overlapping_patches_break :
    ∃ (E : Env) (img : Image) (n : Nat) (pc sl : Addr) (s : State), img.Loaded E ∧
      runLoop (step E) n (init E) = some (.entry pc sl s) ∧ ¬ img.Relocated E s := by
  refine ⟨sampleEnv [0, 4, 8, 4, 4, 16, 2, 8, 9, 0xbf00bf00, 12, 16, 0] 0x20000010,
    sampleImage [16, 0] [8, 9] rfl (by decide), 20, _, _, _, show _ = _ by decide, rfl, fun h => ?_⟩
  exact absurd (h.patched 8 (by decide)).2 (by decide)

end PipRiot.Crt0
