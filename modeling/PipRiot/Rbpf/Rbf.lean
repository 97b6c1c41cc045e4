import PipRiot.Rbpf.MemSafe

/-!
# The image writer and the loader

`RBF.format` in `rbf.py` lays an image out as header, data, rodata, text and
symbols. The accessors in `rbpf.h` find the text behind the header, but the two
data sections behind `sizeof(rbpf_application_t)`, so the regions of a set up
application cover the sections only where there is nothing to cover.
-/

namespace PipRiot.Rbpf

open List Option BitVec

/-! ## The writer -/

/-- The byte strings of the tool; only a `bytearray` can be extended in place. -/
inductive ByteString
  | bytes (b : List Byte)
  | bytearray (b : List Byte)

def ByteString.contents : ByteString → List Byte
  | .bytes b => b
  | .bytearray b => b

/-- `_round_len`: on `bytes` the padded string stays local to the function. -/
def roundLen : ByteString → ByteString
  | .bytes b => .bytes b
  | .bytearray b =>
    if b.length % 8 ≠ 0 then .bytearray (b ++ List.replicate (8 - b.length % 8) 0) else .bytearray b

structure Header where
  magic : Nat
  version : Nat
  flags : Nat
  dataLen : Nat
  rodataLen : Nat
  textLen : Nat
  functionsLen : Nat

structure Symbol where
  nameOffset : Nat
  flags : Nat
  locationOffset : Nat

def magic : Nat := 0x46504272

def packField (n v : Nat) : Option (List Byte) := if v < 256 ^ n then some (leBytes n v) else none

def packStruct (n : Nat) (fields : List Nat) : Option (List Byte) :=
  (fields.mapM (packField n)).map List.flatten

def Header.pack (h : Header) : Option (List Byte) :=
  packStruct 4 [h.magic, h.version, h.flags, h.dataLen, h.rodataLen, h.textLen, h.functionsLen]

def Symbol.pack (s : Symbol) : Option (List Byte) := packStruct 2 [s.nameOffset, s.flags, s.locationOffset]

structure RBF where
  data : ByteString
  rodata : ByteString
  text : List Byte
  symbols : List Symbol
  header : Option Header

def RBF.init (data rodata : ByteString) (text : List Byte) (symbols : List Symbol) (header : Option Header) : RBF where
  data := roundLen data
  rodata := roundLen rodata
  text := text
  symbols := symbols
  header := header

def RBF.headerOf (self : RBF) : Header :=
  self.header.getD
    { magic := magic
      version := 0
      flags := 0
      dataLen := self.data.contents.length
      rodataLen := self.rodata.contents.length
      textLen := self.text.length
      functionsLen := self.symbols.length }

def RBF.format (self : RBF) : Option (List Byte) := do
  let header ← self.headerOf.pack
  let symbols ← self.symbols.mapM Symbol.pack
  return header ++ self.data.contents ++ self.rodata.contents ++ self.text ++ symbols.flatten

/-! ## What the loader reads back -/

theorem packStruct_some {n : Nat} : ∀ {fields : List Nat} {bs : List Byte}, packStruct n fields = some bs →
    (∀ v ∈ fields, v < 256 ^ n) ∧ bs = fields.flatMap (leBytes n)
  | [], bs, h => by cases h; simp
  | v :: fields, bs, h => by
    simp only [packStruct, mapM_cons, map_eq_some_iff, bind_eq_bind, bind_eq_some_iff,
      Option.pure_def, some.injEq] at h
    obtain ⟨_, ⟨b, hb, fs, hfs, rfl⟩, rfl⟩ := h
    have htail : packStruct n fields = some fs.flatten := by simp [packStruct, hfs]
    obtain ⟨hlt, he⟩ := packStruct_some htail
    simp only [packField, ite_none_right_eq_some, some.injEq] at hb
    obtain ⟨hv, rfl⟩ := hb
    exact ⟨by simpa using ⟨hv, hlt⟩, by rw [flatten_cons, he, flatMap_cons]⟩

theorem loaded_word (mem : Mem) (A : Addr) (pre post : List Nat) (v : Nat) (rest : List Byte)
    (hfit : ((pre ++ v :: post).flatMap (leBytes 4) ++ rest).length ≤ 2 ^ 32) :
    word32 (writeBytes mem A ((pre ++ v :: post).flatMap (leBytes 4) ++ rest))
      (A + BitVec.ofNat 32 (4 * pre.length)) = BitVec.ofNat 32 v := by
  have hlen : ∀ l : List Nat, (l.flatMap (leBytes 4)).length = 4 * l.length := fun l => by
    simp [length_flatMap, mul_comm]
  unfold word32
  rw [readBytes_writeBytes _ _ _ (by simp [hlen]) hfit]
  simp only [flatMap_append, flatMap_cons, List.append_assoc]
  rw [drop_left' (hlen pre), take_left' (leBytes_length 4 v), leValue_leBytes]
  apply eq_of_toNat_eq
  simp

/-! ## Coverage -/

theorem dist_base (A : Addr) (b : Nat) {n : Nat} (hn : n ≤ 2 ^ 32) (x : Addr) :
    dist (A + BitVec.ofNat 32 b) x < n ↔ ∃ k < n, x = A + BitVec.ofNat 32 (b + k) := by
  constructor
  · intro h
    refine ⟨dist (A + BitVec.ofNat 32 b) x, h, ?_⟩
    rw [ofNat_add, ← BitVec.add_assoc, add_dist]
  · rintro ⟨k, hk, rfl⟩
    rw [ofNat_add, ← BitVec.add_assoc, dist_add _ (by omega)]; exact hk

theorem covers_shifted_iff (A : Addr) (b : Nat) {n : Nat} (hn : n + 28 ≤ 2 ^ 32) :
    (∀ x, dist (A + BitVec.ofNat 32 (b + 56)) x < n ↔ ∃ k < n, x = A + BitVec.ofNat 32 (b + k)) ↔ n = 0 := by
  constructor
  · intro h
    by_contra h0
    by_cases h56 : 56 ≤ n
    · -- the byte behind the section lies in the window
      have hin : dist (A + BitVec.ofNat 32 (b + 56)) (A + BitVec.ofNat 32 (b + n)) < n := by
        rw [show b + n = b + 56 + (n - 56) by omega, ofNat_add (b + 56), ← BitVec.add_assoc,
          dist_add _ (by omega)]
        omega
      have hout := (dist_base A b (by omega) _).mpr ((h _).mp hin)
      rw [ofNat_add, ← BitVec.add_assoc, dist_add _ (by omega)] at hout; omega
    · -- the first byte of the section lies before the window
      have hin := (h (A + BitVec.ofNat 32 b)).mpr ⟨0, by omega, by simp⟩
      have hfar : dist (A + BitVec.ofNat 32 (b + 56)) (A + BitVec.ofNat 32 b) = 2 ^ 32 - 56 := by
        rw [show A + BitVec.ofNat 32 b = A + BitVec.ofNat 32 (b + 56) + BitVec.ofNat 32 (2 ^ 32 - 56) by
          rw [ofNat_add, BitVec.add_assoc, BitVec.add_assoc]
          simp]
        exact dist_add _ (by omega)
      omega
  · rintro rfl x
    simp

/-! ## Writer and loader -/

/-- The regions and the text are the sections of the image at `A`, data region
and text are disjoint, and the section loads with immediate `k` give the address
of byte `k`. -/
structure LoaderAgrees (host : Host) (mem : Mem) (rbpf : RbpfApplication) (A : Addr) (rbf : RBF) : Prop where
  data : ∀ x, rbpf.dataRegion.has x ↔ ∃ k < rbf.data.contents.length, x = A + BitVec.ofNat 32 (28 + k)
  rodata : ∀ x, rbpf.rodataRegion.has x ↔
    ∃ k < rbf.rodata.contents.length, x = A + BitVec.ofNat 32 (28 + rbf.data.contents.length + k)
  text : ∀ x, dist (applicationText mem rbpf) x < (applicationTextLen mem rbpf).toNat ↔
    ∃ k < rbf.text.length,
      x = A + BitVec.ofNat 32 (28 + rbf.data.contents.length + rbf.rodata.contents.length + k)
  disjoint : ∀ x, rbpf.dataRegion.has x →
    ¬ dist (applicationText mem rbpf) x < (applicationTextLen mem rbpf).toNat
  lddwd : ∀ s i k, k < rbf.data.contents.length → s.rbpf = rbpf → i.immediate = BitVec.ofNat 32 k →
    ((exec host s i .lddwd).2.regmap i.dst).setWidth 32 = A + BitVec.ofNat 32 (28 + k)
  lddwr : ∀ s i k, k < rbf.rodata.contents.length → s.rbpf = rbpf → s.mem = mem →
    i.immediate = BitVec.ofNat 32 k →
    ((exec host s i .lddwr).2.regmap i.dst).setWidth 32 =
      A + BitVec.ofNat 32 (28 + rbf.data.contents.length + k)

theorem roundLen_nil (b : ByteString) : (roundLen b).contents = [] ↔ b.contents = [] := by
  cases b with
  | bytes b => rfl
  | bytearray b =>
    simp only [roundLen]
    split
    · rename_i h
      refine ⟨fun hnil => (append_eq_nil_iff.mp hnil).1, fun hnil => ?_⟩
      simp only [ByteString.contents] at hnil
      simp [hnil] at h
    · rfl

theorem RBF.format_some {rbf : RBF} {image : List Byte} (hh : rbf.header = none) (h : rbf.format = some image) :
    ∃ symbols : List Byte, image = ([magic, 0, 0] ++ rbf.data.contents.length ::
        [rbf.rodata.contents.length, rbf.text.length, rbf.symbols.length]).flatMap (leBytes 4) ++
      (rbf.data.contents ++ rbf.rodata.contents ++ rbf.text ++ symbols) := by
  simp only [RBF.format, bind_eq_bind, bind_eq_some_iff, Option.pure_def, some.injEq] at h
  obtain ⟨header, hheader, symbols, _, rfl⟩ := h
  obtain ⟨_, rfl⟩ := packStruct_some hheader
  refine ⟨symbols.flatten, ?_⟩
  simp [RBF.headerOf, hh]

section
variable {rbpf : RbpfApplication} {A : Addr} {rbf : RBF} {image : List Byte}

theorem loaded_lengths (mem : Mem) (hh : rbf.header = none) (h : rbf.format = some image) (hfit : image.length ≤ 2 ^ 32)
    (happ : rbpf.application = A) :
    headerDataLen (writeBytes mem A image) rbpf = BitVec.ofNat 32 rbf.data.contents.length ∧
      headerRodataLen (writeBytes mem A image) rbpf = BitVec.ofNat 32 rbf.rodata.contents.length ∧
      headerTextLen (writeBytes mem A image) rbpf = BitVec.ofNat 32 rbf.text.length ∧
      28 + rbf.data.contents.length + rbf.rodata.contents.length + rbf.text.length ≤ 2 ^ 32 := by
  obtain ⟨symbols, rfl⟩ := RBF.format_some hh h
  subst happ
  refine ⟨loaded_word mem _ [magic, 0, 0] _ _ _ hfit, loaded_word mem _ [magic, 0, 0, _] [_, _] _ _ hfit,
    loaded_word mem _ [magic, 0, 0, _, _] [_] _ _ hfit, ?_⟩
  simp at hfit
  omega

theorem loaded_sections (mem : Mem) (stack : Addr) (len : BitVec 32) (hh : rbf.header = none)
    (h : rbf.format = some image)
    (hfit : image.length ≤ 2 ^ 32) {m : Mem} (hm : m = writeBytes mem A image) {app : RbpfApplication}
    (happ : app = applicationSetup m rbpf stack A len) :
    (∀ x, app.dataRegion.has x ↔ dist (A + BitVec.ofNat 32 (28 + 56)) x < rbf.data.contents.length) ∧
    (∀ x, app.rodataRegion.has x ↔
      dist (A + BitVec.ofNat 32 (28 + rbf.data.contents.length + 56)) x < rbf.rodata.contents.length) ∧
    applicationText m app = A + BitVec.ofNat 32 (28 + rbf.data.contents.length + rbf.rodata.contents.length) ∧
    (applicationTextLen m app).toNat = rbf.text.length := by
  have ha : app.application = A := by rw [happ]; rfl
  obtain ⟨hd, hr, ht, hlen⟩ := loaded_lengths mem hh h hfit ha
  rw [← hm] at hd hr ht
  have h84 : (84 : BitVec 32) = BitVec.ofNat 32 84 := rfl
  have h28 : (28 : BitVec 32) = BitVec.ofNat 32 28 := rfl
  refine ⟨fun x => ?_, fun x => ?_, ?_, ?_⟩
  · have hreg : app.dataRegion = ⟨A + 84, headerDataLen m app, memRegionRead ||| memRegionWrite⟩ := by rw [happ]; rfl
    rw [MemRegion.has, hreg, hd, toNat_ofNat, Nat.mod_eq_of_lt (by omega), h84]
  · have hreg : app.rodataRegion = ⟨A + 84 + headerDataLen m app, headerRodataLen m app, memRegionRead⟩ := by
      rw [happ]; rfl
    rw [MemRegion.has, hreg, hd, hr, toNat_ofNat, Nat.mod_eq_of_lt (by omega), BitVec.add_assoc, h84,
      ← ofNat_add, show 84 + rbf.data.contents.length = 28 + rbf.data.contents.length + 56 by omega]
  · rw [applicationText, ha, hd, hr, sizeofHeader, h28, ofNat_add, ofNat_add]
    simp only [BitVec.add_assoc]
  · rw [applicationTextLen, ht, toNat_ofNat, Nat.mod_eq_of_lt (by omega)]

end

/-- Writer and loader agree exactly on images without data sections. -/
theorem loader_agrees_iff (host : Host) (mem : Mem) (rbpf : RbpfApplication) (A stack : Addr) (len : BitVec 32)
    (data rodata : ByteString) (text : List Byte) (symbols : List Symbol) (image : List Byte)
    (h : (RBF.init data rodata text symbols none).format = some image) (hfit : image.length ≤ 2 ^ 32) :
    LoaderAgrees host (writeBytes mem A image) (applicationSetup (writeBytes mem A image) rbpf stack A len) A
        (RBF.init data rodata text symbols none) ↔
      data.contents = [] ∧ rodata.contents = [] := by
  obtain ⟨hdata, hrodata, htext, htlen⟩ := loaded_sections mem stack len rfl h hfit rfl
    (rfl : applicationSetup (writeBytes mem A image) rbpf stack A len = _)
  have hA : (applicationSetup (writeBytes mem A image) rbpf stack A len).application = A := rfl
  have hlen := (loaded_lengths mem rfl h hfit hA).2.2.2
  have hd0 : (RBF.init data rodata text symbols none).data.contents.length = 0 ↔ data.contents = [] := by
    rw [length_eq_zero_iff]; exact roundLen_nil data
  have hr0 : (RBF.init data rodata text symbols none).rodata.contents.length = 0 ↔ rodata.contents = [] := by
    rw [length_eq_zero_iff]; exact roundLen_nil rodata
  rw [← hd0, ← hr0]
  constructor
  · intro hag
    exact ⟨(covers_shifted_iff A 28 (by omega)).mp fun x => (hdata x).symm.trans (hag.data x),
      (covers_shifted_iff A _ (by omega)).mp fun x => (hrodata x).symm.trans (hag.rodata x)⟩
  · rintro ⟨hd0, hr0⟩
    refine ⟨fun x => by rw [hdata, hd0]; simp, fun x => by rw [hrodata, hr0]; simp, fun x => ?_, fun x hx => ?_,
      fun s i k hk => ?_, fun s i k hk => ?_⟩
    · rw [htext, htlen]; exact dist_base A _ (by omega) x
    · rw [hdata, hd0] at hx; omega
    · omega
    · omega

def sampleRbf (data : List Byte) : RBF :=
  RBF.init (.bytearray data) (.bytearray [])
    ((List.replicate 7 [0xb7, 0, 0, 0, 0, 0, 0, 0] ++ [[0x95, 0, 0, 0, 0, 0, 0, 0]]).flatten) [] none

def loadedMem (rbf : RBF) : Mem := writeBytes (fun _ => 0) 0x20001000 (rbf.format.getD [])

def loadedApp (rbf : RBF) : RbpfApplication :=
  applicationSetup (loadedMem rbf) zeroApplication 0x20000000 0x20001000 (BitVec.ofNat 32 (rbf.format.getD []).length)

theorem loader_agrees_without_data :
    LoaderAgrees plainHost (loadedMem (sampleRbf [])) (loadedApp (sampleRbf [])) 0x20001000 (sampleRbf []) :=
  (loader_agrees_iff plainHost _ zeroApplication 0x20001000 0x20000000 92 (.bytearray []) (.bytearray [])
    _ [] _ rfl (by decide)).mpr ⟨rfl, rfl⟩

/-- With eight bytes of data the data region begins in the middle of the text,
and the first byte of data lies outside of it. -/
theorem loader_differs_with_data :
    (sampleRbf [1, 2, 3, 4, 5, 6, 7, 8]).format.isSome = true ∧
      (loadedApp (sampleRbf [1, 2, 3, 4, 5, 6, 7, 8])).dataRegion =
        ⟨0x20001054, 8, memRegionRead ||| memRegionWrite⟩ ∧
      loadedMem (sampleRbf [1, 2, 3, 4, 5, 6, 7, 8]) 0x2000101c = 1 ∧
      loadedMem (sampleRbf [1, 2, 3, 4, 5, 6, 7, 8]) 0x20001054 = 0xb7 ∧
      ¬ LoaderAgrees plainHost (loadedMem (sampleRbf [1, 2, 3, 4, 5, 6, 7, 8]))
        (loadedApp (sampleRbf [1, 2, 3, 4, 5, 6, 7, 8])) 0x20001000 (sampleRbf [1, 2, 3, 4, 5, 6, 7, 8]) :=
  ⟨by decide, by decide, by decide, by decide, fun h => h.disjoint 0x20001054 (by decide) (by decide)⟩

end PipRiot.Rbpf
