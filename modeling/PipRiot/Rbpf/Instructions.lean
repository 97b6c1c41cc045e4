import Mathlib.Data.List.Forall2
import PipRiot.Rbpf.Lddw

/-!
# The instructions of the tools

`instructions.py`. A class of instructions says how long they are and which
fields their compressed form has behind the opcode and the registers. `parse_text`
reads a text of either form; a branch is then linked to the instruction at its
target, and the compressed form has the distance to that one in bytes. A
reference to an instruction is its place in the list.
-/

namespace PipRiot.Rbpf

open List Function Option BitVec

/-! ## Classes -/

inductive Kind
  | alu
  | aluImm
  | mem
  | store
  | lddw
  | branch
  | branchImm
  | always
  | ret
  deriving DecidableEq, Repr

namespace Kind

def length : Kind → Nat
  | lddw => 16
  | _ => 8

def offsetSize : Kind → Nat
  | mem | store | branch | branchImm | always => 2
  | _ => 0

def immediateSize : Kind → Nat
  | aluImm | store | branchImm => 4
  | lddw => 8
  | _ => 0

def compressedSize (k : Kind) : Nat := 2 + k.offsetSize + k.immediateSize

def isBranch : Kind → Bool
  | branch | branchImm | always => true
  | _ => false

def opcodes : Kind → List Byte
  | alu => [0x0f, 0x1f, 0x2f, 0x3f, 0x4f, 0x5f, 0x6f, 0x7f, 0x87, 0x9f, 0xaf, 0xbf, 0xcf]
  | aluImm => [0x07, 0x17, 0x27, 0x37, 0x47, 0x57, 0x67, 0x77, 0x97, 0xa7, 0xb7, 0xc7, 0x85]
  | mem => [0x79, 0x61, 0x69, 0x71, 0x7b, 0x63, 0x6b, 0x73]
  | store => [0x7a, 0x62, 0x6a, 0x72]
  | lddw => [0x18, 0xb8, 0xd8]
  | branch => [0x1d, 0x2d, 0x3d, 0xad, 0xbd, 0x4d, 0x5d, 0x6d, 0x7d, 0xcd, 0xdd]
  | branchImm => [0x15, 0x25, 0x35, 0xa5, 0xb5, 0x45, 0x55, 0x65, 0x75, 0xc5, 0xd5]
  | always => [0x05]
  | ret => [0x95]

end Kind

def instructionType (opcode : Byte) : Option Kind :=
  [Kind.alu, .aluImm, .mem, .store, .lddw, .branch, .branchImm, .always, .ret].find? fun k => k.opcodes.contains opcode

structure Instruction where
  opcode : Byte
  kind : Kind
  registers : Byte
  offset : Int
  immediate : Nat
  address : Nat
  compressedAddress : Nat
  target : Option Nat
  deriving DecidableEq

inductive ParseError
  | notFound
  | structError
  deriving DecidableEq

def unpackSigned (bs : List Byte) : Int := (BitVec.ofNat 16 (leValue bs)).toInt

variable (compressed : Bool)

namespace Instruction

def fromBytes (kind : Kind) (instruction : List Byte)
    (address compressedAddress : Nat) : Except ParseError Instruction :=
  if instruction.length ≠ kind.length then .error .structError
  else
    .ok
      { opcode := instruction.getD 0 0
        kind := kind
        registers := instruction.getD 1 0
        offset := unpackSigned ((instruction.drop 2).take 2)
        -- the second slot of the double-length loads has the high half
        immediate := leValue ((instruction.drop 4).take 4) + 2 ^ 32 * leValue ((instruction.drop 12).take 4)
        address := address
        compressedAddress := compressedAddress
        target := none }

/-- With `expand_compressed`. The one of `AlwaysBranchInstruction` leaves the offset out. -/
def fromCompressed (kind : Kind) (instruction : List Byte) (address compressedAddress : Nat) :
    Except ParseError Instruction :=
  if instruction.length < kind.compressedSize then .error .structError
  else
    .ok
      { opcode := instruction.getD 0 0
        kind := kind
        registers := instruction.getD 1 0
        offset := if kind = .always then 0 else unpackSigned ((instruction.drop 2).take kind.offsetSize)
        immediate := leValue ((instruction.drop (2 + kind.offsetSize)).take kind.immediateSize)
        address := address
        compressedAddress := compressedAddress
        target := none }

def setTarget (self : Instruction) (index : Nat) (target : Instruction) : Instruction :=
  { self with
    target := some index
    offset := ((target.address : Int) - self.address - self.kind.length).tdiv 8 }

def compareAddress (self : Instruction) : Nat :=
  if compressed then self.compressedAddress else self.address

def targetAddress (self : Instruction) : Int :=
  if compressed then self.compressedAddress + self.offset + self.kind.compressedSize
  else self.address + (self.offset + 1) * 8

def link (instructions : List Instruction) (self : Instruction) : Instruction :=
  if self.kind.isBranch then
    match instructions.findIdx? fun i => (i.compareAddress compressed : Int) == self.targetAddress compressed with
    | some index =>
      match instructions[index]? with
      | some target => self.setTarget index target
      | none => self
    | none => self
  else self

end Instruction

def parseLoop (compressed : Bool) : Nat → List Byte → Nat → Nat → Except ParseError (List Instruction)
  | _, [], _, _ => .ok []
  | 0, _ :: _, _, _ => .error .structError
  | fuel + 1, opcode :: text, offset, compressedOffset =>
    match instructionType opcode with
    | none => .error .notFound
    | some kind =>
      let instruction :=
        if compressed then Instruction.fromCompressed kind (opcode :: text) offset compressedOffset
        else Instruction.fromBytes kind ((opcode :: text).take kind.length) offset compressedOffset
      match instruction with
      | .error e => .error e
      | .ok instruction =>
        (parseLoop compressed fuel ((opcode :: text).drop (if compressed then kind.compressedSize else kind.length))
          (offset + kind.length) (compressedOffset + kind.compressedSize)).map (instruction :: ·)

def parseText (text : List Byte) (compressed : Bool) : Except ParseError (List Instruction) :=
  (parseLoop compressed text.length text 0 0).map fun instructions =>
    instructions.map (Instruction.link compressed instructions)

/-! ## Compressing -/

section
variable (instructions : List Instruction)

namespace Instruction

variable (self : Instruction)

def compressedOffset : Option Int :=
  match self.target with
  | none => none
  | some index => instructions[index]?.map fun target =>
      (target.compressedAddress : Int) - self.compressedAddress - self.kind.compressedSize

def packedOffset : Option (List Byte) :=
  if self.kind.offsetSize = 0 then some []
  else if self.kind.isBranch then (self.compressedOffset instructions).bind (packSigned 2)
  else packSigned 2 self.offset

def packedImmediate : Option (List Byte) :=
  if self.kind.immediateSize = 0 then some [] else packField self.kind.immediateSize self.immediate

/-- `none` is `struct.error`: `AlwaysBranchInstruction` gives its three fields two
values. -/
def compress : Option (List Byte) :=
  if self.kind = .always then none
  else
    match self.packedOffset instructions, self.packedImmediate with
    | some offset, some immediate => some (self.opcode :: self.registers :: (offset ++ immediate))
    | _, _ => none

end Instruction

def compressText : Option (List Byte) := (instructions.mapM (Instruction.compress instructions)).map List.flatten

end

def Instruction.Leads (instructions : List Instruction) (self : Instruction) : Prop :=
  ∃ j t, self.target = some j ∧ instructions[j]? = some t

structure Instruction.Same (i j : Instruction) : Prop where
  opcode : j.opcode = i.opcode
  registers : j.registers = i.registers
  immediate : j.immediate = i.immediate
  target : i.kind.isBranch = true → j.target = i.target

theorem exists_mapM_iff {α β : Type} {f : α → Option β} : ∀ {l : List α},
    (∃ bs, l.mapM f = some bs) ↔ ∀ a ∈ l, ∃ b, f a = some b
  | [] => ⟨fun _ a ha => (by cases ha), fun _ => ⟨[], rfl⟩⟩
  | a :: l => by
    rw [forall_mem_cons, ← exists_mapM_iff (l := l)]
    simp only [mapM_cons, bind_eq_bind, bind_eq_some_iff, Option.pure_def, some.injEq]
    constructor
    · rintro ⟨-, b, hb, bs, hbs, rfl⟩
      exact ⟨⟨b, hb⟩, bs, hbs⟩
    · rintro ⟨⟨b, hb⟩, bs, hbs⟩
      exact ⟨b :: bs, b, hb, bs, hbs, rfl⟩

/-! ## Fields -/

theorem unpackSigned_packSigned {v : Int} {l : List Byte} (h : packSigned 2 v = some l) :
    l.length = 2 ∧ unpackSigned l = v := by
  simp only [packSigned, ite_none_right_eq_some, some.injEq] at h
  obtain ⟨hv, rfl⟩ := h
  refine ⟨leBytes_length 2 _, ?_⟩
  rw [unpackSigned, leValue_leBytes, toInt_eq_toNat_cond, toNat_ofNat]
  split <;> omega

theorem leValue_packField {n v : Nat} {l : List Byte} (h : packField n v = some l) : l.length = n ∧ leValue l = v := by
  simp only [packField, ite_none_right_eq_some, some.injEq] at h
  obtain ⟨hv, rfl⟩ := h
  exact ⟨leBytes_length n v, (leValue_leBytes n v).trans (Nat.mod_eq_of_lt hv)⟩

theorem unpackSigned_range (l : List Byte) : -2 ^ 15 ≤ unpackSigned l ∧ unpackSigned l < 2 ^ 15 :=
  ⟨le_toInt _, toInt_lt⟩

/-! ## What a parsed text looks like -/

def Laid : Nat → Nat → List Instruction → Prop
  | _, _, [] => True
  | a, c, i :: is =>
    i.address = a ∧ i.compressedAddress = c ∧ Laid (a + i.kind.length) (c + i.kind.compressedSize) is

structure Instruction.Read (i : Instruction) : Prop where
  kind : instructionType i.opcode = some i.kind
  immediate : i.kind.immediateSize = 0 ∨ i.immediate < 256 ^ i.kind.immediateSize
  offset : i.kind.isBranch = true ∨ -2 ^ 15 ≤ i.offset ∧ i.offset < 2 ^ 15

theorem Laid.increasing : ∀ {is : List Instruction} {a c : Nat}, Laid a c is →
    (∀ i ∈ is, c ≤ i.compressedAddress) ∧ is.Pairwise fun i j => i.compressedAddress < j.compressedAddress
  | [], _, _, _ => ⟨fun i hi => (by cases hi), .nil⟩
  | i :: is, a, c, h => by
    obtain ⟨-, hc, h⟩ := h
    obtain ⟨hle, hpair⟩ := h.increasing
    have hsize : 2 ≤ i.kind.compressedSize := by
      unfold Kind.compressedSize; omega
    refine ⟨?_, pairwise_cons.mpr ⟨?_, hpair⟩⟩
    · intro j hj
      rcases mem_cons.mp hj with rfl | hj
      · exact hc.symm.le
      · have := hle j hj; omega
    · intro j hj
      have := hle j hj; omega

theorem fromBytes_read {kind : Kind} {opcode : Byte} {text : List Byte} {a c : Nat} {i : Instruction}
    (hkind : instructionType opcode = some kind)
    (h : Instruction.fromBytes kind ((opcode :: text).take kind.length) a c = .ok i) :
    i.kind = kind ∧ i.address = a ∧ i.compressedAddress = c ∧ i.Read := by
  unfold Instruction.fromBytes at h
  split at h
  · cases h
  · rename_i hlen
    rw [Classical.not_not] at hlen
    cases h
    refine ⟨rfl, rfl, rfl, ?_, ?_, .inr (unpackSigned_range _)⟩
    · have hop : ((opcode :: text).take kind.length).getD 0 0 = opcode := by cases kind <;> rfl
      simp only [hop]; exact hkind
    · have hlow := leValue_lt ((((opcode :: text).take kind.length).drop 4).take 4)
      have hhigh := leValue_lt ((((opcode :: text).take kind.length).drop 12).take 4)
      rw [length_take, length_drop, hlen] at hlow hhigh
      cases kind with
      | alu | mem | branch | always | ret => exact .inl rfl
      | aluImm | store | branchImm =>
        right
        change _ < 4294967296 at hlow
        change _ < 1 at hhigh
        simp only [Kind.immediateSize]; omega
      | lddw =>
        right
        change _ < 4294967296 at hlow hhigh
        simp only [Kind.immediateSize]; omega

theorem parseLoop_read : ∀ {fuel : Nat} {text : List Byte} {a c : Nat} {is : List Instruction},
    parseLoop false fuel text a c = .ok is → Laid a c is ∧ ∀ i ∈ is, i.Read
  | _, [], _, _, is, h => by
    simp only [parseLoop] at h
    cases h; exact ⟨trivial, fun i hi => by cases hi⟩
  | 0, _ :: _, _, _, _, h => by cases h
  | fuel + 1, opcode :: text, a, c, is, h => by
    simp only [parseLoop, Bool.false_eq_true, if_false] at h
    split at h
    · cases h
    · rename_i kind hkind
      split at h
      · cases h
      · rename_i i hi
        obtain ⟨hk, ha, hc, hread⟩ := fromBytes_read hkind hi
        cases hrest : parseLoop false fuel ((opcode :: text).drop kind.length) (a + kind.length)
          (c + kind.compressedSize) with
        | error e =>
          rw [hrest] at h; cases h
        | ok rest =>
          rw [hrest] at h
          cases h
          obtain ⟨hlaid, hall⟩ := parseLoop_read hrest
          refine ⟨⟨ha, hc, by rw [hk]; exact hlaid⟩, ?_⟩
          intro j hj
          rcases mem_cons.mp hj with rfl | hj
          · exact hread
          · exact hall j hj

theorem Instruction.link_eq (is : List Instruction) (i : Instruction) :
    ∃ offset target, i.link compressed is = { i with offset := offset, target := target } ∧
      (i.kind.isBranch = true ∨ offset = i.offset) := by
  unfold Instruction.link
  split
  · rename_i hb
    split
    · split
      · exact ⟨_, _, rfl, .inl hb⟩
      · exact ⟨_, _, rfl, .inl hb⟩
    · exact ⟨_, _, rfl, .inl hb⟩
  · exact ⟨_, _, rfl, .inr rfl⟩

theorem laid_map {f : Instruction → Instruction}
    (hf : ∀ i, (f i).kind = i.kind ∧ (f i).address = i.address ∧ (f i).compressedAddress = i.compressedAddress) :
    ∀ {is : List Instruction} {a c : Nat}, Laid a c is → Laid a c (is.map f)
  | [], _, _, _ => trivial
  | i :: is, a, c, ⟨ha, hc, h⟩ => by
    obtain ⟨hk, ha', hc'⟩ := hf i
    exact ⟨ha'.trans ha, hc'.trans hc, by rw [hk]; exact laid_map hf h⟩

theorem parseText_read {text : List Byte} {is : List Instruction} (h : parseText text false = .ok is) :
    Laid 0 0 is ∧ ∀ i ∈ is, i.Read := by
  unfold parseText at h
  cases hloop : parseLoop false text.length text 0 0 with
  | error e =>
    rw [hloop] at h; cases h
  | ok raw =>
    rw [hloop] at h
    cases h
    obtain ⟨hlaid, hread⟩ := parseLoop_read hloop
    refine ⟨laid_map (fun i => ?_) hlaid, ?_⟩
    · obtain ⟨offset, target, he, -⟩ := i.link_eq false raw
      rw [he]; exact ⟨rfl, rfl, rfl⟩
    · intro j hj
      obtain ⟨i, hi, rfl⟩ := mem_map.mp hj
      obtain ⟨offset, target, he, hoff⟩ := i.link_eq false raw
      rw [he]
      refine ⟨(hread i hi).kind, (hread i hi).immediate, ?_⟩
      rcases hoff with hoff | rfl
      · exact .inl hoff
      · exact (hread i hi).offset

/-! ## Reading the compressed form -/

section
variable (is : List Instruction)

def Instruction.expanded (i : Instruction) : Instruction :=
  { i with
    offset := if i.kind.offsetSize = 0 then 0 else if i.kind.isBranch then (i.compressedOffset is).getD 0 else i.offset
    immediate := if i.kind.immediateSize = 0 then 0 else i.immediate
    target := none }

variable {is} {i : Instruction} {bs : List Byte}

theorem packedOffset_some (h : i.packedOffset is = some bs) : bs.length = i.kind.offsetSize ∧
    unpackSigned bs = (i.expanded is).offset := by
  have htwo : i.kind.offsetSize = 0 ∨ i.kind.offsetSize = 2 := by
    cases i.kind <;> decide
  simp only [Instruction.packedOffset, Instruction.expanded] at h ⊢
  split at h
  · rename_i hz
    cases h; exact ⟨hz.symm, by rw [if_pos hz]; rfl⟩
  · rename_i hz
    rw [if_neg hz, htwo.resolve_left hz]
    split at h
    · rename_i hb
      obtain ⟨v, hv, hp⟩ := bind_eq_some_iff.mp h
      rw [if_pos hb, hv]; exact unpackSigned_packSigned hp
    · rename_i hb
      rw [if_neg hb]; exact unpackSigned_packSigned h

theorem packedImmediate_some (h : i.packedImmediate = some bs) : bs.length = i.kind.immediateSize ∧
    leValue bs = (i.expanded is).immediate := by
  simp only [Instruction.packedImmediate, Instruction.expanded] at h ⊢
  split at h
  · rename_i hz
    cases h; exact ⟨hz.symm, by rw [if_pos hz]; rfl⟩
  · rename_i hz
    rw [if_neg hz]; exact leValue_packField h

section
variable (h : i.compress is = some bs)
include h

theorem compress_some : i.kind ≠ .always ∧ ∃ offset immediate,
    i.packedOffset is = some offset ∧ i.packedImmediate = some immediate ∧
      bs = i.opcode :: i.registers :: (offset ++ immediate) := by
  unfold Instruction.compress at h
  split at h
  · cases h
  · rename_i hk
    split at h
    · rename_i offset immediate ho hi
      cases h
      exact ⟨hk, offset, immediate, ho, hi, rfl⟩
    · cases h

theorem compress_length : bs.length = i.kind.compressedSize := by
  obtain ⟨-, offset, immediate, ho, hi, rfl⟩ := compress_some h
  have h1 := (packedOffset_some ho).1
  obtain ⟨h2, -⟩ : immediate.length = i.kind.immediateSize ∧ leValue immediate = (i.expanded is).immediate :=
    packedImmediate_some hi
  simp only [length_cons, length_append, Kind.compressedSize]
  omega

theorem fromCompressed_compress (rest : List Byte) :
    Instruction.fromCompressed i.kind (bs ++ rest) i.address i.compressedAddress = .ok (i.expanded is) := by
  have hlen := compress_length h
  obtain ⟨hk, offset, immediate, ho, hi, rfl⟩ := compress_some h
  obtain ⟨hol, hov⟩ := packedOffset_some ho
  obtain ⟨hil, hiv⟩ : immediate.length = i.kind.immediateSize ∧ leValue immediate = (i.expanded is).immediate :=
    packedImmediate_some hi
  unfold Instruction.fromCompressed
  rw [if_neg (by rw [length_append]; omega), if_neg hk]
  have hoff : (((i.opcode :: i.registers :: (offset ++ immediate)) ++ rest).drop 2).take i.kind.offsetSize =
      offset := by
    rw [← hol]; simp
  have himm : (((i.opcode :: i.registers :: (offset ++ immediate)) ++ rest).drop (2 + i.kind.offsetSize)).take
      i.kind.immediateSize = immediate := by
    rw [← hol, ← hil, ← drop_drop]; simp
  rw [hoff, himm, hov, hiv]
  rfl

end

theorem parseLoop_compressed : ∀ {js : List Instruction} {bss : List (List Byte)} {a c fuel : Nat},
    Laid a c js → (∀ j ∈ js, j.Read) → js.mapM (Instruction.compress is) = some bss → bss.flatten.length ≤ fuel →
    parseLoop true fuel bss.flatten a c = .ok (js.map (Instruction.expanded is))
  | [], bss, a, c, fuel, _, _, hbss, _ => by
    cases hbss
    cases fuel <;> rfl
  | j :: js, bss, a, c, fuel, ⟨ha, hc, hlaid⟩, hread, hbss, hfuel => by
    simp only [mapM_cons, bind_eq_bind, bind_eq_some_iff, Option.pure_def, some.injEq] at hbss
    obtain ⟨bs, hbs, bss, hbss, rfl⟩ := hbss
    have hlen := compress_length hbs
    have hfrom := fromCompressed_compress hbs bss.flatten
    obtain ⟨-, offset, immediate, -, -, hcons⟩ := compress_some hbs
    have hkind := (hread j mem_cons_self).kind
    rw [flatten_cons] at hfuel ⊢
    rw [length_append, hlen] at hfuel
    have hsize : 2 ≤ j.kind.compressedSize := by
      unfold Kind.compressedSize; omega
    obtain ⟨fuel, rfl⟩ : ∃ n, fuel = n + 1 := ⟨fuel - 1, by omega⟩
    have hflat : bss.flatten.length ≤ fuel := by omega
    have hrest := parseLoop_compressed hlaid (fun k hk => hread k (mem_cons_of_mem _ hk)) hbss hflat
    have hdrop : (bs ++ bss.flatten).drop j.kind.compressedSize = bss.flatten := drop_left' hlen
    rw [← ha, ← hc] at hrest ⊢
    rw [hcons, List.cons_append] at hfrom hdrop ⊢
    simp only [parseLoop, hkind, if_true, hfrom, hdrop, hrest]; rfl

end

/-! ## The same targets -/

theorem offsetSize_of_isBranch {k : Kind} (hb : k.isBranch = true) : k.offsetSize ≠ 0 := by
  cases k <;> simp [Kind.isBranch, Kind.offsetSize] at hb ⊢

section
variable {is : List Instruction} {i : Instruction}

theorem link_expanded (hlaid : Laid 0 0 is) {j : Nat} {t : Instruction} (hb : i.kind.isBranch = true)
    (hj : i.target = some j) (ht : is[j]? = some t) :
    ((i.expanded is).link true (is.map (Instruction.expanded is))).target = some j := by
  have hpair := hlaid.increasing.2
  have hz : i.kind.offsetSize ≠ 0 := offsetSize_of_isBranch hb
  have hoff : i.compressedOffset is =
      some ((t.compressedAddress : Int) - i.compressedAddress - i.kind.compressedSize) := by
    simp only [Instruction.compressedOffset, hj, ht, map_some]
  have htarget : (i.expanded is).targetAddress true = t.compressedAddress := by
    simp only [Instruction.targetAddress, Instruction.expanded, if_true, if_neg hz, hb, hoff, getD_some]
    omega
  obtain ⟨hlt, hget⟩ := List.getElem?_eq_some_iff.mp ht
  have hfind : (is.map (Instruction.expanded is)).findIdx? (fun k => (k.compareAddress true : Int) ==
      (i.expanded is).targetAddress true) = some j := by
    rw [htarget, findIdx?_eq_some_iff_getElem]
    refine ⟨by simpa using hlt, ?_, ?_⟩
    · simp [Instruction.compareAddress, Instruction.expanded, hget]
    · -- the addresses increase, so no earlier instruction is there
      intro k hk
      have hbefore := (pairwise_iff_getElem.mp hpair) k j (by omega) hlt hk
      rw [hget] at hbefore
      simp only [getElem_map, Instruction.compareAddress, Instruction.expanded, if_true, beq_iff_eq]
      omega
  have hbe : (i.expanded is).kind.isBranch = true := hb
  unfold Instruction.link
  rw [if_pos hbe, hfind]
  simp only [getElem?_map, ht, map_some, Instruction.setTarget]

theorem leads_of_compress {bs : List Byte} (hb : i.kind.isBranch = true) (h : i.compress is = some bs) :
    i.Leads is := by
  obtain ⟨hk, offset, -, ho, -, -⟩ := compress_some h
  have hz : i.kind.offsetSize ≠ 0 := offsetSize_of_isBranch hb
  rw [Instruction.packedOffset, if_neg hz, if_pos hb] at ho
  obtain ⟨v, hv, -⟩ := bind_eq_some_iff.mp ho
  unfold Instruction.compressedOffset at hv
  split at hv
  · cases hv
  · rename_i j hj
    obtain ⟨t, ht, -⟩ := map_eq_some_iff.mp hv
    exact ⟨j, t, hj, ht⟩

structure Instruction.Back (i j : Instruction) : Prop where
  opcode : j.opcode = i.opcode
  registers : j.registers = i.registers
  immediate : j.immediate = if i.kind.immediateSize = 0 then 0 else i.immediate
  target : i.kind.isBranch = true → j.target = i.target

theorem parseText_compressText {text ctext : List Byte} (h : parseText text false = .ok is)
    (hc : compressText is = some ctext) : ∃ js, parseText ctext true = .ok js ∧
      List.Forall₂ Instruction.Back is js := by
  obtain ⟨hlaid, hread⟩ := parseText_read h
  obtain ⟨bss, hbss, rfl⟩ := map_eq_some_iff.mp hc
  have hloop := parseLoop_compressed hlaid hread hbss (Nat.le_refl bss.flatten.length)
  refine ⟨_, by rw [parseText, hloop]; rfl, ?_⟩
  simp only [List.map_map, forall₂_map_right_iff, forall₂_same]
  intro i hi
  obtain ⟨offset, target, he, -⟩ := (i.expanded is).link_eq true (is.map (Instruction.expanded is))
  refine ⟨?_, ?_, ?_, ?_⟩
  · simp only [comp_apply, he]; rfl
  · simp only [comp_apply, he]; rfl
  · simp only [comp_apply, he]; rfl
  · intro hb
    obtain ⟨bs, hbs⟩ := exists_mapM_iff.mp ⟨bss, hbss⟩ i hi
    obtain ⟨j, t, hj, ht⟩ := leads_of_compress hb hbs
    rw [hj]; exact link_expanded hlaid hb hj ht

/-! ## Which texts have a compressed form -/

structure Instruction.Compressible (is : List Instruction) (i : Instruction) : Prop where
  conditional : i.kind ≠ .always
  near : i.kind.isBranch = true → ∀ d, i.compressedOffset is = some d → -2 ^ 15 ≤ d ∧ d < 2 ^ 15
  immediate : i.kind.immediateSize = 0 → i.immediate = 0

theorem packSigned_isSome {v : Int} : (∃ l, packSigned 2 v = some l) ↔ -2 ^ 15 ≤ v ∧ v < 2 ^ 15 := by
  unfold packSigned
  constructor
  · rintro ⟨l, h⟩
    split at h
    · omega
    · cases h
  · intro h; exact ⟨_, if_pos (by omega)⟩

theorem compress_isSome (hread : i.Read) (htarget : i.kind.isBranch = true → ∃ d, i.compressedOffset is = some d) :
    (∃ bs, i.compress is = some bs) ↔ i.kind ≠ .always ∧
      (i.kind.isBranch = true → ∀ d, i.compressedOffset is = some d → -2 ^ 15 ≤ d ∧ d < 2 ^ 15) := by
  constructor
  · rintro ⟨bs, h⟩
    obtain ⟨hk, offset, -, ho, -, -⟩ := compress_some h
    refine ⟨hk, fun hb d hd => ?_⟩
    rw [Instruction.packedOffset, if_neg (offsetSize_of_isBranch hb), if_pos hb, hd] at ho
    exact packSigned_isSome.mp ⟨offset, ho⟩
  · rintro ⟨hk, hnear⟩
    have himm : ∃ immediate, i.packedImmediate = some immediate := by
      unfold Instruction.packedImmediate
      split
      · exact ⟨_, rfl⟩
      · rename_i hz
        exact ⟨_, if_pos (hread.immediate.resolve_left hz)⟩
    have hoff : ∃ offset, i.packedOffset is = some offset := by
      unfold Instruction.packedOffset
      split
      · exact ⟨_, rfl⟩
      · split
        · rename_i hb
          obtain ⟨d, hd⟩ := htarget hb
          rw [hd]
          exact packSigned_isSome.mpr (hnear hb d hd)
        · rename_i hb
          exact packSigned_isSome.mpr (hread.offset.resolve_left hb)
    obtain ⟨immediate, himm⟩ := himm
    obtain ⟨offset, hoff⟩ := hoff
    exact ⟨_, by rw [Instruction.compress, if_neg hk, hoff, himm]⟩

theorem compressText_length : ∀ {js : List Instruction} {bss : List (List Byte)},
    js.mapM (Instruction.compress is) = some bss →
    bss.flatten.length = (js.map fun j => j.kind.compressedSize).sum
  | [], bss, h => by
    cases h; rfl
  | j :: js, bss, h => by
    simp only [mapM_cons, bind_eq_bind, bind_eq_some_iff, Option.pure_def, some.injEq] at h
    obtain ⟨bs, hbs, rest, hrest, rfl⟩ := h
    rw [flatten_cons, length_append, compress_length hbs, compressText_length hrest, map_cons, sum_cons]

theorem text_round_trip_iff {text : List Byte} (h : parseText text false = .ok is)
    (htarget : ∀ i ∈ is, i.kind.isBranch = true → i.Leads is) :
    (∃ ctext js, compressText is = some ctext ∧ parseText ctext true = .ok js ∧ List.Forall₂ Instruction.Same is js) ↔
      ∀ i ∈ is, i.Compressible is := by
  have hread := (parseText_read h).2
  have hoffset : ∀ i ∈ is, i.kind.isBranch = true → ∃ d, i.compressedOffset is = some d := by
    intro i hi hb
    obtain ⟨j, t, hj, ht⟩ := htarget i hi hb
    exact ⟨_, by simp only [Instruction.compressedOffset, hj, ht, map_some]; rfl⟩
  constructor
  · rintro ⟨ctext, js, hc, hparse, hsame⟩ i hi
    obtain ⟨js', hparse', hback⟩ := parseText_compressText h hc
    rw [hparse] at hparse'
    cases hparse'
    obtain ⟨bss, hbss, rfl⟩ := map_eq_some_iff.mp hc
    obtain ⟨hk, hnear⟩ := (compress_isSome (hread i hi) (hoffset i hi)).mp (exists_mapM_iff.mp ⟨bss, hbss⟩ i hi)
    refine ⟨hk, hnear, fun hz => ?_⟩
    obtain ⟨⟨n, hn⟩, rfl⟩ := get_of_mem hi
    have hlen := hsame.length_eq
    have h1 := (hsame.get hn (hlen ▸ hn)).immediate
    have h2 := (hback.get hn (hlen ▸ hn)).immediate
    rw [if_pos hz] at h2; exact h1.symm.trans h2
  · intro hall
    obtain ⟨bss, hbss⟩ := exists_mapM_iff.mpr fun i hi =>
      (compress_isSome (hread i hi) (hoffset i hi)).mpr ⟨(hall i hi).conditional, (hall i hi).near⟩
    have hc : compressText is = some bss.flatten := by rw [compressText, hbss]; rfl
    obtain ⟨js, hparse, hback⟩ := parseText_compressText h hc
    refine ⟨_, js, hc, hparse, ?_⟩
    rw [forall₂_iff_get] at hback ⊢
    refine ⟨hback.1, fun n hn hn' => ?_⟩
    have hb := hback.2 n hn hn'
    refine ⟨hb.opcode, hb.registers, ?_, hb.target⟩
    rw [hb.immediate]
    split
    · rename_i hz
      exact ((hall _ (get_mem is ⟨n, hn⟩)).immediate hz).symm
    · rfl

end

end PipRiot.Rbpf
