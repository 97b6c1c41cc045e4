import PipRiot.Rbpf.Alu
import PipRiot.Rbpf.Rbf

/-!
# Double-length loads

`LDDWInstruction` of `instructions.py` packs a constant into two slots, and `_patch_text`
of `rbf.py` turns such a load into one relative to a section. The interpreter widens both
immediates as signed numbers before it combines them.
-/

namespace PipRiot.Rbpf

open List Option BitVec

/-! ## The tools -/

def packSigned (n : Nat) (v : Int) : Option (List Byte) :=
  if -(256 ^ n / 2) ≤ v ∧ v < 256 ^ n / 2 then some (leBytes n (v % 256 ^ n).toNat) else none

structure LDDWInstruction where
  registers : Nat
  offset : Int
  immediateL : Nat
  immediateH : Nat

def LDDWInstruction.ofImmediate (registers : Nat) (offset : Int) (immediate : Nat) : LDDWInstruction where
  registers := registers
  offset := offset
  immediateL := immediate % 2 ^ 32
  immediateH := immediate / 2 ^ 32

def LDDWInstruction.bytes (self : LDDWInstruction) : Option (List Byte) := do
  let registers ← packField 1 self.registers
  let offset ← packSigned 2 self.offset
  let immediateL ← packField 4 self.immediateL
  let immediateH ← packField 4 self.immediateH
  return [lddwByte] ++ registers ++ offset ++ immediateL ++ [0, 0, 0, 0] ++ immediateH

inductive SectionName
  | data
  | rodata
  | other

inductive SymbolType
  | section
  | object
  | other

structure ElfSymbol where
  type : SymbolType
  shndx : SectionName
  value : Nat

/-- The offset of a symbol; of other types the name of the section is not bound. -/
def ElfSymbol.offset (symbol : ElfSymbol) : Option Nat :=
  match symbol.type with
  | .section => some 0
  | .object => some symbol.value
  | .other => none

def sectionLddwOpcode : SectionName → Option Byte
  | .rodata => some 0xd8
  | .data => some 0xb8
  | .other => none

def immediateAt (text : List Byte) (k : Nat) : BitVec 32 := BitVec.ofNat 32 (leValue ((text.drop k).take 4))

def patchText (text : List Byte) (location : Nat) (symbol : ElfSymbol) : Option (List Byte) := do
  let offset ← symbol.offset
  let opcode ← text[location]?
  if opcode ≠ lddwByte then return text
  else if text.length < location + 16 then none
  else
    let opcode ← sectionLddwOpcode symbol.shndx
    let immediateL ← packSigned 4 ((immediateAt text (location + 4)).toInt + offset)
    return text.take location ++ ([opcode] ++ (text.drop (location + 1)).take 3 ++ immediateL ++ [0, 0, 0, 0] ++
      (text.drop (location + 12)).take 4) ++ text.drop (location + 16)

/-! ## What the interpreter makes of two slots -/

/-- The value of `LDDWD` and `LDDWR` on a target whose pointers have `w` bits. -/
def sectionLoad {w : Nat} (base : BitVec w) (low high : BitVec 32) : BitVec 64 :=
  base.signExtend 64 + low.signExtend 64 + high.signExtend 64 <<< 32

def Vm.sectionBase (s : Vm) : SectionName → Addr
  | .data => applicationData s.rbpf
  | _ => applicationRodata s.mem s.rbpf

section
variable {host : Host} {s : Vm} {bs : List Byte} {w : Nat}

section
variable (h : readBytes s.mem s.instr 16 = bs)
include h

theorem slots_read : bs.head? = some (s.mem s.instr) ∧
    s.current.immediate = immediateAt bs 4 ∧ upperImmediate s = (immediateAt bs 12).signExtend 64 <<< 32 := by
  have hslice (k : Nat) (hk : k + 4 ≤ 16) : readBytes s.mem (s.instr + BitVec.ofNat 32 k) 4 = (bs.drop k).take 4 := by
    rw [readBytes_slice s.mem s.instr hk, h]
  refine ⟨?_, ?_, ?_⟩
  · rw [← h]
    simp [readBytes, range_succ_eq_map]
  · simp only [Vm.current, fetch, immediateAt]
    rw [← hslice 4 (by decide)]; rfl
  · simp only [upperImmediate, fetch, immediateAt]
    rw [← hslice 12 (by decide), BitVec.add_assoc]; rfl

theorem instruction_lddw (hop : bs.head? = some lddwByte) :
    (instruction host s).2.regmap s.current.dst =
      (immediateAt bs 4).signExtend 64 ||| (immediateAt bs 12).signExtend 64 <<< 32 := by
  obtain ⟨hhead, hlow, hhigh⟩ := slots_read h
  have hop' : s.opcode = some .lddw := by
    rw [hhead] at hop
    rw [Vm.opcode, some.inj hop]; decide
  simp [instruction, hop', exec, loadDouble, Vm.setReg, hlow, hhigh]

theorem instruction_section {sect : SectionName} {b : Byte} (hop : bs.head? = some b)
    (hsect : sectionLddwOpcode sect = some b) :
    (instruction host s).2.regmap s.current.dst = sectionLoad (s.sectionBase sect) (immediateAt bs 4)
      (immediateAt bs 12) := by
  obtain ⟨hhead, hlow, hhigh⟩ := slots_read h
  rw [hhead] at hop
  have hb : s.mem s.instr = b := some.inj hop
  cases sect with
  | other => cases hsect
  | data =>
    have hop' : s.opcode = some .lddwd := by
      cases hsect
      rw [Vm.opcode, hb]; decide
    simp [instruction, hop', exec, loadDouble, Vm.setReg, hlow, hhigh, sectionLoad, Vm.sectionBase]
  | rodata =>
    have hop' : s.opcode = some .lddwr := by
      cases hsect
      rw [Vm.opcode, hb]; decide
    simp [instruction, hop', exec, loadDouble, Vm.setReg, hlow, hhigh, sectionLoad, Vm.sectionBase]

end

/-! ## Two halves -/

def immediate64 (text : List Byte) (k : Nat) : BitVec 64 := immediateAt text (k + 12) ++ immediateAt text (k + 4)

theorem or_eq_append_iff (low high : BitVec 32) :
    low.signExtend 64 ||| high.signExtend 64 <<< 32 = high ++ low ↔ low.msb = false ∨ high = BitVec.allOnes 32 := by
  have hupper (i : Nat) (hi : i < 32) : (low.signExtend 64 ||| high.signExtend 64 <<< 32).getLsbD (32 + i) =
      (low.msb || high.getLsbD i) := by
    rw [getLsbD_or, getLsbD_shiftLeft, getLsbD_signExtend, getLsbD_signExtend]
    simp only [hi, show 32 + i < 64 by omega, show ¬ 32 + i < 32 by omega, show 32 + i - 32 = i by omega,
      show i < 64 by omega]
    simp
  have hlower (i : Nat) (hi : i < 32) : (low.signExtend 64 ||| high.signExtend 64 <<< 32).getLsbD i =
      low.getLsbD i := by
    rw [getLsbD_or, getLsbD_shiftLeft, getLsbD_signExtend]
    simp only [hi, show i < 64 by omega]; simp
  constructor
  · intro h
    by_cases hm : low.msb = false
    · exact .inl hm
    · refine .inr (eq_of_getLsbD_eq fun i hi => ?_)
      have hb := hupper i hi
      rw [h, getLsbD_append, if_neg (by omega), Nat.add_sub_cancel_left] at hb
      rw [hb, getLsbD_allOnes, decide_eq_true hi, Bool.eq_true_of_not_eq_false hm, Bool.true_or]
  · intro h
    apply eq_of_getLsbD_eq
    intro i hi
    rw [getLsbD_append]
    by_cases hlt : i < 32
    · rw [hlower i hlt, if_pos hlt]
    · obtain ⟨k, rfl⟩ : ∃ k, i = 32 + k := ⟨i - 32, by omega⟩
      rw [hupper k (by omega), if_neg hlt, Nat.add_sub_cancel_left]
      rcases h with hm | rfl
      · rw [hm, Bool.false_or]
      · rw [getLsbD_allOnes, decide_eq_true (by omega), Bool.or_true]

theorem append_eq_ofInt (low high : BitVec 32) :
    (high ++ low : BitVec 64) = BitVec.ofInt 64 (low.toNat + 2 ^ 32 * high.toNat) := by
  have h1 := low.isLt
  apply eq_of_toNat_eq
  rw [toNat_append, toNat_ofInt, ← Nat.shiftLeft_add_eq_or_of_lt h1, Nat.shiftLeft_eq]
  omega

theorem ofInt_shl (k : Int) : BitVec.ofInt 64 k <<< 32 = BitVec.ofInt 64 (2 ^ 32 * k) := by
  rw [shiftLeft_eq_mul_twoPow, BitVec.mul_comm, ofInt_mul]
  rfl

theorem ofInt_eq_iff (a b : Int) : BitVec.ofInt 64 a = BitVec.ofInt 64 b ↔ a % 2 ^ 64 = b % 2 ^ 64 := by
  constructor
  · intro h
    have := congrArg BitVec.toNat h
    rw [toNat_ofInt, toNat_ofInt] at this; omega
  · intro h
    apply eq_of_toNat_eq
    rw [toNat_ofInt, toNat_ofInt]; omega

theorem sectionLoad_eq_iff {w : Nat} (hw : w = 32 ∨ w = 64) (base : BitVec w) (low low' high : BitVec 32) {offset : Nat}
    (hlow : low'.toInt = low.toInt + offset) :
    sectionLoad base low' high = base.setWidth 64 + (high ++ low) + BitVec.ofNat 64 offset ↔
      low.msb = false ∧ (w = 32 → base.msb = false) := by
  have hload : sectionLoad base low' high =
      BitVec.ofInt 64 (base.toInt + (low.toInt + offset) + 2 ^ 32 * high.toInt) := by
    simp only [sectionLoad, BitVec.signExtend, hlow, ofInt_shl, ofInt_add]
  have hsum : base.setWidth 64 + (high ++ low) + BitVec.ofNat 64 offset =
      BitVec.ofInt 64 (base.toNat + (low.toNat + 2 ^ 32 * high.toNat) + offset) := by
    rw [ofInt_add, ofInt_add, ← append_eq_ofInt, ofInt_natCast, ofInt_natCast, ofNat_toNat]
  rw [hload, hsum, ofInt_eq_iff, msb_eq_decide, msb_eq_decide, toInt_eq_toNat_cond, toInt_eq_toNat_cond,
    toInt_eq_toNat_cond]
  rcases hw with rfl | rfl
  · simp only [decide_eq_false_iff_not, true_imp_iff]
    split <;> split <;> split <;> omega
  · simp only [decide_eq_false_iff_not, Nat.reduceEqDiff, false_imp_iff, and_true]
    split <;> split <;> split <;> omega

theorem append_halves (c : BitVec 64) :
    (BitVec.ofNat 32 (c.toNat / 2 ^ 32) ++ BitVec.ofNat 32 (c.toNat % 2 ^ 32) : BitVec 64) = c := by
  rw [append_eq_ofInt, toNat_ofNat, toNat_ofNat]
  apply eq_of_toNat_eq
  rw [toNat_ofInt]
  omega

/-! ## Packing -/

theorem immediateAt_append {a b c : List Byte} {k : Nat} (ha : a.length = k) (hb : b.length = 4) :
    immediateAt (a ++ (b ++ c)) k = BitVec.ofNat 32 (leValue b) := by
  rw [immediateAt, drop_left' ha, take_left' hb]

theorem ofNat_leValue_leBytes (v : Nat) : BitVec.ofNat 32 (leValue (leBytes 4 v)) = BitVec.ofNat 32 v := by
  apply eq_of_toNat_eq
  rw [leValue_leBytes, toNat_ofNat, toNat_ofNat]
  exact Nat.mod_mod v (2 ^ 32)

theorem packSigned_some {v : Int} {l : List Byte} (h : packSigned 4 v = some l) :
    l.length = 4 ∧ (BitVec.ofNat 32 (leValue l)).toInt = v := by
  simp only [packSigned, ite_none_right_eq_some, some.injEq] at h
  obtain ⟨hv, rfl⟩ := h
  refine ⟨leBytes_length 4 _, ?_⟩
  rw [ofNat_leValue_leBytes, toInt_eq_toNat_cond, toNat_ofNat]
  split <;> omega

theorem bytes_some {ins : LDDWInstruction} (h : ins.bytes = some bs) : bs.head? = some lddwByte ∧
    immediateAt bs 4 = BitVec.ofNat 32 ins.immediateL ∧ immediateAt bs 12 = BitVec.ofNat 32 ins.immediateH := by
  simp only [LDDWInstruction.bytes, packField, packSigned, bind_eq_bind, bind_eq_some_iff, ite_none_right_eq_some,
    some.injEq, Option.pure_def] at h
  obtain ⟨_, ⟨-, rfl⟩, _, ⟨-, rfl⟩, _, ⟨-, rfl⟩, _, ⟨-, rfl⟩, rfl⟩ := h
  refine ⟨rfl, ?_, ?_⟩
  · rw [← ofNat_leValue_leBytes]
    rw [List.append_assoc, append_assoc _ (leBytes 4 ins.immediateL)]
    exact immediateAt_append (by simp) (leBytes_length 4 _)
  · rw [← ofNat_leValue_leBytes, ← append_nil (leBytes 4 ins.immediateH)]
    exact immediateAt_append (by simp) (leBytes_length 4 _)

theorem patchText_some {text text' : List Byte} {location : Nat} {symbol : ElfSymbol}
    (h : patchText text location symbol = some text')
    (hop : text[location]? = some lddwByte) : ∃ offset b, symbol.offset = some offset ∧
      sectionLddwOpcode symbol.shndx = some b ∧ ((text'.drop location).take 16).head? = some b ∧
      (immediateAt ((text'.drop location).take 16) 4).toInt = (immediateAt text (location + 4)).toInt + offset ∧
      immediateAt ((text'.drop location).take 16) 12 = immediateAt text (location + 12) := by
  simp only [patchText, bind_eq_bind, bind_eq_some_iff, hop, some.injEq, exists_eq_left', ne_eq, not_true_eq_false,
    if_false] at h
  obtain ⟨offset, hoffset, h⟩ := h
  split at h
  · cases h
  · simp only [bind_eq_some_iff, Option.pure_def, some.injEq] at h
    obtain ⟨b, hb, l, hl, rfl⟩ := h
    obtain ⟨hllen, hlval⟩ := packSigned_some hl
    have hslots : ((text.take location ++ ([b] ++ (text.drop (location + 1)).take 3 ++ l ++ [0, 0, 0, 0] ++
        (text.drop (location + 12)).take 4) ++ text.drop (location + 16)).drop location).take 16 =
          [b] ++ (text.drop (location + 1)).take 3 ++ (l ++ ([0, 0, 0, 0] ++ (text.drop (location + 12)).take 4)) := by
      rw [List.append_assoc, drop_left' (by simp; omega), take_left' (by simp; omega)]
      simp only [List.append_assoc]
    rw [hslots]
    refine ⟨offset, b, hoffset, hb, rfl, ?_, ?_⟩
    · rw [immediateAt_append (by simp; omega) hllen, hlval]
    · rw [← append_assoc l, ← List.append_assoc, ← append_nil ((text.drop (location + 12)).take 4)]
      exact immediateAt_append (by simp; omega) (by simp; omega)

def KeepsConstant (c : BitVec 64) : Prop := c.toNat % 2 ^ 32 < 2 ^ 31 ∨ c.toNat / 2 ^ 32 = 2 ^ 32 - 1

theorem lddw_keeps_iff {registers : Nat} {offset : Int} {c : BitVec 64}
    (hbs : (LDDWInstruction.ofImmediate registers offset c.toNat).bytes = some bs)
    (h : readBytes s.mem s.instr 16 = bs) : (instruction host s).2.regmap s.current.dst = c ↔ KeepsConstant c := by
  obtain ⟨hop, hlow, hhigh⟩ := bytes_some hbs
  simp only [LDDWInstruction.ofImmediate] at hlow hhigh
  have hhalves := append_halves c
  rw [instruction_lddw h hop, hlow, hhigh]
  nth_rewrite 3 [← hhalves]
  rw [or_eq_append_iff, msb_iff, ← toNat_inj, toNat_ofNat, toNat_ofNat, toNat_allOnes, KeepsConstant]
  omega

/-- The loads that a patch leaves correct: neither the low half of the constant nor
the base of the section is negative. -/
def KeepsSum {w : Nat} (low : BitVec 32) (base : BitVec w) : Prop := low.toNat < 2 ^ 31 ∧ (w = 32 → base.toNat < 2 ^ 31)

theorem section_load_keeps_iff {text text' : List Byte} {location offset : Nat} {symbol : ElfSymbol}
    (h : patchText text location symbol = some text') (hop : text[location]? = some lddwByte)
    (hoffset : symbol.offset = some offset) {w : Nat} (hw : w = 32 ∨ w = 64) (base : BitVec w) :
    sectionLoad base (immediateAt ((text'.drop location).take 16) 4) (immediateAt ((text'.drop location).take 16) 12) =
        base.setWidth 64 + immediate64 text location + BitVec.ofNat 64 offset ↔
      KeepsSum (immediateAt text (location + 4)) base := by
  obtain ⟨offset', b, hoffset', -, -, hlow, hhigh⟩ := patchText_some h hop
  rw [hoffset] at hoffset'
  cases hoffset'
  rw [hhigh, immediate64, sectionLoad_eq_iff hw base _ _ _ hlow, KeepsSum, msb_iff]
  refine and_congr_right fun _ => forall_congr' fun h32 => ?_
  subst h32
  exact msb_iff base

theorem lddw_round_trip_iff (host : Host) (s : Vm) :
    (∀ registers offset c bs, (LDDWInstruction.ofImmediate registers offset (BitVec.toNat c)).bytes = some bs →
      readBytes s.mem s.instr 16 = bs → ((instruction host s).2.regmap s.current.dst = c ↔ KeepsConstant c)) ∧
    ∀ text location symbol text' offset, patchText text location symbol = some text' → text[location]? = some lddwByte →
      symbol.offset = some offset →
      (readBytes s.mem s.instr 16 = (text'.drop location).take 16 →
        ((instruction host s).2.regmap s.current.dst =
            (s.sectionBase symbol.shndx).setWidth 64 + immediate64 text location + BitVec.ofNat 64 offset ↔
          KeepsSum (immediateAt text (location + 4)) (s.sectionBase symbol.shndx))) ∧
      ∀ base : BitVec 64, sectionLoad base (immediateAt ((text'.drop location).take 16) 4)
        (immediateAt ((text'.drop location).take 16) 12) =
            base + immediate64 text location + BitVec.ofNat 64 offset ↔
          KeepsSum (immediateAt text (location + 4)) base := by
  refine ⟨fun registers offset c bs hbs h => lddw_keeps_iff hbs h, ?_⟩
  intro text location symbol text' offset h hop hoffset
  constructor
  · intro hslots
    obtain ⟨_, b, -, hb, hhead, -⟩ := patchText_some h hop
    rw [instruction_section hslots hhead hb]
    exact section_load_keeps_iff h hop hoffset (.inl rfl) _
  · intro base
    have hiff := section_load_keeps_iff h hop hoffset (.inr rfl) base
    rwa [setWidth_eq] at hiff

end

def lddwText (low high : Nat) : List (List Byte) := [insn 0x18 0 0 low, insn 0 0 0 high, insn 0x95 0 0 0]

def dataText : List (List Byte) := [insn 0xb8 0 0 24, insn 0 0 0 0, insn 0x95 0 0 0]

/-- A constant, and a load of 16 bytes behind a symbol at 8 of the data section. -/
theorem lddw_round_trip_small :
    (instruction plainHost (sampleStart (lddwText 0x12345678 1))).2.regmap 0 = 0x112345678 ∧
      patchText (lddwText 16 0).flatten 0 ⟨.object, .data, 8⟩ = some dataText.flatten ∧
      (instruction plainHost (sampleStart dataText)).2.regmap 0 =
        ((sampleStart dataText).sectionBase .data).setWidth 64 + 16 + 8 := by
  have hslots : (LDDWInstruction.ofImmediate 0 0 (BitVec.toNat 0x112345678#64)).bytes =
      some (insn 0x18 0 0 0x12345678 ++ insn 0 0 0 1) := by
    decide
  have hpatch : patchText (lddwText 16 0).flatten 0 ⟨.object, .data, 8⟩ = some dataText.flatten := by
    decide
  refine ⟨?_, hpatch, ?_⟩
  · exact ((lddw_round_trip_iff plainHost (sampleStart (lddwText 0x12345678 1))).1 0 0 _ _ hslots (by decide)).mpr
      (.inl (by decide))
  · exact (((lddw_round_trip_iff plainHost (sampleStart dataText)).2 _ _ _ _ 8 hpatch (by decide) rfl).1
      (by decide)).mpr
      ⟨by decide, fun _ => by decide⟩

/-- The constant `0x80000000` comes back with its upper half set, and a section load of
`0xfffffff8` with a symbol at 8 gives the base itself. -/
theorem lddw_round_trip_differs :
    (LDDWInstruction.ofImmediate 0 0 0x80000000).bytes = some (insn 0x18 0 0 0x80000000 ++ insn 0 0 0 0) ∧
      readBytes (sampleMem (lddwText 0x80000000 0)) (sampleStart (lddwText 0x80000000 0)).instr 16 =
        insn 0x18 0 0 0x80000000 ++ insn 0 0 0 0 ∧
      (instruction plainHost (sampleStart (lddwText 0x80000000 0))).2.regmap 0 = 0xffffffff80000000 ∧
      patchText (lddwText 0xfffffff8 0).flatten 0 ⟨.object, .data, 8⟩ =
        some (insn 0xb8 0 0 0 ++ insn 0 0 0 0 ++ insn 0x95 0 0 0) ∧
      immediate64 (lddwText 0xfffffff8 0).flatten 0 + 8 = 0x100000000 := by
  decide

end PipRiot.Rbpf
