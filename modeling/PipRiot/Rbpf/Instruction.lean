import PipRiot.Lib.Bytes

/-!
# eBPF instructions

The opcodes of `rbpf/instruction.h` and the eight-byte instruction format, read
from the flat memory of a 32-bit little-endian target.
-/

namespace PipRiot.Rbpf

abbrev Addr := BitVec 32

abbrev Mem := Addr → Byte

/-! ## Opcodes -/

inductive Width where
  | alu32 | alu64
  deriving DecidableEq, Repr

inductive Operand where
  | reg | imm
  deriving DecidableEq, Repr

inductive AluOp where
  | add | sub | and | or | lsh | rsh | xor | mul | mod | div | neg | mov | arsh
  deriving DecidableEq, Repr

inductive MemSize where
  | b | h | w | dw
  deriving DecidableEq, Repr

def MemSize.bytes : MemSize → Nat
  | .b => 1
  | .h => 2
  | .w => 4
  | .dw => 8

inductive JmpOp where
  | eq | gt | ge | lt | le | set | ne | sgt | sge | slt | sle
  deriving DecidableEq, Repr

inductive Opcode where
  | alu (width : Width) (op : AluOp) (src : Operand)
  | lddw | lddwd | lddwr
  | stx (size : MemSize)
  | st (size : MemSize)
  | ldx (size : MemSize)
  | jmpAlways
  | jmp (op : JmpOp) (src : Operand)
  | call
  | ret
  deriving DecidableEq, Repr

def AluOp.ofNibble : BitVec 4 → Option AluOp
  | 0x0#4 => some .add
  | 0x1#4 => some .sub
  | 0x2#4 => some .mul
  | 0x3#4 => some .div
  | 0x4#4 => some .or
  | 0x5#4 => some .and
  | 0x6#4 => some .lsh
  | 0x7#4 => some .rsh
  | 0x8#4 => some .neg
  | 0x9#4 => some .mod
  | 0xa#4 => some .xor
  | 0xb#4 => some .mov
  | 0xc#4 => some .arsh
  | _ => none

def JmpOp.ofNibble : BitVec 4 → Option JmpOp
  | 0x1#4 => some .eq
  | 0x2#4 => some .gt
  | 0x3#4 => some .ge
  | 0x4#4 => some .set
  | 0x5#4 => some .ne
  | 0x6#4 => some .sgt
  | 0x7#4 => some .sge
  | 0xa#4 => some .lt
  | 0xb#4 => some .le
  | 0xc#4 => some .slt
  | 0xd#4 => some .sle
  | _ => none

/-- `NEG` has no register variant. -/
def aluOpcode (w : Width) (o : Operand) (op : AluOp) : Option Opcode :=
  match op, o with
  | .neg, .reg => none
  | op, o => some (.alu w op o)

/-- The `BPF_INSTRUCTION_*` constants; `none` is the `default` of the switch. -/
def Opcode.ofByte (b : Byte) : Option Opcode :=
  match b with
  | 0x18#8 => some .lddw
  | 0xb8#8 => some .lddwd
  | 0xd8#8 => some .lddwr
  | 0x63#8 => some (.stx .w)
  | 0x6b#8 => some (.stx .h)
  | 0x73#8 => some (.stx .b)
  | 0x7b#8 => some (.stx .dw)
  | 0x62#8 => some (.st .w)
  | 0x6a#8 => some (.st .h)
  | 0x72#8 => some (.st .b)
  | 0x7a#8 => some (.st .dw)
  | 0x61#8 => some (.ldx .w)
  | 0x69#8 => some (.ldx .h)
  | 0x71#8 => some (.ldx .b)
  | 0x79#8 => some (.ldx .dw)
  | 0x05#8 => some .jmpAlways
  | 0x85#8 => some .call
  | 0x95#8 => some .ret
  | b =>
    -- the remaining classes are regular: operation, operand, class
    let op : BitVec 4 := b.extractLsb' 4 4
    match b.setWidth 4 with
    | 0xf#4 => (AluOp.ofNibble op).bind (aluOpcode .alu64 .reg)
    | 0x7#4 => (AluOp.ofNibble op).bind (aluOpcode .alu64 .imm)
    | 0xc#4 => (AluOp.ofNibble op).bind (aluOpcode .alu32 .reg)
    | 0x4#4 => (AluOp.ofNibble op).bind (aluOpcode .alu32 .imm)
    | 0xd#4 => (JmpOp.ofNibble op).map (.jmp · .reg)
    | 0x5#4 => (JmpOp.ofNibble op).map (.jmp · .imm)
    | _ => none

def clsMask : Byte := 0x07
def clsBranch : Byte := 0x05
def lddwByte : Byte := 0x18
def callByte : Byte := 0x85
def returnByte : Byte := 0x95

def Opcode.isJump : Opcode → Bool
  | .jmpAlways | .jmp _ _ => true
  | _ => false

def Opcode.isDouble : Opcode → Bool
  | .lddw | .lddwd | .lddwr => true
  | _ => false

theorem ofByte_returnByte : Opcode.ofByte returnByte = some .ret := by decide

theorem ofByte_lddw (b : Byte) : Opcode.ofByte b = some .lddw ↔ b = lddwByte := by
  revert b; decide +kernel

theorem clsBranch_of_isJump {b : Byte} {op : Opcode} (h : Opcode.ofByte b = some op)
    (hj : op.isJump = true) : b &&& clsMask = clsBranch := by
  have key : ∀ b : Byte, (Opcode.ofByte b).all (fun op => !op.isJump || (b &&& clsMask) == clsBranch) := by
    decide +kernel
  have := key b
  rw [h] at this
  simpa [hj] using this

/-! ## The instruction format -/

structure BpfInstruction where
  opcode : Byte
  dst : BitVec 4
  src : BitVec 4
  offset : BitVec 16
  immediate : BitVec 32
  deriving DecidableEq, Repr

def fetch (mem : Mem) (p : Addr) : BpfInstruction where
  opcode := mem p
  dst := (mem (p + 1)).setWidth 4
  src := (mem (p + 1)).extractLsb' 4 4
  offset := BitVec.ofNat 16 (leValue (readBytes mem (p + 2) 2))
  immediate := BitVec.ofNat 32 (leValue (readBytes mem (p + 4) 4))

theorem dist_add_lt {p x : Addr} {k n : Nat} (h : dist (p + BitVec.ofNat 32 k) x < n) (hk : k + n ≤ 2 ^ 32) :
    dist p x < k + n := by
  have hx := add_dist (p + BitVec.ofNat 32 k) x
  rw [BitVec.add_assoc, ← BitVec.ofNat_add] at hx
  rw [← hx, dist_add p (by omega)]
  omega

theorem fetch_congr {m m' : Mem} {p : Addr} (h : ∀ x, dist p x < 8 → m x = m' x) : fetch m p = fetch m' p := by
  have hb (k : Nat) (hk : k < 8) : m (p + BitVec.ofNat 32 k) = m' (p + BitVec.ofNat 32 k) :=
    h _ (by rw [dist_add p (by omega)]; exact hk)
  have hr (k n : Nat) (hk : k + n ≤ 8) :
      readBytes m (p + BitVec.ofNat 32 k) n = readBytes m' (p + BitVec.ofNat 32 k) n := by
    refine readBytes_congr (fun x hx => h x ?_) (by omega)
    have := dist_add_lt hx (by omega); omega
  have h0 : m p = m' p := h p (by simp [dist])
  unfold fetch
  rw [h0, show p + 1 = p + BitVec.ofNat 32 1 from rfl, hb 1 (by omega),
    show p + 2 = p + BitVec.ofNat 32 2 from rfl, hr 2 2 (by omega),
    show p + 4 = p + BitVec.ofNat 32 4 from rfl, hr 4 4 (by omega)]

end PipRiot.Rbpf
