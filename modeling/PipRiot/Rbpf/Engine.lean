import PipRiot.Lib.Loop
import PipRiot.Rbpf.Verify

/-!
# The interpreter

`engine.c`: the memory check, `_rbpf_instruction` and the loop of
`rbpf_engine_run`, and `rbpf_application_run_ctx` from `rbpf.c`.
-/

namespace PipRiot.Rbpf

/-! ## Memory protection -/

/-- One turn of the walk in `_check_mem`. Addresses are compared as `intptr_t`,
and `end` wraps. -/
def regionAccepts (region : MemRegion) (addr : Addr) (size : Nat) (type : BitVec 8) : Bool :=
  region.start.sle addr && (addr + BitVec.ofNat 32 size).sle (region.start + region.len) &&
    (region.flags &&& type) != 0

variable (rbpf : RbpfApplication)

def checkMem (addr : Addr) (size : Nat) (type : BitVec 8) : Bool :=
  rbpf.regions.any fun region => regionAccepts region addr size type

def checkLoad (addr : Addr) (size : Nat) : Bool :=
  checkMem rbpf addr size memRegionRead

def checkStore (addr : Addr) (size : Nat) : Bool :=
  checkMem rbpf addr size memRegionWrite

/-! ## Machine state -/

structure Vm where
  rbpf : RbpfApplication
  mem : Mem
  regmap : Regs
  instr : Addr

variable (s : Vm)

def Vm.setReg (r : BitVec 4) (v : BitVec 64) : Vm :=
  { s with regmap := Function.update s.regmap r v }

def Vm.current : BpfInstruction := fetch s.mem s.instr

def Vm.opcode : Option Opcode := Opcode.ofByte (s.mem s.instr)

def Vm.operand (i : BpfInstruction) : Operand → BitVec 64
  | .reg => s.regmap i.src
  | .imm => i.immediate.signExtend 64

/-! ## Arithmetic -/

def alu64 (host : Host) (op : AluOp) (x y : BitVec 64) : BitVec 64 :=
  match op with
  | .add => x + y
  | .sub => x - y
  | .and => x &&& y
  | .or => x ||| y
  | .lsh => if y.toNat < 64 then x <<< y.toNat else host.undefined .lsh .alu64 x y
  | .rsh => if y.toNat < 64 then x >>> y.toNat else host.undefined .rsh .alu64 x y
  | .xor => x ^^^ y
  | .mul => x * y
  | .mod => x % y
  | .div => x / y
  | .neg => -x
  | .mov => y
  | .arsh => if y.toNat < 64 then x.sshiftRight y.toNat else host.undefined .arsh .alu64 x y

/-- `NEG` and `ARSH` assign a signed value, which the conversion to 64 bits
sign-extends; `ARSH` shifts by the whole of `SRC`. -/
def alu32 (host : Host) (op : AluOp) (x y : BitVec 64) : BitVec 64 :=
  let x32 := x.setWidth 32
  let y32 := y.setWidth 32
  match op with
  | .add => (x32 + y32).setWidth 64
  | .sub => (x32 - y32).setWidth 64
  | .and => (x32 &&& y32).setWidth 64
  | .or => (x32 ||| y32).setWidth 64
  | .lsh => if y32.toNat < 32 then (x32 <<< y32.toNat).setWidth 64 else host.undefined .lsh .alu32 x y
  | .rsh => if y32.toNat < 32 then (x32 >>> y32.toNat).setWidth 64 else host.undefined .rsh .alu32 x y
  | .xor => (x32 ^^^ y32).setWidth 64
  | .mul => (x32 * y32).setWidth 64
  | .mod => if y32 = 0 then host.undefined .mod .alu32 x y else (x32 % y32).setWidth 64
  | .div => if y32 = 0 then host.undefined .div .alu32 x y else (x32 / y32).setWidth 64
  | .neg => (-x32).signExtend 64
  | .mov => y32.setWidth 64
  | .arsh => if y.toNat < 32 then (x32.sshiftRight y.toNat).signExtend 64 else host.undefined .arsh .alu32 x y

/-- Division and remainder test the whole 64-bit operand, in both widths. -/
def divides (op : AluOp) (y : BitVec 64) : Bool := (op == .mod || op == .div) && y == 0

def aluResult (host : Host) (width : Width) (op : AluOp) (x y : BitVec 64) : BitVec 64 :=
  match width with
  | .alu64 => alu64 host op x y
  | .alu32 => alu32 host op x y

def jmpCond (op : JmpOp) (x y : BitVec 64) : Bool :=
  match op with
  | .eq => x == y
  | .gt => y.ult x
  | .ge => y.ule x
  | .lt => x.ult y
  | .le => x.ule y
  | .set => (x &&& y) != 0
  | .ne => x != y
  | .sgt => y.slt x
  | .sge => y.sle x
  | .slt => x.slt y
  | .sle => x.sle y

/-! ## Instructions -/

def overMaxJumps : Bool :=
  rbpf.flags &&& configNoReturn == 0 && rbpf.branchesRemaining == 0

def jump (i : BpfInstruction) : Status × Vm :=
  let s := { s with
    instr := pointerAdd s.instr i.offset
    rbpf := { s.rbpf with branchesRemaining := s.rbpf.branchesRemaining - 1 } }
  (if overMaxJumps s.rbpf then .outOfBranches else .cont, s)

def accessAddr (base : BitVec 64) (offset : BitVec 16) : Addr := (base + offset.signExtend 64).setWidth 32

def store (base : BitVec 64) (offset : BitVec 16) (size : MemSize) (value : BitVec 64) : Status × Vm :=
  let a := accessAddr base offset
  if checkStore s.rbpf a size.bytes then
    (.cont, { s with mem := writeBytes s.mem a (leBytes size.bytes value.toNat) })
  else (.illegalMem, s)

def load (dst : BitVec 4) (base : BitVec 64) (offset : BitVec 16) (size : MemSize) : Status × Vm :=
  let a := accessAddr base offset
  if checkLoad s.rbpf a size.bytes then
    (.cont, s.setReg dst (BitVec.ofNat 64 (leValue (readBytes s.mem a size.bytes))))
  else (.illegalMem, s)

def upperImmediate : BitVec 64 :=
  (fetch s.mem (s.instr + 8)).immediate.signExtend 64 <<< 32

def loadDouble (dst : BitVec 4) (value : BitVec 64) : Status × Vm :=
  (.cont, { s.setReg dst value with instr := s.instr + 8 })

def call (host : Host) (s : Vm) (num : BitVec 32) : Status × Vm :=
  match host.externalCall num with
  | some f =>
    let r := f s.rbpf s.regmap s.mem
    (.cont, { s with
      rbpf := r.rbpf
      mem := r.mem
      regmap := Function.update r.regmap 0 (r.value.setWidth 64) })
  | none => (.illegalCall, s)

def exec (host : Host) (s : Vm) (i : BpfInstruction) : Opcode → Status × Vm
  | .alu width op o =>
    if divides op (s.operand i o) then (.illegalDiv, s)
    else (.cont, s.setReg i.dst (aluResult host width op (s.regmap i.dst) (s.operand i o)))
  | .lddw => loadDouble s i.dst (i.immediate.signExtend 64 ||| upperImmediate s)
  | .lddwd =>
    loadDouble s i.dst
      ((applicationData s.rbpf).signExtend 64 + i.immediate.signExtend 64 + upperImmediate s)
  | .lddwr =>
    loadDouble s i.dst
      ((applicationRodata s.mem s.rbpf).signExtend 64 + i.immediate.signExtend 64 + upperImmediate s)
  | .stx size => store s (s.regmap i.dst) i.offset size (s.regmap i.src)
  | .st size => store s (s.regmap i.dst) i.offset size (i.immediate.signExtend 64)
  | .ldx size => load s i.dst (s.regmap i.src) i.offset size
  | .jmpAlways => jump s i
  | .jmp op o => if jmpCond op (s.regmap i.dst) (s.operand i o) then jump s i else (.cont, s)
  | .call => call host s i.immediate
  | .ret => (.ok, s)

def instruction (host : Host) (s : Vm) : Status × Vm :=
  match s.opcode with
  | some op => exec host s s.current op
  | none => (.illegalInstruction, s)

/-! ## The engine -/

def loopBody (host : Host) (s : Vm) : Vm ⊕ (Status × Vm) :=
  let r := instruction host s
  let t := { r.2 with instr := r.2.instr + 8 }
  if 0 < r.1.code then .inl t else .inr (r.1, t)

/-- `regmap` on entry; `spill` is what the words of the C stack held before. -/
def initRegmap (ctx : Addr) (spill : Regs) : Regs := fun r =>
  if r = 1 then ctx.setWidth 64
  else if r = 10 then (rbpf.stack + stackSize).setWidth 64
  else if r.toNat < 11 then 0
  else spill r

def engineStart (host : Host) (mem : Mem) (rbpf : RbpfApplication) (ctx : Addr) (spill : Regs) : Except Status Vm :=
  let rbpf := { rbpf with branchesRemaining := branchesAllowed }
  match verifyPreflight host mem rbpf with
  | (.ok, rbpf) =>
    .ok { rbpf, mem, regmap := initRegmap rbpf ctx spill, instr := applicationText mem rbpf }
  | (e, _) => .error e

structure RunResult where
  status : Status
  /-- `*result`, which is only written when the loop was entered. -/
  result : Option (BitVec 64)
  rbpf : RbpfApplication
  mem : Mem

def engineRun (host : Host) (fuel : Nat) (mem : Mem) (rbpf : RbpfApplication) (ctx : Addr) (spill : Regs) :
    Option RunResult :=
  match engineStart host mem rbpf ctx spill with
  | .error e =>
    some { status := e, result := none, rbpf := { rbpf with branchesRemaining := branchesAllowed }, mem }
  | .ok s =>
    (runLoop (loopBody host) fuel s).map fun r =>
      { status := r.1, result := some (r.2.regmap 0), rbpf := r.2.rbpf, mem := r.2.mem }

def withContext (ctx : Addr) (ctxLen : BitVec 32) : RbpfApplication :=
  { rbpf with argRegion := memoryRegionInit ctx ctxLen (memRegionRead ||| memRegionWrite) }

def applicationRunCtx (host : Host) (fuel : Nat) (mem : Mem) (rbpf : RbpfApplication) (ctx : Addr)
    (ctxLen : BitVec 32) (spill : Regs) : Option RunResult :=
  let rbpf := withContext rbpf ctx ctxLen
  if rbpf.flags &&& flagSetupDone = 0 then none else engineRun host fuel mem rbpf ctx spill

end PipRiot.Rbpf
