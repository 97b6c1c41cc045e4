import PipRiot.Rbpf.Instruction

/-!
# rBPF applications

The structs and accessors of `rbpf.h`, the setup functions of `rbpf.c` and the
hooks of `rbpf/config.h`, on a 32-bit target. The linked list that starts at
`stack_region` is kept as the four embedded regions and the list behind
`arg_region.next`.
-/

namespace PipRiot.Rbpf

/-! ## Exit codes -/

inductive Status where
  | cont
  | ok
  | illegalInstruction
  | illegalMem
  | illegalJump
  | illegalCall
  | illegalLen
  | illegalRegister
  | noReturn
  | outOfBranches
  | illegalDiv
  deriving DecidableEq, Repr

def Status.code : Status → Int
  | .cont => 1
  | .ok => 0
  | .illegalInstruction => -1
  | .illegalMem => -2
  | .illegalJump => -3
  | .illegalCall => -4
  | .illegalLen => -5
  | .illegalRegister => -6
  | .noReturn => -7
  | .outOfBranches => -8
  | .illegalDiv => -9

theorem Status.code_pos (s : Status) : 0 < s.code ↔ s = .cont := by cases s <;> decide

/-! ## Memory regions and the application struct -/

def memRegionRead : BitVec 8 := 0x01
def memRegionWrite : BitVec 8 := 0x02

structure MemRegion where
  start : Addr
  len : BitVec 32
  flags : BitVec 8
  deriving DecidableEq, Repr

def memoryRegionInit (start : Addr) (len : BitVec 32) (flags : BitVec 8) : MemRegion :=
  { start, len, flags }

def flagSetupDone : BitVec 16 := 0x01
def flagPreflightDone : BitVec 16 := 0x02
def configNoReturn : BitVec 16 := 0x0100

def stackSize : BitVec 32 := 512
def branchesAllowed : BitVec 32 := 10000

structure RbpfApplication where
  stackRegion : MemRegion
  rodataRegion : MemRegion
  dataRegion : MemRegion
  argRegion : MemRegion
  /-- Whether the `next` pointers lead from `stack_region` over data and rodata to `arg_region`. -/
  linked : Bool
  /-- The list behind `arg_region.next`. -/
  argNext : List MemRegion
  application : Addr
  applicationLen : BitVec 32
  stack : Addr
  flags : BitVec 16
  branchesRemaining : BitVec 32
  deriving DecidableEq, Repr

def RbpfApplication.regions (rbpf : RbpfApplication) : List MemRegion :=
  rbpf.stackRegion ::
    if rbpf.linked then rbpf.dataRegion :: rbpf.rodataRegion :: rbpf.argRegion :: rbpf.argNext else []

def zeroApplication : RbpfApplication where
  stackRegion := ⟨0, 0, 0⟩
  rodataRegion := ⟨0, 0, 0⟩
  dataRegion := ⟨0, 0, 0⟩
  argRegion := ⟨0, 0, 0⟩
  linked := false
  argNext := []
  application := 0
  applicationLen := 0
  stack := 0
  flags := 0
  branchesRemaining := 0

/-! ## The application header -/

def sizeofHeader : BitVec 32 := 28

/-- Four regions of 16 bytes, three words, flags with padding and the branch counter. -/
def sizeofApplication : BitVec 32 := 84

variable (mem : Mem)

def word32 (a : Addr) : BitVec 32 := BitVec.ofNat 32 (leValue (readBytes mem a 4))

def headerDataLen (rbpf : RbpfApplication) : BitVec 32 := word32 mem (rbpf.application + 12)
def headerRodataLen (rbpf : RbpfApplication) : BitVec 32 := word32 mem (rbpf.application + 16)
def headerTextLen (rbpf : RbpfApplication) : BitVec 32 := word32 mem (rbpf.application + 20)

def applicationRodata (rbpf : RbpfApplication) : Addr :=
  rbpf.application + sizeofApplication + headerDataLen mem rbpf

def applicationRodataLen (rbpf : RbpfApplication) : BitVec 32 := headerRodataLen mem rbpf

def applicationData (rbpf : RbpfApplication) : Addr := rbpf.application + sizeofApplication

def applicationDataLen (rbpf : RbpfApplication) : BitVec 32 := headerDataLen mem rbpf

def applicationText (rbpf : RbpfApplication) : Addr :=
  rbpf.application + sizeofHeader + headerDataLen mem rbpf + headerRodataLen mem rbpf

def applicationTextLen (rbpf : RbpfApplication) : BitVec 32 := headerTextLen mem rbpf

theorem word32_congr {m m' : Mem} {a : Addr} (h : ∀ x, dist a x < 4 → m x = m' x) : word32 m a = word32 m' a := by
  unfold word32; rw [readBytes_congr h (by omega)]

theorem header_congr {m m' : Mem} {rbpf : RbpfApplication} (h : ∀ x, dist rbpf.application x < 28 → m x = m' x) :
    headerDataLen m rbpf = headerDataLen m' rbpf ∧ headerRodataLen m rbpf = headerRodataLen m' rbpf ∧
      headerTextLen m rbpf = headerTextLen m' rbpf := by
  have hw (k : Nat) (hk : k + 4 ≤ 28) : word32 m (rbpf.application + BitVec.ofNat 32 k) =
      word32 m' (rbpf.application + BitVec.ofNat 32 k) := by
    refine word32_congr fun x hx => h x ?_
    have := dist_add_lt hx (by omega); omega
  exact ⟨hw 12 (by omega), hw 16 (by omega), hw 20 (by omega)⟩

/-! ## Setup -/

def applicationSetup (rbpf : RbpfApplication) (stack application : Addr)
    (applicationLen : BitVec 32) : RbpfApplication :=
  let rbpf := { rbpf with stack, application, applicationLen }
  { rbpf with
    stackRegion := memoryRegionInit rbpf.stack stackSize (memRegionRead ||| memRegionWrite)
    dataRegion := memoryRegionInit (applicationData rbpf) (applicationDataLen mem rbpf)
      (memRegionRead ||| memRegionWrite)
    rodataRegion := memoryRegionInit (applicationRodata mem rbpf) (applicationRodataLen mem rbpf) memRegionRead
    linked := true
    flags := rbpf.flags ||| flagSetupDone }

def addRegion (rbpf : RbpfApplication) (region : MemRegion) : RbpfApplication :=
  { rbpf with argNext := region :: rbpf.argNext }

/-! ## The hooks of the build -/

/-- `uint64_t regmap[11]`; entries from 11 on are the words behind the array. -/
abbrev Regs := BitVec 4 → BitVec 64

structure CallResult where
  value : BitVec 32
  rbpf : RbpfApplication
  regmap : Regs
  mem : Mem

/-- The functions of `rbpf_get_external_call` and the values of operations undefined in
C. -/
structure Host where
  externalCall : BitVec 32 → Option (RbpfApplication → Regs → Mem → CallResult)
  undefined : AluOp → Width → BitVec 64 → BitVec 64 → BitVec 64

def plainHost : Host where
  externalCall := fun _ => none
  undefined := fun _ _ _ _ => 0

def Host.Keeps (host : Host) (P : Addr → Prop) : Prop :=
  ∀ num call, host.externalCall num = some call → ∀ rbpf regmap mem,
    (call rbpf regmap mem).rbpf = rbpf ∧ ∀ a, P a → (call rbpf regmap mem).mem a = mem a

theorem plainHost_keeps (P : Addr → Prop) : plainHost.Keeps P := by
  intro num call h; simp [plainHost] at h

end PipRiot.Rbpf
