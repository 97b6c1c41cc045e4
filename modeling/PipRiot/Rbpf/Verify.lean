import PipRiot.Rbpf.Application

/-!
# The pre-flight checks

`verify.c`: one pass over the text that checks registers, jump targets and
calls, then the last instruction. A successful pass is remembered in the flags
of the application and not repeated.
-/

namespace PipRiot.Rbpf

def checkCall (host : Host) (num : BitVec 32) : Bool := (host.externalCall num).isSome

def slotAddr (application : Addr) (k : Int) : Addr := application + BitVec.ofInt 32 (8 * k)

def pointerAdd (i : Addr) (offset : BitVec 16) : Addr := i + BitVec.ofInt 32 (8 * offset.toInt)

def verifySlot (host : Host) (application length i : Addr) (ins : BpfInstruction) : Option Status :=
  if 11 ≤ ins.dst.toNat ∨ 11 ≤ ins.src.toNat then some .illegalRegister
  else if ins.opcode = lddwByte then none
  else
    let target := pointerAdd i ins.offset
    -- signed comparisons: the source casts both sides to `intptr_t`
    if ins.opcode &&& clsMask = clsBranch ∧
        ((application + length).sle target ∨ target.slt application) then some .illegalJump
    else if ins.opcode = callByte ∧ checkCall host ins.immediate = false then some .illegalCall
    else none

/-- The loop over the text from instruction `k` on; `length / 8` turns are enough. -/
def verifyFrom (host : Host) (mem : Mem) (application length : BitVec 32) : Nat → Nat → Status
  | 0, _ => .ok
  | fuel + 1, k =>
    if application.toNat + 8 * k < (application + length).toNat then
      let i := slotAddr application k
      let ins := fetch mem i
      match verifySlot host application length i ins with
      | some e => e
      | none => verifyFrom host mem application length fuel (if ins.opcode = lddwByte then k + 2 else k + 1)
    else .ok

def lastOpcodeAddr (application length : BitVec 32) : Addr := application + (length / 8 - 1) * 8

def preflightChecks (host : Host) (mem : Mem) (rbpf : RbpfApplication) : Status :=
  let application := applicationText mem rbpf
  let length := applicationTextLen mem rbpf
  if length &&& 0x7 ≠ 0 then .illegalLen
  else
    match verifyFrom host mem application length (length.toNat / 8) 0 with
    | .ok =>
      if mem (lastOpcodeAddr application length) ≠ returnByte ∧ rbpf.flags &&& configNoReturn = 0 then .noReturn
      else .ok
    | e => e

def verifyPreflight (host : Host) (mem : Mem) (rbpf : RbpfApplication) : Status × RbpfApplication :=
  if rbpf.flags &&& flagPreflightDone ≠ 0 then (.ok, rbpf)
  else
    match preflightChecks host mem rbpf with
    | .ok => (.ok, { rbpf with flags := rbpf.flags ||| flagPreflightDone })
    | e => (e, rbpf)

end PipRiot.Rbpf
