import PipRiot.Rbpf.ControlFlow

/-!
# The arithmetic of the interpreter

The 32-bit instructions compared with the instruction set, and the operations whose
result C does not define. A result is defined if it is the same whatever the compiler
makes of an undefined operation, which the model takes from `Host.undefined`.
-/

namespace PipRiot.Rbpf

open BitVec

def AluOp.isShift : AluOp → Bool
  | .lsh | .rsh | .arsh => true
  | _ => false

def AluOp.isDivision : AluOp → Bool
  | .mod | .div => true
  | _ => false

/-- The instruction set on 32-bit operands: a division by zero gives 0 and leaves the
dividend, shift amounts are taken modulo 32. -/
def AluOp.eval32 (x y : BitVec 32) : AluOp → BitVec 32
  | .add => x + y
  | .sub => x - y
  | .and => x &&& y
  | .or => x ||| y
  | .lsh => x <<< (y.toNat % 32)
  | .rsh => x >>> (y.toNat % 32)
  | .xor => x ^^^ y
  | .mul => x * y
  | .mod => x % y
  | .div => x / y
  | .neg => -x
  | .mov => y
  | .arsh => x.sshiftRight (y.toNat % 32)

/-- The operands for which a 32-bit operation gives what the instruction set says. -/
def Fits32 (x y : BitVec 64) : AluOp → Prop
  | .neg => (x.setWidth 32).toNat = 0 ∨ 2 ^ 31 < (x.setWidth 32).toNat
  | .arsh => (x.setWidth 32).toNat < 2 ^ 31 ∧ y.toNat < 32
  | .mod | .div => y.setWidth 32 ≠ 0
  | _ => True

/-- The operands for which C defines an operation and the test of the divisor
looks at the one that is used. -/
def Defined (y : BitVec 64) : Width → AluOp → Prop
  | .alu64, .lsh | .alu64, .rsh | .alu64, .arsh => y.toNat < 64
  | .alu32, .lsh | .alu32, .rsh => (y.setWidth 32).toNat < 32
  | .alu32, .arsh => y.toNat < 32
  | .alu32, .mod | .alu32, .div => y.setWidth 32 = 0 → y = 0
  | _, _ => True

section
variable {host : Host} {s : Vm} {width : Width} {op : AluOp} {o : Operand} {x y : BitVec 64}
variable (u : AluOp → Width → BitVec 64 → BitVec 64 → BitVec 64)

abbrev Host.withUndefined (host : Host) (u : AluOp → Width → BitVec 64 → BitVec 64 → BitVec 64) : Host :=
  { host with undefined := u }

/-! ## One operation -/

theorem signExtend_eq_setWidth_iff (b : BitVec 32) : b.signExtend 64 = b.setWidth 64 ↔ b.msb = false := by
  constructor
  · intro h
    have hbit := congrArg BitVec.msb h
    rw [msb_signExtend, msb_setWidth] at hbit
    simpa using hbit
  · exact signExtend_eq_setWidth_of_msb_false

theorem msb_neg_iff (b : BitVec 32) : (-b).msb = false ↔ b.toNat = 0 ∨ 2 ^ 31 < b.toNat := by
  rw [msb_eq_decide, toNat_neg, decide_eq_false_iff_not]
  omega

theorem msb_iff (b : BitVec 32) : b.msb = false ↔ b.toNat < 2 ^ 31 := by
  rw [msb_eq_decide, decide_eq_false_iff_not]
  omega

theorem undefined_ne (v : BitVec 64) : ¬ ∀ u : AluOp → Width → BitVec 64 → BitVec 64 → BitVec 64,
    u op width x y = v := by
  intro h
  have hv : v + 1 = v := h fun _ _ _ _ => v + 1
  have hnat := congrArg BitVec.toNat hv
  simp at hnat
  omega

theorem toNat_eq_setWidth (h : y.toNat < 32) : (y.setWidth 32).toNat = y.toNat := by
  exact Nat.mod_eq_of_lt (by omega)

theorem alu32_eq_iff (hshift : op.isShift = true → (y.setWidth 32).toNat < 32) :
    (∀ u, alu32 (host.withUndefined u) op x y = (op.eval32 (x.setWidth 32) (y.setWidth 32)).setWidth 64) ↔
      Fits32 x y op := by
  cases op with
  | neg =>
    simp only [alu32, AluOp.eval32, Fits32, forall_const]
    rw [signExtend_eq_setWidth_iff, msb_neg_iff]
  | arsh =>
    by_cases hy : y.toNat < 32
    · simp only [alu32, AluOp.eval32, Fits32, hy, if_true, forall_const, and_true, toNat_eq_setWidth hy,
        Nat.mod_eq_of_lt hy]
      rw [signExtend_eq_setWidth_iff, msb_sshiftRight, msb_iff]
    · simp only [alu32, Fits32, hy, if_false, and_false, iff_false]
      exact undefined_ne _
  | lsh | rsh =>
    have hy := hshift rfl
    simp only [alu32, AluOp.eval32, Fits32, hy, if_true, Nat.mod_eq_of_lt hy, forall_const]
  | mod | div =>
    by_cases hy : y.setWidth 32 = 0
    · simp only [alu32, Fits32, hy, if_true, ne_eq, not_true_eq_false, iff_false]
      exact undefined_ne _
    · simp only [alu32, AluOp.eval32, Fits32, hy, if_false, forall_const, ne_eq, not_false_eq_true]
  | _ => simp [alu32, AluOp.eval32, Fits32]

theorem aluResult_eq_iff (host : Host) (x : BitVec 64) (hdiv : divides op y = false) :
    (∀ u, aluResult (host.withUndefined u) width op x y = aluResult host width op x y) ↔ Defined y width op := by
  cases width with
  | alu64 =>
    have hshift (v : BitVec 64) : (∀ u : AluOp → Width → BitVec 64 → BitVec 64 → BitVec 64,
        (if y.toNat < 64 then v else u op .alu64 x y) = if y.toNat < 64 then v else host.undefined op .alu64 x y) ↔
          y.toNat < 64 := by
      by_cases hy : y.toNat < 64
      · simp [hy]
      · simp only [hy, if_false, iff_false]; exact undefined_ne _
    cases op with
    | lsh | rsh | arsh => exact hshift _
    | _ => simp [aluResult, alu64, Defined]
  | alu32 =>
    have hbranch (c : Prop) [Decidable c] (v : BitVec 64) : (∀ u : AluOp → Width → BitVec 64 → BitVec 64 → BitVec 64,
        (if c then v else u op .alu32 x y) = if c then v else host.undefined op .alu32 x y) ↔ c := by
      by_cases hc : c
      · simp [hc]
      · simp only [hc, if_false, iff_false]; exact undefined_ne _
    have hzero (hy : y ≠ 0) (v : BitVec 64) : (∀ u : AluOp → Width → BitVec 64 → BitVec 64 → BitVec 64,
        (if y.setWidth 32 = 0 then u op .alu32 x y else v) =
          if y.setWidth 32 = 0 then host.undefined op .alu32 x y else v) ↔ (y.setWidth 32 = 0 → y = 0) := by
      by_cases hz : y.setWidth 32 = 0
      · simp only [hz, if_true, hy, imp_false, not_true_eq_false, iff_false]
        exact undefined_ne _
      · simp only [hz, if_false, forall_const, false_imp_iff]
    cases op with
    | lsh | rsh | arsh => exact hbranch _ _
    | mod | div => exact hzero (by simpa [divides] using hdiv) _
    | _ => simp [aluResult, alu32, Defined]

/-! ## One step -/

theorem instruction_alu (hop : s.opcode = some (.alu width op o)) : instruction host s =
    if divides op (s.operand s.current o) then (.illegalDiv, s)
    else (.cont, s.setReg s.current.dst
      (aluResult host width op (s.regmap s.current.dst) (s.operand s.current o))) := by
  simp only [instruction, hop, exec]

theorem setReg_inj {r : BitVec 4} {v w : BitVec 64} : s.setReg r v = s.setReg r w ↔ v = w := by
  refine ⟨fun h => ?_, fun h => by rw [h]⟩
  have hreg := congrFun (congrArg Vm.regmap h) r
  simpa [Vm.setReg] using hreg

theorem alu32_step_matches_iff (hop : s.opcode = some (.alu .alu32 op o)) (hacc : (instruction host s).1 = .cont)
    (hshift : op.isShift = true → ((s.operand s.current o).setWidth 32).toNat < 32) :
    (∀ u, (instruction (host.withUndefined u) s).2 = s.setReg s.current.dst
      ((op.eval32 ((s.regmap s.current.dst).setWidth 32) ((s.operand s.current o).setWidth 32)).setWidth 64)) ↔
    Fits32 (s.regmap s.current.dst) (s.operand s.current o) op := by
  have hdiv : divides op (s.operand s.current o) = false := by
    rw [instruction_alu hop] at hacc
    split at hacc
    · cases hacc
    · rename_i hdiv
      simpa using hdiv
  rw [← alu32_eq_iff hshift]
  refine forall_congr' fun u => ?_
  rw [instruction_alu hop, hdiv]
  exact setReg_inj

theorem exec_other (i : BpfInstruction) {c : Opcode} (h : ∀ width op o, c ≠ .alu width op o) :
    (∀ u, exec (host.withUndefined u) s i c = exec host s i c) ∧ (exec host s i c).1 ≠ .illegalDiv := by
  cases c with
  | alu width op o => exact absurd rfl (h width op o)
  | stx size | st size | ldx size | jmpAlways =>
    simp only [exec, store, load, jump, forall_const, true_and]
    split <;> simp
  | jmp op o =>
    simp only [exec, jump, forall_const, true_and]
    split
    · split <;> simp
    · simp
  | call =>
    refine ⟨fun u => rfl, ?_⟩
    simp only [exec, call]
    split <;> simp
  | _ => simp [exec, loadDouble]

def ZeroDivisor (y : BitVec 64) : Width → Prop
  | .alu64 => y = 0
  | .alu32 => y.setWidth 32 = 0

def Vm.dividesByZero (s : Vm) : Prop :=
  match s.opcode with
  | some (.alu width op o) => op.isDivision = true ∧ ZeroDivisor (s.operand s.current o) width
  | _ => False

def Vm.operandsFit (s : Vm) : Prop :=
  match s.opcode with
  | some (.alu width op o) => Defined (s.operand s.current o) width op
  | _ => True

/-- The step is the same for every value of an undefined operation, and refused
exactly if the divisor used is zero. -/
structure WellDefined (host : Host) (s : Vm) : Prop where
  same : ∀ u, instruction (host.withUndefined u) s = instruction host s
  illegalDiv : (instruction host s).1 = .illegalDiv ↔ s.dividesByZero

theorem divides_iff : divides op y = true ↔ op.isDivision = true ∧ y = 0 := by
  cases op <;> simp [divides, AluOp.isDivision]

theorem zeroDivisor_zero : ZeroDivisor 0 width := by
  cases width <;> simp [ZeroDivisor]

theorem defined_division_iff (h : op.isDivision = true) : Defined y width op ↔ (ZeroDivisor y width → y = 0) := by
  cases width <;> cases op <;> simp_all [AluOp.isDivision, Defined, ZeroDivisor]

theorem wellDefined_alu_iff (hop : s.opcode = some (.alu width op o)) :
    WellDefined host s ↔ Defined (s.operand s.current o) width op := by
  have hzero : s.dividesByZero ↔ op.isDivision = true ∧ ZeroDivisor (s.operand s.current o) width := by
    simp only [Vm.dividesByZero, hop]
  by_cases hdiv : divides op (s.operand s.current o) = true
  · obtain ⟨hisdiv, hy⟩ := divides_iff.mp hdiv
    have hstep : ∀ h : Host, instruction h s = (.illegalDiv, s) := by
      intro h
      rw [instruction_alu hop, if_pos hdiv]
    refine iff_of_true ⟨fun u => by rw [hstep, hstep], ?_⟩ ((defined_division_iff hisdiv).mpr fun _ => hy)
    rw [hstep, hzero, hy]
    exact iff_of_true rfl ⟨hisdiv, zeroDivisor_zero⟩
  · have hstep : ∀ h : Host, instruction h s =
        (.cont, s.setReg s.current.dst (aluResult h width op (s.regmap s.current.dst) (s.operand s.current o))) := by
      intro h
      rw [instruction_alu hop, if_neg hdiv]
    have hsame : (∀ u, instruction (host.withUndefined u) s = instruction host s) ↔
        Defined (s.operand s.current o) width op := by
      rw [← aluResult_eq_iff host (s.regmap s.current.dst) (by simpa using hdiv)]
      refine forall_congr' fun u => ?_
      rw [hstep, hstep, Prod.mk.injEq, setReg_inj]; simp
    refine ⟨fun h => hsame.mp h.same, fun h => ⟨hsame.mpr h, ?_⟩⟩
    rw [hstep, hzero]
    refine iff_of_false (by simp) ?_
    rintro ⟨hisdiv, hz⟩
    exact hdiv (divides_iff.mpr ⟨hisdiv, (defined_division_iff hisdiv).mp h hz⟩)

theorem wellDefined_iff : WellDefined host s ↔ s.operandsFit := by
  cases hop : s.opcode with
  | none =>
    refine iff_of_true ⟨fun u => by simp only [instruction, hop], ?_⟩ (by simp only [Vm.operandsFit, hop])
    simp [instruction, Vm.dividesByZero, hop]
  | some c =>
    have hother (h : ∀ width op o, c ≠ .alu width op o) (hzero : ¬ s.dividesByZero) (hfit : s.operandsFit) :
        WellDefined host s ↔ s.operandsFit := by
      have hstep : ∀ h : Host, instruction h s = exec h s s.current c := by
        intro h
        simp only [instruction, hop]
      obtain ⟨hsame, hstatus⟩ := exec_other s.current h
      refine iff_of_true ⟨fun u => by rw [hstep, hstep, hsame], ?_⟩ hfit
      rw [hstep]; exact iff_of_false hstatus hzero
    cases c with
    | alu width op o => rw [wellDefined_alu_iff hop, Vm.operandsFit, hop]
    | _ => exact hother (by simp) (by simp [Vm.dividesByZero, hop]) (by simp [Vm.operandsFit, hop])

/-! ## Runs -/

variable {mem : Mem} {rbpf : RbpfApplication} {ctx : Addr} {spill : Regs}

theorem loopBody_same (h : s.operandsFit) : loopBody (host.withUndefined u) s = loopBody host s := by
  unfold loopBody
  rw [(wellDefined_iff.mpr h).same u]

theorem runLoop_same (n : Nat) (s0 : Vm) (h : ∀ s ∈ heads (loopBody host) n s0, s.operandsFit) :
    runLoop (loopBody (host.withUndefined u)) n s0 = runLoop (loopBody host) n s0 := by
  have hstep : ∀ s t, s = t → s.operandsFit → () = () ∧
      ((∃ s' t', loopBody host s = .inl s' ∧ loopBody (host.withUndefined u) t = .inl t' ∧ s' = t') ∨
        ∃ r r', loopBody host s = .inr r ∧ loopBody (host.withUndefined u) t = .inr r' ∧ r = r') := by
    rintro s _ rfl hfit
    rw [loopBody_same u hfit]
    cases loopBody host s with
    | inl t | inr r => simp
  obtain ⟨-, ⟨h1, h2⟩ | ⟨r, r', h1, h2, hr⟩⟩ := runLoop_lockstep (fun _ => ()) Eq Eq Vm.operandsFit hstep n s0 s0 rfl h
  · rw [h1, h2]
  · rw [h1, h2, hr]

theorem verifyFrom_same (application length : BitVec 32) (fuel k : Nat) :
    verifyFrom (host.withUndefined u) mem application length fuel k =
      verifyFrom host mem application length fuel k := by
  induction fuel generalizing k with
  | zero => rfl
  | succ fuel ih =>
    simp only [verifyFrom, ih]; rfl

theorem engineStart_same :
    engineStart (host.withUndefined u) mem rbpf ctx spill = engineStart host mem rbpf ctx spill := by
  simp only [engineStart, verifyPreflight, preflightChecks, verifyFrom_same]

theorem arithmetic_defined_on_runs (n : Nat) :
    (∀ s ∈ engineHeads host n mem rbpf ctx spill, (WellDefined host s ↔ s.operandsFit)) ∧
      ((∀ s ∈ engineHeads host n mem rbpf ctx spill, s.operandsFit) →
        ∀ u, engineRun (host.withUndefined u) n mem rbpf ctx spill = engineRun host n mem rbpf ctx spill) := by
  refine ⟨fun s _ => wellDefined_iff, fun h u => ?_⟩
  unfold engineRun
  rw [engineStart_same]
  cases hstart : engineStart host mem rbpf ctx spill with
  | error e => rfl
  | ok s0 =>
    simp only [engineHeads, hstart] at h
    simp only [runLoop_same u n s0 h]

end

def arshText : List (List Byte) := [insn 0xc4 10 0 3, insn 0x95 0 0 0]

theorem alu32_step_matches_arshText :
    (instruction plainHost (sampleStart arshText)).2 = (sampleStart arshText).setReg 10 0x4000040 := by
  have hiff := @alu32_step_matches_iff plainHost (sampleStart arshText) .arsh .imm (by decide) (by decide) (by decide)
  exact hiff.mpr ⟨by decide, by decide⟩ plainHost.undefined

def negText : List (List Byte) := [insn 0x84 10 0 0, insn 0x95 0 0 0]

theorem alu32_step_differs_negText : preflightChecks plainHost (sampleMem negText) (sampleApp negText) = .ok ∧
    (sampleStart negText).opcode = some (.alu .alu32 .neg .imm) ∧ (sampleStart negText).regmap 10 = 0x20000200 ∧
    (instruction plainHost (sampleStart negText)).1 = .cont ∧
    (instruction plainHost (sampleStart negText)).2.regmap 10 = 0xffffffffdffffe00 := by
  decide

def undefinedText : List (List Byte) :=
  [insn 0x18 2 0 0, insn 0 0 0 1, insn 0x3c 0x20 0 0, insn 0x67 0 0 64, insn 0x95 0 0 0]

theorem arithmetic_undefined_undefinedText :
    preflightChecks plainHost (sampleMem undefinedText) (sampleApp undefinedText) = .ok ∧
      ∃ s t, engineHeads plainHost 3 (sampleMem undefinedText) (sampleApp undefinedText) 0 (fun _ => 0) =
        [sampleStart undefinedText, s, t] ∧ ¬ WellDefined plainHost s ∧ ¬ WellDefined plainHost t := by
  have hdiffers : ∀ s : Vm,
    (instruction (plainHost.withUndefined fun _ _ _ _ => 1) s).2.regmap 0 ≠ (instruction plainHost s).2.regmap 0 →
      ¬ WellDefined plainHost s := by
    intro s hne h
    rw [h.same] at hne; exact hne rfl
  refine ⟨by decide, _, _, rfl, hdiffers _ (by decide), hdiffers _ (by decide)⟩

end PipRiot.Rbpf
