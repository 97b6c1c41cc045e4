import PipRiot.Rbpf.Lifecycle

/-!
# Runs on two structs

Of the application struct the engine reads where the application and the stack
are, two bits of the flags, the branch counter and which accesses its regions
accept. `engineRun_alike`: two structs that agree on these give the same run,
and if the second accepts more, the runs differ only where the first refuses an
access.
-/

namespace PipRiot.Rbpf

structure SameSettings (rbpf rbpf' : RbpfApplication) : Prop where
  application : rbpf'.application = rbpf.application
  stack : rbpf'.stack = rbpf.stack
  preflight : rbpf'.flags &&& flagPreflightDone = rbpf.flags &&& flagPreflightDone
  noReturn : rbpf'.flags &&& configNoReturn = rbpf.flags &&& configNoReturn

def Judges (P : Prop) (regions regions' : List MemRegion) : Prop :=
  ∀ addr size type,
    regions'.any (fun r => regionAccepts r addr size type) = regions.any (fun r => regionAccepts r addr size type) ∨
      regions.any (fun r => regionAccepts r addr size type) = false ∧ P

def Host.Unaware (host : Host) : Prop :=
  ∀ num call, host.externalCall num = some call → ∀ rbpf rbpf' regmap mem,
    (call rbpf regmap mem).rbpf = rbpf ∧
      call rbpf' regmap mem = { call rbpf regmap mem with rbpf := rbpf' }

theorem plainHost_unaware : plainHost.Unaware := by
  intro num call h
  simp [plainHost] at h

structure Alike (regions regions' : List MemRegion) (s t : Vm) : Prop where
  rest : t = { s with rbpf := t.rbpf }
  settings : SameSettings s.rbpf t.rbpf
  branches : t.rbpf.branchesRemaining = s.rbpf.branchesRemaining
  left : s.rbpf.regions = regions
  right : t.rbpf.regions = regions'

/-! ## One instruction -/

section
variable {host : Host} {P : Prop} {regions regions' : List MemRegion} {s t : Vm}

namespace Alike

section
variable (h : Alike regions regions' s t)
include h

theorem setReg (r : BitVec 4) (v : BitVec 64) : Alike regions regions' (s.setReg r v) (t.setReg r v) :=
  ⟨by rw [h.rest]; rfl, h.settings, h.branches, h.left, h.right⟩

theorem moveTo (p : Addr) : Alike regions regions' { s with instr := p } { t with instr := p } :=
  ⟨by rw [h.rest], h.settings, h.branches, h.left, h.right⟩

theorem writeMem (m : Mem) : Alike regions regions' { s with mem := m } { t with mem := m } :=
  ⟨by rw [h.rest], h.settings, h.branches, h.left, h.right⟩

theorem mem : t.mem = s.mem := by rw [h.rest]

theorem regmap : t.regmap = s.regmap := by rw [h.rest]

theorem instr : t.instr = s.instr := by rw [h.rest]

theorem current : t.current = s.current := by rw [h.rest]; rfl

theorem opcode : t.opcode = s.opcode := by rw [h.rest]; rfl

theorem operand (i : BpfInstruction) (o : Operand) : t.operand i o = s.operand i o := by
  rw [h.rest]
  rfl

theorem jump (i : BpfInstruction) :
    (jump t i).1 = (Rbpf.jump s i).1 ∧ Alike regions regions' (Rbpf.jump s i).2 (Rbpf.jump t i).2 := by
  refine ⟨?_, ?_, ?_, ?_, h.left, h.right⟩
  · have hmax : overMaxJumps (Rbpf.jump t i).2.rbpf = overMaxJumps (Rbpf.jump s i).2.rbpf := by
      simp only [Rbpf.jump, overMaxJumps, h.settings.noReturn, h.branches]
    exact congrArg (fun b : Bool => if b then Status.outOfBranches else Status.cont) hmax
  · simp only [Rbpf.jump, h.instr, h.mem, h.regmap]
  · exact ⟨h.settings.application, h.settings.stack, h.settings.preflight, h.settings.noReturn⟩
  · simp only [Rbpf.jump, h.branches]

theorem store (hP : Judges P regions regions') (base : BitVec 64)
    (offset : BitVec 16) (size : MemSize) (value : BitVec 64) :
    ((store t base offset size value).1 = (Rbpf.store s base offset size value).1 ∧
      Alike regions regions' (Rbpf.store s base offset size value).2 (Rbpf.store t base offset size value).2) ∨
    ((Rbpf.store s base offset size value).1 = .illegalMem ∧ P) := by
  simp only [Rbpf.store, checkStore, checkMem, h.left, h.right, h.mem]
  rcases hP (accessAddr base offset) size.bytes memRegionWrite with heq | ⟨hno, hp⟩
  · rw [heq]
    split
    · exact .inl ⟨rfl, h.writeMem _⟩
    · exact .inl ⟨rfl, h⟩
  · rw [hno]; exact .inr ⟨rfl, hp⟩

theorem load (hP : Judges P regions regions') (dst : BitVec 4) (base : BitVec 64)
    (offset : BitVec 16) (size : MemSize) :
    ((load t dst base offset size).1 = (Rbpf.load s dst base offset size).1 ∧
      Alike regions regions' (Rbpf.load s dst base offset size).2 (Rbpf.load t dst base offset size).2) ∨
    ((Rbpf.load s dst base offset size).1 = .illegalMem ∧ P) := by
  simp only [Rbpf.load, checkLoad, checkMem, h.left, h.right, h.mem]
  rcases hP (accessAddr base offset) size.bytes memRegionRead with heq | ⟨hno, hp⟩
  · rw [heq]
    split
    · exact .inl ⟨rfl, h.setReg _ _⟩
    · exact .inl ⟨rfl, h⟩
  · rw [hno]; exact .inr ⟨rfl, hp⟩

theorem loadDouble (dst : BitVec 4) (v : BitVec 64) :
    (loadDouble t dst v).1 = (Rbpf.loadDouble s dst v).1 ∧
      Alike regions regions' (Rbpf.loadDouble s dst v).2 (Rbpf.loadDouble t dst v).2 := by
  refine ⟨rfl, ?_⟩
  unfold Rbpf.loadDouble
  rw [h.instr]
  exact (h.setReg dst v).moveTo _

theorem call (hu : host.Unaware) (num : BitVec 32) :
    (call host t num).1 = (Rbpf.call host s num).1 ∧
      Alike regions regions' (Rbpf.call host s num).2 (Rbpf.call host t num).2 := by
  unfold Rbpf.call
  cases hf : host.externalCall num with
  | none => exact ⟨rfl, h⟩
  | some f =>
    obtain ⟨hkeep, heq⟩ := hu num f hf s.rbpf t.rbpf s.regmap s.mem
    simp only [h.regmap, h.mem, heq, hkeep, true_and]
    exact ⟨by rw [h.instr], h.settings, h.branches, h.left, h.right⟩

end

end Alike

theorem instruction_alike (h : Alike regions regions' s t) (hu : host.Unaware) (hP : Judges P regions regions') :
    ((instruction host t).1 = (instruction host s).1 ∧
      Alike regions regions' (instruction host s).2 (instruction host t).2) ∨
    ((instruction host s).1 = .illegalMem ∧ P) := by
  have hupper : upperImmediate t = upperImmediate s := by
    unfold upperImmediate
    rw [h.mem, h.instr]
  unfold instruction
  rw [h.opcode, h.current]
  cases hop : s.opcode with
  | none => exact .inl ⟨rfl, h⟩
  | some op =>
    cases op with
    | alu width op o =>
      simp only [exec, h.operand, h.regmap]
      split
      · exact .inl ⟨rfl, h⟩
      · exact .inl ⟨rfl, h.setReg _ _⟩
    | lddw =>
      simp only [exec, hupper]; exact .inl (h.loadDouble _ _)
    | lddwd =>
      have hdata : applicationData t.rbpf = applicationData s.rbpf := by
        unfold applicationData
        rw [h.settings.application]
      simp only [exec, hupper, hdata]; exact .inl (h.loadDouble _ _)
    | lddwr =>
      have hrodata : applicationRodata t.mem t.rbpf = applicationRodata s.mem s.rbpf := by
        unfold applicationRodata headerDataLen
        rw [h.settings.application, h.mem]
      simp only [exec, hupper, hrodata]; exact .inl (h.loadDouble _ _)
    | stx size | st size =>
      simp only [exec, h.regmap]; exact h.store hP _ _ _ _
    | ldx size =>
      simp only [exec, h.regmap]; exact h.load hP _ _ _ _
    | jmpAlways => exact .inl (h.jump _)
    | jmp op o =>
      simp only [exec, h.operand, h.regmap]
      split
      · exact .inl (h.jump _)
      · exact .inl ⟨rfl, h⟩
    | call => exact .inl (h.call hu _)
    | ret => exact .inl ⟨rfl, h⟩

/-! ## Whole runs -/

theorem loopBody_eq (host : Host) (s : Vm) : loopBody host s =
    if 0 < (instruction host s).1.code then
      .inl { (instruction host s).2 with instr := (instruction host s).2.instr + 8 }
    else .inr ((instruction host s).1,
      { (instruction host s).2 with instr := (instruction host s).2.instr + 8 }) := rfl

theorem loopBody_alike (h : Alike regions regions' s t) (hu : host.Unaware) (hP : Judges P regions regions') :
    (∃ s' t', loopBody host s = .inl s' ∧ loopBody host t = .inl t' ∧ Alike regions regions' s' t') ∨
    (∃ st s' t', loopBody host s = .inr (st, s') ∧ loopBody host t = .inr (st, t') ∧ Alike regions regions' s' t') ∨
    (∃ s', loopBody host s = .inr (.illegalMem, s') ∧ P) := by
  rw [loopBody_eq, loopBody_eq]
  rcases instruction_alike h hu hP with ⟨hst, ha⟩ | ⟨hst, hp⟩
  · have ha' := ha.moveTo ((instruction host s).2.instr + 8)
    rw [hst, ha.instr]
    by_cases hc : 0 < (instruction host s).1.code
    · exact .inl ⟨_, _, if_pos hc, if_pos hc, ha'⟩
    · exact .inr (.inl ⟨_, _, _, if_neg hc, if_neg hc, ha'⟩)
  · rw [hst]
    exact .inr (.inr ⟨_, if_neg (by decide), hp⟩)

theorem runLoop_alike (hu : host.Unaware) (hP : Judges P regions regions') :
    ∀ (n : Nat) {s t : Vm} {st : Status} {s' : Vm}, Alike regions regions' s t →
      runLoop (loopBody host) n s = some (st, s') →
      (∃ t', runLoop (loopBody host) n t = some (st, t') ∧ Alike regions regions' s' t') ∨ (st = .illegalMem ∧ P)
  | 0, _, _, _, _, _, hr => by cases hr
  | n + 1, s, t, st, s', h, hr => by
    rcases loopBody_alike h hu hP with ⟨u, v, hs, ht, ha⟩ | ⟨st', u, v, hs, ht, ha⟩ | ⟨u, hs, hp⟩
    · rw [runLoop_inl hs] at hr
      rw [runLoop_inl ht]; exact runLoop_alike hu hP n ha hr
    · rw [runLoop_inr hs] at hr
      cases hr
      rw [runLoop_inr ht]; exact .inl ⟨v, rfl, ha⟩
    · rw [runLoop_inr hs] at hr
      cases hr; exact .inr ⟨rfl, hp⟩

end

section
variable {host : Host} {P : Prop} {mem : Mem} {rbpf rbpf' : RbpfApplication} {ctx : Addr} {spill : Regs}

theorem startVm_alike (h : SameSettings rbpf rbpf') :
    Alike rbpf.regions rbpf'.regions (startVm mem rbpf ctx spill) (startVm mem rbpf' ctx spill) := by
  refine ⟨?_, ⟨h.application, h.stack, ?_, ?_⟩, rfl, rfl, rfl⟩
  · simp only [startVm, Vm.mk.injEq, true_and]
    refine ⟨?_, ?_⟩
    · unfold initRegmap
      rw [h.stack]
    · unfold applicationText headerDataLen headerRodataLen
      rw [h.application]
  · simp only [startVm, BitVec.and_comm _ flagPreflightDone, BitVec.and_or_distrib_left]
    rw [BitVec.and_comm, h.preflight, BitVec.and_comm]
  · rw [startVm, startVm, preflightDone_and, preflightDone_and, h.noReturn]

theorem engineStart_error_iff {e : Status} : engineStart host mem rbpf ctx spill = .error e ↔
    rbpf.flags &&& flagPreflightDone = 0 ∧ preflightChecks host mem rbpf = e ∧ e ≠ .ok := by
  have hchecks : preflightChecks host mem { rbpf with branchesRemaining := branchesAllowed } =
    preflightChecks host mem rbpf := rfl
  by_cases hf : rbpf.flags &&& flagPreflightDone = 0
  · simp only [engineStart, verifyPreflight, ne_eq, hf, hchecks, not_true_eq_false, if_false, true_and]
    cases preflightChecks host mem rbpf <;> simp <;> rintro rfl <;> decide
  · have hok : engineStart host mem rbpf ctx spill = .ok (startVm mem rbpf ctx spill) :=
      engineStart_iff.mpr ⟨.inl hf, rfl⟩
    simp only [hok, hf, false_and, reduceCtorEq]

theorem engineRun_alike (h : SameSettings rbpf rbpf') (hu : host.Unaware) (hP : Judges P rbpf.regions rbpf'.regions)
    {fuel : Nat} {r : RunResult} (hr : engineRun host fuel mem rbpf ctx spill = some r) :
    (∃ r', engineRun host fuel mem rbpf' ctx spill = some r' ∧ r'.status = r.status ∧ r'.result = r.result) ∨
      (r.status = .illegalMem ∧ P) := by
  cases hstart : engineStart host mem rbpf ctx spill with
  | error e =>
    obtain ⟨hf, hc, he⟩ := engineStart_error_iff.mp hstart
    have hstart' : engineStart host mem rbpf' ctx spill = .error e := by
      refine engineStart_error_iff.mpr ⟨?_, ?_, he⟩
      · rw [h.preflight, hf]
      · rw [preflightChecks_struct h.application h.noReturn, hc]
    simp only [engineRun, hstart] at hr
    cases hr
    simp only [engineRun, hstart']; exact .inl ⟨_, rfl, rfl, rfl⟩
  | ok s0 =>
    obtain ⟨hgo, rfl⟩ := engineStart_iff.mp hstart
    have hstart' : engineStart host mem rbpf' ctx spill = .ok (startVm mem rbpf' ctx spill) := by
      refine engineStart_iff.mpr ⟨?_, rfl⟩
      rw [h.preflight, preflightChecks_struct h.application h.noReturn]
      exact hgo
    simp only [engineRun, hstart, Option.map_eq_some_iff] at hr
    obtain ⟨⟨st, s'⟩, hrun, rfl⟩ := hr
    simp only [engineRun, hstart']
    rcases runLoop_alike hu hP fuel (startVm_alike h) hrun with ⟨t', ht, ha⟩ | hbad
    · refine .inl ⟨_, congrArg (Option.map _) ht, rfl, ?_⟩
      exact congrArg (fun m : Regs => some (m 0)) ha.regmap
    · exact .inr hbad

end

end PipRiot.Rbpf
