import PipRiot.Rbpf.Engine

/-!
# What one turn of the interpreter loop does

`step_cases` lists the ways in which the loop goes on: an ordinary instruction,
a double-length load, a taken jump or an external call. `exit_cases` lists what
holds when it is left. Everything about runs is derived from these two.
-/

namespace PipRiot.Rbpf

def Vm.takesJump (s : Vm) : Bool :=
  match s.opcode with
  | some .jmpAlways => true
  | some (.jmp op o) => jmpCond op (s.regmap s.current.dst) (s.operand s.current o)
  | _ => false

def Vm.isDouble (s : Vm) : Bool :=
  match s.opcode with
  | some op => op.isDouble
  | none => false

def Vm.acceptedStore (s : Vm) (size : MemSize) (value : BitVec 64) : Option (Addr × List Byte) :=
  let a := accessAddr (s.regmap s.current.dst) s.current.offset
  if checkStore s.rbpf a size.bytes then some (a, leBytes size.bytes value.toNat) else none

def Vm.storeOf (s : Vm) : Option (Addr × List Byte) :=
  match s.opcode with
  | some (.stx size) => s.acceptedStore size (s.regmap s.current.src)
  | some (.st size) => s.acceptedStore size (s.current.immediate.signExtend 64)
  | _ => none

def Vm.stored (s : Vm) : Mem :=
  match s.storeOf with
  | some (a, bs) => writeBytes s.mem a bs
  | none => s.mem

inductive Step (host : Host) (s t : Vm) : Prop
  | plain (op : Opcode) (hop : s.opcode = some op) (hret : op ≠ .ret) (hcall : op ≠ .call)
      (hj : s.takesJump = false) (hd : s.isDouble = false) (hi : t.instr = s.instr + 8)
      (hr : t.rbpf = s.rbpf) (hm : t.mem = s.stored)
  | double (hd : s.isDouble = true) (hj : s.takesJump = false) (hi : t.instr = s.instr + 8 + 8)
      (hr : t.rbpf = s.rbpf) (hm : t.mem = s.mem)
  | jump (hj : s.takesJump = true) (hi : t.instr = pointerAdd s.instr s.current.offset + 8)
      (hr : t.rbpf = { s.rbpf with branchesRemaining := s.rbpf.branchesRemaining - 1 })
      (hb : overMaxJumps t.rbpf = false) (hm : t.mem = s.mem)
  | call (f : RbpfApplication → Regs → Mem → CallResult) (hop : s.opcode = some .call)
      (hf : host.externalCall s.current.immediate = some f) (hi : t.instr = s.instr + 8)
      (hr : t.rbpf = (f s.rbpf s.regmap s.mem).rbpf) (hm : t.mem = (f s.rbpf s.regmap s.mem).mem)

theorem loopBody_inl {host : Host} {s t : Vm} (h : loopBody host s = .inl t) :
    (instruction host s).1 = .cont ∧ t = { (instruction host s).2 with instr := (instruction host s).2.instr + 8 } := by
  simp only [loopBody] at h
  split at h
  · rename_i hc
    exact ⟨(Status.code_pos _).mp hc, (Sum.inl.inj h).symm⟩
  · cases h

theorem loopBody_inr {host : Host} {s t : Vm} {st : Status} (h : loopBody host s = .inr (st, t)) :
    st ≠ .cont ∧ st = (instruction host s).1 ∧
      t = { (instruction host s).2 with instr := (instruction host s).2.instr + 8 } := by
  simp only [loopBody] at h
  split at h
  · cases h
  · rename_i hc
    obtain ⟨h1, h2⟩ := Prod.mk.inj (Sum.inr.inj h)
    exact ⟨fun he => hc ((Status.code_pos _).mpr (h1.trans he)), h1.symm, h2.symm⟩

theorem store_cont {s : Vm} {size : MemSize} {value : BitVec 64}
    (h : (store s (s.regmap s.current.dst) s.current.offset size value).1 = .cont) :
    (store s (s.regmap s.current.dst) s.current.offset size value).2 =
        { s with mem := match s.acceptedStore size value with
            | some (a, bs) => writeBytes s.mem a bs
            | none => s.mem } := by
  by_cases hc : checkStore s.rbpf (accessAddr (s.regmap s.current.dst) s.current.offset) size.bytes = true
  · simp [store, Vm.acceptedStore, hc]
  · simp [store, hc] at h

theorem load_cont {s : Vm} {dst : BitVec 4} {base : BitVec 64} {offset : BitVec 16} {size : MemSize}
    (h : (load s dst base offset size).1 = .cont) :
    (load s dst base offset size).2 =
      s.setReg dst (BitVec.ofNat 64 (leValue (readBytes s.mem (accessAddr base offset) size.bytes))) := by
  by_cases hc : checkLoad s.rbpf (accessAddr base offset) size.bytes = true
  · simp [load, hc]
  · simp [load, hc] at h

theorem jump_cont {s : Vm} {i : BpfInstruction} (h : (jump s i).1 = .cont) :
    overMaxJumps (jump s i).2.rbpf = false := by
  simp only [jump] at h ⊢
  split at h
  · cases h
  · rename_i hb
    exact Bool.eq_false_iff.mpr hb

theorem takesJump_of_not_isJump {s : Vm} {op : Opcode} (hop : s.opcode = some op) (hj : op.isJump = false) :
    s.takesJump = false := by
  cases op <;> simp [Opcode.isJump] at hj <;> simp [Vm.takesJump, hop]

theorem isDouble_eq {s : Vm} {op : Opcode} (hop : s.opcode = some op) : s.isDouble = op.isDouble := by
  simp [Vm.isDouble, hop]

theorem stored_of_not_store {s : Vm} (h : s.storeOf = none) : s.stored = s.mem := by
  simp [Vm.stored, h]

theorem step_cases {host : Host} {s t : Vm} (h : loopBody host s = .inl t) : Step host s t := by
  obtain ⟨hc, rfl⟩ := loopBody_inl h
  cases hop : s.opcode with
  | none => simp [instruction, hop] at hc
  | some op =>
    simp only [instruction, hop] at hc ⊢
    cases op with
    | alu width op o =>
      simp only [exec] at hc ⊢
      split at hc
      · cases hc
      · rename_i hdiv
        have hs : s.stored = s.mem := stored_of_not_store (by simp [Vm.storeOf, hop])
        refine .plain _ hop (by simp) (by simp) (takesJump_of_not_isJump hop rfl) (isDouble_eq hop) ?_ ?_ ?_
        all_goals simp [hdiv, Vm.setReg, hs]
    | lddw | lddwd | lddwr => exact .double (isDouble_eq hop) (takesJump_of_not_isJump hop rfl) rfl rfl rfl
    | stx size | st size =>
      simp only [exec] at hc ⊢
      rw [store_cont hc]
      refine .plain _ hop (by simp) (by simp) (takesJump_of_not_isJump hop rfl) (isDouble_eq hop) rfl rfl ?_
      simp [Vm.stored, Vm.storeOf, hop]
    | ldx size =>
      simp only [exec] at hc ⊢
      rw [load_cont hc]
      refine .plain _ hop (by simp) (by simp) (takesJump_of_not_isJump hop rfl) (isDouble_eq hop) rfl rfl ?_
      exact (stored_of_not_store (s := s) (by simp [Vm.storeOf, hop])).symm
    | jmpAlways =>
      exact .jump (by simp [Vm.takesJump, hop]) rfl rfl (jump_cont hc) rfl
    | jmp op o =>
      simp only [exec] at hc ⊢
      by_cases hj : jmpCond op (s.regmap s.current.dst) (s.operand s.current o) = true
      · simp only [hj, ite_true] at hc ⊢
        exact .jump (by simp [Vm.takesJump, hop, hj]) rfl rfl (jump_cont hc) rfl
      · simp only [hj]
        refine .plain _ hop (by simp) (by simp) (by simp [Vm.takesJump, hop, hj]) (isDouble_eq hop) rfl rfl ?_
        exact (stored_of_not_store (s := s) (by simp [Vm.storeOf, hop])).symm
    | call =>
      simp only [exec, call] at hc ⊢
      cases hf : host.externalCall s.current.immediate with
      | none => simp [hf] at hc
      | some f => exact .call f hop hf (by simp) (by simp) (by simp)
    | ret => simp [exec] at hc

theorem exit_cases {host : Host} {s t : Vm} {st : Status} (h : loopBody host s = .inr (st, t)) :
    t.mem = s.mem ∧ t.regmap = s.regmap ∧ st.code ≤ 0 ∧ (st = .ok ↔ s.opcode = some .ret) ∧
      (t.rbpf = s.rbpf ∨ t.rbpf = { s.rbpf with branchesRemaining := s.rbpf.branchesRemaining - 1 }) := by
  obtain ⟨hne, rfl, rfl⟩ := loopBody_inr h
  have hcode : (instruction host s).1.code ≤ 0 := by
    have := mt (Status.code_pos (instruction host s).1).mp hne; omega
  suffices hs : (instruction host s).2.mem = s.mem ∧ (instruction host s).2.regmap = s.regmap ∧
      ((instruction host s).1 = .ok ↔ s.opcode = some .ret) ∧
      ((instruction host s).2.rbpf = s.rbpf ∨ (instruction host s).2.rbpf =
        { s.rbpf with branchesRemaining := s.rbpf.branchesRemaining - 1 }) from ⟨hs.1, hs.2.1, hcode, hs.2.2⟩
  clear hcode h
  cases hop : s.opcode with
  | none => simp [instruction, hop]
  | some op =>
    simp only [instruction, hop] at hne ⊢
    cases op with
    | alu width op o =>
      simp only [exec] at hne ⊢
      split
      · simp
      · simp_all
    | lddw | lddwd | lddwr => simp [exec, loadDouble] at hne
    | stx size | st size | ldx size =>
      simp only [exec, store, load] at hne ⊢
      split at hne
      · simp at hne
      · simp_all
    | jmpAlways =>
      simp only [exec, jump] at hne ⊢
      split at hne
      · simp_all
      · simp at hne
    | jmp op o =>
      simp only [exec] at hne ⊢
      by_cases hj : jmpCond op (s.regmap s.current.dst) (s.operand s.current o) = true
      · simp only [hj, ite_true, jump] at hne ⊢
        split at hne
        · simp_all
        · simp at hne
      · simp [hj] at hne
    | call =>
      simp only [exec, call] at hne ⊢
      cases hf : host.externalCall s.current.immediate with
      | none => simp
      | some f => simp [hf] at hne
    | ret => simp [exec]

end PipRiot.Rbpf
