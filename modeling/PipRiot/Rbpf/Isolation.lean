import PipRiot.Rbpf.MemSafe
import PipRiot.Rbpf.Bounded

/-!
# Two runs of one application

A run sees its header, its text and the regions it may read. Two machines that
agree on these bytes, on the application struct, the program counter and the
eleven registers agree after each turn, and they store the same bytes.
-/

namespace PipRiot.Rbpf

def Permitted (regions : List MemRegion) (type : BitVec 8) (x : Addr) : Prop :=
  ∃ r ∈ regions, r.permits type ∧ r.has x

instance (regions : List MemRegion) (type : BitVec 8) (x : Addr) : Decidable (Permitted regions type x) :=
  inferInstanceAs (Decidable (∃ r ∈ regions, r.permits type ∧ r.has x))

def Visible (mem : Mem) (rbpf : RbpfApplication) (x : Addr) : Prop :=
  dist rbpf.application x < 28 ∨
    dist (applicationText mem rbpf) x < (applicationTextLen mem rbpf).toNat ∨
    Permitted rbpf.regions memRegionRead x

instance (mem : Mem) (rbpf : RbpfApplication) (x : Addr) : Decidable (Visible mem rbpf x) :=
  inferInstanceAs (Decidable (_ ∨ _))

/-- The fetch lies in the text, no external function is called, the registers
exist and the memory check is right. -/
structure Confined (host : Host) (text length : Addr) (s : Vm) : Prop where
  fetch : FetchInside text length s
  calls : s.opcode = some .call → checkCall host s.current.immediate = false
  registers : s.current.dst.toNat < 11 ∧ s.current.src.toNat < 11
  access : Judged s

instance (host : Host) (text length : Addr) (s : Vm) : Decidable (Confined host text length s) :=
  decidable_of_iff (FetchInside text length s ∧
      (s.opcode = some .call → checkCall host s.current.immediate = false) ∧
      (s.current.dst.toNat < 11 ∧ s.current.src.toNat < 11) ∧ Judged s)
    ⟨fun ⟨h1, h2, h3, h4⟩ => ⟨h1, h2, h3, h4⟩, fun ⟨h1, h2, h3, h4⟩ => ⟨h1, h2, h3, h4⟩⟩

def Vm.observe (s : Vm) : Addr × BpfInstruction × Option (Addr × List Byte) := (s.instr, s.current, s.storeOf)

theorem contains_has {r : MemRegion} {a x : Addr} {size : Nat} (h : r.contains a size) (hx : dist a x < size) :
    r.has x := by
  obtain ⟨h1, h2, h3⟩ := h
  unfold MemRegion.has
  unfold dist at hx ⊢
  rw [BitVec.toNat_sub] at hx ⊢
  omega

theorem access_permitted {s : Vm} {a : Addr} {size : Nat} {type : BitVec 8} (hj : Judged s)
    (hm : memAccess s = some (a, size, type)) (h1 : 1 ≤ size) (h8 : size ≤ 8)
    (hc : checkMem s.rbpf a size type = true) {x : Addr} (hx : dist a x < size) :
    Permitted s.rbpf.regions type x := by
  obtain ⟨r, hr, hp, hin⟩ := (checkMem_sound_iff s.rbpf a h1 h8 type).mpr (hj _ hm) hc
  exact ⟨r, hr, hp, contains_has hin hx⟩

theorem storeOf_permitted {s : Vm} (hj : Judged s) {a : Addr} {bs : List Byte} (h : s.storeOf = some (a, bs))
    {x : Addr} (hx : dist a x < bs.length) : Permitted s.rbpf.regions memRegionWrite x := by
  have hacc : ∀ size value, s.acceptedStore size value = some (a, bs) →
      memAccess s = some (accessAddr (s.regmap s.current.dst) s.current.offset, size.bytes, memRegionWrite) →
      Permitted s.rbpf.regions memRegionWrite x := by
    intro size value hs hm
    simp only [Vm.acceptedStore] at hs
    split at hs
    · rename_i hc
      obtain ⟨rfl, rfl⟩ := Prod.mk.inj (Option.some.inj hs)
      rw [leBytes_length] at hx
      exact access_permitted hj hm size.bytes_pos size.bytes_le hc hx
    · cases hs
  cases hop : s.opcode with
  | none => simp [Vm.storeOf, hop] at h
  | some op =>
    cases op with
    | stx size | st size => exact hacc size _ (by simpa [Vm.storeOf, hop] using h) (by simp [memAccess, hop])
    | _ => simp [Vm.storeOf, hop] at h

/-! ## Agreement of two machines -/

/-- The machines differ at most in bytes outside `P` and in the words behind
the register array. -/
structure Agree (P : Addr → Prop) (s t : Vm) : Prop where
  rbpf : s.rbpf = t.rbpf
  instr : s.instr = t.instr
  regs : ∀ r : BitVec 4, r.toNat < 11 → s.regmap r = t.regmap r
  mem : ∀ x, P x → s.mem x = t.mem x

namespace Agree
variable {P : Addr → Prop} {s t : Vm} (h : Agree P s t)
include h

theorem current (hslot : ∀ x, dist s.instr x < 8 → P x) : s.current = t.current := by
  unfold Vm.current
  rw [← h.instr]
  exact fetch_congr fun x hx => h.mem x (hslot x hx)

theorem opcode (hslot : ∀ x, dist s.instr x < 8 → P x) : s.opcode = t.opcode :=
  congrArg (fun i : BpfInstruction => Opcode.ofByte i.opcode) (h.current hslot)

theorem operand {i : BpfInstruction} (hsrc : i.src.toNat < 11) (o : Operand) : s.operand i o = t.operand i o := by
  cases o with
  | reg => exact h.regs _ hsrc
  | imm => rfl

theorem setReg (r : BitVec 4) (v : BitVec 64) : Agree P (s.setReg r v) (t.setReg r v) := by
  refine ⟨h.rbpf, h.instr, fun q hq => ?_, h.mem⟩
  simp only [Vm.setReg, Function.update_apply, h.regs q hq]

theorem moveTo {p q : Addr} (hp : p = q) : Agree P { s with instr := p } { t with instr := q } :=
  ⟨h.rbpf, hp, h.regs, h.mem⟩

theorem store {base base' : BitVec 64} (hb : base = base') (offset : BitVec 16) (size : MemSize)
    {value value' : BitVec 64} (hv : value = value') :
    (store s base offset size value).1 = (Rbpf.store t base' offset size value').1 ∧
      Agree P (store s base offset size value).2 (Rbpf.store t base' offset size value').2 := by
  subst hb hv
  simp only [Rbpf.store, ← h.rbpf]
  split
  · exact ⟨rfl, rfl, h.instr, h.regs, fun x hx => writeBytes_congr _ _ fun _ => h.mem x hx⟩
  · exact ⟨rfl, h⟩

theorem load (dst : BitVec 4) {base base' : BitVec 64} (hb : base = base') (offset : BitVec 16) (size : MemSize)
    (hload : checkLoad s.rbpf (accessAddr base offset) size.bytes = true →
      ∀ x, dist (accessAddr base offset) x < size.bytes → P x) :
    (load s dst base offset size).1 = (Rbpf.load t dst base' offset size).1 ∧
      Agree P (load s dst base offset size).2 (Rbpf.load t dst base' offset size).2 := by
  subst hb
  simp only [Rbpf.load, ← h.rbpf]
  split
  · rename_i hc
    have hr := readBytes_congr (fun x hx => h.mem x (hload hc x hx))
      (show size.bytes ≤ 2 ^ 32 by have := size.bytes_le; omega)
    rw [hr]; exact ⟨rfl, h.setReg _ _⟩
  · exact ⟨rfl, h⟩

theorem jump (i : BpfInstruction) : (jump s i).1 = (Rbpf.jump t i).1 ∧ Agree P (jump s i).2 (Rbpf.jump t i).2 := by
  unfold Rbpf.jump
  rw [← h.rbpf, ← h.instr]
  exact ⟨rfl, rfl, rfl, h.regs, h.mem⟩

theorem loadDouble (dst : BitVec 4) {v w : BitVec 64} (hv : v = w) :
    (loadDouble s dst v).1 = (Rbpf.loadDouble t dst w).1 ∧
      Agree P (loadDouble s dst v).2 (Rbpf.loadDouble t dst w).2 := by
  subst hv
  exact ⟨rfl, (h.setReg dst v).moveTo (by rw [h.instr])⟩

theorem upperImmediate (hslot : ∀ x, dist (s.instr + 8) x < 8 → P x) : upperImmediate s = upperImmediate t := by
  unfold Rbpf.upperImmediate
  rw [← h.instr, fetch_congr fun x hx => h.mem x (hslot x hx)]

end Agree

/-! ## One turn -/

section
variable {host : Host} {text length : Addr} {n : Nat} {P : Addr → Prop} {s t : Vm}

theorem inText_bytes {p x : Addr} (hp : InText text length p) (hx : dist p x < 8) : dist text x < length.toNat := by
  unfold InText at hp
  have he := add_dist text p
  rw [← he] at hx
  have := dist_add_lt hx (by omega)
  omega

variable (htext : ∀ x, dist text x < length.toNat → P x)
  (hheader : ∀ x, dist s.rbpf.application x < 28 → P x)
  (hread : ∀ x, Permitted s.rbpf.regions memRegionRead x → P x)
  (hg : Confined host text length s) (h : Agree P s t)

include htext hg h in
theorem agree_current : s.current = t.current :=
  h.current fun x hx => htext x (inText_bytes hg.fetch.1 hx)

include htext hg h in
theorem agree_opcode : s.opcode = t.opcode :=
  h.opcode fun x hx => htext x (inText_bytes hg.fetch.1 hx)

include htext hg h in
theorem agree_storeOf : s.storeOf = t.storeOf := by
  have hdst := h.regs _ hg.registers.1
  have hsrc := h.regs _ hg.registers.2
  rw [agree_current htext hg h] at hdst hsrc
  simp only [Vm.storeOf, Vm.acceptedStore, agree_opcode htext hg h, agree_current htext hg h, h.rbpf, hdst, hsrc]

include htext hheader hread hg h in
theorem instruction_agree : (instruction host s).1 = (instruction host t).1 ∧
    Agree P (instruction host s).2 (instruction host t).2 := by
  have hcur := agree_current htext hg h
  have hdst := h.regs _ hg.registers.1
  have hsrc := h.regs _ hg.registers.2
  have hupper : s.isDouble = true → upperImmediate s = upperImmediate t := fun hd =>
    h.upperImmediate fun x hx => htext x (inText_bytes (hg.fetch.2 hd) hx)
  unfold instruction
  rw [← agree_opcode htext hg h, ← hcur]
  cases hop : s.opcode with
  | none => exact ⟨rfl, h⟩
  | some op =>
    cases op with
    | alu width op o =>
      simp only [exec, ← h.operand hg.registers.2 o, ← hdst]
      split
      · exact ⟨rfl, h⟩
      · exact ⟨rfl, h.setReg _ _⟩
    | lddw => exact h.loadDouble _ (by rw [hupper (isDouble_eq hop)])
    | lddwd => exact h.loadDouble _ (by rw [hupper (isDouble_eq hop), h.rbpf])
    | lddwr =>
      -- the address of `.rodata` is computed from the header in memory
      have hrod : applicationRodata s.mem s.rbpf = applicationRodata t.mem t.rbpf := by
        unfold applicationRodata
        rw [(header_congr fun x hx => h.mem x (hheader x hx)).1, h.rbpf]
      exact h.loadDouble _ (by rw [hupper (isDouble_eq hop), hrod])
    | stx size => exact h.store hdst _ size hsrc
    | st size => exact h.store hdst _ size rfl
    | ldx size =>
      refine h.load _ hsrc _ size fun hc x hx => hread x ?_
      exact access_permitted hg.access (by simp [memAccess, hop]) size.bytes_pos size.bytes_le hc hx
    | jmpAlways => exact h.jump _
    | jmp op o =>
      simp only [exec, ← h.operand hg.registers.2 o, ← hdst]
      split
      · exact h.jump _
      · exact ⟨rfl, h⟩
    | call =>
      have hnone : host.externalCall s.current.immediate = none := by simpa [checkCall] using hg.calls hop
      simp only [exec, call, hnone, true_and]; exact h
    | ret => exact ⟨rfl, h⟩

theorem turn_without_call (hcalls : s.opcode = some .call → checkCall host s.current.immediate = false)
    (hb : loopBody host s = .inl t) :
    t.mem = s.stored ∧ t.rbpf.regions = s.rbpf.regions ∧ t.rbpf.application = s.rbpf.application := by
  cases step_cases hb with
  | plain op hop hret hcall hj hd hi hr hm => exact ⟨hm, by rw [hr], by rw [hr]⟩
  | double hd hj hi hr hm =>
    obtain ⟨op, hop, hdop⟩ := isDouble_opcode hd
    have hs : s.storeOf = none := by cases op <;> simp [Opcode.isDouble] at hdop <;> simp [Vm.storeOf, hop]
    exact ⟨by rw [hm, stored_of_not_store hs], by rw [hr], by rw [hr]⟩
  | jump hj hi hr hbr hm =>
    obtain ⟨op, hop, hjop⟩ := takesJump_isJump hj
    have hs : s.storeOf = none := by cases op <;> simp [Opcode.isJump] at hjop <;> simp [Vm.storeOf, hop]
    exact ⟨by rw [hm, stored_of_not_store hs], by rw [hr]; rfl, by rw [hr]⟩
  | call f hop hf hi hr hm => simp [checkCall, hf] at hcalls; exact absurd hop hcalls

theorem stored_frame {W : Addr → Prop} (hw : ∀ a bs, s.storeOf = some (a, bs) → ∀ x, dist a x < bs.length → W x)
    {x : Addr} (hx : ¬ W x) : s.stored x = s.mem x := by
  cases hs : s.storeOf with
  | none => rw [stored_of_not_store hs]
  | some p =>
    simp only [Vm.stored, hs]
    exact writeBytes_of_le (not_lt.mp fun hlt => hx (hw p.1 p.2 hs x hlt))

end

/-! ## Two runs -/

structure Twins (mem mem' : Mem) (rbpf : RbpfApplication) (s t : Vm) : Prop where
  agree : Agree (Visible mem rbpf) s t
  regions : s.rbpf.regions = rbpf.regions
  application : s.rbpf.application = rbpf.application
  left : ∀ x, ¬ Permitted rbpf.regions memRegionWrite x → s.mem x = mem x
  right : ∀ x, ¬ Permitted rbpf.regions memRegionWrite x → t.mem x = mem' x

section
variable {host : Host} {mem mem' : Mem} {rbpf : RbpfApplication} {ctx : Addr} {spill spill' : Regs} {s t : Vm}

theorem Twins.step (hg : Confined host (applicationText mem rbpf) (applicationTextLen mem rbpf) s)
    (h : Twins mem mem' rbpf s t) :
    s.observe = t.observe ∧
      ((∃ s' t', loopBody host s = .inl s' ∧ loopBody host t = .inl t' ∧ Twins mem mem' rbpf s' t') ∨
       (∃ r r', loopBody host s = .inr r ∧ loopBody host t = .inr r' ∧ r.1 = r'.1 ∧
          r.2.regmap 0 = r'.2.regmap 0 ∧
          (∀ x, ¬ Permitted rbpf.regions memRegionWrite x → r.2.mem x = mem x ∧ r'.2.mem x = mem' x))) := by
  have htext : ∀ x, dist (applicationText mem rbpf) x < (applicationTextLen mem rbpf).toNat → Visible mem rbpf x :=
    fun x hx => .inr (.inl hx)
  obtain ⟨hst, hag⟩ := instruction_agree htext
    (fun x hx => .inl (h.application ▸ hx)) (fun x hx => .inr (.inr (h.regions ▸ hx))) hg h.agree
  have hstore := agree_storeOf htext hg h.agree
  refine ⟨by simp only [Vm.observe, h.agree.instr, agree_current htext hg h.agree, hstore], ?_⟩
  have hag' : Agree (Visible mem rbpf) { (instruction host s).2 with instr := (instruction host s).2.instr + 8 }
      { (instruction host t).2 with instr := (instruction host t).2.instr + 8 } := hag.moveTo (by rw [hag.instr])
  cases hs : loopBody host s with
  | inl s' =>
    obtain ⟨hc, hs'⟩ := loopBody_inl hs
    have ht : loopBody host t =
        .inl { (instruction host t).2 with instr := (instruction host t).2.instr + 8 } := by
      simp only [loopBody, ← hst, hc, if_pos ((Status.code_pos .cont).mpr rfl)]
    obtain ⟨hm, hreg, happ⟩ := turn_without_call hg.calls hs
    refine .inl ⟨s', _, rfl, ht, ?_⟩
    have hw : ∀ a bs, s.storeOf = some (a, bs) → ∀ x, dist a x < bs.length →
        Permitted rbpf.regions memRegionWrite x := fun a bs hsb x hx =>
      h.regions ▸ storeOf_permitted hg.access hsb hx
    have hgt : t.opcode = some .call → checkCall host t.current.immediate = false := by
      rw [← agree_opcode htext hg h.agree, ← agree_current htext hg h.agree]
      exact hg.calls
    refine ⟨hs' ▸ hag', hreg.trans h.regions, happ.trans h.application, fun x hx => ?_, fun x hx => ?_⟩
    · rw [hm, stored_frame hw hx, h.left x hx]
    · rw [(turn_without_call hgt ht).1, stored_frame (hstore ▸ hw) hx, h.right x hx]
  | inr r =>
    obtain ⟨st, u⟩ := r
    obtain ⟨hne, h1, h2⟩ := loopBody_inr hs
    have ht : loopBody host t =
        .inr ((instruction host t).1, { (instruction host t).2 with instr := (instruction host t).2.instr + 8 }) := by
      have : ¬ 0 < (instruction host t).1.code := by
        rw [← hst, ← h1]; exact mt (Status.code_pos _).mp hne
      simp only [loopBody, if_neg this]
    refine .inr ⟨(st, u), _, rfl, ht, h1.trans hst, ?_, fun x hx => ?_⟩
    · rw [h2]; exact hag.regs 0 (by decide)
    · rw [(exit_cases hs).1, (exit_cases ht).1, h.left x hx, h.right x hx]
      exact ⟨rfl, rfl⟩

theorem preflightChecks_of_visible (hpos : 0 < (applicationTextLen mem rbpf).toNat)
    (hpre : preflightChecks host mem rbpf = .ok) (hagree : ∀ x, Visible mem rbpf x → mem x = mem' x) :
    preflightChecks host mem' rbpf = .ok := by
  rw [← hpre]
  refine (preflightChecks_congr fun x hx => hagree x ?_).symm
  rcases hx with hh | ht | rfl
  · exact .inl hh
  · exact .inr (.inl ht)
  · have hn := and_seven_eq_zero _ (preflightChecks_ok hpre).1
    rw [lastOpcodeAddr_eq hn (by omega)]
    exact .inr (.inl (dist_slot_lt hn (k := (applicationTextLen mem rbpf).toNat / 8 - 1) (by omega) (by simp [dist])))

end

/-! ## A private stack and a byte behind it -/

def stackText : List (List Byte) := [insn 0x7b 0x1a 0xfff8 0, insn 0x79 0xa0 0xfff8 0, insn 0x95 0 0 0]

def peekText : List (List Byte) := [insn 0x71 0x10 0 0, insn 0x95 0 0 0]

def changedMem (text : List (List Byte)) : Mem := writeBytes (sampleMem text) 0x7fffffff [1]

theorem changedMem_of_ne (text : List (List Byte)) {x : Addr} (h : x ≠ 0x7fffffff) :
    sampleMem text x = changedMem text x := by
  refine (writeBytes_of_le ?_).symm
  have hne : dist (0x7fffffff : Addr) x ≠ 0 := fun h0 => h (by rw [← add_dist 0x7fffffff x, h0]; decide)
  simp only [List.length_singleton]
  omega

end PipRiot.Rbpf
