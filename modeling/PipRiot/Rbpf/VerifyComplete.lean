import PipRiot.Rbpf.ControlFlow

/-!
# Which texts the pre-flight checks turn away

The engine jumps to the slot behind the branch target and the checks look at
the target itself, so the two disagree at both ends of the text.
`preflight_complete_iff`: of the texts whose instructions are in order, the
checks accept exactly those without a branch to the first instruction, whose
other slots of the branch class point into the text as well.
-/

namespace PipRiot.Rbpf

def jumpByte (b : Byte) : Bool := (Opcode.ofByte b).any Opcode.isJump

def doubleByte (b : Byte) : Bool := (Opcode.ofByte b).any Opcode.isDouble

/-- Whether slot `k` holds an instruction, and not the second half of a
double-length one. -/
def instructionAt (mem : Mem) (text : Addr) : Nat → Bool
  | 0 => true
  | k + 1 => !(instructionAt mem text k && doubleByte (mem (slotAddr text k)))

def RegistersOk (ins : BpfInstruction) : Prop := ins.dst.toNat < 11 ∧ ins.src.toNat < 11

instance (ins : BpfInstruction) : Decidable (RegistersOk ins) := inferInstanceAs (Decidable (_ ∧ _))

structure TextOk (host : Host) (mem : Mem) (text : Addr) (n : Nat) : Prop where
  pos : 0 < n
  registers : ∀ k < n, instructionAt mem text k = true → RegistersOk (fetch mem (slotAddr text k))
  calls : ∀ k < n, instructionAt mem text k = true → mem (slotAddr text k) = callByte →
    checkCall host (fetch mem (slotAddr text k)).immediate = true
  jumps : ∀ k < n, instructionAt mem text k = true → jumpByte (mem (slotAddr text k)) = true →
    0 ≤ k + (fetch mem (slotAddr text k)).offset.toInt + 1 ∧
      k + (fetch mem (slotAddr text k)).offset.toInt + 1 < n
  doubles : ∀ k < n, instructionAt mem text k = true → doubleByte (mem (slotAddr text k)) = true → k + 1 < n
  last : mem (slotAddr text (n - 1 : Nat)) = returnByte

structure Agreeable (host : Host) (mem : Mem) (text length : Addr) (n k : Nat) : Prop where
  -- the comparisons are signed
  half : mem (slotAddr text k) &&& clsMask = clsBranch → text.msb = (text + length).msb
  first : instructionAt mem text k = true → jumpByte (mem (slotAddr text k)) = true →
    k + (fetch mem (slotAddr text k)).offset.toInt + 1 ≠ 0
  -- calls and returns have an offset field too, and so does a second half
  other : mem (slotAddr text k) &&& clsMask = clsBranch →
    ¬ (instructionAt mem text k = true ∧ jumpByte (mem (slotAddr text k)) = true) →
    0 ≤ k + (fetch mem (slotAddr text k)).offset.toInt ∧ k + (fetch mem (slotAddr text k)).offset.toInt < n
  registers : instructionAt mem text k = false → RegistersOk (fetch mem (slotAddr text k))
  calls : instructionAt mem text k = false → mem (slotAddr text k) = callByte →
    checkCall host (fetch mem (slotAddr text k)).immediate = true

theorem clsBranch_of_jumpByte {b : Byte} (h : jumpByte b = true) : b &&& clsMask = clsBranch := by
  unfold jumpByte at h
  cases hop : Opcode.ofByte b with
  | none => rw [hop] at h; cases h
  | some op =>
    rw [hop] at h; exact clsBranch_of_isJump hop h

section
variable {host : Host} {mem : Mem} {text length : Addr} {n : Nat} (hn : length.toNat = 8 * n)
include hn

/-! ## One slot -/

theorem verifySlot_none_iff (hw : text.toNat + length.toNat < 2 ^ 32) {k : Nat} (hk : k < n) :
    verifySlot host text length (slotAddr text k) (fetch mem (slotAddr text k)) = none ↔
      SlotOk host mem text n k ∧
        (mem (slotAddr text k) &&& clsMask = clsBranch → text.msb = (text + length).msb) := by
  constructor
  · intro h
    refine ⟨verifySlot_sound hn hw hk h, fun hc => ?_⟩
    have hne : ¬ (fetch mem (slotAddr text k)).opcode = lddwByte := by
      intro hl
      rw [show mem (slotAddr text k) = lddwByte from hl] at hc
      exact absurd hc (by decide)
    have hcls : (fetch mem (slotAddr text k)).opcode &&& clsMask = clsBranch := hc
    simp only [verifySlot, hne, hcls, pointerAdd_slotAddr, if_false, true_and] at h
    split at h
    · cases h
    · split at h
      · cases h
      · rename_i hjump
        simp only [not_or, Bool.not_eq_true] at hjump
        exact ((target_accepted_iff hn hw hk _).mp hjump).1
  · rintro ⟨hok, hhalf⟩
    have hreg : ¬ (11 ≤ (fetch mem (slotAddr text k)).dst.toNat ∨ 11 ≤ (fetch mem (slotAddr text k)).src.toNat) := by
      have := hok.dst
      have := hok.src; omega
    have hjump : ¬ ((fetch mem (slotAddr text k)).opcode &&& clsMask = clsBranch ∧
        ((text + length).sle (slotAddr text (k + (fetch mem (slotAddr text k)).offset.toInt)) = true ∨
          (slotAddr text (k + (fetch mem (slotAddr text k)).offset.toInt)).slt text = true)) := by
      rintro ⟨hc, hout⟩
      obtain ⟨he, ht⟩ := (target_accepted_iff hn hw hk _).mpr ⟨hhalf hc, hok.target hc⟩
      rw [he, ht] at hout
      simp at hout
    have hcall : ¬ ((fetch mem (slotAddr text k)).opcode = callByte ∧
        checkCall host (fetch mem (slotAddr text k)).immediate = false) := by
      rintro ⟨hc, hout⟩
      rw [hok.call hc] at hout; cases hout
    simp only [verifySlot, pointerAdd_slotAddr, if_neg hreg, if_neg hjump, if_neg hcall, ite_self]

/-! ## The pass -/

theorem verifyFrom_complete (hw : text.toNat + length.toNat < 2 ^ 32) (hok : ∀ k < n, inspected mem text k = true →
      verifySlot host text length (slotAddr text k) (fetch mem (slotAddr text k)) = none) :
    ∀ fuel k, inspected mem text k = true → verifyFrom host mem text length fuel k = .ok
  | 0, _, _ => rfl
  | fuel + 1, k, hk => by
    by_cases hin : text.toNat + 8 * k < (text + length).toNat
    · have hkn : k < n := by
        rw [BitVec.toNat_add, Nat.mod_eq_of_lt hw] at hin; omega
      simp only [verifyFrom, hin, if_true, hok k hkn hk]
      apply verifyFrom_complete hw hok
      by_cases hl : mem (slotAddr text k) = lddwByte
      · rw [if_pos (show (fetch mem (slotAddr text k)).opcode = lddwByte from hl)]
        exact (inspected_skip hk hl).2
      · rw [if_neg (show ¬ (fetch mem (slotAddr text k)).opcode = lddwByte from hl)]
        exact inspected_succ hl
    · simp only [verifyFrom, hin, if_false]

theorem verifyFrom_wrapped (hw : ¬ text.toNat + length.toNat < 2 ^ 32) (fuel k : Nat) :
    verifyFrom host mem text length fuel k = .ok := by
  have hend : (text + length).toNat + 2 ^ 32 = text.toNat + length.toNat := by
    rw [BitVec.toNat_add]; omega
  cases fuel with
  | zero => rfl
  | succ fuel =>
    have hin : ¬ text.toNat + 8 * k < (text + length).toNat := by omega
    simp only [verifyFrom, hin, if_false]

theorem verifyFrom_ok_iff {fuel : Nat} (hf : n ≤ fuel) : verifyFrom host mem text length fuel 0 = .ok ↔
    (text.toNat + length.toNat < 2 ^ 32 → ∀ k < n, inspected mem text k = true →
      verifySlot host text length (slotAddr text k) (fetch mem (slotAddr text k)) = none) := by
  by_cases hw : text.toNat + length.toNat < 2 ^ 32
  · constructor
    · intro h _ k hk hi
      exact verifyFrom_passes hn hw fuel 0 h (by omega) rfl k (by omega) hk hi
    · intro h
      exact verifyFrom_complete hn hw (h hw) fuel 0 rfl
  · exact iff_of_true (verifyFrom_wrapped hn hw fuel 0) fun h => absurd h hw

end

/-! ## What is left of the checks on a text in order -/

section
variable {host : Host} {mem : Mem} {text length : Addr} {n : Nat}

theorem agreeable_iff (ht : TextOk host mem text n) {k : Nat} (hk : k < n) :
    (SlotOk host mem text n k ∧
        (mem (slotAddr text k) &&& clsMask = clsBranch → text.msb = (text + length).msb)) ↔
      Agreeable host mem text length n k := by
  constructor
  · rintro ⟨hok, hhalf⟩
    refine ⟨hhalf, fun hi hj => ?_, fun hc _ => hok.target hc, fun _ => ⟨hok.dst, hok.src⟩, fun _ => hok.call⟩
    have := hok.target (clsBranch_of_jumpByte hj); omega
  · intro h
    refine ⟨?_, h.half⟩
    cases hi : instructionAt mem text k with
    | false =>
      have hr := h.registers hi
      exact ⟨hr.1, hr.2, fun hc => h.other hc (by simp [hi]), h.calls hi⟩
    | true =>
      have hr := ht.registers k hk hi
      refine ⟨hr.1, hr.2, fun hc => ?_, ht.calls k hk hi⟩
      cases hj : jumpByte (mem (slotAddr text k)) with
      | false => exact h.other hc (by simp [hj])
      | true =>
        have hin := ht.jumps k hk hi hj
        have hne := h.first hi hj
        omega

end

theorem preflightChecks_ok_iff {host : Host} {mem : Mem} {rbpf : RbpfApplication} {n : Nat}
    (hn : (applicationTextLen mem rbpf).toNat = 8 * n) (ht : TextOk host mem (applicationText mem rbpf) n) :
    preflightChecks host mem rbpf = .ok ↔
      verifyFrom host mem (applicationText mem rbpf) (applicationTextLen mem rbpf)
        ((applicationTextLen mem rbpf).toNat / 8) 0 = .ok := by
  refine ⟨fun h => (preflightChecks_ok h).2.1, fun h => ?_⟩
  have hlen : ¬ applicationTextLen mem rbpf &&& 0x7 ≠ 0 := by
    simp only [ne_eq, not_not]
    apply BitVec.eq_of_toNat_eq
    exact (Nat.and_two_pow_sub_one_eq_mod _ 3).trans (by rw [hn]; simp)
  simp only [preflightChecks, if_neg hlen, h, lastOpcodeAddr_eq hn ht.pos, ht.last, ne_eq, not_true_eq_false,
    false_and, if_false]

theorem preflight_complete_iff (host : Host) (mem : Mem) (rbpf : RbpfApplication) (n : Nat)
    (hn : (applicationTextLen mem rbpf).toNat = 8 * n) (ht : TextOk host mem (applicationText mem rbpf) n) :
    (verifyPreflight host mem rbpf).1 = .ok ↔
      (rbpf.flags &&& flagPreflightDone = 0 →
        (applicationText mem rbpf).toNat + (applicationTextLen mem rbpf).toNat < 2 ^ 32 →
        ∀ k < n, inspected mem (applicationText mem rbpf) k = true →
          Agreeable host mem (applicationText mem rbpf) (applicationTextLen mem rbpf) n k) := by
  have hchecks : preflightChecks host mem rbpf = .ok ↔
      ((applicationText mem rbpf).toNat + (applicationTextLen mem rbpf).toNat < 2 ^ 32 →
        ∀ k < n, inspected mem (applicationText mem rbpf) k = true →
          Agreeable host mem (applicationText mem rbpf) (applicationTextLen mem rbpf) n k) := by
    rw [preflightChecks_ok_iff hn ht, verifyFrom_ok_iff hn (by omega)]
    refine forall_congr' fun hw => forall_congr' fun k => forall_congr' fun hk => forall_congr' fun _ => ?_
    rw [verifySlot_none_iff hn hw hk, agreeable_iff ht hk]
  by_cases hdone : rbpf.flags &&& flagPreflightDone = 0
  · simp only [verifyPreflight, hdone, ne_eq, not_true_eq_false, if_false, true_implies]
    split <;> simp_all
  · refine iff_of_true ?_ fun h => absurd h hdone
    rw [verifyPreflight, if_pos hdone]

def countText : List (List Byte) := [insn 0x07 0 0 1, insn 0xa5 0 0xfffe 10, insn 0x95 0 0 0]

def initCountText : List (List Byte) := insn 0xb7 0 0 0 :: countText

theorem preflight_complete_initCountText :
    TextOk plainHost (sampleMem initCountText) (applicationText (sampleMem initCountText) (sampleApp initCountText)) 4 ∧
      (verifyPreflight plainHost (sampleMem initCountText) (sampleApp initCountText)).1 = .ok := by
  have ht : TextOk plainHost (sampleMem initCountText)
      (applicationText (sampleMem initCountText) (sampleApp initCountText)) 4 :=
    ⟨by decide, by decide, by decide, by decide, by decide, by decide⟩
  refine ⟨ht, (preflight_complete_iff _ _ _ 4 (by decide) ht).mpr fun _ _ k hk hi => ?_⟩
  constructor <;> revert k <;> decide

theorem preflight_incomplete_countText :
    (applicationTextLen (sampleMem countText) (sampleApp countText)).toNat = 8 * 3 ∧
      TextOk plainHost (sampleMem countText) (applicationText (sampleMem countText) (sampleApp countText)) 3 ∧
      (verifyPreflight plainHost (sampleMem countText) (sampleApp countText)).1 = .illegalJump :=
  ⟨by decide, ⟨by decide, by decide, by decide, by decide, by decide, by decide⟩, by decide⟩

end PipRiot.Rbpf
