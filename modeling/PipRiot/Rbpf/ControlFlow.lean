import PipRiot.Rbpf.Step
import PipRiot.Rbpf.VerifySound

/-!
# Which slots a verified text can reach

The checks compare jump targets before the increment of the program counter,
skip one slot behind `LDDW` only, and look at nothing but the opcode byte of
the last slot. So an accepted text can leave itself, and can execute slots that
were skipped. `fetch_inside_text` and `registers_in_range` show that these are
the only ways: runs without such a step stay in the text, respectively on
inspected slots.
-/

namespace PipRiot.Rbpf

open Option BitVec

def engineHeads (host : Host) (n : Nat) (mem : Mem) (rbpf : RbpfApplication) (ctx : Addr) (spill : Regs) : List Vm :=
  match engineStart host mem rbpf ctx spill with
  | .ok s => heads (loopBody host) n s
  | .error _ => []

theorem engineHeads_of_done {host : Host} {mem : Mem} {rbpf : RbpfApplication} {ctx : Addr} {spill : Regs}
    {p : Vm → Prop} (n : Nat) (hdone : (engineRun host n mem rbpf ctx spill).isSome = true)
    (hp : ∀ s ∈ engineHeads host n mem rbpf ctx spill, p s) (m : Nat) :
    ∀ s ∈ engineHeads host m mem rbpf ctx spill, p s := by
  intro s hs
  cases hstart : engineStart host mem rbpf ctx spill with
  | error e => simp [engineHeads, hstart] at hs
  | ok s0 =>
    simp only [engineHeads, engineRun, hstart, isSome_map] at hs hp hdone
    obtain ⟨r, hr⟩ := isSome_iff_exists.mp hdone
    exact hp s (mem_heads_of_runLoop n s0 hr m s hs)

def startVm (mem : Mem) (rbpf : RbpfApplication) (ctx : Addr) (spill : Regs) : Vm where
  rbpf := { rbpf with branchesRemaining := branchesAllowed, flags := rbpf.flags ||| flagPreflightDone }
  mem := mem
  regmap := initRegmap rbpf ctx spill
  instr := applicationText mem rbpf

theorem or_flagPreflightDone {x : BitVec 16} (h : x &&& flagPreflightDone ≠ 0) : x ||| flagPreflightDone = x := by
  have h2 : flagPreflightDone = BitVec.twoPow 16 1 := by decide
  rw [h2, and_twoPow] at h
  have hb : x.getLsbD 1 = true := by
    by_contra hx
    exact h (if_neg hx)
  ext i hi
  rw [getElem_or, h2, getElem_twoPow]
  by_cases hi1 : i = 1
  · subst hi1
    simpa [getLsbD_eq_getElem] using hb
  · simp [hi1]

theorem preflightDone_and (x : BitVec 16) : (x ||| flagPreflightDone) &&& configNoReturn = x &&& configNoReturn := by
  rw [BitVec.and_comm, and_or_distrib_left, BitVec.and_comm]
  simp [flagPreflightDone, configNoReturn]

theorem engineStart_iff {host : Host} {mem : Mem} {rbpf : RbpfApplication} {ctx : Addr} {spill : Regs} {s : Vm} :
    engineStart host mem rbpf ctx spill = .ok s ↔
      (rbpf.flags &&& flagPreflightDone ≠ 0 ∨ preflightChecks host mem rbpf = .ok) ∧
        s = startVm mem rbpf ctx spill := by
  have hchecks : preflightChecks host mem { rbpf with branchesRemaining := branchesAllowed } =
    preflightChecks host mem rbpf := rfl
  by_cases hf : rbpf.flags &&& flagPreflightDone = 0
  · cases hc : preflightChecks host mem rbpf with
    | ok =>
      simp only [engineStart, verifyPreflight, ne_eq, hf, hchecks, hc]
      exact ⟨fun h => ⟨.inr trivial, (Except.ok.inj h).symm⟩, fun h => by rw [h.2]; rfl⟩
    | _ => simp [engineStart, verifyPreflight, hf, hchecks, hc]
  · simp only [engineStart, verifyPreflight, ne_eq, hf, not_false_eq_true, if_true, true_or, true_and, startVm,
      or_flagPreflightDone hf]
    exact ⟨fun h => (Except.ok.inj h).symm, fun h => by rw [h]; rfl⟩

theorem engineStart_of_checks {host : Host} {mem : Mem} {rbpf : RbpfApplication} (ctx : Addr) (spill : Regs)
    (h : preflightChecks host mem rbpf = .ok) :
    engineStart host mem rbpf ctx spill = .ok (startVm mem rbpf ctx spill) :=
  engineStart_iff.mpr ⟨.inr h, rfl⟩

def FetchInside (text length : Addr) (s : Vm) : Prop :=
  InText text length s.instr ∧ (s.isDouble = true → InText text length (s.instr + 8))

instance (text length : Addr) (s : Vm) : Decidable (FetchInside text length s) :=
  inferInstanceAs (Decidable (_ ∧ _))

def MissesText (text length : Addr) (s : Vm) : Prop :=
  ∀ a bs, s.storeOf = some (a, bs) → ∀ x, dist text x < length.toNat → bs.length ≤ dist a x

def Vm.jumpTarget (s : Vm) : Addr := pointerAdd s.instr s.current.offset + 8

def slotIndex (text p : Addr) : Nat := dist text p / 8

/-- The instruction names registers that `regmap` has; what stands behind the array in
the C stack is not modelled. -/
def Vm.InRegmap (s : Vm) : Prop := s.current.dst.toNat < 11 ∧ s.current.src.toNat < 11

instance (s : Vm) : Decidable s.InRegmap := inferInstanceAs (Decidable (_ ∧ _))

/-- The steps that stay in the text: no register behind the array, no store into the
text, no double-length load in its last two slots, no jump from an inspected slot to
the end, and none out of the text from a skipped one. -/
structure StaysInText (mem : Mem) (text length : Addr) (s : Vm) : Prop where
  registers : s.InRegmap
  store : MissesText text length s
  double : s.isDouble = true → s.instr + 8 + 8 ≠ text + length
  jump : s.takesJump = true → inspected mem text (slotIndex text s.instr) = true →
    s.jumpTarget ≠ text + length
  skipped : s.takesJump = true → inspected mem text (slotIndex text s.instr) = false →
    InText text length s.jumpTarget

/-- The steps that keep to inspected slots: no store into the text, no step to its end
(by a jump, a double-length load, or at all where it need not end in a return), no
`LDDWD` or `LDDWR` before a slot that reads as `LDDW`, no jump to a skipped slot. -/
structure StaysInspected (mem : Mem) (flags : BitVec 16) (text length : Addr) (s : Vm) : Prop where
  store : MissesText text length s
  last : flags &&& configNoReturn ≠ 0 → s.takesJump = false → s.instr + 8 ≠ text + length
  double : s.isDouble = true → s.instr + 8 + 8 ≠ text + length
  pair : s.isDouble = true → s.opcode ≠ some .lddw → mem (s.instr + 8) ≠ lddwByte
  jump : s.takesJump = true → s.jumpTarget ≠ text + length ∧
    inspected mem text (slotIndex text s.jumpTarget) = true

/-! ## Being at a slot of the unchanged text -/

structure AtSlot (mem : Mem) (text length : Addr) (s : Vm) (k : Nat) : Prop where
  instr : s.instr = slotAddr text k
  text : ∀ x, dist text x < length.toNat → s.mem x = mem x

section
variable {mem : Mem} {text length : Addr} {n k : Nat} {s : Vm} (hn : length.toNat = 8 * n) (hk : k < n)
  (ha : AtSlot mem text length s k)

include hn hk in
theorem slotIndex_slotAddr : slotIndex text (slotAddr text k) = k := by
  unfold slotIndex
  rw [dist_slotAddr_nat text (by omega)]
  omega

include hn hk ha in
theorem current_eq : s.current = fetch mem (slotAddr text k) := by
  unfold Vm.current
  rw [ha.instr]
  exact fetch_congr fun x hx => ha.text x (dist_slot_lt hn hk hx)

include hn hk ha in
theorem opcode_eq : s.opcode = Opcode.ofByte (mem (slotAddr text k)) := by
  unfold Vm.opcode
  rw [ha.instr, ha.text _ (dist_slot_lt hn hk (by simp [dist]))]

theorem takesJump_isJump (h : s.takesJump = true) : ∃ op, s.opcode = some op ∧ op.isJump = true := by
  cases hop : s.opcode with
  | none => simp [Vm.takesJump, hop] at h
  | some op =>
    refine ⟨op, rfl, ?_⟩
    by_contra hj
    rw [takesJump_of_not_isJump hop (by simpa using hj)] at h; cases h

theorem isDouble_opcode (h : s.isDouble = true) : ∃ op, s.opcode = some op ∧ op.isDouble = true := by
  cases hop : s.opcode with
  | none => simp [Vm.isDouble, hop] at h
  | some op => exact ⟨op, rfl, by rwa [isDouble_eq hop] at h⟩

theorem text_kept {host : Host} {t : Vm} (hcalls : host.Keeps fun x => dist text x < length.toNat)
    (hm : MissesText text length s) (hs : Step host s t) {x : Addr} (hx : dist text x < length.toNat) :
    t.mem x = s.mem x := by
  cases hs with
  | plain op hop hret hcall hj hd hi hr hmem =>
    rw [hmem]
    unfold Vm.stored
    cases hst : s.storeOf with
    | none => rfl
    | some ab => exact writeBytes_of_le (hm ab.1 ab.2 hst x hx)
  | double hd hj hi hr hmem | jump hj hi hr hb hmem => rw [hmem]
  | call f hop hf hi hr hmem => rw [hmem]; exact (hcalls _ f hf _ _ _).2 x hx

include ha in
theorem atSlot_next {host : Host} {t : Vm} {j : Nat} (hcalls : host.Keeps fun x => dist text x < length.toNat)
    (hm : MissesText text length s) (hs : Step host s t) (hi : t.instr = slotAddr text j) :
    AtSlot mem text length t j :=
  ⟨hi, fun x hx => (text_kept hcalls hm hs hx).trans (ha.text x hx)⟩

/-! ## One step -/

include hn hk ha in
theorem not_last_of_opcode {op : Opcode} (hlast : mem (slotAddr text (n - 1 : Nat)) = returnByte)
    (hop : s.opcode = some op) (hret : op ≠ .ret) : k + 1 < n := by
  by_contra hge
  have hkn : k = n - 1 := by omega
  subst hkn
  rw [opcode_eq hn hk ha, hlast, ofByte_returnByte] at hop
  exact hret (some.inj hop).symm

include ha in
theorem atSlot_double : s.instr + 8 + 8 = slotAddr text (k + 2 : Nat) := by
  rw [ha.instr, slotAddr_next, slotAddr_next]; congr 1

include ha in
theorem atSlot_jumpTarget : s.jumpTarget = slotAddr text (k + s.current.offset.toInt + 1) := by
  unfold Vm.jumpTarget
  rw [ha.instr, pointerAdd_slotAddr, slotAddr_next]

include hn hk ha in
theorem checked_jump {host : Host} (hok : SlotOk host mem text n k) (hj : s.takesJump = true) :
    0 ≤ k + s.current.offset.toInt ∧ k + s.current.offset.toInt < n := by
  obtain ⟨op, hop, hjop⟩ := takesJump_isJump hj
  rw [opcode_eq hn hk ha] at hop
  rw [current_eq hn hk ha]
  exact hok.target (clsBranch_of_isJump hop hjop)

variable {host : Host} {t : Vm}

include hn hk ha in
theorem jump_lands {host : Host} (hok : SlotOk host mem text n k) (hj : s.takesJump = true)
    (hne : s.jumpTarget ≠ text + length) : ∃ j : Nat, j < n ∧ s.jumpTarget = slotAddr text j := by
  have htgt := atSlot_jumpTarget ha
  obtain ⟨h0, h1⟩ := checked_jump hn hk ha hok hj
  obtain ⟨j, hj'⟩ := Int.eq_ofNat_of_zero_le (show 0 ≤ k + s.current.offset.toInt + 1 by omega)
  rw [hj'] at htgt
  have hjn : j ≠ n := fun he => hne (by rw [htgt, he, slotAddr_end hn])
  exact ⟨j, by omega, htgt⟩

include hn hk ha in
theorem stays_in_text (hv : Verified host mem text length n) (hlast : mem (slotAddr text (n - 1 : Nat)) = returnByte)
    (hcalls : host.Keeps fun x => dist text x < length.toNat) (hg : StaysInText mem text length s)
    (hs : Step host s t) : ∃ j, j < n ∧ AtSlot mem text length t j := by
  have hidx : slotIndex text s.instr = k := by rw [ha.instr, slotIndex_slotAddr hn hk]
  have hnext : ∀ j : Nat, t.instr = slotAddr text j → AtSlot mem text length t j :=
    fun j hi => atSlot_next ha hcalls hg.store hs hi
  cases hs with
  | plain op hop hret hcall hj hd hi hr hmem =>
    refine ⟨k + 1, not_last_of_opcode hn hk ha hlast hop hret, hnext _ ?_⟩
    rw [hi, ha.instr, slotAddr_next]; rfl
  | double hd hj hi hr hmem =>
    obtain ⟨op, hop, hdop⟩ := isDouble_opcode hd
    have h1 := not_last_of_opcode hn hk ha hlast hop (by rintro rfl; simp [Opcode.isDouble] at hdop)
    have h2 := atSlot_double ha
    have h3 : k + 2 ≠ n := fun he => hg.double hd (by rw [h2, he, slotAddr_end hn])
    exact ⟨k + 2, by omega, hnext _ (hi.trans h2)⟩
  | jump hj hi hr hb hmem =>
    cases hin : inspected mem text k with
    | true =>
      -- an inspected jump was range-checked, so its target can only miss the text by one
      obtain ⟨j, hjn, he⟩ := jump_lands hn hk ha (hv.slots k hk hin) hj (hg.jump hj (hidx ▸ hin))
      exact ⟨j, hjn, hnext _ (hi.trans he)⟩
    | false =>
      have htgt := atSlot_jumpTarget ha
      have hin' := hg.skipped hj (hidx ▸ hin)
      rw [htgt] at hin'
      obtain ⟨j, hjn, he⟩ := slot_of_inText hn hin'
      exact ⟨j, hjn, hnext _ (hi.trans (htgt.trans he))⟩
  | call f hop hf hi hr hmem =>
    refine ⟨k + 1, not_last_of_opcode hn hk ha hlast hop (by simp), hnext _ ?_⟩
    rw [hi, ha.instr, slotAddr_next]; rfl

include hn hk ha in
theorem stays_inspected {flags : BitVec 16} (hv : Verified host mem text length n) (hin : inspected mem text k = true)
    (hlast : flags &&& configNoReturn = 0 → mem (slotAddr text (n - 1 : Nat)) = returnByte)
    (hcalls : host.Keeps fun x => dist text x < length.toNat) (hg : StaysInspected mem flags text length s)
    (hs : Step host s t) : ∃ j, j < n ∧ AtSlot mem text length t j ∧ inspected mem text j = true := by
  have hop' := opcode_eq hn hk ha
  have hnext : ∀ j : Nat, t.instr = slotAddr text j → AtSlot mem text length t j :=
    fun j hi => atSlot_next ha hcalls hg.store hs hi
  have hmore : ∀ op, s.opcode = some op → op ≠ .ret → s.takesJump = false → k + 1 < n := by
    intro op hop hret hj
    by_cases hfl : flags &&& configNoReturn = 0
    · exact not_last_of_opcode hn hk ha (hlast hfl) hop hret
    · have hend : k + 1 ≠ n := fun he => hg.last hfl hj
        (by rw [ha.instr, slotAddr_next, show (k : Int) + 1 = (k + 1 : Nat) by omega, he, slotAddr_end hn])
      omega
  -- a step to the following slot, from a slot that does not hold `LDDW` or a return
  have hsucc : ∀ op, s.opcode = some op → op ≠ .ret → op ≠ .lddw → s.takesJump = false →
      t.instr = s.instr + 8 → ∃ j, j < n ∧ AtSlot mem text length t j ∧ inspected mem text j = true := by
    intro op hop hret hlddw hj hi
    have hi' : t.instr = slotAddr text (k + 1 : Nat) := by rw [hi, ha.instr, slotAddr_next]; rfl
    have hne : mem (slotAddr text k) ≠ lddwByte := fun he => by
      rw [hop', (ofByte_lddw _).mpr he] at hop; exact hlddw (some.inj hop).symm
    exact ⟨k + 1, hmore op hop hret hj, hnext _ hi', inspected_succ hne⟩
  cases hs with
  | plain op hop hret hcall hj hd hi hr hmem =>
    refine hsucc op hop hret (fun he => ?_) hj hi
    rw [isDouble_eq hop, he] at hd; cases hd
  | double hd hj hi hr hmem =>
    have h2 := atSlot_double ha
    have h3 : k + 2 ≠ n := fun he => hg.double hd (by rw [h2, he, slotAddr_end hn])
    obtain ⟨op, hop, hdop⟩ := isDouble_opcode hd
    have h1 := hmore op hop (by rintro rfl; simp [Opcode.isDouble] at hdop) hj
    refine ⟨k + 2, by omega, hnext _ (hi.trans h2), ?_⟩
    by_cases hl : mem (slotAddr text k) = lddwByte
    · exact (inspected_skip hin hl).2
    · have hp := hg.pair hd (fun he => hl ((ofByte_lddw _).mp (hop' ▸ he)))
      rw [ha.instr, slotAddr_next] at hp; exact inspected_succ hp
  | jump hj hi hr hb hmem =>
    obtain ⟨hne, hins⟩ := hg.jump hj
    obtain ⟨j, hjn, he⟩ := jump_lands hn hk ha (hv.slots k hk hin) hj hne
    rw [he, slotIndex_slotAddr hn hjn] at hins
    exact ⟨j, hjn, hnext _ (hi.trans he), hins⟩
  | call f hop hf hi hr hmem => exact hsucc .call hop (by simp) (by simp) (takesJump_of_not_isJump hop rfl) hi

end

/-! ## Sample applications -/

def insn (opcode regs : Byte) (offset immediate : Nat) : List Byte :=
  opcode :: regs :: leBytes 2 offset ++ leBytes 4 immediate

variable (text : List (List Byte))

def sampleImage : List Byte :=
  [0x46504272, 0, 0, 0, 0, text.flatten.length, 0].flatMap (leBytes 4) ++ text.flatten

def sampleMem : Mem := writeBytes (fun _ => 0) 0x20001000 (sampleImage text)

def sampleApp : RbpfApplication :=
  applicationSetup (sampleMem text) zeroApplication 0x20000000 0x20001000
    (BitVec.ofNat 32 (28 + text.flatten.length))

def sampleStart : Vm := startVm (sampleMem text) (sampleApp text) 0 fun _ => 0

def movText : List (List Byte) := [insn 0xb7 0 0 1, insn 0x95 0 0 0]

/-- A double-length load and a jump over one instruction. -/
def branchText : List (List Byte) :=
  [insn 0x18 0 0 5, insn 0 0 0 0, insn 0x15 0 1 5, insn 0xb7 0 0 1, insn 0x95 0 0 0]

def jumpText : List (List Byte) := [insn 0x05 0 1 0, insn 0x95 0 0 0]

def skipText : List (List Byte) :=
  [insn 0x05 0 1 0, insn 0x18 0 0 0, insn 0xbf 0x0f 0 0, insn 0x95 0 0 0]

/-! ## Runs -/

section
variable {host : Host} {mem : Mem} {rbpf : RbpfApplication} {ctx : Addr} {spill : Regs} {s0 s : Vm}

theorem atSlot_start (h : engineStart host mem rbpf ctx spill = .ok s0) :
    AtSlot mem (applicationText mem rbpf) (applicationTextLen mem rbpf) s0 0 := by
  obtain ⟨_, rfl⟩ := engineStart_iff.mp h
  exact ⟨(slotAddr_zero _).symm, fun _ _ => rfl⟩

theorem fetch_inside_text (hpre : preflightChecks host mem rbpf = .ok)
    (hret : rbpf.flags &&& configNoReturn = 0) (hpos : applicationTextLen mem rbpf ≠ 0)
    (hw : (applicationText mem rbpf).toNat + (applicationTextLen mem rbpf).toNat < 2 ^ 32)
    (hcalls : host.Keeps fun x => dist (applicationText mem rbpf) x < (applicationTextLen mem rbpf).toNat)
    (hstart : engineStart host mem rbpf ctx spill = .ok s0) (h : ReachBy (loopBody host)
      (StaysInText mem (applicationText mem rbpf) (applicationTextLen mem rbpf)) s0 s) :
    FetchInside (applicationText mem rbpf) (applicationTextLen mem rbpf) s := by
  have hv := preflight_verified hpre hpos hw
  have hlast := preflight_last hpre hret hv
  have hn := hv.length_eq
  have hinv : ∃ k, k < (applicationTextLen mem rbpf).toNat / 8 ∧
      AtSlot mem (applicationText mem rbpf) (applicationTextLen mem rbpf) s k := by
    refine ReachBy.inv (fun t => ∃ k, k < (applicationTextLen mem rbpf).toNat / 8 ∧
      AtSlot mem (applicationText mem rbpf) (applicationTextLen mem rbpf) t k) ⟨0, hv.pos, atSlot_start hstart⟩ ?_ h
    rintro t u ⟨k, hk, ha⟩ hg hb
    exact stays_in_text hn hk ha hv hlast hcalls hg (step_cases hb)
  obtain ⟨k, hk, ha⟩ := hinv
  refine ⟨by rw [ha.instr]; exact inText_slotAddr hn hk, fun hd => ?_⟩
  obtain ⟨op, hop, hdop⟩ := isDouble_opcode hd
  have hk1 := not_last_of_opcode hn hk ha hlast hop (by rintro rfl; simp [Opcode.isDouble] at hdop)
  rw [ha.instr, slotAddr_next]
  exact inText_slotAddr hn hk1

theorem branchText_start : engineStart plainHost (sampleMem branchText) (sampleApp branchText) 0 (fun _ => 0) =
    .ok (sampleStart branchText) :=
  engineStart_of_checks 0 _ (by decide)

theorem missesText_of_none {text length : Addr} (h : s.storeOf = none) : MissesText text length s := by
  intro a bs hs
  rw [h] at hs
  cases hs

theorem fetch_inside_text_branchText :
    (heads (loopBody plainHost) 3 (sampleStart branchText)).map (fun s => (s.isDouble, s.takesJump)) =
        [(true, false), (false, true), (false, false)] ∧
      ∀ s ∈ heads (loopBody plainHost) 3 (sampleStart branchText),
        FetchInside (applicationText (sampleMem branchText) (sampleApp branchText))
          (applicationTextLen (sampleMem branchText) (sampleApp branchText)) s := by
  refine ⟨by decide, fun s hs => ?_⟩
  refine fetch_inside_text (by decide) (by decide) (by decide) (by decide) (plainHost_keeps _) branchText_start
    (heads_reach 3 _ (fun t ht => ?_) s hs)
  have hstore : ∀ t ∈ heads (loopBody plainHost) 3 (sampleStart branchText), t.storeOf = none := by decide
  refine ⟨?_, missesText_of_none (hstore t ht), ?_, ?_, ?_⟩
  all_goals revert t; decide

theorem fetch_leaves_jumpText :
    preflightChecks plainHost (sampleMem jumpText) (sampleApp jumpText) = .ok ∧
      (sampleApp jumpText).flags &&& configNoReturn = 0 ∧
      ∃ s ∈ engineHeads plainHost 2 (sampleMem jumpText) (sampleApp jumpText) 0 (fun _ => 0),
        ¬ InText (applicationText (sampleMem jumpText) (sampleApp jumpText))
          (applicationTextLen (sampleMem jumpText) (sampleApp jumpText)) s.instr := by
  refine ⟨by decide, by decide, by decide⟩

theorem registers_in_range (hpre : preflightChecks host mem rbpf = .ok) (hpos : applicationTextLen mem rbpf ≠ 0)
    (hw : (applicationText mem rbpf).toNat + (applicationTextLen mem rbpf).toNat < 2 ^ 32)
    (hcalls : host.Keeps fun x => dist (applicationText mem rbpf) x < (applicationTextLen mem rbpf).toNat)
    (hstart : engineStart host mem rbpf ctx spill = .ok s0) (h : ReachBy (loopBody host)
      (StaysInspected mem rbpf.flags (applicationText mem rbpf) (applicationTextLen mem rbpf)) s0 s) :
    s.current.dst.toNat < 11 ∧ s.current.src.toNat < 11 ∧
      inspected mem (applicationText mem rbpf) (slotIndex (applicationText mem rbpf) s.instr) = true := by
  have hv := preflight_verified hpre hpos hw
  have hn := hv.length_eq
  have hinv : ∃ k, k < (applicationTextLen mem rbpf).toNat / 8 ∧
      AtSlot mem (applicationText mem rbpf) (applicationTextLen mem rbpf) s k ∧
      inspected mem (applicationText mem rbpf) k = true := by
    refine ReachBy.inv (fun t => ∃ k, k < (applicationTextLen mem rbpf).toNat / 8 ∧
      AtSlot mem (applicationText mem rbpf) (applicationTextLen mem rbpf) t k ∧
      inspected mem (applicationText mem rbpf) k = true) ⟨0, hv.pos, atSlot_start hstart, rfl⟩ ?_ h
    rintro t u ⟨k, hk, ha, hin⟩ hg hb
    exact stays_inspected hn hk ha hv hin (fun hret => preflight_last hpre hret hv) hcalls hg (step_cases hb)
  obtain ⟨k, hk, ha, hin⟩ := hinv
  have hok := hv.slots k hk hin
  rw [current_eq hn hk ha, ha.instr, slotIndex_slotAddr hn hk]
  exact ⟨hok.dst, hok.src, hin⟩

theorem registers_in_range_branchText :
    (heads (loopBody plainHost) 3 (sampleStart branchText)).length = 3 ∧
      ∀ s ∈ heads (loopBody plainHost) 3 (sampleStart branchText),
        s.current.dst.toNat < 11 ∧ s.current.src.toNat < 11 := by
  refine ⟨by decide, fun s hs => ?_⟩
  have hstore : ∀ t ∈ heads (loopBody plainHost) 3 (sampleStart branchText), t.storeOf = none := by decide
  have := registers_in_range (by decide) (by decide) (by decide) (plainHost_keeps _) branchText_start
    (heads_reach 3 _ (fun t ht => ⟨missesText_of_none (hstore t ht), by revert t; decide, by revert t; decide,
      by revert t; decide, by revert t; decide⟩) s hs)
  exact ⟨this.1, this.2.1⟩

theorem registers_out_of_range_skipText :
    preflightChecks plainHost (sampleMem skipText) (sampleApp skipText) = .ok ∧
      ∃ s ∈ engineHeads plainHost 2 (sampleMem skipText) (sampleApp skipText) 0 (fun _ => 0),
        s.opcode.isSome = true ∧ s.current.dst = 15 ∧
        inspected (sampleMem skipText) (applicationText (sampleMem skipText) (sampleApp skipText))
          (slotIndex (applicationText (sampleMem skipText) (sampleApp skipText)) s.instr) = false := by
  refine ⟨by decide, by decide⟩

end

end PipRiot.Rbpf
