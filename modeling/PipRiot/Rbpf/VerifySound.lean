import PipRiot.Rbpf.Verify

/-!
# What the pre-flight checks establish

The pass over the text skips the slot behind each `LDDW` it meets; `inspected`
computes which slots it looks at. `preflight_verified`: if the checks accept a
text that does not reach the end of the address space, every inspected slot has
valid registers, and its branch target, before the increment, is a slot of the
text.
-/

namespace PipRiot.Rbpf

open BitVec hiding not_or

/-! ## Slot addresses -/

def InText (text length p : Addr) : Prop := dist text p + 8 ≤ length.toNat

instance (text length p : Addr) : Decidable (InText text length p) := inferInstanceAs (Decidable (_ ≤ _))

variable (text : Addr)

theorem slotAddr_add (j k : Int) : slotAddr text j + BitVec.ofInt 32 (8 * k) = slotAddr text (j + k) := by
  unfold slotAddr
  rw [BitVec.add_assoc, ← ofInt_add, Int.mul_add]

theorem slotAddr_next (j : Int) : slotAddr text j + 8 = slotAddr text (j + 1) :=
  slotAddr_add text j 1

theorem pointerAdd_slotAddr (j : Int) (offset : BitVec 16) :
    pointerAdd (slotAddr text j) offset = slotAddr text (j + offset.toInt) :=
  slotAddr_add text j offset.toInt

theorem slotAddr_zero : slotAddr text 0 = text := by simp [slotAddr]

theorem slotAddr_toNat (j : Int) : (slotAddr text j).toNat = (text.toNat + (8 * j % 2 ^ 32).toNat) % 2 ^ 32 := by
  rfl

theorem dist_slotAddr (j : Int) : (dist text (slotAddr text j) : Int) = 8 * j % 2 ^ 32 := by
  unfold dist slotAddr
  rw [BitVec.add_comm, BitVec.add_sub_cancel, toNat_ofInt]
  omega

variable {k : Nat}

theorem dist_slotAddr_nat (hk : 8 * k < 2 ^ 32) : dist text (slotAddr text k) = 8 * k := by
  have := dist_slotAddr text k
  omega

section
variable {text length : Addr} {n : Nat} (hn : length.toNat = 8 * n)
include hn

theorem inText_slotAddr (hk : k < n) : InText text length (slotAddr text k) := by
  unfold InText
  rw [dist_slotAddr_nat text (by omega)]
  omega

theorem slot_of_inText {j : Int} (h : InText text length (slotAddr text j)) :
    ∃ k : Nat, k < n ∧ slotAddr text j = slotAddr text k := by
  have hd := dist_slotAddr text j
  unfold InText at h
  refine ⟨dist text (slotAddr text j) / 8, by omega, ?_⟩
  have hk : ((dist text (slotAddr text j) / 8 : Nat) : Int) = 8 * j % 2 ^ 32 / 8 := by omega
  apply eq_of_toNat_eq
  rw [slotAddr_toNat, slotAddr_toNat, hk]
  omega

theorem dist_slot_lt (hk : k < n) {x : Addr} (hx : dist (slotAddr text k) x < 8) : dist text x < length.toNat := by
  have hs : slotAddr text k = text + BitVec.ofNat 32 (8 * k) := by
    congr 1
  rw [hs] at hx
  have := dist_add_lt hx (by omega)
  omega

theorem slotAddr_end : slotAddr text n = text + length := by
  unfold slotAddr
  congr 1
  apply eq_of_toNat_eq
  rw [toNat_ofInt]
  omega

theorem target_accepted_iff (hw : text.toNat + length.toNat < 2 ^ 32) (hk : k < n) (offset : BitVec 16) :
    ((text + length).sle (slotAddr text (k + offset.toInt)) = false ∧
      (slotAddr text (k + offset.toInt)).slt text = false) ↔
    text.msb = (text + length).msb ∧ 0 ≤ k + offset.toInt ∧ k + offset.toInt < n := by
  have hlo := le_toInt offset
  have hhi := toInt_lt (x := offset)
  have hs := slotAddr_toNat text (k + offset.toInt)
  have hend : (text + length).toNat = text.toNat + length.toNat := by
    rw [toNat_add, Nat.mod_eq_of_lt hw]
  generalize slotAddr text (k + offset.toInt) = target at hs ⊢
  rw [sle_eq_decide, decide_eq_false_iff_not, slt_eq_decide, decide_eq_false_iff_not,
    toInt_eq_toNat_cond, toInt_eq_toNat_cond, toInt_eq_toNat_cond,
    msb_eq_decide, msb_eq_decide, decide_eq_decide, hend]
  split <;> split <;> split <;> omega

end

/-! ## The slots that are looked at -/

/-- Whether the pass looks at slot `k`, or skips it as the second half of an `LDDW`. -/
def inspected (mem : Mem) (text : Addr) : Nat → Bool
  | 0 => true
  | k + 1 => !(inspected mem text k && mem (slotAddr text k) == lddwByte)

theorem inspected_succ {mem : Mem} {text : Addr} (hne : mem (slotAddr text k) ≠ lddwByte) :
    inspected mem text (k + 1) = true := by
  simp [inspected, hne]

theorem inspected_skip {mem : Mem} {text : Addr} (h : inspected mem text k = true)
    (he : mem (slotAddr text k) = lddwByte) :
    inspected mem text (k + 1) = false ∧ inspected mem text (k + 2) = true := by
  simp [inspected, h, he]

structure SlotOk (host : Host) (mem : Mem) (text : Addr) (n k : Nat) : Prop where
  dst : (fetch mem (slotAddr text k)).dst.toNat < 11
  src : (fetch mem (slotAddr text k)).src.toNat < 11
  target : mem (slotAddr text k) &&& clsMask = clsBranch →
    0 ≤ k + (fetch mem (slotAddr text k)).offset.toInt ∧ k + (fetch mem (slotAddr text k)).offset.toInt < n
  call : mem (slotAddr text k) = callByte →
    checkCall host (fetch mem (slotAddr text k)).immediate = true

section
variable {host : Host} {mem : Mem} {text length : Addr} {n : Nat}
  (hn : length.toNat = 8 * n) (hw : text.toNat + length.toNat < 2 ^ 32)
include hn hw

theorem verifySlot_sound (hk : k < n)
    (h : verifySlot host text length (slotAddr text k) (fetch mem (slotAddr text k)) = none) :
    SlotOk host mem text n k := by
  have hop : (fetch mem (slotAddr text k)).opcode = mem (slotAddr text k) := rfl
  simp only [verifySlot, hop, pointerAdd_slotAddr] at h
  split at h
  · cases h
  · rename_i hreg
    simp only [not_or, Nat.not_le] at hreg
    split at h
    · rename_i hlddw
      exact ⟨hreg.1, hreg.2, fun hc => by rw [hlddw] at hc; exact absurd hc (by decide),
        fun hc => by rw [hlddw] at hc; exact absurd hc (by decide)⟩
    · split at h
      · cases h
      · rename_i hjump
        split at h
        · cases h
        · rename_i hcall
          refine ⟨hreg.1, hreg.2, fun hc => ?_, fun hc => ?_⟩
          · simp only [hc, true_and, not_or, Bool.not_eq_true] at hjump
            exact ((target_accepted_iff hn hw hk _).mp hjump).2
          · simpa [hc] using hcall

theorem verifyFrom_passes : ∀ (fuel k : Nat), verifyFrom host mem text length fuel k = .ok → n ≤ k + fuel →
    inspected mem text k = true → ∀ j, k ≤ j → j < n → inspected mem text j = true →
      verifySlot host text length (slotAddr text j) (fetch mem (slotAddr text j)) = none
  | 0, k, _, hf, _, j, hkj, hj, _ => absurd hj (by omega)
  | fuel + 1, k, h, hf, hk, j, hkj, hj, hij => by
    have hend : (text + length).toNat = text.toNat + 8 * n := by
      rw [toNat_add, Nat.mod_eq_of_lt hw, hn]
    have hin : text.toNat + 8 * k < (text + length).toNat := by omega
    simp only [verifyFrom, hin, if_true] at h
    split at h
    · rename_i e he
      -- a slot that fails its check is never answered with `ok`
      subst h
      simp only [verifySlot] at he
      repeat' split at he
      all_goals simp at he
    · rename_i hslot
      rcases Nat.eq_or_lt_of_le hkj with rfl | hlt
      · exact hslot
      · by_cases hl : mem (slotAddr text k) = lddwByte
        · obtain ⟨hs1, hs2⟩ := inspected_skip hk hl
          have hne : j ≠ k + 1 := fun hjk => by rw [hjk, hs1] at hij; cases hij
          have hop : (fetch mem (slotAddr text k)).opcode = lddwByte := hl
          rw [if_pos hop] at h
          exact verifyFrom_passes fuel (k + 2) h (by omega) hs2 j (by omega) hj hij
        · have hop : ¬ (fetch mem (slotAddr text k)).opcode = lddwByte := hl
          rw [if_neg hop] at h
          exact verifyFrom_passes fuel (k + 1) h (by omega) (inspected_succ hl) j (by omega) hj hij

end

/-! ## The whole pass -/

theorem and_seven_eq_zero (x : BitVec 32) (h : x &&& 0x7 = 0) : x.toNat = 8 * (x.toNat / 8) := by
  have h7 := congrArg BitVec.toNat h
  have : x.toNat &&& 7 = x.toNat % 8 := Nat.and_two_pow_sub_one_eq_mod x.toNat 3
  simp at h7
  omega

structure Verified (host : Host) (mem : Mem) (text length : Addr) (n : Nat) : Prop where
  length_eq : length.toNat = 8 * n
  pos : 0 < n
  slots : ∀ k, k < n → inspected mem text k = true → SlotOk host mem text n k

theorem lastOpcodeAddr_eq {text length : Addr} {n : Nat} (hn : length.toNat = 8 * n) (hpos : 0 < n) :
    lastOpcodeAddr text length = slotAddr text (n - 1 : Nat) := by
  unfold lastOpcodeAddr slotAddr
  congr 1
  apply eq_of_toNat_eq
  simp
  omega

variable {rbpf : RbpfApplication}

theorem preflightChecks_ok {host : Host} {mem : Mem} (h : preflightChecks host mem rbpf = .ok) :
    applicationTextLen mem rbpf &&& 0x7 = 0 ∧
    verifyFrom host mem (applicationText mem rbpf) (applicationTextLen mem rbpf)
      ((applicationTextLen mem rbpf).toNat / 8) 0 = .ok ∧
    (rbpf.flags &&& configNoReturn = 0 →
      mem (lastOpcodeAddr (applicationText mem rbpf) (applicationTextLen mem rbpf)) = returnByte) := by
  simp only [preflightChecks] at h
  split at h
  · cases h
  · rename_i hlen
    refine ⟨by simpa using hlen, ?_⟩
    split at h
    · rename_i hv
      refine ⟨hv, fun hno => ?_⟩
      split at h
      · cases h
      · rename_i hlast
        simpa [hno] using hlast
    · rename_i hne
      exact absurd h hne

theorem verifyPreflight_cases (host : Host) (mem : Mem) (rbpf : RbpfApplication) :
    (verifyPreflight host mem rbpf).2 = rbpf ∨
      (preflightChecks host mem rbpf = .ok ∧
        (verifyPreflight host mem rbpf).2 = { rbpf with flags := rbpf.flags ||| flagPreflightDone }) := by
  unfold verifyPreflight
  split
  · exact .inl rfl
  · split
    · rename_i hok; exact .inr ⟨hok, rfl⟩
    · exact .inl rfl

theorem preflight_verified {host : Host} {mem : Mem}
    (h : preflightChecks host mem rbpf = .ok) (hpos : applicationTextLen mem rbpf ≠ 0)
    (hw : (applicationText mem rbpf).toNat + (applicationTextLen mem rbpf).toNat < 2 ^ 32) :
    Verified host mem (applicationText mem rbpf) (applicationTextLen mem rbpf)
      ((applicationTextLen mem rbpf).toNat / 8) := by
  obtain ⟨hlen, hv, _⟩ := preflightChecks_ok h
  have hn := and_seven_eq_zero _ hlen
  have hp : (applicationTextLen mem rbpf).toNat ≠ 0 := fun h0 => hpos (eq_of_toNat_eq h0)
  exact ⟨hn, by omega, fun k hk hi =>
    verifySlot_sound hn hw hk (verifyFrom_passes hn hw _ 0 hv (by omega) rfl k (by omega) hk hi)⟩

theorem preflight_last {host : Host} {mem : Mem} {n : Nat}
    (h : preflightChecks host mem rbpf = .ok) (hno : rbpf.flags &&& configNoReturn = 0)
    (hv : Verified host mem (applicationText mem rbpf) (applicationTextLen mem rbpf) n) :
    mem (slotAddr (applicationText mem rbpf) (n - 1 : Nat)) = returnByte := by
  have := (preflightChecks_ok h).2.2 hno
  rwa [lastOpcodeAddr_eq hv.length_eq hv.pos] at this

/-! ## What the checks read -/

/-- The header, the text and the byte that is taken for the last opcode. -/
def PreflightReads (mem : Mem) (rbpf : RbpfApplication) (x : Addr) : Prop :=
  dist rbpf.application x < 28 ∨
    dist (applicationText mem rbpf) x < (applicationTextLen mem rbpf).toNat ∨
    x = lastOpcodeAddr (applicationText mem rbpf) (applicationTextLen mem rbpf)

theorem text_congr {mem mem' : Mem} (h : ∀ x, dist rbpf.application x < 28 → mem x = mem' x) :
    applicationText mem rbpf = applicationText mem' rbpf ∧
      applicationTextLen mem rbpf = applicationTextLen mem' rbpf := by
  obtain ⟨hd, hr, ht⟩ := header_congr h
  exact ⟨by unfold applicationText; rw [hd, hr], ht⟩

theorem verifyFrom_congr {host : Host} {mem mem' : Mem} {text length : Addr} {n : Nat} (hn : length.toNat = 8 * n)
    (h : ∀ x, dist text x < length.toNat → mem x = mem' x) :
    ∀ fuel k, verifyFrom host mem text length fuel k = verifyFrom host mem' text length fuel k
  | 0, _ => rfl
  | fuel + 1, k => by
    by_cases hk : text.toNat + 8 * k < (text + length).toNat
    · have hkn : k < n := by
        rw [toNat_add] at hk; omega
      have hf : fetch mem (slotAddr text k) = fetch mem' (slotAddr text k) :=
        fetch_congr fun x hx => h x (dist_slot_lt hn hkn hx)
      simp only [verifyFrom, hk, if_true, hf, verifyFrom_congr hn h fuel]
    · simp only [verifyFrom, hk, if_false]

theorem preflightChecks_congr {host : Host} {mem mem' : Mem} (h : ∀ x, PreflightReads mem rbpf x → mem x = mem' x) :
    preflightChecks host mem rbpf = preflightChecks host mem' rbpf := by
  obtain ⟨ht, hl⟩ := text_congr fun x hx => h x (.inl hx)
  have hlast := h _ (.inr (.inr rfl))
  unfold preflightChecks
  simp only [← ht, ← hl, ← hlast]
  by_cases h7 : applicationTextLen mem rbpf &&& 0x7 = 0
  · rw [verifyFrom_congr (and_seven_eq_zero _ h7) fun x hx => h x (.inr (.inl hx))]
  · rw [if_pos h7, if_pos h7]

end PipRiot.Rbpf
