import PipRiot.Rbpf.ControlFlow

/-!
# Bounded execution

Between two taken jumps the program counter only grows, and every taken jump
draws on `branches_remaining`. `turnsLeft` is the lexicographic measure of the
two, flattened: it bounds the number of executed instructions by
`RBPF_BRANCHES_ALLOWED` times the length of the text.
-/

namespace PipRiot.Rbpf

section
variable (host : Host) (text length : Addr) (n : Nat)

def turnsLeft (s : Vm) : Nat :=
  (s.rbpf.branchesRemaining.toNat - 1) * n + (n - slotIndex text s.instr)

structure Bounded (s : Vm) : Prop where
  fetches : ∀ m, ∀ t ∈ heads (loopBody host) m s, FetchInside text length t
  slot : ∃ j : Int, s.instr = slotAddr text j
  branches : 0 < s.rbpf.branchesRemaining.toNat
  returns : s.rbpf.flags &&& configNoReturn = 0

variable {host text length n} (hn : length.toNat = 8 * n)

theorem Bounded.fetch {s : Vm} (h : Bounded host text length s) : FetchInside text length s :=
  h.fetches 1 s (by simp [heads])

include hn in
theorem Bounded.slotIndex_lt {s : Vm} (h : Bounded host text length s) :
    slotIndex text s.instr < n ∧ s.instr = slotAddr text (slotIndex text s.instr) := by
  obtain ⟨j, hj⟩ := h.slot
  obtain ⟨k, hk, he⟩ := slot_of_inText hn (hj ▸ h.fetch.1)
  rw [hj, he, slotIndex_slotAddr hn hk]
  exact ⟨hk, rfl⟩

theorem Bounded.next_fetches {s t : Vm} (h : Bounded host text length s) (hb : loopBody host s = .inl t) :
    ∀ m, ∀ u ∈ heads (loopBody host) m t, FetchInside text length u := fun m u hu =>
  h.fetches (m + 1) u (by simp [heads, hb, hu])

include hn in
theorem slotIndex_le {k : Nat} (hk : k ≤ n) : slotIndex text (slotAddr text k) = k := by
  unfold slotIndex
  rw [dist_slotAddr_nat text (by omega)]
  omega

include hn in
theorem inText_lt {k : Nat} (hk : k ≤ n) (h : InText text length (slotAddr text k)) : k < n := by
  unfold InText at h
  rw [dist_slotAddr_nat text (by omega)] at h
  omega

theorem branches_after_jump {s t : Vm}
    (hr : t.rbpf = { s.rbpf with branchesRemaining := s.rbpf.branchesRemaining - 1 })
    (hb : overMaxJumps t.rbpf = false) (hret : s.rbpf.flags &&& configNoReturn = 0)
    (hpos : 0 < s.rbpf.branchesRemaining.toNat) :
    t.rbpf.branchesRemaining.toNat + 1 = s.rbpf.branchesRemaining.toNat ∧
      0 < t.rbpf.branchesRemaining.toNat := by
  have hsub : t.rbpf.branchesRemaining.toNat + 1 = s.rbpf.branchesRemaining.toNat := by
    rw [hr, BitVec.toNat_sub]
    simp
    omega
  refine ⟨hsub, ?_⟩
  have hfl : t.rbpf.flags &&& configNoReturn = 0 := by rw [hr]; exact hret
  rw [Nat.pos_iff_ne_zero]
  intro h0
  have hz : t.rbpf.branchesRemaining = 0 := BitVec.eq_of_toNat_eq h0
  simp [overMaxJumps, hfl, hz] at hb

include hn in
theorem bounded_step (hcalls : host.Keeps fun _ => False) {s t : Vm} (h : Bounded host text length s)
    (hb : loopBody host s = .inl t) :
    Bounded host text length t ∧ turnsLeft text n t < turnsLeft text n s ∧
      t.rbpf.branchesRemaining.toNat + (if s.takesJump then 1 else 0) ≤ s.rbpf.branchesRemaining.toNat := by
  obtain ⟨hk, hs⟩ := h.slotIndex_lt hn
  have hf := h.next_fetches hb
  -- every step but a jump leaves the struct alone and moves on by one or two slots
  have hfwd : ∀ d : Nat, 1 ≤ d → slotIndex text s.instr + d ≤ n → s.takesJump = false →
      t.instr = slotAddr text (slotIndex text s.instr + d : Nat) → t.rbpf = s.rbpf →
      Bounded host text length t ∧ turnsLeft text n t < turnsLeft text n s ∧
        t.rbpf.branchesRemaining.toNat + (if s.takesJump then 1 else 0) ≤ s.rbpf.branchesRemaining.toNat := by
    intro d hd hle hj hi hr
    refine ⟨⟨hf, ⟨_, hi⟩, hr ▸ h.branches, hr ▸ h.returns⟩, ?_, by simp [hj, hr]⟩
    simp only [turnsLeft, hr, hi, slotIndex_le hn hle]; omega
  cases step_cases hb with
  | plain op hop hret hcall hj hd hi hr hm =>
    refine hfwd 1 (by omega) (by omega) hj ?_ hr
    rw [hi, hs, slotAddr_next, slotIndex_slotAddr hn hk]; rfl
  | double hd hj hi hr hm =>
    have h2 := h.fetch.2 hd
    rw [hs, slotAddr_next] at h2
    have hk2 := inText_lt (k := slotIndex text s.instr + 1) hn (by omega) h2
    refine hfwd 2 (by omega) (by omega) hj ?_ hr
    rw [hi, hs, slotAddr_next, slotAddr_next, slotIndex_slotAddr hn hk]; rfl
  | jump hj hi hr hbr hm =>
    obtain ⟨hb1, hb2⟩ := branches_after_jump hr hbr h.returns h.branches
    have htgt : t.instr = slotAddr text (slotIndex text s.instr + s.current.offset.toInt + 1) := by
      rw [hi, hs, pointerAdd_slotAddr, slotAddr_next, slotIndex_slotAddr hn hk]
    refine ⟨⟨hf, ⟨_, htgt⟩, hb2, by rw [hr]; exact h.returns⟩, ?_, by simp [hj]; omega⟩
    simp only [turnsLeft]
    -- the jump gives up a whole text's worth of turns
    have hmul : (s.rbpf.branchesRemaining.toNat - 1) * n = (t.rbpf.branchesRemaining.toNat - 1) * n + n := by
      rw [show s.rbpf.branchesRemaining.toNat - 1 = t.rbpf.branchesRemaining.toNat - 1 + 1 by omega, add_mul,
        one_mul]
    omega
  | call f hop hcf hi hr hm =>
    refine hfwd 1 (by omega) (by omega) (takesJump_of_not_isJump hop rfl) ?_ (hr.trans (hcalls _ f hcf _ _ _).1)
    rw [hi, hs, slotAddr_next, slotIndex_slotAddr hn hk]; rfl

end

/-! ## The engine -/

end PipRiot.Rbpf
