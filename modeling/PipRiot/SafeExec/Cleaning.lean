import PipRiot.SafeExec.Syscall

/-!
# What is left of a child in RAM

When the partition is gone, `safe_exec` clears a constant number of bytes from
`unusedRamStart` on, the sum of the sizes of what it has laid out there. The
three roundings of the layout add to that distance, so the child's blocks are
cleared as a whole for one alignment only.
-/

namespace PipRiot.SafeExec

namespace Setup

variable (S : Setup)

def cleaned : Area 32 := ⟨S.unusedRamStart, 10752⟩

def clean (m : Mem) : Mem := writeBytes m S.unusedRamStart (List.replicate 10752 0)

theorem clean_of_mem {m : Mem} {x : Addr} (hx : S.cleaned.Mem x) : S.clean m x = 0 := by
  have hlt : dist S.unusedRamStart x < 10752 := hx
  unfold clean writeBytes
  rw [List.getD_eq_getElem?_getD, List.getElem?_replicate, if_pos hlt]
  rfl

theorem clean_of_not_mem {m : Mem} {x : Addr} (hx : ¬ S.cleaned.Mem x) : S.clean m x = m x := by
  refine writeBytes_of_le ?_
  rw [List.length_replicate]
  exact not_lt.mp hx

/-! ## The gaps of the layout -/

theorem round_gap (x : Addr) {k : Nat} (hk : k < 32) :
    ∃ d < 2 ^ k, round x (BitVec.ofNat 32 (2 ^ k)) = x + BitVec.ofNat 32 d ∧ (x.toNat + d) % 2 ^ k = 0 := by
  obtain ⟨d, hd, he⟩ := round_eq_add x hk
  refine ⟨d, hd, he, ?_⟩
  have hround := round_toNat x hk
  rw [he, BitVec.toNat_add, BitVec.toNat_ofNat, Nat.add_mod_mod] at hround
  rw [← Nat.mod_mod_of_dvd _ (Nat.pow_dvd_pow 2 (hk.le)), hround, Nat.mul_mod_left]

/-- The bytes skipped by rounding in front of RIOT's kernel structure, the stack
and the interface. -/
structure Gaps (g1 g2 g3 : Nat) : Prop where
  lt1 : g1 < 512
  lt2 : g2 < 1024
  lt3 : g3 < 8192
  align1 : (S.unusedRamStart.toNat + g1) % 512 = 0
  align2 : (S.unusedRamStart.toNat + g1 + 1536 + g2) % 1024 = 0
  align3 : (S.unusedRamStart.toNat + g1 + 1536 + g2 + 1024 + g3) % 8192 = 0
  stackBlock : S.stackBlock = S.cleaned.part (g1 + 1536 + g2) (1024 + g3)
  block1 : S.block1 = S.cleaned.part (g1 + 1536 + g2 + 1024 + g3) 8192

theorem exists_gaps : ∃ g1 g2 g3, S.Gaps g1 g2 g3 := by
  obtain ⟨g1, h1, e1, a1⟩ := round_gap S.unusedRamStart (show 9 < 32 by decide)
  obtain ⟨g2, h2, e2, a2⟩ := round_gap (S.childKrn + 512) (show 10 < 32 by decide)
  obtain ⟨g3, h3, e3, a3⟩ := round_gap (S.childVidt + 512) (show 13 < 32 by decide)
  have hkrn : S.childKrn + 512 = S.unusedRamStart + BitVec.ofNat 32 (g1 + 1536) := by
    have hr : S.riotKrn = S.unusedRamStart + BitVec.ofNat 32 g1 := e1
    rw [childKrn, childPd, hr]
    bv_omega
  have hstk : S.childStk = S.unusedRamStart + BitVec.ofNat 32 (g1 + 1536 + g2) := by
    have hr : S.childStk = S.childKrn + 512 + BitVec.ofNat 32 g2 := e2
    bv_omega
  have hvidt : S.childVidt + 512 = S.unusedRamStart + BitVec.ofNat 32 (g1 + 1536 + g2 + 1024) := by
    rw [childVidt, hstk]
    bv_omega
  have hitf : S.childItf = S.unusedRamStart + BitVec.ofNat 32 (g1 + 1536 + g2 + 1024 + g3) := by
    have hr : S.childItf = S.childVidt + 512 + BitVec.ofNat 32 g3 := e3
    bv_omega
  refine ⟨g1, g2, g3, h1, h2, h3, a1, ?_, ?_, ?_, ?_⟩
  · bv_omega
  · bv_omega
  · have hd : dist S.childStk S.childItf = 1024 + g3 := by
      unfold dist
      bv_omega
    rw [Setup.stackBlock, Area.between, hd, hstk]; rfl
  · rw [Setup.block1, hitf]; rfl

end Setup

/-- No byte of the child's blocks of RAM survives, whatever was in them. -/
structure Setup.NoResidue (S : Setup) : Prop where
  zero : ∀ m x, S.Writable x → S.clean m x = 0
  same : ∀ m m', (∀ x, ¬ S.Writable x → m' x = m x) → S.clean m' = S.clean m

theorem no_residue_iff (S : Setup) : S.NoResidue ↔ S.unusedRamStart.toNat % 8192 = 5632 := by
  obtain ⟨g1, g2, g3, hg⟩ := S.exists_gaps
  have := hg.lt1
  have := hg.lt2
  have := hg.lt3
  have := hg.align1
  have := hg.align2
  have := hg.align3
  constructor
  · intro h
    -- the last byte of the second block is behind the cleared area unless all gaps are empty
    have hwithin : S.block1.Within S.cleaned := by
      intro x hx
      by_contra hout
      have hz := h.zero (fun _ => 1) x (.inr hx)
      rw [S.clean_of_not_mem hout] at hz; cases hz
    rw [hg.block1, ← S.cleaned.part_zero, Area.part_part] at hwithin
    have hle := Area.le_of_part_within (by decide) (by omega) (show 0 + 10752 ≤ 2 ^ 32 by decide) hwithin
    omega
  · intro h
    have h0 : g1 = 0 ∧ g2 = 0 ∧ g3 = 0 := by omega
    obtain ⟨rfl, rfl, rfl⟩ := h0
    have hin : ∀ x, S.Writable x → S.cleaned.Mem x := by
      rintro x (hx | hx)
      · rw [hg.stackBlock] at hx
        exact Area.part_within_self (show _ ≤ 10752 by decide) (show 10752 ≤ 2 ^ 32 by decide) x hx
      · rw [hg.block1] at hx
        exact Area.part_within_self (show _ ≤ 10752 by decide) (show 10752 ≤ 2 ^ 32 by decide) x hx
    refine ⟨fun m x hx => S.clean_of_mem (hin x hx), fun m m' hsame => funext fun x => ?_⟩
    by_cases hx : S.cleaned.Mem x
    · rw [S.clean_of_mem hx, S.clean_of_mem hx]
    · rw [S.clean_of_not_mem hx, S.clean_of_not_mem hx, hsame x fun hw => hx (hin x hw)]

/-- From `0x20001000` on the blocks end 1536 bytes behind what is cleared. -/
theorem residue_sampleChild : sampleChild.Writable 0x20003fff ∧ sampleChild.clean (fun _ => 1) 0x20003fff = 1 := by
  refine ⟨by decide, ?_⟩
  rw [Setup.clean_of_not_mem _ (by decide)]

end PipRiot.SafeExec
