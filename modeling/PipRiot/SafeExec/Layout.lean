import PipRiot.Lib.Area

/-!
# The memory of a child

The layout that `safe_exec` computes for the partition it creates: the stack and
the VIDT in one block of RAM, the interface, the system call table, the context,
the arguments and the free RAM in a second one, and the pages of the file in a
third. The context has the size of `basicContext_t`, a type of the kernel's
library.
-/

namespace PipRiot.SafeExec

open List BitVec

abbrev Addr := BitVec 32

def round (x y : Addr) : Addr := (x + y - 1) &&& ~~~(y - 1)

theorem and_not_low (x : Addr) (k : Nat) : x &&& ~~~(BitVec.ofNat 32 (2 ^ k - 1)) = (x >>> k) <<< k := by
  apply eq_of_getLsbD_eq
  intro i hi
  simp only [getLsbD_and, getLsbD_not, getLsbD_shiftLeft, getLsbD_ushiftRight,
    getLsbD_ofNat, Nat.testBit_two_pow_sub_one, hi]
  by_cases h : i < k
  · simp [h]
  · rw [Nat.add_sub_cancel' (not_lt.mp h)]
    simp [h]

theorem round_toNat (x : Addr) {k : Nat} (hk : k < 32) :
    (round x (BitVec.ofNat 32 (2 ^ k))).toNat = (x.toNat + (2 ^ k - 1)) % 2 ^ 32 / 2 ^ k * 2 ^ k := by
  have hpow : 2 ^ k < 2 ^ 32 := Nat.pow_lt_pow_right (by decide) hk
  have hpos : 0 < 2 ^ k := Nat.two_pow_pos k
  have hone : (BitVec.ofNat 32 (2 ^ k) : Addr) - 1 = BitVec.ofNat 32 (2 ^ k - 1) := by
    apply eq_of_toNat_eq
    rw [show (1 : Addr) = BitVec.ofNat 32 1 from rfl, toNat_sub, toNat_ofNat, toNat_ofNat,
      toNat_ofNat]
    omega
  rw [round, BitVec.sub_eq_add_neg, BitVec.add_assoc, ← BitVec.sub_eq_add_neg, hone, and_not_low,
    toNat_shiftLeft, toNat_ushiftRight, toNat_add, toNat_ofNat,
    Nat.mod_eq_of_lt (show 2 ^ k - 1 < 2 ^ 32 by omega), Nat.shiftRight_eq_div_pow, Nat.shiftLeft_eq]
  exact Nat.mod_eq_of_lt (lt_of_le_of_lt (Nat.div_mul_le_self _ _) (Nat.mod_lt _ (by decide)))

theorem round_eq_add (x : Addr) {k : Nat} (hk : k < 32) :
    ∃ d < 2 ^ k, round x (BitVec.ofNat 32 (2 ^ k)) = x + BitVec.ofNat 32 d := by
  have hpos : 0 < 2 ^ k := Nat.two_pow_pos k
  obtain ⟨q, hq⟩ : 2 ^ k ∣ 2 ^ 32 := Nat.pow_dvd_pow 2 (hk.le)
  have hle := Nat.div_mul_le_self (x.toNat + (2 ^ k - 1)) (2 ^ k)
  have hlt := Nat.lt_div_mul_add hpos (a := x.toNat + (2 ^ k - 1))
  refine ⟨(x.toNat + (2 ^ k - 1)) / 2 ^ k * 2 ^ k - x.toNat, by omega, ?_⟩
  apply eq_of_toNat_eq
  rw [round_toNat x hk, toNat_add, toNat_ofNat, Nat.add_mod_mod, Nat.add_sub_cancel' (by omega), hq,
    Nat.mod_mul_right_div_self, mul_comm (2 ^ k) q, Nat.mul_mod_mul_right]

/-! ## Addresses -/

def bufsize : Nat := 128

structure Setup where
  unusedRamStart : Addr
  file : Addr
  size : Addr
  ctxSize : Nat

namespace Setup

variable (S : Setup)

def riotKrn : Addr := round S.unusedRamStart 512

def childPd : Addr := S.riotKrn + 512

def childKrn : Addr := S.childPd + 512

def childStk : Addr := round (S.childKrn + 512) 1024

def childVidt : Addr := S.childStk + 512

def childItf : Addr := round (S.childVidt + 512) 8192

def childSys : Addr := S.childItf + 40

def childCtx : Addr := S.childSys + 11 * 4

def childArgs : Addr := S.childCtx + BitVec.ofNat 32 S.ctxSize

def childRam : Addr := S.childArgs + BitVec.ofNat 32 bufsize

def childEnd : Addr := S.childItf + 8192

def childFlash : Addr := S.file

def childFlashEnd : Addr := round (S.file + S.size) 4096

def childArgv : Addr := S.childStk + 512 - BitVec.ofNat 32 (bufsize / 2)

def childArgc : Addr := S.childArgv - 4

end Setup

structure Interface where
  stackLimit : Addr
  stackTop : Addr
  vidtStart : Addr
  vidtEnd : Addr
  root : Addr
  unusedRomStart : Addr
  romEnd : Addr
  unusedRamStart : Addr
  ramEnd : Addr
  deriving DecidableEq

def Setup.itf (S : Setup) : Interface where
  stackLimit := S.childStk
  stackTop := S.childArgc
  vidtStart := S.childVidt
  vidtEnd := S.childVidt + 512
  root := S.file + 48
  unusedRomStart := S.file + 48 + S.size
  romEnd := round (S.file + 48 + S.size) 4096
  unusedRamStart := S.childRam
  ramEnd := S.childEnd

/-! ## Areas and blocks -/

namespace Setup

variable (S : Setup)

def block0 : Area 32 := ⟨S.childStk, 1024⟩

def block1 : Area 32 := ⟨S.childItf, 8192⟩

def flashBlock : Area 32 := .between S.childFlash S.childFlashEnd

def header : Area 32 := ⟨S.file, 48⟩

def content : Area 32 := ⟨S.itf.root, S.size.toNat⟩

def rom : Area 32 := .between S.itf.root S.itf.romEnd

def stack : Area 32 := .between S.itf.stackLimit S.itf.stackTop

def vidt : Area 32 := .between S.itf.vidtStart S.itf.vidtEnd

def itfArea : Area 32 := ⟨S.childItf, 40⟩

def sys : Area 32 := ⟨S.childSys, 44⟩

def ctx : Area 32 := ⟨S.childCtx, S.ctxSize⟩

def args : Area 32 := ⟨S.childArgs, bufsize⟩

def ram : Area 32 := .between S.itf.unusedRamStart S.itf.ramEnd

/-- What the interface describes lies in the blocks handed to the child; the
content is part of the area up to `romEnd`. -/
structure ConsistentView : Prop where
  flash : ∀ A ∈ [S.header, S.content, S.rom], A.Within S.flashBlock
  block0 : ∀ A ∈ [S.stack, S.vidt], A.Within S.block0
  block1 : ∀ A ∈ [S.itfArea, S.sys, S.ctx, S.args, S.ram], A.Within S.block1
  disjoint : [S.header, S.rom, S.stack, S.vidt, S.itfArea, S.sys, S.ctx, S.args, S.ram].Pairwise Area.Disjoint

/-! ## The two blocks of RAM -/

theorem childItf_eq : ∃ d < 8192, S.childItf = S.childStk + BitVec.ofNat 32 (1024 + d) := by
  obtain ⟨d, hd, he⟩ := round_eq_add (S.childVidt + 512) (k := 13) (by decide)
  refine ⟨d, hd, ?_⟩
  rw [childItf, show (8192 : Addr) = BitVec.ofNat 32 (2 ^ 13) from rfl, he, childVidt, ofNat_add,
    BitVec.add_assoc, BitVec.add_assoc, ← BitVec.add_assoc 512 512]
  rfl

theorem stack_eq : S.stack = S.block0.part 0 444 := by
  have hd : dist S.childStk S.childArgc = 444 := by
    unfold dist childArgc childArgv bufsize
    bv_omega
  simp [stack, Area.between, itf, Area.part, block0, hd]

theorem vidt_eq : S.vidt = S.block0.part 512 512 := by
  have hd : dist S.childVidt (S.childVidt + 512) = 512 := dist_add S.childVidt (i := 512) (by decide)
  rw [vidt, Area.between, itf]
  simp only [hd]
  rfl

theorem blocks_disjoint : S.block0.Disjoint S.block1 := by
  obtain ⟨d, hd, he⟩ := S.childItf_eq
  have h0 : S.block0 = S.block0.part 0 1024 := (S.block0.part_zero).symm
  have h1 : S.block1 = S.block0.part (1024 + d) 8192 := by
    simp only [block1, he]; rfl
  rw [h1, h0, Area.part_part]
  exact Area.part_disjoint (by omega) (by omega)

variable {S} (hctx : 212 + S.ctxSize ≤ 8192)

include hctx

theorem ram_eq : S.ram = S.block1.part (212 + S.ctxSize) (8192 - (212 + S.ctxSize)) := by
  have hbase : S.childRam = S.childItf + BitVec.ofNat 32 (212 + S.ctxSize) := by
    unfold childRam childArgs childCtx childSys bufsize
    bv_omega
  have hd : dist S.childRam S.childEnd = 8192 - (212 + S.ctxSize) := by
    unfold dist childEnd
    bv_omega
  rw [ram, Area.between, itf, Area.part, block1]
  simp only [hd]
  rw [hbase]

omit hctx in
theorem block1_parts : S.itfArea = S.block1.part 0 40 ∧ S.sys = S.block1.part 40 44 ∧
    S.ctx = S.block1.part 84 S.ctxSize ∧ S.args = S.block1.part (84 + S.ctxSize) 128 := by
  have hctx : S.childCtx = S.childItf + BitVec.ofNat 32 84 := by
    rw [childCtx, childSys, BitVec.add_assoc]; rfl
  refine ⟨?_, rfl, ?_, ?_⟩
  · rw [itfArea, Area.part, BitVec.add_zero]; rfl
  · rw [ctx, hctx]; rfl
  · rw [args, childArgs, hctx, Area.part, ofNat_add, ← BitVec.add_assoc]; rfl

theorem block1_within (A : Area 32) (hA : A ∈ [S.itfArea, S.sys, S.ctx, S.args, S.ram]) : A.Within S.block1 := by
  obtain ⟨hi, hs, hc, ha⟩ := S.block1_parts
  have hall : ∀ q n, q + n ≤ 8192 → (S.block1.part q n).Within S.block1 := fun q n h =>
    Area.part_within_self h (show 8192 ≤ 2 ^ 32 by decide)
  simp only [mem_cons, not_mem_nil, or_false] at hA
  rcases hA with rfl | rfl | rfl | rfl | rfl
  · rw [hi]; exact hall _ _ (by omega)
  · rw [hs]; exact hall _ _ (by omega)
  · rw [hc]; exact hall _ _ (by omega)
  · rw [ha]; exact hall _ _ (by omega)
  · rw [ram_eq hctx]; exact hall _ _ (by omega)

theorem block1_cover (x : Addr) (hx : S.block1.Mem x) : ∃ A ∈ [S.itfArea, S.sys, S.ctx, S.args, S.ram], A.Mem x := by
  obtain ⟨hi, hs, hc, ha⟩ := S.block1_parts
  have hlt : dist S.childItf x < 8192 := hx
  simp only [mem_cons, not_mem_nil, or_false, exists_eq_or_imp, exists_eq_left]
  rw [hi, hs, hc, ha, ram_eq hctx, Area.mem_part (by omega), Area.mem_part (by omega), Area.mem_part (by omega),
    Area.mem_part (by omega), Area.mem_part (by omega)]
  simp only [block1]
  omega

theorem block1_disjoint : [S.itfArea, S.sys, S.ctx, S.args, S.ram].Pairwise Area.Disjoint := by
  obtain ⟨hi, hs, hc, ha⟩ := S.block1_parts
  have hd : ∀ q n p k, q + n ≤ p → p + k ≤ 8192 → (S.block1.part q n).Disjoint (S.block1.part p k) :=
    fun q n p k h h' => Area.part_disjoint h (by omega)
  rw [hi, hs, hc, ha, ram_eq hctx]
  simp only [pairwise_cons, mem_cons, not_mem_nil, or_false, forall_eq_or_imp, forall_eq,
    IsEmpty.forall_iff, implies_true, List.Pairwise.nil, and_true]
  refine ⟨⟨?_, ?_, ?_, ?_⟩, ⟨?_, ?_, ?_⟩, ⟨?_, ?_⟩, ?_⟩ <;> exact hd _ _ _ _ (by omega) (by omega)

omit hctx

theorem block0_within (A : Area 32) (hA : A ∈ [S.stack, S.vidt]) : A.Within S.block0 := by
  simp only [mem_cons, not_mem_nil, or_false] at hA
  rcases hA with rfl | rfl
  · rw [stack_eq]
    exact Area.part_within_self (show 0 + 444 ≤ 1024 by decide) (show 1024 ≤ 2 ^ 32 by decide)
  · rw [vidt_eq]
    exact Area.part_within_self (show 512 + 512 ≤ 1024 by decide) (show 1024 ≤ 2 ^ 32 by decide)

/-! ## The pages of the file -/

variable (S) in
/-- The header, which the end of the flash block leaves out, has room behind the
content in the last page. -/
def SizeFits : Prop := 1 ≤ S.size.toNat % 4096 ∧ S.size.toNat % 4096 ≤ 4048 ∧ S.size.toNat < 2 ^ 32 - 4096

variable (S) in
def RamApart : Prop := ∀ A ∈ [S.stack, S.vidt, S.block1], S.flashBlock.Disjoint A

variable (hfile : S.file.toNat % 4096 = 0)

include hfile

theorem dist_round_page {x : Addr} {n : Nat} (hx : x = S.file + BitVec.ofNat 32 n) (hn : n < 2 ^ 32) :
    dist S.file (round x 4096) = (n + 4095) / 4096 * 4096 % 2 ^ 32 := by
  have hr := round_toNat x (k := 12) (by decide)
  rw [hx, toNat_add, toNat_ofNat] at hr
  rw [hx, dist, toNat_sub, show (4096 : Addr) = BitVec.ofNat 32 (2 ^ 12) from rfl, hr]
  omega

theorem flashBlock_eq : S.flashBlock = ⟨S.file, (S.size.toNat + 4095) / 4096 * 4096 % 2 ^ 32⟩ := by
  rw [flashBlock, Area.between, childFlash, childFlashEnd, dist_round_page hfile (by simp) S.size.isLt]

theorem SizeFits.flashBlock_eq (h : S.SizeFits) : S.flashBlock = ⟨S.file, S.size.toNat / 4096 * 4096 + 4096⟩ := by
  obtain ⟨h1, h2, h3⟩ := h
  rw [Setup.flashBlock_eq hfile]
  congr 1
  omega

theorem SizeFits.rom_eq (h : S.SizeFits) : S.rom = S.flashBlock.part 48 (S.size.toNat / 4096 * 4096 + 4096 - 48) := by
  have hb := h.flashBlock_eq hfile
  obtain ⟨h1, h2, h3⟩ := h
  have hd := dist_round_page hfile (x := S.file + 48 + S.size) (n := 48 + S.size.toNat)
    (by rw [ofNat_add, ← BitVec.add_assoc]; simp) (by omega)
  have hlen : dist (S.file + 48) (round (S.file + 48 + S.size) 4096) =
      S.size.toNat / 4096 * 4096 + 4096 - 48 := by
    have hshift := dist_shift S.file (round (S.file + 48 + S.size) 4096) (k := 48) (by omega)
    exact hshift.trans (by omega)
  rw [rom, Area.between, itf, hb, Area.part]
  simp only [hlen]
  rfl

theorem SizeFits.flash_within (h : S.SizeFits) (A : Area 32) (hA : A ∈ [S.header, S.content, S.rom]) :
    A.Within S.flashBlock := by
  have hb := h.flashBlock_eq hfile
  have hr := h.rom_eq hfile
  obtain ⟨h1, h2, h3⟩ := h
  have hlen : S.flashBlock.len = S.size.toNat / 4096 * 4096 + 4096 := by rw [hb]
  have hall : ∀ q n, q + n ≤ S.flashBlock.len → (S.flashBlock.part q n).Within S.flashBlock := fun q n hq =>
    Area.part_within_self hq (by omega)
  have hbase : S.flashBlock.base = S.file := by rw [hb]
  simp only [mem_cons, not_mem_nil, or_false] at hA
  rcases hA with rfl | rfl | rfl
  · have he : S.header = S.flashBlock.part 0 48 := by rw [header, Area.part, hbase, BitVec.add_zero]
    rw [he]; exact hall _ _ (by omega)
  · have he : S.content = S.flashBlock.part 48 S.size.toNat := by
      rfl
    rw [he]; exact hall _ _ (by omega)
  · rw [hr]; exact hall _ _ (by omega)

theorem SizeFits.flash_cover (h : S.SizeFits) (x : Addr) (hx : S.flashBlock.Mem x) : S.header.Mem x ∨ S.rom.Mem x := by
  have hb := h.flashBlock_eq hfile
  rw [h.rom_eq hfile]
  rw [Area.mem_part (by omega), Area.Mem, header]
  rw [hb, Area.Mem] at hx
  simp only [hb] at hx ⊢
  omega

theorem sizeFits_of_view (h : S.ConsistentView) : S.SizeFits := by
  have hb := S.flashBlock_eq hfile
  have hblk : S.flashBlock = S.flashBlock.part 0 ((S.size.toNat + 4095) / 4096 * 4096 % 2 ^ 32) := by
    conv_lhs => rw [← S.flashBlock.part_zero]
    rw [hb]
  have hbase : S.flashBlock.base = S.file := by rw [hb]
  have hhead := h.flash S.header (by simp)
  rw [show S.header = S.flashBlock.part 0 48 by rw [header, Area.part, hbase, BitVec.add_zero], hblk,
    Area.part_part] at hhead
  have h48 := Area.le_of_part_within (by decide) (by decide) (by omega) hhead
  have hcont := h.flash S.content (by simp)
  rw [show S.content = S.flashBlock.part 48 S.size.toNat by rw [content, Area.part, hbase]; rfl, hblk,
    Area.part_part] at hcont
  have hsize := Area.le_of_part_within (by omega) (by omega) (by omega) hcont
  unfold SizeFits
  omega

end Setup

/-- The child's view is consistent iff the size leaves room for the header in
the last page and the file lies apart from the child's RAM. -/
theorem consistent_view_iff (S : Setup) (hctx : 212 + S.ctxSize ≤ 8192) (hfile : S.file.toNat % 4096 = 0) :
    S.ConsistentView ↔ S.SizeFits ∧ S.RamApart := by
  constructor
  · intro h
    have hfits := Setup.sizeFits_of_view hfile h
    refine ⟨hfits, fun A hA x hx => ?_⟩
    have hpair : ([S.header, S.rom] ++ [S.stack, S.vidt, S.itfArea, S.sys, S.ctx, S.args, S.ram]).Pairwise
      Area.Disjoint :=
      h.disjoint
    rw [pairwise_append] at hpair
    have hcross : ∀ B ∈ [S.stack, S.vidt, S.itfArea, S.sys, S.ctx, S.args, S.ram], ¬ B.Mem x := by
      intro B hB
      rcases hfits.flash_cover hfile x hx with hm | hm
      · exact hpair.2.2 S.header (by simp) B hB x hm
      · exact hpair.2.2 S.rom (by simp) B hB x hm
    simp only [mem_cons, not_mem_nil, or_false] at hA
    rcases hA with rfl | rfl | rfl
    · exact hcross _ (by simp)
    · exact hcross _ (by simp)
    · intro hm
      obtain ⟨B, hB, hBm⟩ := Setup.block1_cover hctx x hm
      exact hcross B (mem_append_right [S.stack, S.vidt] hB) hBm
  · rintro ⟨hfits, hapart⟩
    have hflash := hfits.flash_within hfile
    refine ⟨hflash, Setup.block0_within, Setup.block1_within hctx, ?_⟩
    show ([S.header, S.rom] ++ ([S.stack, S.vidt] ++ [S.itfArea, S.sys, S.ctx, S.args, S.ram])).Pairwise Area.Disjoint
    rw [pairwise_append, pairwise_append]
    have hfile0 : S.header.Disjoint S.rom := by
      have hb := hfits.flashBlock_eq hfile
      have hh : S.header = S.flashBlock.part 0 48 := by
        rw [Setup.header, Area.part, hb, BitVec.add_zero]
      rw [hh, hfits.rom_eq hfile]
      obtain ⟨-, -, h3⟩ := hfits
      exact Area.part_disjoint (by decide) (by omega)
    have hstack : S.stack.Disjoint S.vidt := by
      rw [Setup.stack_eq, Setup.vidt_eq]
      exact Area.part_disjoint (by decide) (by decide)
    have hmem : ∀ B ∈ [S.header, S.rom], B.Within S.flashBlock := by
      intro B hB
      apply hflash
      simp only [mem_cons, not_mem_nil, or_false] at hB ⊢
      exact hB.imp_right .inr
    refine ⟨by simpa using hfile0, ⟨by simpa using hstack, Setup.block1_disjoint hctx, ?_⟩, ?_⟩
    · intro A hA B hB
      exact S.blocks_disjoint.mono (Setup.block0_within A hA) (Setup.block1_within hctx B hB)
    · intro A hA B hB
      rcases mem_append.mp hB with hB | hB
      · refine (hapart B ?_).mono (hmem A hA) fun _ hx => hx
        simp only [mem_cons, not_mem_nil, or_false] at hB ⊢
        exact hB.imp_right .inl
      · exact (hapart S.block1 (by simp)).mono (hmem A hA) (Setup.block1_within hctx B hB)

def sampleSetup (size : Addr) : Setup where
  unusedRamStart := 0x20001000
  file := 0x28000
  size := size
  ctxSize := 76

theorem consistent_view_sample : (sampleSetup 100).ConsistentView := by
  refine (consistent_view_iff _ (by decide) (by decide)).mpr ⟨⟨by decide, by decide, by decide⟩, ?_⟩
  intro A hA
  simp only [mem_cons, not_mem_nil, or_false] at hA
  rcases hA with rfl | rfl | rfl
  · exact Area.disjoint_of_dist (by decide) (by decide)
  · exact Area.disjoint_of_dist (by decide) (by decide)
  · exact Area.disjoint_of_dist (by decide) (by decide)

/-- The last 48 bytes of a file of 4096 bytes lie behind the flash block. -/
theorem page_size_file_not_covered : ¬ (sampleSetup 4096).ConsistentView := by
  intro h
  have hin := h.flash (sampleSetup 4096).content (by simp) 0x2902f (by decide)
  exact absurd hin (by decide)

end PipRiot.SafeExec
