import PipRiot.Rbpf.Engine

/-!
# What the memory check lets through

`_check_mem` compares addresses as signed numbers and its `end` wraps, while
the access that follows is unsigned. `checkMem_sound_iff` says for each access
exactly when the check can be trusted. Below `0x80000000` a region is taken in
by any access that ends at or runs over `0x80000000`, since the signed end of
such an access is negative.
-/

namespace PipRiot.Rbpf

variable (r : MemRegion)

def MemRegion.permits (type : BitVec 8) : Prop := r.flags &&& type ≠ 0

def MemRegion.has (x : Addr) : Prop := dist r.start x < r.len.toNat

def MemRegion.contains (a : Addr) (size : Nat) : Prop :=
  r.start.toNat ≤ a.toNat ∧ a.toNat + size ≤ r.start.toNat + r.len.toNat ∧ a.toNat + size ≤ 2 ^ 32

instance (r : MemRegion) (x : Addr) : Decidable (r.has x) := inferInstanceAs (Decidable (_ < _))

instance (r : MemRegion) (type : BitVec 8) : Decidable (r.permits type) :=
  inferInstanceAs (Decidable (_ ≠ _))

instance (r : MemRegion) (a : Addr) (size : Nat) : Decidable (r.contains a size) :=
  inferInstanceAs (Decidable (_ ∧ _))

def MemRegion.endAddr : Nat := (r.start + r.len).toNat

def Straddles (a : Addr) (size : Nat) : Prop := a.toNat < 2 ^ 31 ∧ 2 ^ 31 ≤ a.toNat + size

instance (a : Addr) (size : Nat) : Decidable (Straddles a size) := inferInstanceAs (Decidable (_ ∧ _))

/-- The regions wrongly taken for a container: for an access that straddles
`0x80000000`, one below it that starts at or before the access, or one above;
for any access, one that wraps around the address space. -/
def MemRegion.Misjudged (a : Addr) (size : Nat) : Prop :=
  (Straddles a size ∧
    ((r.start.toNat ≤ a.toNat ∧ r.start.toNat + r.len.toNat < 2 ^ 31) ∨
     (2 ^ 31 ≤ r.start.toNat ∧ (r.endAddr < 2 ^ 31 ∨ a.toNat + size ≤ r.endAddr)))) ∨
  (2 ^ 31 ≤ r.start.toNat ∧ 2 ^ 32 < r.start.toNat + r.len.toNat ∧ r.endAddr < 2 ^ 31 ∧
    (a.toNat + size ≤ r.endAddr ∨
     (r.start.toNat ≤ a.toNat ∧ 2 ^ 32 < a.toNat + size ∧ a.toNat + size - 2 ^ 32 ≤ r.endAddr)))

instance (r : MemRegion) (a : Addr) (size : Nat) : Decidable (r.Misjudged a size) :=
  inferInstanceAs (Decidable (_ ∨ _))

/-! ## One region -/

theorem sle_iff_toNat (x y : BitVec 32) : x.sle y = true ↔
    (2 ^ 31 ≤ x.toNat ∧ y.toNat < 2 ^ 31) ∨
    ((2 ^ 31 ≤ x.toNat ↔ 2 ^ 31 ≤ y.toNat) ∧ x.toNat ≤ y.toNat) := by
  rw [BitVec.sle_iff_toInt_le, BitVec.toInt_eq_toNat_cond, BitVec.toInt_eq_toNat_cond]
  split <;> split <;> omega

theorem regionAccepts_iff (a : Addr) (size : Nat) (type : BitVec 8) :
    regionAccepts r a size type = true ↔
      r.start.sle a = true ∧ (a + BitVec.ofNat 32 size).sle (r.start + r.len) = true ∧ r.permits type := by
  simp [regionAccepts, MemRegion.permits, and_assoc]

section
variable {r : MemRegion} {a : Addr} {size : Nat} (h1 : 1 ≤ size) (h8 : size ≤ 8)
include h1 h8

theorem accessEnd_toNat : (a + BitVec.ofNat 32 size).toNat =
    if a.toNat + size < 2 ^ 32 then a.toNat + size else a.toNat + size - 2 ^ 32 := by
  rw [BitVec.toNat_add, BitVec.toNat_ofNat]
  split <;> omega

omit h1 h8 in
theorem endAddr_eq : r.endAddr =
    if r.start.toNat + r.len.toNat < 2 ^ 32 then r.start.toNat + r.len.toNat
    else r.start.toNat + r.len.toNat - 2 ^ 32 := by
  unfold MemRegion.endAddr
  rw [BitVec.toNat_add]
  split <;> omega

theorem accepts_not_contains_iff :
    (r.start.sle a = true ∧ (a + BitVec.ofNat 32 size).sle (r.start + r.len) = true ∧ ¬ r.contains a size) ↔
      r.Misjudged a size := by
  have he : (r.start + r.len).toNat = r.endAddr := rfl
  rw [sle_iff_toNat, sle_iff_toNat, accessEnd_toNat h1 h8, he, endAddr_eq]
  unfold MemRegion.Misjudged MemRegion.contains Straddles
  rw [endAddr_eq]
  split <;> split <;> omega

theorem accepts_cases {type : BitVec 8} (h : regionAccepts r a size type = true) :
    r.permits type ∧ (r.contains a size ∨ r.Misjudged a size) := by
  obtain ⟨hs, he, hp⟩ := (regionAccepts_iff r a size type).mp h
  refine ⟨hp, ?_⟩
  by_cases hc : r.contains a size
  · exact .inl hc
  · exact .inr ((accepts_not_contains_iff h1 h8).mp ⟨hs, he, hc⟩)

theorem accepts_of_misjudged {type : BitVec 8} (hp : r.permits type) (hm : r.Misjudged a size) :
    regionAccepts r a size type = true := by
  obtain ⟨hs, he, _⟩ := (accepts_not_contains_iff h1 h8).mpr hm
  exact (regionAccepts_iff r a size type).mpr ⟨hs, he, hp⟩

end

/-! ## The walk over the region list -/

theorem checkMem_iff (rbpf : RbpfApplication) (a : Addr) (size : Nat) (type : BitVec 8) :
    checkMem rbpf a size type = true ↔ ∃ r ∈ rbpf.regions, regionAccepts r a size type = true := by
  simp [checkMem]

theorem checkMem_sound_iff (rbpf : RbpfApplication) (a : Addr) {size : Nat} (h1 : 1 ≤ size) (h8 : size ≤ 8)
    (type : BitVec 8) :
    (checkMem rbpf a size type = true → ∃ r ∈ rbpf.regions, r.permits type ∧ r.contains a size) ↔
      ((∀ r ∈ rbpf.regions, r.permits type → ¬ r.Misjudged a size) ∨
        ∃ r ∈ rbpf.regions, r.permits type ∧ r.contains a size) := by
  constructor
  · intro h
    by_cases hc : ∃ r ∈ rbpf.regions, r.permits type ∧ r.contains a size
    · exact .inr hc
    · refine .inl fun r hr hp hm => hc (h ?_)
      exact (checkMem_iff rbpf a size type).mpr ⟨r, hr, accepts_of_misjudged h1 h8 hp hm⟩
  · rintro (hm | hc) h
    · obtain ⟨r, hr, hacc⟩ := (checkMem_iff rbpf a size type).mp h
      obtain ⟨hp, hc | hmis⟩ := accepts_cases h1 h8 hacc
      · exact ⟨r, hr, hp, hc⟩
      · exact absurd hmis (hm r hr hp)
    · exact hc

/-! ## Memory instructions -/

def memAccess (s : Vm) : Option (Addr × Nat × BitVec 8) :=
  match s.opcode with
  | some (.stx size) => some (accessAddr (s.regmap s.current.dst) s.current.offset, size.bytes, memRegionWrite)
  | some (.st size) => some (accessAddr (s.regmap s.current.dst) s.current.offset, size.bytes, memRegionWrite)
  | some (.ldx size) => some (accessAddr (s.regmap s.current.src) s.current.offset, size.bytes, memRegionRead)
  | _ => none

def Judged (s : Vm) : Prop :=
  ∀ p ∈ memAccess s, (∀ r ∈ s.rbpf.regions, r.permits p.2.2 → ¬ r.Misjudged p.1 p.2.1) ∨
    ∃ r ∈ s.rbpf.regions, r.permits p.2.2 ∧ r.contains p.1 p.2.1

instance (s : Vm) : Decidable (Judged s) := inferInstanceAs (Decidable (∀ p ∈ memAccess s, _))

theorem MemSize.bytes_pos (size : MemSize) : 1 ≤ size.bytes := by cases size <;> decide
theorem MemSize.bytes_le (size : MemSize) : size.bytes ≤ 8 := by cases size <;> decide

theorem store_legal (s : Vm) (base : BitVec 64) (offset : BitVec 16) (size : MemSize) (value : BitVec 64) :
    (store s base offset size value).1 ≠ .illegalMem ↔
      checkMem s.rbpf (accessAddr base offset) size.bytes memRegionWrite = true := by
  by_cases hc : checkMem s.rbpf (accessAddr base offset) size.bytes memRegionWrite = true
  · simp [store, checkStore, hc]
  · simp [store, checkStore, hc]

theorem load_legal (s : Vm) (dst : BitVec 4) (base : BitVec 64) (offset : BitVec 16) (size : MemSize) :
    (load s dst base offset size).1 ≠ .illegalMem ↔
      checkMem s.rbpf (accessAddr base offset) size.bytes memRegionRead = true := by
  by_cases hc : checkMem s.rbpf (accessAddr base offset) size.bytes memRegionRead = true
  · simp [load, checkLoad, hc]
  · simp [load, checkLoad, hc]

theorem instruction_legal (host : Host) {s : Vm} {a : Addr} {size : Nat} {type : BitVec 8}
    (h : memAccess s = some (a, size, type)) :
    1 ≤ size ∧ size ≤ 8 ∧
      ((instruction host s).1 ≠ .illegalMem ↔ checkMem s.rbpf a size type = true) := by
  cases hop : s.opcode with
  | none => simp [memAccess, hop] at h
  | some op =>
    cases op with
    | stx size | st size =>
      simp only [memAccess, hop, Option.some.injEq, Prod.mk.injEq] at h
      obtain ⟨rfl, rfl, rfl⟩ := h
      simp only [instruction, hop, exec]
      exact ⟨size.bytes_pos, size.bytes_le, store_legal s _ _ _ _⟩
    | ldx size =>
      simp only [memAccess, hop, Option.some.injEq, Prod.mk.injEq] at h
      obtain ⟨rfl, rfl, rfl⟩ := h
      simp only [instruction, hop, exec]
      exact ⟨size.bytes_pos, size.bytes_le, load_legal s _ _ _ _⟩
    | _ => simp [memAccess, hop] at h

/-- Memory isolation of one instruction, with the exact condition on the region
list and the access. -/
theorem memory_isolation_iff (host : Host) (s : Vm) (a : Addr) (size : Nat) (type : BitVec 8)
    (h : memAccess s = some (a, size, type)) :
    ((instruction host s).1 ≠ .illegalMem →
        ∃ r ∈ s.rbpf.regions, r.permits type ∧ r.contains a size) ↔
      ((∀ r ∈ s.rbpf.regions, r.permits type → ¬ r.Misjudged a size) ∨
        ∃ r ∈ s.rbpf.regions, r.permits type ∧ r.contains a size) := by
  obtain ⟨h1, h8, hl⟩ := instruction_legal host h
  rw [hl]
  exact checkMem_sound_iff s.rbpf a h1 h8 type

def loadByteVm (r1 : BitVec 64) : Vm where
  rbpf := { zeroApplication with stackRegion := ⟨0x20000000, 512, memRegionRead ||| memRegionWrite⟩ }
  mem := writeBytes (fun _ => 0) 0x20001000 [0x71, 0x10, 0, 0, 0, 0, 0, 0]
  regmap := fun r => if r = 1 then r1 else 0
  instr := 0x20001000

theorem memory_isolation_on_stack :
    (instruction plainHost (loadByteVm 0x20000010)).1 = .cont ∧
      ∃ r ∈ (loadByteVm 0x20000010).rbpf.regions, r.permits memRegionRead ∧ r.contains 0x20000010 1 :=
  ⟨by decide, (memory_isolation_iff plainHost (loadByteVm 0x20000010) 0x20000010 1 memRegionRead
    (by decide)).mpr (.inl (by decide)) (by decide)⟩

theorem memory_isolation_fails_below_sign :
    memAccess (loadByteVm 0x7fffffff) = some (0x7fffffff, 1, memRegionRead) ∧
      (instruction plainHost (loadByteVm 0x7fffffff)).1 = .cont ∧
      ¬ ∃ r ∈ (loadByteVm 0x7fffffff).rbpf.regions, r.permits memRegionRead ∧ r.contains 0x7fffffff 1 := by
  refine ⟨by decide, by decide, by decide⟩

end PipRiot.Rbpf
