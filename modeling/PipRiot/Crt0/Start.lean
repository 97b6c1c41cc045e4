import PipRiot.Lib.Loop
import PipRiot.Lib.Overlay

/-!
# The startup code of a relocatable binary

`_start` of `crt0.c` as a machine that stops at the head of each of its loops.
The binary is executed in place: every load of `_start` reads the image in
flash, which its stores do not change, and every store goes to RAM, where an
overlay records the bytes stored. All arithmetic on addresses, sizes and loop
indices is that of `uint32_t`. The two fields of the interface that `_start`
updates are kept apart from the RAM it relocates into.
-/

namespace PipRiot.Crt0

open BitVec

abbrev Addr := BitVec 32

structure Interface where
  root : Addr
  unusedRomStart : Addr
  unusedRamStart : Addr
  ramEnd : Addr
  deriving DecidableEq

structure Env where
  flash : Addr → Byte
  metadataOff : Addr
  itf : Interface

namespace Env

variable (E : Env)

/-! ## Metadata -/

def metadata : Addr := E.itf.root + E.metadataOff

def entryPoint : Addr := readWord E.flash E.metadata

def romSecSize : Addr := readWord E.flash (E.metadata + 4)

def romRamSecSize : Addr := readWord E.flash (E.metadata + 8)

def ramSecSize : Addr := readWord E.flash (E.metadata + 12)

def gotSecSize : Addr := readWord E.flash (E.metadata + 16)

def romRamEnd : Addr := readWord E.flash (E.metadata + 20)

def entryNumber : Addr := readWord E.flash (E.metadata + 24)

def ptrOff (i : Addr) : Addr := readWord E.flash ((E.metadata + 28 : Addr) + (i <<< 2))

/-! ## Section addresses -/

def romSecAddr : Addr := E.metadata + 24 + 4 + E.entryNumber * 4

def gotSecAddr : Addr := E.romSecAddr + E.romSecSize

def romRamSecAddr : Addr := E.gotSecAddr + E.gotSecSize

def entryPointAddr : Addr := E.romSecAddr + E.entryPoint

def relGotSecAddr : Addr := E.itf.unusedRamStart

def relRomRamSecAddr : Addr := E.relGotSecAddr + E.gotSecSize

def relRamSecAddr : Addr := E.relRomRamSecAddr + E.romRamSecSize

def NotEnoughRam : Prop :=
  E.itf.ramEnd < E.relGotSecAddr + E.gotSecSize ∨ E.itf.ramEnd < E.relRomRamSecAddr + E.romRamSecSize ∨
    E.itf.ramEnd < E.relRamSecAddr + E.ramSecSize

instance : Decidable E.NotEnoughRam := inferInstanceAs (Decidable (_ ∨ _ ∨ _))

def updatedItf : Interface :=
  { E.itf with
    unusedRamStart := E.relRamSecAddr + E.ramSecSize
    -- `sizeof(metadata_t)` does not count the flexible array of entries
    unusedRomStart := E.itf.unusedRomStart + E.metadataOff + 28 + E.romRamEnd }

end Env

/-! ## Offsets -/

inductive Death where
  | notEnoughRam | offsetOutside | pointerInRom | offsetInGot
  deriving DecidableEq

namespace Env

variable (E : Env)

/-- The split of a link-time offset by section; what is done with one into `.rom` or
`.got` differs. -/
def splitOffset (inRom inGot : Addr → Except Death Addr) (off : Addr) : Except Death Addr :=
  if off < E.romSecSize then inRom off
  else if off - E.romSecSize < E.gotSecSize then inGot (off - E.romSecSize)
  else if off - E.romSecSize - E.gotSecSize < E.romRamSecSize then
    .ok (E.relRomRamSecAddr + (off - E.romSecSize - E.gotSecSize))
  else if off - E.romSecSize - E.gotSecSize - E.romRamSecSize < E.ramSecSize then
    .ok (E.relRamSecAddr + (off - E.romSecSize - E.gotSecSize - E.romRamSecSize))
  else .error .offsetOutside

def gotEntryAddr : Addr → Except Death Addr :=
  E.splitOffset (fun off => .ok (E.romSecAddr + off)) fun off => .ok (E.relGotSecAddr + off)

def ptrAddr : Addr → Except Death Addr :=
  E.splitOffset (fun _ => .error .pointerInRom) fun _ => .error .offsetInGot

def patchAddr : Addr → Except Death Addr :=
  E.splitOffset (fun off => .ok (E.romSecAddr + off)) fun _ => .error .offsetInGot

def patch (i : Addr) : Except Death (Addr × Addr) :=
  match E.ptrAddr (E.ptrOff i) with
  | .error d => .error d
  | .ok ptr =>
    match E.patchAddr (readWord E.flash (E.romSecAddr + E.ptrOff i)) with
    | .error d => .error d
    | .ok addr => .ok (ptr, addr)

end Env

/-! ## The machine -/

/-- The three loops of `memcpy`, by the instruction they copy with. -/
inductive Block where
  | ldm | ldrd | ldrb
  deriving DecidableEq

def Block.size : Block → Nat
  | .ldm => 44
  | .ldrd => 8
  | .ldrb => 1

inductive Point where
  | check
  | copy (block : Block) (dest src : Addr) (n : Nat)
  | zero (i : Addr)
  | got (i : Addr)
  | patch (i : Addr)
  deriving DecidableEq

structure State where
  point : Point
  itf : Interface
  ram : Addr → Option Byte

inductive Outcome where
  | die (why : Death)
  | entry (pc sl : Addr) (s : State)

def init (E : Env) : State where
  point := .check
  itf := E.itf
  ram := fun _ => none

def Block.next (b : Block) (dest src : Addr) (n : Nat) : Point :=
  match b with
  | .ldm => .copy .ldrd dest src n
  | .ldrd => .copy .ldrb dest src n
  | .ldrb => .zero 0

def step (E : Env) (s : State) : State ⊕ Outcome :=
  match s.point with
  | .check =>
    if E.NotEnoughRam then .inr (.die .notEnoughRam)
    else .inl { s with
      itf := E.updatedItf
      point := .copy .ldm E.relRomRamSecAddr E.romRamSecAddr E.romRamSecSize.toNat }
  | .copy b dest src n =>
    if b.size ≤ n then .inl { s with
      ram := overlay s.ram dest (readBytes E.flash src b.size)
      point := .copy b (dest + BitVec.ofNat 32 b.size) (src + BitVec.ofNat 32 b.size) (n - b.size) }
    else .inl { s with point := b.next dest src n }
  | .zero i =>
    if i <<< 2 < E.ramSecSize then .inl { s with
      ram := overlay s.ram (E.relRamSecAddr + (i <<< 2)) (leBytes 4 0)
      point := .zero (i + 1) }
    else .inl { s with point := .got 0 }
  | .got i =>
    if i <<< 2 < E.gotSecSize then
      match E.gotEntryAddr (readWord E.flash (E.gotSecAddr + (i <<< 2))) with
      | .error d => .inr (.die d)
      | .ok addr => .inl { s with
        ram := overlay s.ram (E.relGotSecAddr + (i <<< 2)) (leBytes 4 addr.toNat)
        point := .got (i + 1) }
    else .inl { s with point := .patch 0 }
  | .patch i =>
    if i < E.entryNumber then
      match E.patch i with
      | .error d => .inr (.die d)
      | .ok (ptr, addr) => .inl { s with
        ram := overlay s.ram ptr (leBytes 4 addr.toNat)
        point := .patch (i + 1) }
    else .inr (.entry E.entryPointAddr E.relGotSecAddr s)

def Reach (E : Env) : State → State → Prop := ReachBy (step E) (fun _ => True)

theorem Reach.one {E : Env} {s t u : State} (h : Reach E s t) (hs : step E t = .inl u) : Reach E s u :=
  .next h trivial hs

/-! ## Sizes and offsets as numbers -/

theorem shl_two (k : Nat) : (BitVec.ofNat 32 k : Addr) <<< 2 = BitVec.ofNat 32 (4 * k) := by
  apply eq_of_toNat_eq
  rw [toNat_shiftLeft, Nat.shiftLeft_eq, toNat_ofNat, toNat_ofNat]
  omega

theorem index_lt {k : Nat} {size : Addr} (hk : k < 2 ^ 32) : BitVec.ofNat 32 k < size ↔ k < size.toNat := by
  rw [lt_def, toNat_ofNat, Nat.mod_eq_of_lt hk]

namespace Env

variable (E : Env)

def romLen : Nat := E.romSecSize.toNat

def gotLen : Nat := E.gotSecSize.toNat

def romRamLen : Nat := E.romRamSecSize.toNat

def ramLen : Nat := E.ramSecSize.toNat

theorem relRomRamSecAddr_eq : E.relRomRamSecAddr = E.itf.unusedRamStart + BitVec.ofNat 32 E.gotLen := by
  simp [relRomRamSecAddr, relGotSecAddr, gotLen]

theorem relRamSecAddr_eq : E.relRamSecAddr = E.itf.unusedRamStart + BitVec.ofNat 32 (E.gotLen + E.romRamLen) := by
  rw [relRamSecAddr, relRomRamSecAddr_eq, ofNat_add, ← BitVec.add_assoc]
  simp [romRamLen]

theorem splitOffset_eq (inRom inGot : Addr → Except Death Addr) (off : Addr) :
    E.splitOffset inRom inGot off =
      if off.toNat < E.romLen then inRom off
      else if off.toNat < E.romLen + E.gotLen then inGot (off - E.romSecSize)
      else if off.toNat < E.romLen + E.gotLen + E.romRamLen + E.ramLen then
        .ok (E.itf.unusedRamStart + BitVec.ofNat 32 (off.toNat - E.romLen))
      else .error .offsetOutside := by
  unfold splitOffset romLen gotLen romRamLen ramLen
  by_cases hrom : off.toNat < E.romSecSize.toNat
  · rw [if_pos (lt_def.mpr hrom), if_pos hrom]
  · have h1 : (off - E.romSecSize).toNat = off.toNat - E.romSecSize.toNat :=
      toNat_sub_of_le (le_def.mpr (not_lt.mp hrom))
    rw [if_neg (by rw [lt_def]; exact hrom), if_neg hrom]
    by_cases hgot : off.toNat < E.romSecSize.toNat + E.gotSecSize.toNat
    · rw [if_pos (by rw [lt_def, h1]; omega), if_pos hgot]
    · have h2 : (off - E.romSecSize - E.gotSecSize).toNat =
          off.toNat - E.romSecSize.toNat - E.gotSecSize.toNat := by
        rw [toNat_sub_of_le (le_def.mpr (by rw [h1]; omega)), h1]
      rw [if_neg (by rw [lt_def, h1]; omega), if_neg hgot]
      by_cases hrr : off.toNat < E.romSecSize.toNat + E.gotSecSize.toNat + E.romRamSecSize.toNat
      · rw [if_pos (by rw [lt_def, h2]; omega), if_pos (by omega), relRomRamSecAddr_eq, BitVec.add_assoc]
        congr 2
        apply eq_of_toNat_eq
        rw [toNat_add, h2, toNat_ofNat, toNat_ofNat, gotLen]; omega
      · have h3 : (off - E.romSecSize - E.gotSecSize - E.romRamSecSize).toNat =
            off.toNat - E.romSecSize.toNat - E.gotSecSize.toNat - E.romRamSecSize.toNat := by
          rw [toNat_sub_of_le (le_def.mpr (by rw [h2]; omega)), h2]
        rw [if_neg (by rw [lt_def, h2]; omega)]
        by_cases hram : off.toNat <
            E.romSecSize.toNat + E.gotSecSize.toNat + E.romRamSecSize.toNat + E.ramSecSize.toNat
        · rw [if_pos (by rw [lt_def, h3]; omega), if_pos hram, relRamSecAddr_eq, BitVec.add_assoc]
          congr 2
          apply eq_of_toNat_eq
          rw [toNat_add, h3, toNat_ofNat, toNat_ofNat, gotLen, romRamLen]; omega
        · rw [if_neg (by rw [lt_def, h3]; omega), if_neg hram]

variable {E}

theorem patch_ok {i ptr addr : Addr} (h : E.patch i = .ok (ptr, addr)) :
    E.ptrAddr (E.ptrOff i) = .ok ptr ∧
      E.patchAddr (readWord E.flash (E.romSecAddr + E.ptrOff i)) = .ok addr := by
  simp only [patch] at h
  split at h
  · cases h
  · rename_i p hp
    split at h
    · cases h
    · rename_i a ha
      cases h; exact ⟨hp, ha⟩

theorem ptrAddr_ok {off ptr : Addr} (h : E.ptrAddr off = .ok ptr) :
    ptr = E.itf.unusedRamStart + BitVec.ofNat 32 (off.toNat - E.romLen) ∧
      E.romLen + E.gotLen ≤ off.toNat ∧ off.toNat < E.romLen + E.gotLen + E.romRamLen + E.ramLen := by
  rw [ptrAddr, splitOffset_eq] at h
  split at h
  · cases h
  · split at h
    · cases h
    · split at h
      · cases h; exact ⟨rfl, by omega, by assumption⟩
      · cases h

end Env

end PipRiot.Crt0
