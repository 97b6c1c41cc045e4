import PipRiot.Lib.Slots
import PipRiot.SafeExec.Syscall
import PipRiot.Tinyfs.SearchReads

/-!
# The file system calls and the MPU

`COPY_FILE` and `GET_FILE_SIZE` search the flash, which is cut into three blocks
around the file of the child. RIOT reaches the part behind that file only through
slot 3, so `syscall_handler` takes the slot from the block with the child's stack
for the time of the search and the copy.
-/

namespace PipRiot.SafeExec

open List Function Option

open Tinyfs (Volume Entry Chain sizeAt fileSearch lookup visible searched strncmpReads)

/-! ## Blocks and slots -/

/-- The child once `_main` has cut RIOT's blocks: the first begins at `ramStart`, the
second is the flash. The other slots hold nothing of the child's stack and no writable
flash. -/
structure Partition extends Config where
  ramStart : Addr
  flashStart : Addr
  flashEnd : Addr
  mpu : Slots (Fin 8) 32
  ram_cuts : ramStart.toNat < setup.riotKrn.toNat ∧ setup.riotKrn.toNat < setup.childStk.toNat ∧
    setup.childStk.toNat < setup.childItf.toNat ∧ setup.childItf.toNat < setup.childEnd.toNat
  flash_cuts : flashStart.toNat < setup.file.toNat ∧ setup.file.toNat < setup.childFlashEnd.toNat ∧
    setup.childFlashEnd.toNat < flashEnd.toNat
  flash_apart : (Area.between ramStart setup.childEnd).Disjoint (.between flashStart flashEnd)
  volume_inside : flashStart.toNat ≤ volume.firstPage ∧ volume.lastPage + 4096 ≤ flashEnd.toNat
  riot_block_1 : mpu 1 = some ⟨.between ramStart setup.riotKrn, true⟩
  riot_block_2 : mpu 2 = some ⟨.between flashStart setup.file, false⟩
  mpu_stack : ∀ i B, mpu i = some B → B.area.Disjoint (.between setup.childStk setup.childItf)
  mpu_flash : ∀ i B, mpu i = some B → B.writable = true → B.area.Disjoint (.between flashStart flashEnd)

namespace Partition

variable (P : Partition)

def childBlock0 : Block 32 := ⟨.between P.setup.childStk P.setup.childItf, true⟩

def childBlock1 : Block 32 := ⟨.between P.setup.childItf P.setup.childEnd, true⟩

def childBlock2 : Block 32 := ⟨.between P.setup.childFlash P.setup.childFlashEnd, false⟩

def childFlashEndBlock : Block 32 := ⟨.between P.setup.childFlashEnd P.flashEnd, false⟩

def Stack (x : Addr) : Prop := P.childBlock0.area.Mem x

def Ram (x : Addr) : Prop := P.Stack x ∨ P.childBlock1.area.Mem x

def Child (x : Addr) : Prop := P.Ram x ∨ P.childBlock2.area.Mem x

instance : DecidablePred P.Stack := fun x => inferInstanceAs (Decidable (P.childBlock0.area.Mem x))

instance : DecidablePred P.Ram := fun x => inferInstanceAs (Decidable (P.Stack x ∨ P.childBlock1.area.Mem x))

instance : DecidablePred P.Child := fun x => inferInstanceAs (Decidable (P.Ram x ∨ P.childBlock2.area.Mem x))

def InFlash (x : Addr) : Prop := (Area.between P.flashStart P.flashEnd).Mem x

/-- The slots while the handler works for the child, and while it is in
`copy_file` or `get_file_size`. -/
def serving : Slots (Fin 8) 32 :=
  update (update (update P.mpu 3 (some P.childBlock0)) 4 (some P.childBlock1)) 5
    (some P.childBlock2)

def searching : Slots (Fin 8) 32 := update P.serving 3 (some P.childFlashEndBlock)

end Partition

/-! ## The accesses of a call -/

def readsAt (a : Addr) (n : Nat) : List (Access 32) := (range n).map fun k => .read (a + BitVec.ofNat 32 k)

def writesAt (a : Addr) (n : Nat) : List (Access 32) := (range n).map fun k => .write (a + BitVec.ofNat 32 k)

def searchAccesses (v : Volume) (m : Mem) (name : Addr) : List (Access 32) :=
  (Tinyfs.searchReads v (flash m) (nameAt m name)).map fun
    | .flash x => .read (BitVec.ofNat 32 x)
    | .name k => .read (name + BitVec.ofNat 32 k)

def copyAccesses (file : Nat) (buf : Addr) : Nat → Nat → State → List (Access 32)
  | _, 0, _ => []
  | i, n + 1, s =>
    readsAt (BitVec.ofNat 32 (file + 32)) 4 ++
      if i < sizeAt (flash s.mem) file then
        .read (BitVec.ofNat 32 (file + 48 + i)) :: .write (buf + BitVec.ofNat 32 i) ::
          copyAccesses file buf (i + 1) n (s.store (buf + BitVec.ofNat 32 i) [flash s.mem (file + 48 + i)])
      else []

inductive FileCall
  | copyFile (name buf : Addr) (nbyte : Word)
  | getFileSize (name size : Addr)
  deriving DecidableEq

namespace FileCall

def call : FileCall → Call
  | .copyFile name buf nbyte => .copyFile name buf nbyte
  | .getFileSize name size => .getFileSize name size

def name : FileCall → Addr
  | .copyFile name _ _ | .getFileSize name _ => name

def accesses (v : Volume) (s : State) : FileCall → List (Access 32)
  | .copyFile name buf nbyte => searchAccesses v s.mem name ++
      match fileSearch v (flash s.mem) (nameAt s.mem name) with
      | some (some file) => copyAccesses file buf 0 nbyte.toNat s
      | _ => []
  | .getFileSize name _ => searchAccesses v s.mem name ++
      match fileSearch v (flash s.mem) (nameAt s.mem name) with
      | some (some file) => readsAt (BitVec.ofNat 32 (file + 32)) 4
      | _ => []

def results (argv : Addr) : FileCall → List (Access 32)
  | .copyFile _ _ _ => writesAt argv 4
  | .getFileSize _ size => readsAt (argv + 8) 4 ++ writesAt size 4 ++ writesAt argv 4

end FileCall

namespace Partition

variable (P : Partition)

def frameAccesses (m : Mem) (c : FileCall) : List (Access 32) :=
  readsAt (P.setup.childCtx + BitVec.ofNat 32 P.spOff) 4 ++ readsAt (P.argv m) (4 * c.call.words)

def trace (s : State) (c : FileCall) : List (Act (Fin 8) 32) :=
  .map 3 (some P.childBlock0) :: .map 4 (some P.childBlock1) :: .map 5 (some P.childBlock2) ::
    (touch (P.frameAccesses s.mem c) ++
      .map 3 (some P.childFlashEndBlock) ::
        (touch (c.accesses P.volume s) ++
          .map 3 (some P.childBlock0) ::
            (touch (c.results (P.argv s.mem)) ++ [.map 3 none, .map 4 none, .map 5 none])))

end Partition

/-! ## What the calls are for -/

def storeWord (m : Mem) (a : Addr) (v : Word) : Mem := writeBytes m a (leBytes 4 v.toNat)

def FileCall.expected (v : Volume) (es : List Entry) (argv : Addr) (m : Mem) : FileCall → Mem
  | .copyFile name buf nbyte =>
    match lookup (nameAt m name) v.firstPage es with
    | none => storeWord m argv (-1)
    | some (file, e) =>
      storeWord (writeBytes m buf (slice (flash m) (file + 48) (min nbyte.toNat e.size))) argv
        (BitVec.ofNat 32 (min nbyte.toNat e.size))
  | .getFileSize name size =>
    match lookup (nameAt m name) v.firstPage es with
    | none => storeWord (storeWord m size 0) argv (-1)
    | some (_, e) => storeWord (storeWord m size (BitVec.ofNat 32 e.size)) argv 0

namespace Partition

variable (P : Partition) {a name : Addr} {m : Mem} {v : Volume}

structure Serves (b : Board) (es : List Entry) (s : State) (c : FileCall) : Prop where
  permitted : Permitted P.mpu (P.trace s c)
  answers : ∃ t, P.syscallHandler b s = some t ∧ t.mem = c.expected P.volume es (P.argv s.mem) s.mem
  unmapped : ∀ i ∈ [3, 4, 5], P.mpu.after (P.trace s c) i = none

/-- The frame lies in the RAM of the child, and the name and the destination in
its blocks. -/
structure Inside (m : Mem) (c : FileCall) : Prop where
  frame : Range P.Ram (P.argv m) (4 * c.call.words)
  name : ∀ k < 32, (∀ j < k, m (c.name + BitVec.ofNat 32 j) ≠ 0) → P.Child (c.name + BitVec.ofNat 32 k)
  dest : match c with
    | .copyFile _ buf nbyte => Range P.Child buf nbyte.toNat
    | .getFileSize _ size => Range P.Child size 4

/-- What is copied goes to the second block, what is stored later to RAM. -/
def DestReachable (es : List Entry) (m : Mem) : FileCall → Prop
  | .copyFile name buf nbyte => ∀ file e, lookup (nameAt m name) P.volume.firstPage es = some (file, e) →
      Range P.childBlock1.area.Mem buf (min nbyte.toNat e.size)
  | .getFileSize _ size => Range P.Ram size 4

/-- The search sees the file if there is one and reads no byte in the stack, and the
destination can be reached. -/
structure Reachable (es : List Entry) (m : Mem) (c : FileCall) : Prop where
  listed : lookup (nameAt m c.name) P.volume.firstPage (visible P.volume es) =
    lookup (nameAt m c.name) P.volume.firstPage es
  name : ∀ e ∈ searched (nameAt m c.name) (visible P.volume es),
    Range (fun x => ¬ P.Stack x) c.name (strncmpReads e.name (nameAt m c.name).bytes 32)
  dest : P.DestReachable es m c

/-! ## The slots -/

variable {P} {x : Addr}

theorem stack_iff : P.Stack x ↔ P.setup.childStk.toNat ≤ x.toNat ∧ x.toNat < P.setup.childItf.toNat :=
  Area.mem_between (P.ram_cuts.2.2.1.le)

theorem block1_iff : P.childBlock1.area.Mem x ↔ P.setup.childItf.toNat ≤ x.toNat ∧ x.toNat < P.setup.childEnd.toNat :=
  Area.mem_between (P.ram_cuts.2.2.2.le)

theorem block2_iff : P.childBlock2.area.Mem x ↔ P.setup.file.toNat ≤ x.toNat ∧ x.toNat < P.setup.childFlashEnd.toNat :=
  Area.mem_between (P.flash_cuts.2.1.le)

theorem flashEnd_iff : P.childFlashEndBlock.area.Mem x ↔
    P.setup.childFlashEnd.toNat ≤ x.toNat ∧ x.toNat < P.flashEnd.toNat :=
  Area.mem_between (P.flash_cuts.2.2.le)

theorem inFlash_iff : P.InFlash x ↔ P.flashStart.toNat ≤ x.toNat ∧ x.toNat < P.flashEnd.toNat := by
  have h := P.flash_cuts
  exact Area.mem_between (by omega)

theorem Ram.not_inFlash (h : P.Ram x) : ¬ P.InFlash x := by
  have hcuts := P.ram_cuts
  apply P.flash_apart
  rw [Area.mem_between (by omega)]
  rcases h with h | h
  · rw [stack_iff] at h; omega
  · rw [block1_iff] at h; omega

theorem block2_inFlash (h : P.childBlock2.area.Mem x) : P.InFlash x := by
  have hcuts := P.flash_cuts
  rw [block2_iff] at h
  rw [inFlash_iff]
  omega

theorem serving_cases {i : Fin 8} {B : Block 32} (h : P.serving i = some B) :
    B = P.childBlock0 ∨ B = P.childBlock1 ∨ B = P.childBlock2 ∨ P.mpu i = some B := by
  simp only [serving, update_apply] at h
  split at h
  · exact .inr (.inr (.inl (some.inj h).symm))
  · split at h
    · exact .inr (.inl (some.inj h).symm)
    · split at h
      · exact .inl (some.inj h).symm
      · exact .inr (.inr (.inr h))

theorem searching_cases {i : Fin 8} {B : Block 32} (h : P.searching i = some B) :
    B = P.childFlashEndBlock ∨ B = P.childBlock1 ∨ B = P.childBlock2 ∨ P.mpu i = some B := by
  simp only [searching, serving, update_apply] at h
  split at h
  · exact .inl (some.inj h).symm
  · split at h
    · exact .inr (.inr (.inl (some.inj h).symm))
    · split at h
      · exact .inr (.inl (some.inj h).symm)
      · exact .inr (.inr (.inr h))

theorem serving_again : update P.searching 3 (some P.childBlock0) = P.serving := by
  funext i
  simp only [searching, serving, update_apply]
  split
  · rename_i h
    subst h; rfl
  · rfl

theorem serving_reads (h : P.Child x) : P.serving.Reads x := by
  rcases h with (h | h) | h
  · exact ⟨3, P.childBlock0, by simp [serving], h⟩
  · exact ⟨4, P.childBlock1, by simp [serving], h⟩
  · exact ⟨5, P.childBlock2, by simp [serving], h⟩

theorem serving_writes (h : P.Child x) : P.serving.Writes x ↔ P.Ram x := by
  constructor
  · intro ⟨i, B, hB, hw, hx⟩
    rcases h with h | h
    · exact h
    · have hf := block2_inFlash h
      rcases serving_cases hB with rfl | rfl | rfl | hB
      · exact .inl hx
      · exact .inr hx
      · cases hw
      · exact absurd hf (P.mpu_flash i B hB hw x hx)
  · intro h
    rcases h with h | h
    · exact ⟨3, P.childBlock0, by simp [serving], rfl, h⟩
    · exact ⟨4, P.childBlock1, by simp [serving], rfl, h⟩

theorem searching_inFlash (h : P.InFlash x) : P.searching.Reads x := by
  rw [inFlash_iff] at h
  by_cases h2 : x.toNat < P.setup.file.toNat
  · refine ⟨2, ⟨.between P.flashStart P.setup.file, false⟩, by simp [searching, serving, P.riot_block_2], ?_⟩
    exact (Area.mem_between (P.flash_cuts.1.le)).mpr ⟨h.1, h2⟩
  · by_cases h5 : x.toNat < P.setup.childFlashEnd.toNat
    · refine ⟨5, P.childBlock2, by simp [searching, serving], ?_⟩
      rw [block2_iff]; omega
    · refine ⟨3, P.childFlashEndBlock, by simp [searching], ?_⟩
      rw [flashEnd_iff]; omega

theorem searching_reads (h : P.Child x) : P.searching.Reads x ↔ ¬ P.Stack x := by
  constructor
  · intro ⟨i, B, hB, hx⟩ hs
    have hr : P.Ram x := .inl hs
    have hf := hr.not_inFlash
    have hcuts := P.flash_cuts
    rcases searching_cases hB with rfl | rfl | rfl | hB
    · rw [flashEnd_iff] at hx
      rw [inFlash_iff] at hf; omega
    · rw [block1_iff] at hx
      rw [stack_iff] at hs; omega
    · exact hf (block2_inFlash hx)
    · exact P.mpu_stack i B hB x hx hs
  · intro hs
    rcases h with (h | h) | h
    · exact absurd h hs
    · exact ⟨4, P.childBlock1, by simp [searching, serving], h⟩
    · exact searching_inFlash (block2_inFlash h)

theorem searching_writes_not_inFlash (h : P.searching.Writes x) : ¬ P.InFlash x := by
  obtain ⟨i, B, hB, hw, hx⟩ := h
  rcases searching_cases hB with rfl | rfl | rfl | hB
  · cases hw
  · exact Ram.not_inFlash (.inr hx)
  · cases hw
  · exact P.mpu_flash i B hB hw x hx

theorem searching_writes (h : P.Child x) : P.searching.Writes x ↔ P.childBlock1.area.Mem x := by
  constructor
  · intro hw
    obtain ⟨i, B, hB, -, hx⟩ := id hw
    have hs := (searching_reads h).mp ⟨i, B, hB, hx⟩
    rcases h with (h | h) | h
    · exact absurd h hs
    · exact h
    · exact absurd (block2_inFlash h) (searching_writes_not_inFlash hw)
  · intro h
    exact ⟨4, P.childBlock1, by simp [searching, serving], rfl, h⟩

variable {c : FileCall}

theorem permitted_iff {s : State} : Permitted P.mpu (P.trace s c) ↔
    (∀ a ∈ P.frameAccesses s.mem c, P.serving.Allows a) ∧ (∀ a ∈ c.accesses P.volume s, P.searching.Allows a) ∧
      ∀ a ∈ c.results (P.argv s.mem), P.serving.Allows a := by
  have hagain := P.serving_again
  simp only [trace, permitted_map, permitted_touch, permitted_nil, and_true]
  unfold searching at hagain ⊢
  rw [← serving, hagain]

/-! ## Copying -/

theorem mem_readsAt {u : Slots (Fin 8) 32} {n : Nat} : (∀ y ∈ readsAt a n, u.Allows y) ↔ Range u.Reads a n := by
  simp [readsAt, Range, Slots.Allows]

theorem mem_writesAt {u : Slots (Fin 8) 32} {n : Nat} : (∀ y ∈ writesAt a n, u.Allows y) ↔ Range u.Writes a n := by
  simp [writesAt, Range, Slots.Allows]

theorem flash_store {s : State} (b : Byte) {y : Nat} (ha : ¬ P.InFlash a) (hy : P.InFlash (BitVec.ofNat 32 y)) :
    flash (s.store a [b]).mem y = flash s.mem y := by
  apply writeBytes_of_le
  apply not_lt.mp
  intro hlt
  have hd : dist a (BitVec.ofNat 32 y) = 0 := by simpa using hlt
  rw [dist_eq_iff _ _ (by decide), BitVec.add_zero] at hd
  exact ha (hd ▸ hy)

structure Placed (P : Partition) (m : Mem) (file z : Nat) : Prop where
  size : sizeAt (flash m) file = z
  inFlash : ∀ y, file ≤ y → y < file + 48 + z → P.InFlash (BitVec.ofNat 32 y)

theorem Placed.store {s : State} {file z : Nat} (h : P.Placed s.mem file z) (b : Byte) (ha : ¬ P.InFlash a) :
    P.Placed (s.store a [b]).mem file z where
  size := by
    rw [← h.size]
    exact Tinyfs.word_congr fun y h1 h2 => flash_store b ha (h.inFlash y (by omega) (by omega))
  inFlash := h.inFlash

theorem Placed.header {s : State} {file z : Nat} (h : P.Placed s.mem file z) :
    Range P.searching.Reads (BitVec.ofNat 32 (file + 32)) 4 := by
  intro k hk
  rw [← BitVec.ofNat_add]
  exact searching_inFlash (h.inFlash _ (by omega) (by omega))

variable {file z : Nat} {buf : Addr}

theorem copyAccesses_allowed : ∀ (n i : Nat) {s : State}, P.Placed s.mem file z →
    ((∀ a ∈ copyAccesses file buf i n s, P.searching.Allows a) ↔
      ∀ k, i ≤ k → k < i + n → k < z → P.searching.Writes (buf + BitVec.ofNat 32 k))
  | 0, i, s, _ => by
    simp only [copyAccesses, not_mem_nil, false_implies, implies_true, true_iff]
    intro k h1 h2; omega
  | n + 1, i, s, h => by
    have hhead := mem_readsAt.mpr h.header
    rw [copyAccesses, forall_mem_append, and_iff_right hhead, h.size]
    by_cases hi : i < z
    · rw [if_pos hi, forall_mem_cons, forall_mem_cons]
      have hread : P.searching.Allows (.read (BitVec.ofNat 32 (file + 48 + i))) :=
        searching_inFlash (h.inFlash _ (by omega) (by omega))
      rw [and_iff_right hread]
      -- a store that goes through leaves the file as it is
      constructor
      · intro ⟨hw, hrest⟩ k h1 h2 h3
        by_cases hk : k = i
        · subst hk; exact hw
        · have hp := h.store (flash s.mem (file + 48 + i)) (searching_writes_not_inFlash hw)
          exact (copyAccesses_allowed n (i + 1) hp).mp hrest k (by omega) (by omega) h3
      · intro hall
        have hw := hall i (Nat.le_refl i) (by omega) hi
        have hp := h.store (flash s.mem (file + 48 + i)) (searching_writes_not_inFlash hw)
        exact ⟨hw, (copyAccesses_allowed n (i + 1) hp).mpr fun k h1 h2 => hall k (by omega) (by omega)⟩
    · rw [if_neg hi]
      simp only [not_mem_nil, false_implies, implies_true, true_iff]
      intro k h1 h2 h3; omega

theorem copyFrom_eq : ∀ (n i : Nat) {s : State}, P.Placed s.mem file z → i + n < 2 ^ 32 →
    (∀ k, i ≤ k → k < i + n → k < z → ¬ P.InFlash (buf + BitVec.ofNat 32 k)) →
    (copyFrom file buf i n s).1.mem =
        writeBytes s.mem (buf + BitVec.ofNat 32 i) (slice (flash s.mem) (file + 48 + i) (min n (z - i))) ∧
      (copyFrom file buf i n s).2 = i + min n (z - i)
  | 0, i, s, _, _, _ => by simp [copyFrom, slice]
  | n + 1, i, s, h, hlt, hbuf => by
    rw [copyFrom, h.size]
    by_cases hi : i < z
    · have hstore := hbuf i (Nat.le_refl i) (by omega) hi
      have hp := h.store (flash s.mem (file + 48 + i)) hstore
      obtain ⟨hmem, hres⟩ := copyFrom_eq n (i + 1) hp (by omega) fun k h1 h2 => hbuf k (by omega) (by omega)
      have hmin : min (n + 1) (z - i) = 1 + min n (z - (i + 1)) := by omega
      have hsame : slice (flash (s.store (buf + BitVec.ofNat 32 i) [flash s.mem (file + 48 + i)]).mem)
          (file + 48 + (i + 1)) (min n (z - (i + 1))) =
          slice (flash s.mem) (file + 48 + i + 1) (min n (z - (i + 1))) :=
        slice_congr fun y h1 h2 => flash_store _ hstore (h.inFlash y (by omega) (by omega))
      rw [if_pos hi, hmem, hres, hmin, slice_add, hsame]
      refine ⟨?_, by omega⟩
      rw [BitVec.ofNat_add, ← BitVec.add_assoc]
      exact writeBytes_cons _ _ _ (by rw [slice_length]; omega)
    · have hz : z - i = 0 := by omega
      rw [if_neg hi, hz]
      simp [slice]

/-! ## What a call needs -/

theorem volume_inFlash {y : Nat} (h1 : P.volume.firstPage ≤ y) (h2 : y < P.volume.lastPage + 4096) :
    P.InFlash (BitVec.ofNat 32 y) := by
  have hv := P.volume_inside
  rw [inFlash_iff, BitVec.toNat_ofNat, Nat.mod_eq_of_lt (by omega)]
  omega

theorem Inside.name_read (h : P.Inside m c) (s : List Byte) {k : Nat}
    (hk : k < strncmpReads s (nameAt m c.name).bytes 32) : P.Child (c.name + BitVec.ofNat 32 k) := by
  have hle := Tinyfs.strncmpReads_le 32 s (nameAt m c.name).bytes
  have hlen := Tinyfs.lt_of_strncmpReads 32 s _ k hk (nameAt m c.name).nonzero
  refine h.name k (by omega) fun j hj hz => (nameAt m c.name).nonzero ?_
  have hget : (nameAt m c.name).bytes[j] = m (c.name + BitVec.ofNat 32 j) := by
    have hpre := List.takeWhile_prefix (fun b : Byte => decide (b ≠ 0)) (l := readBytes m c.name 32)
    exact (hpre.getElem (lt_of_lt_of_le hj hlen)).trans (by simp [readBytes])
  rw [← hz, ← hget]
  exact getElem_mem _

section
variable {s : State} {es : List Entry} (hi : P.volume.initialized = true) (hchain : Chain P.volume (flash s.mem) es)

include hchain

theorem placed {name : Tinyfs.CString} {e : Entry}
    (h : lookup name P.volume.firstPage (visible P.volume es) = some (file, e)) : P.Placed s.mem file e.size := by
  obtain ⟨hfiles, hfits⟩ := hchain.visible_files
  obtain ⟨h1, h2, h3⟩ := hfiles.lookup hfits h
  have hround := Tinyfs.round_eq e.size_le
  refine ⟨h3, fun y hy hz => volume_inFlash (by omega) ?_⟩
  unfold Tinyfs.Entry.extent at h2
  omega

include hi

theorem fileSearch_eq (name : Tinyfs.CString) : fileSearch P.volume (flash s.mem) name =
    some ((lookup name P.volume.firstPage (visible P.volume es)).map Prod.fst) := hchain.search_eq hi name

theorem searchAccesses_allowed (hin : P.Inside s.mem c) :
    (∀ a ∈ searchAccesses P.volume s.mem c.name, P.searching.Allows a) ↔
      ∀ e ∈ searched (nameAt s.mem c.name) (visible P.volume es),
        Range (fun x => ¬ P.Stack x) c.name (strncmpReads e.name (nameAt s.mem c.name).bytes 32) := by
  unfold searchAccesses
  rw [List.forall_mem_map, hchain.searchReads hi]
  · exact forall₄_congr fun e _ k hk => searching_reads (hin.name_read e.name hk)
  · intro x h1 h2
    exact searching_inFlash (volume_inFlash h1 (by omega))

theorem copyFile_allowed {nbyte : Word} (hin : P.Inside s.mem (.copyFile name buf nbyte)) :
    (∀ a ∈ (FileCall.copyFile name buf nbyte).accesses P.volume s, P.searching.Allows a) ↔
      (∀ e ∈ searched (nameAt s.mem name) (visible P.volume es),
        Range (fun x => ¬ P.Stack x) name (strncmpReads e.name (nameAt s.mem name).bytes 32)) ∧
      ∀ file e, lookup (nameAt s.mem name) P.volume.firstPage (visible P.volume es) = some (file, e) →
        Range P.childBlock1.area.Mem buf (min nbyte.toNat e.size) := by
  rw [FileCall.accesses, forall_mem_append, fileSearch_eq hi hchain]
  apply and_congr (searchAccesses_allowed hi hchain hin)
  cases hl : lookup (nameAt s.mem name) P.volume.firstPage (visible P.volume es) with
  | none => simp
  | some p =>
    obtain ⟨file, e⟩ := p
    have hbuf : ∀ k < nbyte.toNat, P.Child (buf + BitVec.ofNat 32 k) := hin.dest
    simp only [map_some, some.injEq, Prod.mk.injEq]
    rw [copyAccesses_allowed nbyte.toNat 0 (placed hchain hl)]
    constructor
    · rintro hall file' e' ⟨rfl, rfl⟩ k hk
      exact (searching_writes (hbuf k (by omega))).mp (hall k (Nat.zero_le k) (by omega) (by omega))
    · intro hall k _ h1 h2
      exact (searching_writes (hbuf k (by omega))).mpr (hall file e ⟨rfl, rfl⟩ k (by omega))

theorem getFileSize_allowed {size : Addr} (hin : P.Inside s.mem (.getFileSize name size)) :
    (∀ a ∈ (FileCall.getFileSize name size).accesses P.volume s, P.searching.Allows a) ↔
      ∀ e ∈ searched (nameAt s.mem name) (visible P.volume es),
        Range (fun x => ¬ P.Stack x) name (strncmpReads e.name (nameAt s.mem name).bytes 32) := by
  rw [FileCall.accesses, forall_mem_append, fileSearch_eq hi hchain]
  apply Iff.trans (and_iff_left ?_) (searchAccesses_allowed hi hchain hin)
  cases hl : lookup (nameAt s.mem name) P.volume.firstPage (visible P.volume es) with
  | none => simp
  | some p => exact mem_readsAt.mpr (placed hchain hl).header

end

theorem frame_allowed (hin : P.Inside m c) : ∀ a ∈ P.frameAccesses m c, P.serving.Allows a := by
  have hctx : Range P.Child (P.setup.childCtx + BitVec.ofNat 32 P.spOff) 4 := by
    intro k hk
    have hfits := P.spOff_fits
    have hctx := P.ctx_fits
    have hmem : P.setup.ctx.Mem (P.setup.childCtx + BitVec.ofNat 32 P.spOff + BitVec.ofNat 32 k) := by
      rw [BitVec.add_assoc, ← BitVec.ofNat_add]
      show dist P.setup.childCtx _ < P.setup.ctxSize
      rw [dist_add _ (by omega)]; omega
    have hblock := Setup.block1_within P.ctx_fits P.setup.ctx (by simp) _ hmem
    have heq : P.childBlock1.area = P.setup.block1 := by
      have hd : dist P.setup.childItf P.setup.childEnd = 8192 := dist_add P.setup.childItf (i := 8192) (by decide)
      simp only [childBlock1, Area.between, hd]; rfl
    exact .inl (.inr (heq ▸ hblock))
  unfold frameAccesses
  rw [forall_mem_append, mem_readsAt, mem_readsAt]
  exact ⟨fun k hk => serving_reads (hctx k hk), fun k hk => serving_reads (.inl (hin.frame k hk))⟩

theorem argv_writes (hin : P.Inside m c) : Range P.serving.Writes (P.argv m) 4 := by
  intro k hk
  have hwords := c.call.words_pos
  have hr := hin.frame k (by omega)
  exact (serving_writes (.inl hr)).mpr hr

theorem getFileSize_results {size : Addr} (hin : P.Inside m (.getFileSize name size)) :
    (∀ a ∈ (FileCall.getFileSize name size).results (P.argv m), P.serving.Allows a) ↔ Range P.Ram size 4 := by
  have hread : Range P.serving.Reads (P.argv m + 8) 4 := by
    intro k hk
    have hr := hin.frame (8 + k) (show 8 + k < 12 by omega)
    rw [BitVec.ofNat_add, ← BitVec.add_assoc] at hr
    exact serving_reads (.inl hr)
  have hsize : ∀ k < 4, P.Child (size + BitVec.ofNat 32 k) := hin.dest
  simp only [FileCall.results, forall_mem_append, mem_readsAt, mem_writesAt]
  rw [and_iff_right hread, and_iff_left (argv_writes hin)]
  exact forall₂_congr fun k hk => serving_writes (hsize k hk)

/-! ## Answers -/

theorem readWord_storeWord (m : Mem) (a : Addr) (v : Word) : readWord (storeWord m a v) a = v := by
  have h := readBytes_writeBytes m a (leBytes 4 v.toNat) (k := 0) (n := 4) (by simp) (by simp)
  rw [BitVec.add_zero] at h
  rw [storeWord, readWord_of_bytes (v := v.toNat) (by rw [h, drop_zero, take_of_length_le (by simp)])]
  simp

theorem expected_none {es : List Entry} (argv : Addr)
    (h : lookup (nameAt m c.name) v.firstPage es = none) : readWord (c.expected v es argv m) argv = -1 := by
  cases c with
  | copyFile name buf nbyte | getFileSize name size =>
    simp only [FileCall.name] at h
    simp only [FileCall.expected, h, readWord_storeWord]

theorem expected_some {es : List Entry} (argv : Addr) {p : Nat × Entry}
    (h : lookup (nameAt m c.name) v.firstPage es = some p) : readWord (c.expected v es argv m) argv ≠ -1 := by
  have hsize := p.2.size_le
  unfold Tinyfs.filesizeMax at hsize
  cases c with
  | copyFile name buf nbyte =>
    simp only [FileCall.name] at h
    simp only [FileCall.expected, h, readWord_storeWord]
    intro he
    have ht := congrArg BitVec.toNat he
    rw [BitVec.toNat_ofNat, Nat.mod_eq_of_lt (by omega), show (-1 : Word).toNat = 4294967295 from rfl] at ht
    omega
  | getFileSize name size =>
    simp only [FileCall.name] at h
    simp only [FileCall.expected, h, readWord_storeWord]; decide

theorem expected_congr {es es' : List Entry} (argv : Addr)
    (h : lookup (nameAt m c.name) v.firstPage es = lookup (nameAt m c.name) v.firstPage es') :
    c.expected v es argv m = c.expected v es' argv m := by
  cases c with
  | copyFile name buf nbyte | getFileSize name size =>
    simp only [FileCall.name] at h
    simp only [FileCall.expected, h]

section
variable {s : State} {es : List Entry} {c : FileCall} (hi : P.volume.initialized = true)
  (hchain : Chain P.volume (flash s.mem) es) (b : Board) (hcall : P.call s.mem = c.call)

include hi hchain hcall

theorem handler_visible (hdest : ∀ name buf nbyte, c = .copyFile name buf nbyte → ∀ file e,
      lookup (nameAt s.mem name) P.volume.firstPage (visible P.volume es) = some (file, e) →
      ∀ k < min nbyte.toNat e.size, ¬ P.InFlash (buf + BitVec.ofNat 32 k)) :
    ∃ t, P.syscallHandler b s = some t ∧ t.mem = c.expected P.volume (visible P.volume es) (P.argv s.mem) s.mem := by
  unfold Config.syscallHandler
  rw [hcall]
  cases c with
  | copyFile name buf nbyte =>
    simp only [FileCall.call, perform, SafeExec.copyFile, fileSearch_eq hi hchain, FileCall.expected]
    cases hl : lookup (nameAt s.mem name) P.volume.firstPage (visible P.volume es) with
    | none => exact ⟨_, rfl, rfl⟩
    | some p =>
      obtain ⟨file, e⟩ := p
      have hbuf := hdest name buf nbyte rfl file e hl
      obtain ⟨hmem, hres⟩ := copyFrom_eq nbyte.toNat 0 (placed hchain hl) (by omega)
        fun k _ h1 h2 => hbuf k (by omega)
      refine ⟨_, rfl, ?_⟩
      simp only [zero_add, add_zero, Nat.sub_zero, BitVec.add_zero] at hmem hres
      simp only [State.storeWord, State.store, storeWord, hmem, hres]
  | getFileSize name size =>
    simp only [FileCall.call, perform, SafeExec.getFileSize, fileSearch_eq hi hchain, FileCall.expected]
    cases hl : lookup (nameAt s.mem name) P.volume.firstPage (visible P.volume es) with
    | none => exact ⟨_, rfl, rfl⟩
    | some p =>
      refine ⟨_, rfl, ?_⟩
      simp only [State.storeWord, State.store, storeWord, (placed hchain hl).size]

end

theorem unmapped (s : State) (c : FileCall) : ∀ i ∈ [3, 4, 5], P.mpu.after (P.trace s c) i = none := by
  intro i hi
  simp only [trace, Slots.after_map, Slots.after_touch, Slots.after_nil, update_apply]
  simp only [mem_cons, not_mem_nil, or_false] at hi
  rcases hi with rfl | rfl | rfl <;> rfl

theorem permitted_visible {s : State} {es : List Entry} (hi : P.volume.initialized = true)
    (hchain : Chain P.volume (flash s.mem) es) (hin : P.Inside s.mem c) :
    Permitted P.mpu (P.trace s c) ↔
      (∀ e ∈ searched (nameAt s.mem c.name) (visible P.volume es),
        Range (fun x => ¬ P.Stack x) c.name (strncmpReads e.name (nameAt s.mem c.name).bytes 32)) ∧
      P.DestReachable (visible P.volume es) s.mem c := by
  rw [permitted_iff, and_iff_right (frame_allowed hin)]
  cases c with
  | copyFile name buf nbyte =>
    have hresults : ∀ a ∈ (FileCall.copyFile name buf nbyte).results (P.argv s.mem), P.serving.Allows a :=
      mem_writesAt.mpr (argv_writes hin)
    rw [and_iff_left hresults]; exact copyFile_allowed hi hchain hin
  | getFileSize name size =>
    exact and_congr (getFileSize_allowed hi hchain hin) (getFileSize_results hin)

end Partition

/-- A file system call of a child with its arguments in its own blocks is served
exactly when the search sees the file, the name is not on the stack as far as it
is read, and what is stored goes to RAM, for copies outside the block of the stack. -/
theorem file_call_served_iff (P : Partition) (b : Board) (s : State) (es : List Entry) (c : FileCall)
    (hi : P.volume.initialized = true) (hchain : Chain P.volume (flash s.mem) es) (hcall : P.call s.mem = c.call)
    (hin : P.Inside s.mem c) : P.Serves b es s c ↔ P.Reachable es s.mem c := by
  have hperm := Partition.permitted_visible hi hchain hin
  -- bytes stored to the second block are not in flash, so the handler copies what it should
  have hanswer : Permitted P.mpu (P.trace s c) → ∃ t, P.syscallHandler b s = some t ∧
      t.mem = c.expected P.volume (visible P.volume es) (P.argv s.mem) s.mem := by
    intro h
    refine Partition.handler_visible hi hchain b hcall ?_
    rintro name buf nbyte rfl file e hl k hk
    exact Partition.Ram.not_inFlash (.inr ((hperm.mp h).2 file e hl k hk))
  constructor
  · intro ⟨hpermitted, ⟨t, ht, hmem⟩, _⟩
    obtain ⟨t', ht', hmem'⟩ := hanswer hpermitted
    rw [ht, some.injEq] at ht'
    subst ht'
    have hlisted : lookup (nameAt s.mem c.name) P.volume.firstPage (visible P.volume es) =
        lookup (nameAt s.mem c.name) P.volume.firstPage es := by
      rcases Tinyfs.lookup_visible (nameAt s.mem c.name) es with hnone | heq
      · cases hl : lookup (nameAt s.mem c.name) P.volume.firstPage es with
        | none => exact hnone
        | some p =>
          have hword := Partition.expected_none (P.argv s.mem) hnone
          rw [← hmem', hmem] at hword
          exact absurd hword (Partition.expected_some _ hl)
      · exact heq
    obtain ⟨hname, hdest⟩ := hperm.mp hpermitted
    refine ⟨hlisted, hname, ?_⟩
    cases c with
    | copyFile name buf nbyte => exact fun file e hl => hdest file e (hlisted.trans hl)
    | getFileSize name size => exact hdest
  · intro ⟨hlisted, hname, hdest⟩
    have hpermitted : Permitted P.mpu (P.trace s c) := by
      rw [hperm]
      refine ⟨hname, ?_⟩
      cases c with
      | copyFile name buf nbyte => exact fun file e hl => hdest file e (hlisted.symm.trans hl)
      | getFileSize name size => exact hdest
    obtain ⟨t, ht, hmem⟩ := hanswer hpermitted
    exact ⟨hpermitted, ⟨t, ht, hmem.trans (Partition.expected_congr _ hlisted)⟩, Partition.unmapped s c⟩

/-! ## A child that copies the start of its own file -/

def samplePartition : Partition where
  toConfig := sampleConfig
  ramStart := 0x20000000
  flashStart := 0
  flashEnd := 0x80000
  mpu := fun i =>
    if i = 1 then some ⟨.between 0x20000000 sampleChild.riotKrn, true⟩
    else if i = 2 then some ⟨.between 0 sampleChild.file, false⟩
    else none
  ram_cuts := by decide
  flash_cuts := by decide
  flash_apart := by
    intro x hx hf
    rw [Area.mem_between (by decide)] at hx hf
    have h1 : (0x20000000 : Addr).toNat = 0x20000000 := rfl
    have h2 : (0x80000 : Addr).toNat = 0x80000 := rfl
    omega
  volume_inside := by decide
  riot_block_1 := rfl
  riot_block_2 := rfl
  mpu_stack := by
    intro i B hB x hx hs
    rw [Area.mem_between (by decide)] at hs
    have h0 : sampleChild.childStk.toNat = 0x20001800 := by decide
    have h1 : sampleChild.riotKrn.toNat = 0x20001000 := by decide
    have h2 : sampleChild.file.toNat = 0x1000 := by decide
    have h3 : sampleChild.childStk.toNat ≤ x.toNat := hs.1
    split at hB
    · cases hB
      rw [Area.mem_between (by decide)] at hx; omega
    · split at hB
      · cases hB
        rw [Area.mem_between (by decide)] at hx; omega
      · cases hB
  mpu_flash := by
    intro i B hB hw x hx hf
    rw [Area.mem_between (by decide)] at hf
    have h1 : (0x20000000 : Addr).toNat = 0x20000000 := rfl
    have h2 : (0x80000 : Addr).toNat = 0x80000 := rfl
    split at hB
    · cases hB
      rw [Area.mem_between (by decide)] at hx; omega
    · split at hB
      · cases hB; cases hw
      · cases hB

def copyFrame (name : Addr) : Mem :=
  writeBytes
    (writeBytes (writeBytes (fun _ => 0) sampleChild.childCtx (leBytes 4 sampleChild.childStk.toNat))
      sampleChild.childStk
      ([7, name.toNat, 0x20003100, 4].flatMap (leBytes 4)))
    name [97]

def copying (name : Addr) (m : Mem) : Mem := fun x => if sampleChild.Writable x then copyFrame name x else m x

theorem copying_inside (name : Addr) (m : Mem)
    (hsp : readWord (copyFrame name) sampleChild.childCtx = sampleChild.childStk)
    (hp : Call.decode (fun k => readWord (copyFrame name) (sampleChild.childStk + BitVec.ofNat 32 (4 * k))) =
      .copyFile name 0x20003100 4) (hname : Range samplePartition.Child name 32) :
    samplePartition.call (copying name m) = .copyFile name 0x20003100 4 ∧
      samplePartition.Inside (copying name m) (.copyFile name 0x20003100 4) := by
  obtain ⟨hargv, hcall⟩ := @sample_call _ m (copying name m) _ rfl hsp hp (by simp [Call.words])
  refine ⟨hcall, ?_, fun k hk _ => hname k hk, ?_⟩
  · show Range samplePartition.Ram (sampleConfig.argv (copying name m)) 16
    rw [hargv]; decide
  · show Range samplePartition.Child 0x20003100 4
    decide

theorem copying_chain (name : Addr) :
    ∃ m : Mem, Chain samplePartition.volume (flash (copying name m)) [Tinyfs.entryA] := by
  obtain ⟨m, hm⟩ := sample_memory
  refine ⟨m, hm.congr fun x h1 h2 => ?_⟩
  have hlt : x < 12288 := h2
  have hv : InVolume sampleConfig.volume (BitVec.ofNat 32 x) := by
    unfold InVolume
    rw [BitVec.toNat_ofNat, Nat.mod_eq_of_lt (by omega)]; exact ⟨h1, h2⟩
  exact if_neg fun hw => sampleConfig.apart _ hw hv

theorem file_call_served_from_block_1 : ∃ m : Mem, Chain samplePartition.volume (flash m) [Tinyfs.entryA] ∧
    samplePartition.Serves sampleBoard [Tinyfs.entryA] ⟨m, [], none⟩ (.copyFile 0x20003000 0x20003100 4) := by
  obtain ⟨m, hm⟩ := copying_chain 0x20003000
  obtain ⟨hcall, hin⟩ := copying_inside 0x20003000 m (by decide) (by decide) (by decide)
  refine ⟨copying 0x20003000 m, hm, ?_⟩
  apply (file_call_served_iff samplePartition sampleBoard ⟨copying 0x20003000 m, [], none⟩ [Tinyfs.entryA]
    (.copyFile 0x20003000 0x20003100 4) rfl hm hcall hin).mpr
  have hstack : ∀ k < 32, ¬ samplePartition.Stack (0x20003000 + BitVec.ofNat 32 k) := by decide
  have hbuf : ∀ k < 4, samplePartition.childBlock1.area.Mem (0x20003100 + BitVec.ofNat 32 k) := by decide
  refine ⟨?_, fun e _ k hk => hstack k ?_, fun file e _ k hk => hbuf k ?_⟩
  · rw [Tinyfs.visible_of_not (by simp)]
  · exact lt_of_lt_of_le hk (Tinyfs.strncmpReads_le 32 _ _)
  · exact lt_of_lt_of_le hk (min_le_left _ _)

-- the same call with the name on the stack
theorem file_call_faults_on_stack_name : ∃ m : Mem, Chain samplePartition.volume (flash m) [Tinyfs.entryA] ∧
    samplePartition.call m = .copyFile 0x20001900 0x20003100 4 ∧
    samplePartition.Inside m (.copyFile 0x20001900 0x20003100 4) ∧
    ¬ samplePartition.Serves sampleBoard [Tinyfs.entryA] ⟨m, [], none⟩ (.copyFile 0x20001900 0x20003100 4) := by
  obtain ⟨m, hm⟩ := copying_chain 0x20001900
  obtain ⟨hcall, hin⟩ := copying_inside 0x20001900 m (by decide) (by decide) (by decide)
  refine ⟨copying 0x20001900 m, hm, hcall, hin, ?_⟩
  intro h
  obtain ⟨hname, -⟩ := (Partition.permitted_visible rfl hm hin).mp h.permitted
  have hmem : Tinyfs.entryA ∈ searched (nameAt (copying 0x20001900 m) 0x20001900)
      (visible samplePartition.volume [Tinyfs.entryA]) := by
    rw [Tinyfs.visible_of_not (by simp)]
    unfold searched
    split <;> simp
  exact hname _ hmem 0 (Tinyfs.strncmpReads_pos _ _ _) (by decide)

end PipRiot.SafeExec
