import Mathlib.Data.BitVec

/-!
# The circular index buffer

Two counters of 32 bits that are only ever incremented, and a mask. `Ring` says
which queue an array holds under the counters, wherever they stand.
-/

namespace PipRiot.Core

open List Function BitVec

structure Cib where
  readCount : BitVec 32
  writeCount : BitVec 32
  mask : BitVec 32

namespace Cib

def init (size : BitVec 32) : Cib := ⟨0#32, 0#32, size - 1#32⟩

variable (c : Cib)

def avail : BitVec 32 := c.writeCount - c.readCount

def get : Cib × Int :=
  if c.avail ≠ 0#32 then ({ c with readCount := c.readCount + 1#32 }, (c.readCount &&& c.mask).toInt) else (c, -1)

/-- The comparison is signed, since the mask of an empty buffer is all ones. -/
def put : Cib × Int :=
  if c.avail.toInt ≤ c.mask.toInt then
    ({ c with writeCount := c.writeCount + 1#32 }, (c.writeCount &&& c.mask).toInt)
  else (c, -1)

def peek : Int := if c.avail ≠ 0#32 then (c.readCount &&& c.mask).toInt else -1

def full : Bool := decide (c.mask.toInt < c.avail.toInt)

def getUnsafe : Cib × Int := ({ c with readCount := c.readCount + 1#32 }, (c.readCount &&& c.mask).toInt)

def putUnsafe : Cib × Int := ({ c with writeCount := c.writeCount + 1#32 }, (c.writeCount &&& c.mask).toInt)

def contents {α : Type} (c : Cib) (array : Nat → α) : List α :=
  (range c.avail.toNat).map fun i => array ((c.readCount + BitVec.ofNat 32 i) &&& c.mask).toNat

/-- The sizes `cib_init` is called with: a power of two that fits an `int`, or 0. -/
def Size (size : Nat) : Prop := size = 0 ∨ ∃ e ≤ 30, size = 2 ^ e

section
variable {size : Nat}

section
variable (h : Size size)
include h

theorem Size.le : size ≤ 2 ^ 30 := by
  rcases h with rfl | ⟨e, he, rfl⟩
  · exact Nat.zero_le _
  · exact Nat.pow_le_pow_right (Nat.succ_pos 1) he

theorem Size.dvd (hpos : 0 < size) : size ∣ 2 ^ 32 := by
  rcases h with rfl | ⟨e, he, rfl⟩
  · cases hpos
  · exact Nat.pow_dvd_pow 2 (le_trans he (by omega))

theorem Size.toInt_ofNat {n : Nat} (hn : n ≤ size) : (BitVec.ofNat 32 n).toInt = n := by
  have hle := h.le
  have hnat : (BitVec.ofNat 32 n).toNat = n := by rw [toNat_ofNat, Nat.mod_eq_of_lt (by omega)]
  rw [toInt_eq_toNat_of_lt (by omega), hnat]

theorem Size.toInt_mask : (BitVec.ofNat 32 size - 1#32).toInt = (size : Int) - 1 := by
  have hle := h.le
  rw [toInt_sub, h.toInt_ofNat (Nat.le_refl size)]
  have h1 : (1#32).toInt = 1 := by decide
  rw [h1, Int.bmod_eq_of_le] <;> omega

theorem Size.toNat_and (hpos : 0 < size) (x : BitVec 32) :
    (x &&& (BitVec.ofNat 32 size - 1#32)).toNat = x.toNat % size := by
  have hle := h.le
  have hmask : (BitVec.ofNat 32 size - 1#32).toNat = size - 1 := by
    have hnat : (BitVec.ofNat 32 size).toNat = size := by rw [toNat_ofNat, Nat.mod_eq_of_lt (by omega)]
    have hone : 1#32 ≤ BitVec.ofNat 32 size := by
      rw [le_def, hnat]; exact hpos
    rw [toNat_sub_of_le hone, hnat]; rfl
  rw [BitVec.toNat_and, hmask]
  rcases h with rfl | ⟨e, -, rfl⟩
  · cases hpos
  · exact Nat.and_two_pow_sub_one_eq_mod x.toNat e

theorem Size.toInt_and (hpos : 0 < size) (x : BitVec 32) :
    (x &&& (BitVec.ofNat 32 size - 1#32)).toInt = ((x.toNat % size : Nat) : Int) := by
  have hle := h.le
  have hlt := Nat.mod_lt x.toNat hpos
  have hand := h.toNat_and hpos x
  rw [toInt_eq_toNat_of_lt (by omega), hand]

end

end

structure Ring {α : Type} (c : Cib) (size : Nat) (array : Nat → α) (q : List α) : Prop where
  size_ok : Size size
  mask : c.mask = BitVec.ofNat 32 size - 1#32
  count : c.writeCount = c.readCount + BitVec.ofNat 32 q.length
  bound : q.length ≤ size
  slots : ∀ i (h : i < q.length), array ((c.readCount.toNat + i) % size) = q[i]

namespace Ring
variable {α : Type} {c : Cib} {size : Nat} {array : Nat → α} {q : List α} {a : α}

theorem init (h : Size size) (array : Nat → α) : Ring (Cib.init (BitVec.ofNat 32 size)) size array [] where
  size_ok := h
  mask := rfl
  count := rfl
  bound := Nat.zero_le _
  slots i hi := absurd hi (Nat.not_lt_zero i)

section
variable (h : Ring c size array q)
include h

theorem avail_eq : c.avail = BitVec.ofNat 32 q.length := by
  rw [avail, h.count, add_sub_cancel_left]

theorem toNat_length : (BitVec.ofNat 32 q.length).toNat = q.length := by
  have hle := h.size_ok.le
  have hb := h.bound
  rw [toNat_ofNat, Nat.mod_eq_of_lt (by omega)]

theorem add_mod (hpos : 0 < size) (x : BitVec 32) (n : Nat) :
    (x + BitVec.ofNat 32 n).toNat % size = (x.toNat + n) % size := by
  rw [toNat_add, toNat_ofNat, Nat.add_mod_mod, Nat.mod_mod_of_dvd _ (h.size_ok.dvd hpos)]

theorem contents_eq : c.contents array = q := by
  have hlen : (c.contents array).length = q.length := by
    rw [contents, length_map, length_range, h.avail_eq, h.toNat_length]
  refine ext_getElem hlen fun i hi hi' => ?_
  have hpos : 0 < size := lt_of_lt_of_le (Nat.zero_lt_of_lt hi') h.bound
  simp only [contents, getElem_map, getElem_range, h.mask]
  rw [h.size_ok.toNat_and hpos, h.add_mod hpos]
  exact h.slots i hi'

end

theorem get_nil (h : Ring c size array []) : c.get = (c, -1) := by
  have ha : c.avail = 0#32 := h.avail_eq
  rw [get, if_neg (not_not.mpr ha)]

theorem get_cons (h : Ring c size array (a :: q)) :
    ∃ (c' : Cib) (i : Nat), c.get = (c', (i : Int)) ∧ array i = a ∧ Ring c' size array q := by
  have hpos : 0 < size := lt_of_lt_of_le (Nat.succ_pos _) h.bound
  have ha : c.avail ≠ 0#32 := fun e => by
    have := congrArg BitVec.toNat (h.avail_eq.symm.trans e)
    rw [h.toNat_length] at this; cases this
  refine ⟨{ c with readCount := c.readCount + 1#32 }, c.readCount.toNat % size, ?_, h.slots 0 (Nat.succ_pos _), ?_⟩
  · rw [get, if_pos ha, h.mask, h.size_ok.toInt_and hpos]
  · refine ⟨h.size_ok, h.mask, ?_, Nat.le_of_succ_le h.bound, ?_⟩
    · rw [h.count, length_cons, Nat.add_comm, ofNat_add, BitVec.add_assoc]
    · intro i hi
      have hslot := h.slots (i + 1) (Nat.succ_lt_succ hi)
      have hmod : ((c.readCount + BitVec.ofNat 32 1).toNat + i) % size = (c.readCount.toNat + (i + 1)) % size := by
        rw [Nat.add_mod, h.add_mod hpos, ← Nat.add_mod, add_assoc, add_comm 1 i]
      exact (congrArg array hmod).trans hslot

section
variable (h : Ring c size array q)
include h

theorem put_full (hfull : q.length = size) : c.put = (c, -1) := by
  have hcmp : ¬ c.avail.toInt ≤ c.mask.toInt := by
    rw [h.avail_eq, h.mask, h.size_ok.toInt_mask, h.size_ok.toInt_ofNat h.bound, hfull]
    omega
  rw [put, if_neg hcmp]

theorem put_room (hroom : q.length < size) (a : α) :
    ∃ (c' : Cib) (i : Nat), c.put = (c', (i : Int)) ∧ Ring c' size (update array i a) (q ++ [a]) := by
  have hpos : 0 < size := Nat.lt_of_le_of_lt (Nat.zero_le _) hroom
  have hcmp : c.avail.toInt ≤ c.mask.toInt := by
    rw [h.avail_eq, h.mask, h.size_ok.toInt_mask, h.size_ok.toInt_ofNat h.bound]
    omega
  refine ⟨{ c with writeCount := c.writeCount + 1#32 }, (c.readCount.toNat + q.length) % size, ?_, ?_⟩
  · rw [put, if_pos hcmp, h.mask, h.size_ok.toInt_and hpos, h.count, h.add_mod hpos]
  · refine ⟨h.size_ok, h.mask, ?_, ?_, ?_⟩
    · rw [h.count, length_append, ofNat_add, BitVec.add_assoc]; rfl
    · rw [length_append]; exact hroom
    · intro i hi
      rw [length_append, length_singleton] at hi
      rcases lt_or_eq_of_le (Nat.le_of_lt_succ hi) with hlt | rfl
      · -- fewer than `size` places lie between the slot and the new one
        have hne : (c.readCount.toNat + i) % size ≠ (c.readCount.toNat + q.length) % size := fun e => by
          have := Nat.ModEq.add_left_cancel' _ e
          rw [Nat.ModEq, Nat.mod_eq_of_lt (by omega), Nat.mod_eq_of_lt hroom] at this
          omega
        rw [update_of_ne hne, getElem_append_left hlt]; exact h.slots i hlt
      · rw [update_self, getElem_concat_length rfl]

theorem full_iff : c.full = true ↔ q.length = size := by
  have hb := h.bound
  rw [full, decide_eq_true_eq, h.avail_eq, h.mask, h.size_ok.toInt_mask, h.size_ok.toInt_ofNat hb]
  omega

theorem avail_eq_zero_iff : c.avail = 0#32 ↔ q = [] := by
  rw [h.avail_eq]
  constructor
  · intro e
    have := congrArg BitVec.toNat e
    rw [h.toNat_length] at this; exact eq_nil_of_length_eq_zero this
  · rintro rfl
    rfl

end

theorem getUnsafe_cons (h : Ring c size array (a :: q)) :
    ∃ (c' : Cib) (i : Nat), c.getUnsafe = (c', (i : Int)) ∧ array i = a ∧ Ring c' size array q := by
  have ha : c.avail ≠ 0#32 := fun e => by cases h.avail_eq_zero_iff.mp e
  have hget : c.get = c.getUnsafe := if_pos ha
  rw [← hget]
  exact h.get_cons

theorem putUnsafe_room (h : Ring c size array q) (hroom : q.length < size) (a : α) :
    ∃ (c' : Cib) (i : Nat), c.putUnsafe = (c', (i : Int)) ∧ Ring c' size (update array i a) (q ++ [a]) := by
  have hput : c.put = c.putUnsafe := by
    refine if_pos ?_
    rw [h.avail_eq, h.mask, h.size_ok.toInt_mask, h.size_ok.toInt_ofNat h.bound]
    omega
  rw [← hput]
  exact h.put_room hroom a

end Ring

/-! ## Runs -/

inductive Op where
  | put | get | peek | avail

def call : Op → Cib × Int
  | .put => c.put
  | .get => c.get
  | .peek => (c, c.peek)
  | .avail => (c, c.avail.toNat)

def results (c : Cib) : List Op → List (Op × Int)
  | [] => []
  | op :: ops => (op, (c.call op).2) :: results (c.call op).1 ops

/-- The results of a queue of at most `size` indices that holds `q`. -/
def Fifo (size : Nat) : List Int → List (Op × Int) → Prop
  | _, [] => True
  | q, (.put, r) :: rs => (r = -1 ↔ q.length = size) ∧ Fifo size (if r = -1 then q else q ++ [r]) rs
  | q, (.get, r) :: rs => r = q.headD (-1) ∧ (r = -1 ↔ q = []) ∧ Fifo size q.tail rs
  | q, (.peek, r) :: rs => r = q.headD (-1) ∧ Fifo size q rs
  | q, (.avail, r) :: rs => r = q.length ∧ Fifo size q rs

theorem peek_eq : c.peek = c.get.2 := by
  unfold peek get
  split <;> rfl

section
variable {size : Nat} {c : Cib} {q : List Int}

section
variable (h : Ring c size Int.ofNat q)
include h

theorem Ring.get_index : (c.get.2 = q.headD (-1) ∧ (c.get.2 = -1 ↔ q = [])) ∧ Ring c.get.1 size Int.ofNat q.tail := by
  cases q with
  | nil => simp [h.get_nil, h]
  | cons r q =>
    obtain ⟨c', i, hget, hi, hring⟩ := h.get_cons
    rw [hget]; exact ⟨⟨hi, by simp⟩, hring⟩

theorem Ring.put_index :
    (c.put.2 = -1 ↔ q.length = size) ∧ Ring c.put.1 size Int.ofNat (if c.put.2 = -1 then q else q ++ [c.put.2]) := by
  by_cases hfull : q.length = size
  · simp [h.put_full hfull, hfull, h]
  · have hroom : q.length < size := lt_of_le_of_ne h.bound hfull
    obtain ⟨c', i, hput, -⟩ := h.put_room hroom 0
    -- the index does not depend on what is stored there, so store the index
    obtain ⟨c'', j, hput', hring⟩ := h.put_room hroom i
    rw [hput] at hput' ⊢
    cases hput'
    rw [show update Int.ofNat i (i : Int) = Int.ofNat from update_eq_self i _] at hring
    simp [hfull, hring]

theorem Ring.fifo (ops : List Op) : Fifo size q (c.results ops) := by
  induction ops generalizing c q with
  | nil => trivial
  | cons op ops ih =>
    cases op with
    | put => exact ⟨h.put_index.1, ih h.put_index.2⟩
    | get => exact ⟨h.get_index.1.1, h.get_index.1.2, ih h.get_index.2⟩
    | peek => exact ⟨c.peek_eq.trans h.get_index.1.1, ih h⟩
    | avail =>
      have havail : c.avail.toNat = q.length := by rw [h.avail_eq, h.toNat_length]
      exact ⟨congrArg Int.ofNat havail, ih h⟩

end

end

-- with the largest mask the signed comparison is always true
theorem put_largest {c : Cib} (h : c.mask = 0x7fffffff#32) : c.put.1.mask = 0x7fffffff#32 ∧ c.put.2 ≠ -1 := by
  have hle : c.avail.toInt ≤ c.mask.toInt := by
    have := c.avail.toInt_lt
    rw [h]; exact Int.le_of_lt_add_one this
  have hand : 0 ≤ (c.writeCount &&& c.mask).toInt := by
    rw [h]
    apply toInt_nonneg_of_msb_false
    rw [msb_and, show (0x7fffffff#32).msb = false from rfl, Bool.and_false]
  rw [put, if_pos hle]
  exact ⟨h, by omega⟩

theorem not_fifo_largest (n : Nat) {c : Cib} {q : List Int} (h : c.mask = 0x7fffffff#32) (hn : q.length + n = 2 ^ 31) :
    ¬ Fifo (2 ^ 31) q (c.results (replicate (n + 1) .put)) := by
  induction n generalizing c q with
  | zero => exact fun hf => (put_largest h).2 (hf.1.mpr hn)
  | succ n ih =>
    intro hf
    have hrest := hf.2
    rw [if_neg (show (c.call .put).2 ≠ -1 from (put_largest h).2)] at hrest
    refine ih (put_largest h).1 ?_ hrest
    rw [length_append, length_singleton]; omega

theorem fifo_iff (e : Fin 32) :
    (∀ ops, Fifo (2 ^ e.val) [] ((init (BitVec.ofNat 32 (2 ^ e.val))).results ops)) ↔ e.val ≤ 30 := by
  constructor
  · intro h
    by_contra hlt
    have he : e.val = 31 := by omega
    rw [he] at h
    exact not_fifo_largest (2 ^ 31) (by decide) rfl (h _)
  · intro he ops
    exact (Ring.init (.inr ⟨e, he, rfl⟩) _).fifo ops

theorem largest_cib_overfills : ¬ Fifo (2 ^ 31) [] ((init 0x80000000#32).results (replicate (2 ^ 31 + 1) .put)) :=
  not_fifo_largest (2 ^ 31) (by decide) rfl

end Cib

end PipRiot.Core
