import Mathlib.Tactic.IntervalCases

/-!
# IPv6 addresses

The bytes of an address and its bits, most significant first. What two addresses have in
common and what a prefix sets are said of the bits.
-/

namespace PipRiot.Ipv6

open BitVec

structure Addr where
  bytes : Vector UInt8 16
  deriving DecidableEq

namespace Addr

section
variable {a b out p : Addr} {f : Nat → UInt8} {k n : Nat} {x : UInt8}

def u8 (a : Addr) (k : Nat) : UInt8 := if h : k < 16 then a.bytes[k] else 0

def ofBytes (f : Nat → UInt8) : Addr := ⟨Vector.ofFn fun k => f k⟩

@[simp] theorem u8_ofBytes (h : k < 16) : (ofBytes f).u8 k = f k := by
  simp [u8, ofBytes, h]

theorem ext (h : ∀ k < 16, a.u8 k = b.u8 k) : a = b := by
  rw [Addr.mk.injEq]
  apply Vector.ext
  intro k hk
  have hbyte := h k hk
  simpa [u8, hk] using hbyte

def zero : Addr := ofBytes fun _ => 0

@[simp] theorem u8_zero (h : k < 16) : zero.u8 k = 0 := u8_ofBytes h

def write (a : Addr) (i : Nat) (l : List UInt8) : Addr :=
  ofBytes fun k => if i ≤ k ∧ k < i + l.length then l.getD (k - i) 0 else a.u8 k

def slice (a : Addr) (i n : Nat) : List UInt8 := (List.range n).map fun k => a.u8 (i + k)

@[simp] theorem length_slice (a : Addr) (i n : Nat) : (a.slice i n).length = n := by simp [slice]

theorem getD_slice {i : Nat} (h : k < n) : (a.slice i n).getD k 0 = a.u8 (i + k) := by
  simp [slice, h]

def isZero (a : Addr) (i n : Nat) : Bool := a.slice i n = List.replicate n 0

theorem isZero_iff {i : Nat} : a.isZero i n ↔ ∀ k < n, a.u8 (i + k) = 0 := by
  simp [isZero, slice, List.eq_replicate_iff]

theorem isZero_one {i : Nat} (h : a.u8 i = 0) : a.isZero i 1 := by
  rw [isZero_iff]
  intro k hk
  have hzero : k = 0 := by omega
  rw [hzero]
  exact h

theorem isZero_append {i j n' : Nat} (h : a.isZero i n) (h' : a.isZero j n') (hj : j = i + n) :
    a.isZero i (n + n') := by
  subst hj
  rw [isZero_iff] at h h' ⊢
  intro k hk
  by_cases hlt : k < n
  · exact h k hlt
  · have hbyte := h' (k - n) (by omega)
    have hsum : i + n + (k - n) = i + k := by omega
    rwa [hsum] at hbyte

theorem u8_of_isZero {i : Nat} (h : a.isZero i n) (h1 : i ≤ k) (h2 : k < i + n) : a.u8 k = 0 := by
  have hbyte := isZero_iff.mp h (k - i) (by omega)
  rwa [Nat.add_sub_cancel' h1] at hbyte

def isUnspecified (a : Addr) : Bool := a.isZero 0 16

def isMulticast (a : Addr) : Bool := a.u8 0 = 0xff

def linkLocalPrefix : List UInt8 := [0xfe, 0x80, 0, 0, 0, 0, 0, 0]

def isLinkLocal (a : Addr) : Bool := a.slice 0 8 = linkLocalPrefix ∨ (a.isMulticast ∧ a.u8 1 &&& 0x0f = 2)

def setLinkLocalPrefix (a : Addr) : Addr := a.write 0 linkLocalPrefix

/-! ## Prefixes -/

def matchBits : Nat → UInt8 → Nat
  | 0, _ => 0
  | j + 1, x => if x &&& 0x80 = 0 then matchBits j (x <<< 1) + 1 else 0

def matchLoop (a b : Addr) : Nat → Nat → Nat
  | 0, _ => 0
  | n + 1, i => if a.u8 i = b.u8 i then matchLoop a b n (i + 1) + 8 else matchBits 8 (a.u8 i ^^^ b.u8 i)

def matchPrefix (a b : Addr) : Nat := matchLoop a b 16 0

def initPrefix (out p : Addr) (bits : Nat) : Addr :=
  let bits := min bits 128
  let mask : UInt8 := 0xff <<< UInt8.ofNat (8 - bits % 8)
  ofBytes fun k =>
    if k < bits / 8 then p.u8 k
    else if k = bits / 8 ∧ bits % 8 ≠ 0 then (out.u8 k &&& ~~~mask) ||| (p.u8 k &&& mask)
    else out.u8 k

def bit (a : Addr) (k : Nat) : Bool := (a.u8 (k / 8)).toBitVec.getMsbD (k % 8)

theorem u8_eq_of_bits (h : ∀ j < 8, x.toBitVec.getMsbD j = (b.u8 k).toBitVec.getMsbD j) : x = b.u8 k := by
  apply UInt8.eq_of_toBitVec_eq
  apply eq_of_getMsbD_eq
  intro j hj
  exact h j hj

theorem eq_of_bits (h : ∀ k < 128, a.bit k = b.bit k) : a = b := by
  apply Addr.ext
  intro k hk
  apply u8_eq_of_bits
  intro j hj
  have hbit := h (8 * k + j) (by omega)
  have hdiv : (8 * k + j) / 8 = k := by omega
  have hmod : (8 * k + j) % 8 = j := by omega
  simpa [bit, hdiv, hmod] using hbit

theorem matchBits_le : matchBits n x ≤ n := by
  induction n generalizing x with
  | zero => simp [matchBits]
  | succ n ih =>
    simp only [matchBits]
    split
    · exact Nat.succ_le_succ ih
    · simp

theorem msb_of_and_eq_zero (h : x &&& 0x80 = 0) : x.toBitVec.getMsbD 0 = false := by
  have hbit := congrArg (fun y => y.toBitVec.getMsbD 0) h
  simpa using hbit

theorem getMsbD_matchBits (hn : n ≤ 8) (h : k < matchBits n x) : x.toBitVec.getMsbD k = false := by
  induction n generalizing x k with
  | zero => simp [matchBits] at h
  | succ n ih =>
    simp only [matchBits] at h
    split at h
    · rename_i hmsb
      cases k with
      | zero => exact msb_of_and_eq_zero hmsb
      | succ k =>
        have hrest := ih (by omega) (Nat.lt_of_succ_lt_succ h)
        simpa [add_comm] using hrest
    · simp at h

theorem bit_matchLoop {i : Nat} (h : k < matchLoop a b n i) : a.bit (8 * i + k) = b.bit (8 * i + k) := by
  induction n generalizing i k with
  | zero => simp [matchLoop] at h
  | succ n ih =>
    simp only [matchLoop] at h
    split at h
    · rename_i heq
      by_cases hk : k < 8
      · have hdiv : (8 * i + k) / 8 = i := by omega
        simp [bit, hdiv, heq]
      · have hrest := ih (i := i + 1) (k := k - 8) (by omega)
        have hsum : 8 * (i + 1) + (k - 8) = 8 * i + k := by omega
        rwa [hsum] at hrest
    · have hk : k < 8 := lt_of_lt_of_le h matchBits_le
      have hdiv : (8 * i + k) / 8 = i := by omega
      have hmod : (8 * i + k) % 8 = k := by omega
      have hxor := getMsbD_matchBits (Nat.le_refl 8) h
      simpa [bit, hdiv, hmod] using hxor

theorem bit_matchPrefix (h : k < matchPrefix a b) : a.bit k = b.bit k := by
  simpa using bit_matchLoop h

theorem getMsbD_mask :
    ∀ r < 8, r ≠ 0 → ∀ j < 8, ((0xff : UInt8) <<< UInt8.ofNat (8 - r)).toBitVec.getMsbD j = decide (j < r) := by
  decide

theorem bit_initPrefix {bits : Nat} (hk : k < 128) :
    (initPrefix out p bits).bit k = if k < bits then p.bit k else out.bit k := by
  have hbyte : k / 8 < 16 := by omega
  simp only [bit, initPrefix, u8_ofBytes hbyte]
  by_cases hlt : k < min bits 128 / 8 * 8
  · rw [if_pos (by omega), if_pos (by omega)]
  · rw [if_neg (by omega)]
    by_cases hr : k / 8 = min bits 128 / 8 ∧ min bits 128 % 8 ≠ 0
    · rw [if_pos hr]
      have hmask := getMsbD_mask (min bits 128 % 8) (by omega) hr.2 (k % 8) (by omega)
      simp only [UInt8.toBitVec_or, UInt8.toBitVec_and, UInt8.toBitVec_not, getMsbD_or, getMsbD_and, getMsbD_not,
        hmask]
      by_cases hin : k < bits
      · have hmod : k % 8 < min bits 128 % 8 := by omega
        simp [hin, hmod]
      · have hmod : ¬ k % 8 < min bits 128 % 8 := by omega
        have hpos : k % 8 < 8 := by omega
        simp [hin, hmod, hpos]
    · rw [if_neg hr, if_neg (by omega)]

end

end Addr

end PipRiot.Ipv6
