import PipRiot.Lib.Overlay

/-!
# Areas of an address space

An area is a start address and a length; it may run over the end of the address
space. `part` cuts an area at an offset, and the relations between the parts of
one area are inequalities between their offsets.
-/

namespace PipRiot

open BitVec

structure Area (w : Nat) where
  base : BitVec w
  len : Nat
  deriving DecidableEq

namespace Area

variable {w : Nat}

def Mem (A : Area w) (x : BitVec w) : Prop := dist A.base x < A.len

instance (A : Area w) (x : BitVec w) : Decidable (A.Mem x) := inferInstanceAs (Decidable (_ < _))

def Within (A B : Area w) : Prop := ∀ x, A.Mem x → B.Mem x

def Disjoint (A B : Area w) : Prop := ∀ x, A.Mem x → ¬ B.Mem x

def between (lo hi : BitVec w) : Area w := ⟨lo, dist lo hi⟩

def part (A : Area w) (q n : Nat) : Area w := ⟨A.base + BitVec.ofNat w q, n⟩

theorem mem_between {lo hi x : BitVec w} (h : lo.toNat ≤ hi.toNat) :
    (between lo hi).Mem x ↔ lo.toNat ≤ x.toNat ∧ x.toNat < hi.toNat := by
  have hd : dist lo hi = hi.toNat - lo.toNat := toNat_sub_of_le h
  show dist lo x < dist lo hi ↔ _
  by_cases hle : lo.toNat ≤ x.toNat
  · rw [show dist lo x = x.toNat - lo.toNat from toNat_sub_of_le hle]; omega
  · have hwrap : dist lo x = 2 ^ w - (lo.toNat - x.toNat) := toNat_sub_of_lt (not_le.mp hle)
    omega

theorem Disjoint.mono {A A' B B' : Area w} (h : A.Disjoint B) (ha : A'.Within A) (hb : B'.Within B) :
    A'.Disjoint B' := fun x hx hx' => h x (ha x hx) (hb x hx')

variable (A : Area w)

theorem part_zero : A.part 0 A.len = A := by
  rw [part, BitVec.add_zero]

theorem part_part (q n p k : Nat) : (A.part q n).part p k = A.part (q + p) k := by
  rw [part, part, part, ofNat_add, BitVec.add_assoc]

variable {A}

theorem mem_part {q n : Nat} (h : q + n ≤ 2 ^ w) (x : BitVec w) :
    (A.part q n).Mem x ↔ q ≤ dist A.base x ∧ dist A.base x < q + n := dist_lt_iff A.base x h

theorem part_within {q n p k : Nat} (h : p ≤ q) (h' : q + n ≤ p + k) (hw : p + k ≤ 2 ^ w) :
    (A.part q n).Within (A.part p k) := by
  intro x hx
  rw [mem_part (le_trans h' hw)] at hx
  rw [mem_part hw]
  omega

theorem part_within_self {q n : Nat} (h : q + n ≤ A.len) (hw : A.len ≤ 2 ^ w) : (A.part q n).Within A := by
  have hpart := part_within (A := A) (n := n) (p := 0) (k := A.len) (Nat.zero_le q) (by omega) (by omega)
  rwa [A.part_zero] at hpart

theorem part_disjoint {q n p k : Nat} (h : q + n ≤ p) (hw : p + k ≤ 2 ^ w) : (A.part q n).Disjoint (A.part p k) := by
  intro x hx
  rw [mem_part (le_trans h (le_trans (Nat.le_add_right p k) hw))] at hx
  rw [mem_part hw]
  omega

theorem disjoint_of_dist {B : Area w} (h : A.len ≤ dist A.base B.base) (hw : dist A.base B.base + B.len ≤ 2 ^ w) :
    A.Disjoint B := by
  have hd := part_disjoint (A := A) (q := 0) (n := A.len) (by omega) hw
  have hb : A.part (dist A.base B.base) B.len = B := by rw [part, add_dist]
  rwa [A.part_zero, hb] at hd

theorem le_of_part_within {q n p k : Nat} (hn : 0 < n) (hq : q + n ≤ 2 ^ w) (hp : p + k ≤ 2 ^ w)
    (h : (A.part q n).Within (A.part p k)) : p ≤ q ∧ q + n ≤ p + k := by
  have hfirst := h (A.base + BitVec.ofNat w q) (by
    rw [mem_part hq, dist_add _ (by omega)]
    omega)
  have hlast := h (A.base + BitVec.ofNat w (q + n - 1)) (by
    rw [mem_part hq, dist_add _ (by omega)]
    omega)
  rw [mem_part hp, dist_add _ (by omega)] at hfirst
  rw [mem_part hp, dist_add _ (by omega)] at hlast
  omega

end Area

end PipRiot
