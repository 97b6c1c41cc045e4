import Mathlib.Data.List.Basic
import Mathlib.Tactic.Ring

/-!
# Little-endian bytes and flat byte memories

`leValue` and `leBytes` convert between a number and its little-endian bytes.
A flat memory maps every address of a fixed width to a byte; address
arithmetic wraps, so `write` compares distances from its base.
-/

namespace PipRiot

open List BitVec

abbrev Byte := BitVec 8

def leValue : List Byte → Nat
  | [] => 0
  | b :: bs => b.toNat + 256 * leValue bs

def leBytes : Nat → Nat → List Byte
  | 0, _ => []
  | n + 1, v => BitVec.ofNat 8 v :: leBytes n (v / 256)

@[simp] theorem leBytes_length : ∀ n v, (leBytes n v).length = n
  | 0, _ => rfl
  | n + 1, v => by simp [leBytes, leBytes_length n]

theorem leValue_lt : ∀ bs : List Byte, leValue bs < 256 ^ bs.length
  | [] => by simp [leValue]
  | b :: bs => by
    have ih := leValue_lt bs
    simp only [leValue, length_cons, pow_succ]; omega

theorem leValue_leBytes : ∀ n v, leValue (leBytes n v) = v % 256 ^ n
  | 0, v => by simp [leBytes, leValue, Nat.mod_one]
  | n + 1, v => by
    rw [leBytes, leValue, leValue_leBytes n, toNat_ofNat, pow_succ 256, mul_comm (256 ^ n),
      Nat.mod_mul]

theorem leBytes_leValue : ∀ bs : List Byte, leBytes bs.length (leValue bs) = bs
  | [] => rfl
  | b :: bs => by
    have hd : (b.toNat + 256 * leValue bs) / 256 = leValue bs := by omega
    have hm : BitVec.ofNat 8 (b.toNat + 256 * leValue bs) = b := by
      apply eq_of_toNat_eq
      rw [toNat_ofNat]; omega
    rw [length_cons, leBytes, leValue, hd, hm, leBytes_leValue bs]

theorem flatMap_leBytes_length (n : Nat) (l : List Nat) : (l.flatMap (leBytes n)).length = n * l.length := by
  induction l with
  | nil => simp
  | cons v l ih => rw [flatMap_cons, length_append, leBytes_length, ih, length_cons, Nat.mul_succ, add_comm]

theorem flatMap_leBytes_slice (n : Nat) (rest : List Byte) : ∀ (l : List Nat) (i : Nat) (hi : i < l.length),
    ((l.flatMap (leBytes n) ++ rest).drop (n * i)).take n = leBytes n l[i]
  | [], _, hi => absurd hi (Nat.not_lt_zero _)
  | v :: l, 0, _ => by
    rw [Nat.mul_zero, drop_zero, flatMap_cons, List.append_assoc, take_left' (leBytes_length n v)]
    rfl
  | v :: l, i + 1, hi => by
    rw [flatMap_cons, List.append_assoc, Nat.mul_succ, add_comm, ← drop_drop,
      drop_left' (leBytes_length n v)]
    exact flatMap_leBytes_slice n rest l i (Nat.lt_of_succ_lt_succ hi)

/-! ## Flat memories -/

section
variable {w : Nat}

/-- Distance from `a` up to `x`, around the end of the address space if need be. -/
def dist (a x : BitVec w) : Nat := (x - a).toNat

variable (m : BitVec w → Byte) (a : BitVec w)

def readBytes (n : Nat) : List Byte :=
  (range n).map fun i => m (a + BitVec.ofNat w i)

def writeBytes (bs : List Byte) : BitVec w → Byte :=
  fun x => bs.getD (dist a x) (m x)

@[simp] theorem readBytes_length (n : Nat) :
    (readBytes m a n).length = n := by simp [readBytes]

theorem dist_add {i : Nat} (hi : i < 2 ^ w) : dist a (a + BitVec.ofNat w i) = i := by
  unfold dist
  rw [show a + BitVec.ofNat w i - a = BitVec.ofNat w i by rw [BitVec.add_comm, BitVec.add_sub_cancel]]
  rw [toNat_ofNat, Nat.mod_eq_of_lt hi]

theorem add_dist (a x : BitVec w) : a + BitVec.ofNat w (dist a x) = x := by
  unfold dist
  rw [ofNat_toNat, setWidth_eq, BitVec.add_comm, BitVec.sub_add_cancel]

theorem readBytes_add (n k : Nat) :
    readBytes m a (n + k) = readBytes m a n ++ readBytes m (a + BitVec.ofNat w n) k := by
  unfold readBytes
  rw [range_add, map_append, map_map]
  congr 1
  apply map_congr_left
  intro i _
  rw [Function.comp_apply, ofNat_add, BitVec.add_assoc]

theorem readBytes_slice {k n N : Nat} (h : k + n ≤ N) :
    readBytes m (a + BitVec.ofNat w k) n = ((readBytes m a N).drop k).take n := by
  obtain ⟨r, rfl⟩ := Nat.exists_eq_add_of_le h
  rw [add_assoc, readBytes_add, readBytes_add, drop_left' (readBytes_length ..),
    take_left' (readBytes_length ..)]

theorem readBytes_congr {m m' : BitVec w → Byte} {a : BitVec w} {n : Nat}
    (h : ∀ x, dist a x < n → m x = m' x) (hn : n ≤ 2 ^ w) : readBytes m a n = readBytes m' a n := by
  apply map_congr_left
  intro i hi
  have hi' : i < n := mem_range.mp hi
  exact h _ (by rw [dist_add a (by omega)]; exact hi')

theorem writeBytes_of_le {m : BitVec w → Byte} {a : BitVec w} {bs : List Byte} {x : BitVec w}
    (h : bs.length ≤ dist a x) : writeBytes m a bs x = m x := by
  unfold writeBytes
  rw [getD_eq_getElem?_getD, List.getElem?_eq_none h, Option.getD_none]

@[simp] theorem writeBytes_nil : writeBytes m a [] = m := rfl

theorem writeBytes_congr {m m' : BitVec w → Byte} (bs : List Byte) {x : BitVec w}
    (h : bs.length ≤ dist a x → m x = m' x) : writeBytes m a bs x = writeBytes m' a bs x := by
  by_cases hx : bs.length ≤ dist a x
  · rw [writeBytes_of_le hx, writeBytes_of_le hx, h hx]
  · unfold writeBytes
    rw [getD_eq_getElem?_getD, getD_eq_getElem?_getD, List.getElem?_eq_getElem (by omega)]
    rfl

theorem readBytes_writeBytes (bs : List Byte) {k n : Nat} (hk : k + n ≤ bs.length) (hw : bs.length ≤ 2 ^ w) :
    readBytes (writeBytes m a bs) (a + BitVec.ofNat w k) n = (bs.drop k).take n := by
  apply ext_getElem
  · simp; omega
  · intro i hi _
    rw [readBytes_length] at hi
    simp only [readBytes, getElem_map, getElem_range, getElem_take, getElem_drop]
    have hs : a + BitVec.ofNat w k + BitVec.ofNat w i = a + BitVec.ofNat w (k + i) := by
      rw [BitVec.add_assoc, ofNat_add]
    rw [hs, writeBytes, dist_add a (by omega), getD_eq_getElem?_getD,
      List.getElem?_eq_getElem (by omega)]
    rfl

end

end PipRiot
