import PipRiot.Lib.Bytes

/-!
# Stores over an unknown memory

An overlay maps an address to the byte last stored there, and to `none` where
nothing was stored. Consecutive stores that do not come round the address space
to their own start are one store of the joined bytes, so the stores of a copying
loop are one store again, for any number of passes.
-/

namespace PipRiot

open List BitVec

section
variable {w : Nat} {k : Nat} {bs : List Byte} {m : BitVec w → Option Byte} {a x : BitVec w}

section
variable (a x : BitVec w)

theorem dist_lt : dist a x < 2 ^ w := (x - a).isLt

theorem dist_eq_iff (hk : k < 2 ^ w) : dist a x = k ↔ x = a + BitVec.ofNat w k := by
  constructor
  · intro h
    rw [← h, add_dist]
  · intro h
    rw [h, dist_add a hk]

theorem dist_shift (hk : k ≤ dist a x) : dist (a + BitVec.ofNat w k) x = dist a x - k := by
  have hlt := dist_lt a x
  rw [dist_eq_iff _ _ (by omega), BitVec.add_assoc, ← ofNat_add, Nat.add_sub_cancel' hk, add_dist]

theorem dist_shift_wrap (hk : k ≤ 2 ^ w) (h : dist a x < k) :
    dist (a + BitVec.ofNat w k) x = 2 ^ w - k + dist a x := by
  rw [dist_eq_iff _ _ (by omega), BitVec.add_assoc, ← ofNat_add,
    show k + (2 ^ w - k + dist a x) = 2 ^ w + dist a x by omega, ofNat_add]
  have h0 : BitVec.ofNat w (2 ^ w) = 0#w := by
    apply eq_of_toNat_eq
    rw [toNat_ofNat, toNat_ofNat, Nat.mod_self, Nat.zero_mod]
  rw [h0, BitVec.zero_add, add_dist]

theorem dist_lt_iff {q n : Nat} (h : q + n ≤ 2 ^ w) :
    dist (a + BitVec.ofNat w q) x < n ↔ q ≤ dist a x ∧ dist a x < q + n := by
  by_cases hq : q ≤ dist a x
  · rw [dist_shift a x hq]; omega
  · rw [dist_shift_wrap a x (by omega) (not_le.mp hq)]; omega

end

theorem writeBytes_cons (m : BitVec w → Byte) (a : BitVec w) (b : Byte) (h : bs.length < 2 ^ w) :
    writeBytes (writeBytes m a [b]) (a + BitVec.ofNat w 1) bs = writeBytes m a (b :: bs) := by
  funext x
  by_cases hx : dist a x = 0
  · have hd : dist (a + BitVec.ofNat w 1) x = 2 ^ w - 1 + dist a x := dist_shift_wrap a x (by omega) (by omega)
    rw [writeBytes_of_le (by omega)]
    simp [writeBytes, hx]
  · have hd : dist (a + BitVec.ofNat w 1) x = dist a x - 1 := dist_shift a x (by omega)
    obtain ⟨d, hd'⟩ : ∃ d, dist a x = d + 1 := ⟨dist a x - 1, by omega⟩
    simp [writeBytes, hd, hd']

/-! ## Overlays -/

def overlay (m : BitVec w → Option Byte) (a : BitVec w) (bs : List Byte) : BitVec w → Option Byte :=
  fun x => (bs[dist a x]?).or (m x)

theorem overlay_of_le (h : bs.length ≤ dist a x) : overlay m a bs x = m x := by
  rw [overlay, List.getElem?_eq_none h, Option.none_or]

theorem overlay_of_lt (h : dist a x < bs.length) : overlay m a bs x = some bs[dist a x] := by
  rw [overlay, List.getElem?_eq_getElem h, Option.some_or]

@[simp] theorem overlay_nil (m : BitVec w → Option Byte) (a : BitVec w) : overlay m a [] = m := by
  funext x
  exact overlay_of_le zero_le

theorem overlay_isSome : (overlay m a bs x).isSome = true ↔ dist a x < bs.length ∨ (m x).isSome = true := by
  by_cases h : dist a x < bs.length
  · simp [overlay_of_lt h, h]
  · simp [overlay_of_le (not_lt.mp h), h]

theorem overlay_append (m : BitVec w → Option Byte) (a : BitVec w) (bs cs : List Byte)
    (hw : bs.length + cs.length ≤ 2 ^ w) :
    overlay (overlay m a bs) (a + BitVec.ofNat w bs.length) cs = overlay m a (bs ++ cs) := by
  funext x
  by_cases hb : bs.length ≤ dist a x
  · rw [overlay, dist_shift a x hb, overlay_of_le hb, overlay, getElem?_append_right hb]
  · have hlt := not_le.mp hb
    have hc : cs.length ≤ dist (a + BitVec.ofNat w bs.length) x := by
      rw [dist_shift_wrap a x (by omega) hlt]; omega
    rw [overlay_of_le hc, overlay_of_lt hlt,
      overlay_of_lt (lt_of_lt_of_le hlt (by rw [length_append]; omega)), getElem_append_left hlt]

/-! ## Words -/

def readWord (m : BitVec w → Byte) (a : BitVec w) : BitVec 32 := BitVec.ofNat 32 (leValue (readBytes m a 4))

theorem readWord_of_bytes {m : BitVec w → Byte} {v : Nat} (h : readBytes m a 4 = leBytes 4 v) :
    readWord m a = BitVec.ofNat 32 v := by
  rw [readWord, h, leValue_leBytes]
  apply eq_of_toNat_eq
  simp

/-- The word at `a` holds `v`: all four of its bytes were stored. -/
def HoldsWord (m : BitVec w → Option Byte) (a : BitVec w) (v : BitVec 32) : Prop :=
  ∀ k : Fin 4, m (a + BitVec.ofNat w k) = (leBytes 4 v.toNat)[k.val]?

instance (m : BitVec w → Option Byte) (a : BitVec w) (v : BitVec 32) : Decidable (HoldsWord m a v) :=
  inferInstanceAs (Decidable (∀ _ : Fin 4, _))

theorem holdsWord_overlay (m : BitVec w → Option Byte) (a : BitVec w) (v : BitVec 32) (hw : 4 ≤ 2 ^ w) :
    HoldsWord (overlay m a (leBytes 4 v.toNat)) a v := by
  intro k
  rw [overlay, dist_add a (by omega), List.getElem?_eq_getElem (by simp), Option.some_or]

theorem HoldsWord.congr {m' : BitVec w → Option Byte} {v : BitVec 32} (hw : 4 ≤ 2 ^ w)
    (h : HoldsWord m a v) (hm : ∀ x, dist a x < 4 → m' x = m x) : HoldsWord m' a v := by
  intro k
  have hk := k.isLt
  rw [hm _ (by rw [dist_add a (by omega)]; exact hk)]
  exact h k

end

end PipRiot
