import Mathlib.Data.BitVec
import Mathlib.Data.Int.ModEq
import Mathlib.Tactic.Ring

/-!
# Division by multiplication

`div.h` and `div.c`: a quotient by 15625 is the product with a rounded
reciprocal, shifted. The reciprocal has 32 bits as long as the product with it
fits in 64, and 64 bits above. Both are rounded up, so a quotient can only come
out too large: 15625 times them exceeds the power of two by 2459 and by 2739.
-/

namespace PipRiot.Sys

open BitVec

def divMulhi64 (a b : BitVec 64) : BitVec 64 :=
  let aLo := a.setWidth 32
  let aHi := (a >>> 32).setWidth 32
  let bLo := b.setWidth 32
  let bHi := (b >>> 32).setWidth 32
  let aXbMid := aHi.setWidth 64 * bLo.setWidth 64
  let bXaMid := bHi.setWidth 64 * aLo.setWidth 64
  let aXbLo := aLo.setWidth 64 * bLo.setWidth 64
  let aXbHi := aHi.setWidth 64 * bHi.setWidth 64
  let carryBits :=
    (((aXbMid.setWidth 32).setWidth 64 + (bXaMid.setWidth 32).setWidth 64 + aXbLo >>> 32) >>> 32).setWidth 32
  aXbHi + aXbMid >>> 32 + bXaMid >>> 32 + carryBits.setWidth 64

def inv15625of32 : BitVec 64 := 0x431bde83

def inv15625of64 : BitVec 64 := 0x431bde82d7b634db

variable (val : BitVec 64)

def divU64By15625 : BitVec 64 :=
  if 16383999997 < val then divMulhi64 inv15625of64 val >>> 12 else (val * inv15625of32) >>> (12 + 32)

def divU64By1000000 : BitVec 64 := divU64By15625 val >>> 6

def divU32By15625div512 (val : BitVec 32) : BitVec 32 :=
  ((val.setWidth 64 * inv15625of32) >>> (12 + 32 - 9)).setWidth 32

def divU64By15625div512 : BitVec 64 :=
  if 16383999997 < val then divMulhi64 inv15625of64 val >>> (12 - 9) else (val * inv15625of32) >>> (12 + 32 - 9)

/-! ## The upper half of a product -/

theorem mul_le_of_lt_word {a b : Nat} (ha : a < 2 ^ 32) (hb : b < 2 ^ 32) : a * b ≤ (2 ^ 32 - 1) * (2 ^ 32 - 1) :=
  Nat.mul_le_mul (Nat.le_sub_one_of_lt ha) (Nat.le_sub_one_of_lt hb)

theorem toNat_divMulhi64 (a b : BitVec 64) : (divMulhi64 a b).toNat = a.toNat * b.toNat / 2 ^ 64 := by
  have hhi (x : BitVec 64) : x.toNat / 2 ^ 32 % 2 ^ 32 % 2 ^ 64 = x.toNat / 2 ^ 32 := by omega
  have hlo (x : BitVec 64) : x.toNat % 2 ^ 32 % 2 ^ 64 = x.toNat % 2 ^ 32 := by omega
  simp only [divMulhi64, toNat_add, toNat_ushiftRight, toNat_setWidth, toNat_mul, Nat.shiftRight_eq_div_pow, hhi, hlo]
  have ha := Nat.div_add_mod a.toNat (2 ^ 32)
  have hb := Nat.div_add_mod b.toNat (2 ^ 32)
  have h1 : a.toNat / 2 ^ 32 < 2 ^ 32 := by omega
  have h2 : b.toNat / 2 ^ 32 < 2 ^ 32 := by omega
  have h3 : a.toNat % 2 ^ 32 < 2 ^ 32 := Nat.mod_lt _ (by decide)
  have h4 : b.toNat % 2 ^ 32 < 2 ^ 32 := Nat.mod_lt _ (by decide)
  generalize a.toNat / 2 ^ 32 = x at *
  generalize b.toNat / 2 ^ 32 = y at *
  generalize a.toNat % 2 ^ 32 = z at *
  generalize b.toNat % 2 ^ 32 = w at *
  have hxy := mul_le_of_lt_word h1 h2
  have hxw := mul_le_of_lt_word h1 h4
  have hyz := mul_le_of_lt_word h2 h3
  have hzw := mul_le_of_lt_word h3 h4
  have hprod : a.toNat * b.toNat = x * y * 2 ^ 64 + (x * w + y * z) * 2 ^ 32 + z * w := by
    rw [← ha, ← hb]
    ring
  rw [hprod]
  omega

/-! ## The two reciprocals -/

theorem mul_inv64_div {val : Nat} (h : val < 2 ^ 64) : 0x431bde82d7b634db * val / 2 ^ 64 / 2 ^ 12 = val / 15625 := by
  omega

theorem mul_inv32_div_iff (val : Nat) :
    val * 0x431bde83 / 2 ^ 44 = val / 15625 ↔ 2459 * val < (15625 - val % 15625) * 2 ^ 44 := by
  omega

theorem toNat_product (k : Nat) :
    (if 16383999997 < val then divMulhi64 inv15625of64 val >>> k else (val * inv15625of32) >>> (k + 32)).toNat =
      if 16383999997 < val.toNat then 0x431bde82d7b634db * val.toNat / 2 ^ 64 / 2 ^ k
      else val.toNat * 0x431bde83 / 2 ^ (k + 32) := by
  have hlt : 16383999997 < val ↔ 16383999997 < val.toNat := Iff.rfl
  simp only [hlt]
  split
  · rw [toNat_ushiftRight, Nat.shiftRight_eq_div_pow, toNat_divMulhi64]; rfl
  · have hinv : inv15625of32.toNat = 0x431bde83 := rfl
    rw [toNat_ushiftRight, Nat.shiftRight_eq_div_pow, toNat_mul, hinv, Nat.mod_eq_of_lt (by omega)]

theorem toNat_divU64By15625 : (divU64By15625 val).toNat =
    if 16383999997 < val.toNat then val.toNat / 15625 else val.toNat * 0x431bde83 / 2 ^ 44 := by
  have h := toNat_product val 12
  rwa [mul_inv64_div val.isLt] at h

theorem div_exact_iff :
    (∀ a b, (divMulhi64 a b).toNat = a.toNat * b.toNat / 2 ^ 64) ∧
    ((divU64By15625 val).toNat = val.toNat / 15625 ∧ (divU64By1000000 val).toNat = val.toNat / 1000000 ↔
      16383999997 < val.toNat ∨ 2459 * val.toNat < (15625 - val.toNat % 15625) * 2 ^ 44) := by
  refine ⟨toNat_divMulhi64, ?_⟩
  -- the second quotient is the first one divided by 64
  have hsecond : (divU64By15625 val).toNat = val.toNat / 15625 → (divU64By1000000 val).toNat = val.toNat / 1000000 := by
    intro h
    rw [divU64By1000000, toNat_ushiftRight, h, Nat.shiftRight_eq_div_pow, Nat.div_div_eq_div_mul]
  rw [and_iff_left_of_imp hsecond, toNat_divU64By15625]
  split <;> rename_i h
  · simp [h]
  · rw [mul_inv32_div_iff, or_iff_right h]

theorem seconds_rounded_up :
    (divU64By15625 7154999999).toNat = 7154999999 / 15625 + 1 ∧
    (divU64By1000000 7154999999).toNat = 7155 ∧ 7154999999 / 1000000 = 7154 := by
  decide

/-! ## Ticks of 32768 Hz

With nine bits less of shift the error counts 512 times. -/

theorem mul_inv64_ticks_iff (val : Nat) : 0x431bde82d7b634db * val / 2 ^ 64 / 2 ^ 3 = val * 512 / 15625 ↔
    512 * 2739 * val < (15625 - val * 512 % 15625) * 2 ^ 76 := by
  omega

theorem mul_inv32_ticks_iff (val : Nat) : val * 0x431bde83 / 2 ^ 35 = val * 512 / 15625 ↔
    512 * 2459 * val < (15625 - val * 512 % 15625) * 2 ^ 44 := by
  omega

theorem ticks_exact_iff (val32 : BitVec 32) (val : BitVec 64) :
    ((divU32By15625div512 val32).toNat = val32.toNat * 512 / 15625 ↔
      512 * 2459 * val32.toNat < (15625 - val32.toNat * 512 % 15625) * 2 ^ 44) ∧
    ((divU64By15625div512 val).toNat = val.toNat * 512 / 15625 ↔
      if 16383999997 < val.toNat then 512 * 2739 * val.toNat < (15625 - val.toNat * 512 % 15625) * 2 ^ 76
      else 512 * 2459 * val.toNat < (15625 - val.toNat * 512 % 15625) * 2 ^ 44) := by
  constructor
  · have hinv : inv15625of32.toNat = 0x431bde83 := rfl
    have hval : (divU32By15625div512 val32).toNat = val32.toNat * 0x431bde83 / 2 ^ 35 := by
      rw [divU32By15625div512, toNat_setWidth, toNat_ushiftRight, Nat.shiftRight_eq_div_pow, toNat_mul,
        toNat_setWidth, hinv]
      rw [Nat.mod_eq_of_lt (a := val32.toNat), Nat.mod_eq_of_lt (a := val32.toNat * _), Nat.mod_eq_of_lt]
      all_goals omega
    rw [hval, mul_inv32_ticks_iff]
  · rw [show (divU64By15625div512 val).toNat = _ from toNat_product val 3]
    split
    · rw [mul_inv64_ticks_iff]
    · rw [mul_inv32_ticks_iff]

theorem ticks_rounded_up :
    (divU32By15625div512 13978302).toNat = 13978302 * 512 / 15625 + 1 ∧
    (divU64By15625div512 18446744073709551605).toNat = 18446744073709551605 * 512 / 15625 + 1 := by
  decide

/-! ## The generator of `minstd.c` -/

def divU32By44488 (val : BitVec 32) : BitVec 32 := ((val.setWidth 64 * 0xBC8F1391) >>> (15 + 32)).setWidth 32

def divU32Mod44488 (val : BitVec 32) : BitVec 32 := val - divU32By44488 val * 44488

variable (seed : BitVec 32)

/-- The new seed, which is also the result. -/
def randMinstd : BitVec 32 :=
  let test := 48271 * divU32Mod44488 seed - 3399 * divU32By44488 seed
  if 0 < test.toInt then test else test + 2147483647

theorem mul_inv44488_div {val : Nat} (h : val < 2 ^ 32) : val * 0xBC8F1391 / 2 ^ 47 = val / 44488 := by
  omega

theorem toNat_divU32By44488 (val : BitVec 32) : (divU32By44488 val).toNat = val.toNat / 44488 := by
  have hprod : (val.setWidth 64 * 0xBC8F1391).toNat = val.toNat * 0xBC8F1391 := by
    rw [toNat_mul, toNat_setWidth, show (0xBC8F1391 : BitVec 64).toNat = 0xBC8F1391 from rfl]
    omega
  rw [divU32By44488, toNat_setWidth, toNat_ushiftRight, Nat.shiftRight_eq_div_pow, hprod, mul_inv44488_div val.isLt]
  omega

theorem toNat_divU32Mod44488 (val : BitVec 32) : (divU32Mod44488 val).toNat = val.toNat % 44488 := by
  have hmul : (divU32By44488 val * 44488).toNat = val.toNat / 44488 * 44488 := by
    rw [toNat_mul, toNat_divU32By44488, show (44488 : BitVec 32).toNat = 44488 from rfl]
    omega
  rw [divU32Mod44488, toNat_sub, hmul]
  omega

theorem toInt_test : (48271 * divU32Mod44488 seed - 3399 * divU32By44488 seed).toInt =
    48271 * (seed.toNat % 44488 : Nat) - 3399 * (seed.toNat / 44488 : Nat) := by
  rw [toInt_eq_toNat_bmod, toNat_sub, toNat_mul, toNat_mul, toNat_divU32By44488, toNat_divU32Mod44488,
    show (48271 : BitVec 32).toNat = 48271 from rfl, show (3399 : BitVec 32).toNat = 3399 from rfl, Int.bmod]
  omega

theorem randMinstd_step : (randMinstd seed).toNat ≡ 48271 * seed.toNat [MOD 2147483647] ∧
    1 ≤ (randMinstd seed).toNat ∧ (randMinstd seed).toNat ≤ 2147483647 := by
  have htest := toInt_test seed
  have hlt := seed.isLt
  unfold randMinstd
  generalize 48271 * divU32Mod44488 seed - 3399 * divU32By44488 seed = test at htest ⊢
  have hcond := test.toInt_eq_toNat_cond
  -- `48271 * seed` and the new seed differ by a multiple of `48271 * 44488 + 3399`
  have hmod {x : Nat} (k : Int) (hx : x = test.toInt + 2147483647 * k) : x ≡ 48271 * seed.toNat [MOD 2147483647] :=
    Int.natCast_modEq_iff.1 (Int.modEq_iff_dvd.2 ⟨(seed.toNat / 44488 : Nat) - k, by omega⟩)
  dsimp only
  split
  · exact ⟨hmod 0 (by omega), by omega, by omega⟩
  · have hadd : ((test + 2147483647).toNat : Int) = test.toInt + 2147483647 := by
      rw [toNat_add, show (2147483647 : BitVec 32).toNat = 2147483647 from rfl]
      omega
    exact ⟨hmod 1 hadd, by omega, by omega⟩

theorem randMinstd_run (n : Nat) :
    (randMinstd^[n + 1] seed).toNat ≡ 48271 ^ (n + 1) * seed.toNat [MOD 2147483647] ∧
      (1 ≤ (randMinstd^[n + 1] seed).toNat ∧ (randMinstd^[n + 1] seed).toNat ≤ 2147483647) ∧
      ((randMinstd^[n + 1] seed).toNat = 2147483647 ↔ 2147483647 ∣ seed.toNat) := by
  have hmod : ∀ k, (randMinstd^[k] seed).toNat ≡ 48271 ^ k * seed.toNat [MOD 2147483647] := by
    intro k
    induction k with
    | zero => rw [pow_zero, one_mul]; rfl
    | succ k ih =>
      rw [Function.iterate_succ_apply', Nat.pow_succ', mul_assoc]
      exact (randMinstd_step _).1.trans (ih.mul_left _)
  have hrange := (randMinstd_step (randMinstd^[n] seed)).2
  rw [← Function.iterate_succ_apply' randMinstd, Nat.succ_eq_add_one] at hrange
  have hcop : Nat.Coprime 2147483647 (48271 ^ (n + 1)) := Nat.Coprime.pow_right _ (by decide)
  refine ⟨hmod (n + 1), hrange, ?_⟩
  rw [← hcop.dvd_mul_left, ← (hmod (n + 1)).dvd_iff (dvd_refl _)]
  omega

end PipRiot.Sys
