import Mathlib.Data.BitVec
import Mathlib.Tactic.LinearCombination
import PipRiot.Lib.System

/-!
# Converted clocks

A clock that counts `div` ticks for every `mul` ticks of a lower clock of 32 bits. Its
reading falls when the lower clock wraps, and `_ztimer_now_extend` makes a time of 32
bits of it by adding a fixed period whenever it sees the reading fall.
-/

namespace PipRiot.Sys

open BitVec

structure Converted where
  maxValue : BitVec 32
  div : BitVec 16
  mul : BitVec 16
  checkpoint : BitVec 32
  lowerLast : BitVec 32
  -- history: the ticks of the lower clock
  ticks : Nat

namespace Converted

def integerDivCeil (x y : BitVec 64) : BitVec 64 := if x = 0#64 then 0#64 else 1#64 + (x - 1#64) / y

variable (c : Converted) (val : BitVec 32)

def convertMuldiv64Set : BitVec 32 :=
  let res := val.setWidth 64
  let res := if 1#16 < c.mul then res * c.mul.setWidth 64 else res
  let res := if 1#16 < c.div then integerDivCeil res (c.div.setWidth 64) else res
  res.setWidth 32

def convertMuldiv64Now : BitVec 32 :=
  let res := val.setWidth 64
  let res := if 1#16 < c.div then res * c.div.setWidth 64 else res
  let res := if 1#16 < c.mul then res / c.mul.setWidth 64 else res
  res.setWidth 32

/-- The parameters are `unsigned`, the fields of the clock have 16 bits. The lower clock is
not read, whatever it stands at. -/
def ztimerConvertMuldiv64Init (div mul start : BitVec 32) : Converted where
  maxValue :=
    if div < mul then (0xffffffff#64 * div.setWidth 64 / mul.setWidth 64).setWidth 32 else 0xffffffff#32
  div := div.setWidth 16
  mul := mul.setWidth 16
  checkpoint := 0#32
  lowerLast := 0#32
  ticks := start.toNat

/-- What `ztimer_set`, `_ztimer_update` and `ztimer_handler` hand to the driver of the clock. -/
def capped : BitVec 32 :=
  if c.maxValue < 0xffffffff#32 then if val < c.maxValue >>> 1 then val else c.maxValue >>> 1 else val

def addModulo (a b mod : BitVec 32) : BitVec 32 := (if a < b then a + (mod + 1#32) else a) - b

def ztimerNowExtend : Option Converted :=
  if c.maxValue = 0#32 then none
  else
    let lowerNow := c.convertMuldiv64Now (BitVec.ofNat 32 c.ticks)
    some { c with checkpoint := c.checkpoint + addModulo lowerNow c.lowerLast c.maxValue, lowerLast := lowerNow }

def step (g : Nat) : Option Converted := ztimerNowExtend { c with ticks := c.ticks + g }

/-- The lower clock wraps once at most between two calls, and the reading falls if it does. -/
def Seen (g : Nat) : Prop :=
  (c.ticks + g) / 2 ^ 32 = c.ticks / 2 ^ 32 ∨
    (c.ticks + g) / 2 ^ 32 = c.ticks / 2 ^ 32 + 1 ∧ c.convertMuldiv64Now (BitVec.ofNat 32 (c.ticks + g)) < c.lowerLast

/-- How far the time is ahead, in `mul`th parts of a tick: by the reading at the start and, at
each wrap, by what the period that is added exceeds the real one. -/
def ahead (div mul start ticks : Nat) : Int :=
  start * div + ((start + ticks) / 2 ^ 32 : Nat) * ((c.maxValue.toNat + 1) * mul - 2 ^ 32 * div)

instance (c : Converted) (g : Nat) : Decidable (c.Seen g) := inferInstanceAs (Decidable (_ ∨ _))

/-- One apart at most. -/
def Near (a b : BitVec 32) : Prop := a = b ∨ a = b + 1#32 ∨ b = a + 1#32

section
variable {div mul start : BitVec 32} {c : Converted}

/-! ## The functions in numbers -/

structure Runs (div mul : BitVec 32) (c : Converted) : Prop where
  pos : 0 < div.toNat
  lt : div.toNat < mul.toNat
  short : mul.toNat < 65536
  div_eq : c.div = div.setWidth 16
  mul_eq : c.mul = mul.setWidth 16

theorem mul_lt_of_short {x : Nat} (hx : x < 65536) : val.toNat * x < 2 ^ 64 := by
  have := Nat.mul_le_mul (val.isLt.le) (hx.le)
  omega

namespace Runs

section
variable (h : Runs div mul c)
include h

theorem toNat_div : c.div.toNat = div.toNat := by
  have := h.lt
  have := h.short
  rw [h.div_eq, toNat_setWidth]
  exact Nat.mod_eq_of_lt (by omega)

theorem toNat_mul : c.mul.toNat = mul.toNat := by
  rw [h.mul_eq, toNat_setWidth]
  exact Nat.mod_eq_of_lt h.short

theorem one_lt_mul : 1#16 < c.mul := by
  have := h.pos
  have := h.lt
  rw [lt_def, h.toNat_mul]
  exact (by omega : 1 < mul.toNat)

theorem toNat_now (val : BitVec 32) : (c.convertMuldiv64Now val).toNat = val.toNat * div.toNat / mul.toNat := by
  have hlt := h.lt
  have hshort := h.short
  have hpos := h.pos
  have hprod : (if 1#16 < c.div then val.setWidth 64 * c.div.setWidth 64 else val.setWidth 64).toNat =
      val.toNat * div.toNat := by
    split
    · simp only [BitVec.toNat_mul, toNat_setWidth, h.toNat_div]
      rw [Nat.mod_eq_of_lt (show val.toNat < 2 ^ 64 by omega), Nat.mod_eq_of_lt (show div.toNat < 2 ^ 64 by omega)]
      exact Nat.mod_eq_of_lt (mul_lt_of_short val (by omega))
    · rename_i hone
      rw [lt_def, h.toNat_div] at hone
      have : ¬ 1 < div.toNat := hone
      rw [show div.toNat = 1 by omega, toNat_setWidth, mul_one]
      exact Nat.mod_eq_of_lt (by omega)
  have hle : val.toNat * div.toNat / mul.toNat ≤ val.toNat := by
    apply Nat.div_le_of_le_mul
    rw [mul_comm mul.toNat]
    exact Nat.mul_le_mul_left _ (hlt.le)
  simp only [convertMuldiv64Now, if_pos h.one_lt_mul, toNat_setWidth, toNat_udiv, hprod, h.toNat_mul]
  rw [Nat.mod_eq_of_lt (show mul.toNat < 2 ^ 64 by omega)]
  exact Nat.mod_eq_of_lt (by omega)

theorem toNat_set (val : BitVec 32) :
    (c.convertMuldiv64Set val).toNat = (val.toNat * mul.toNat + div.toNat - 1) / div.toNat % 2 ^ 32 := by
  have hpos := h.pos
  have hshort := h.short
  have hbound := mul_lt_of_short val hshort
  have hprod : (val.setWidth 64 * c.mul.setWidth 64).toNat = val.toNat * mul.toNat := by
    simp only [BitVec.toNat_mul, toNat_setWidth, h.toNat_mul]
    rw [Nat.mod_eq_of_lt (show val.toNat < 2 ^ 64 by omega), Nat.mod_eq_of_lt (show mul.toNat < 2 ^ 64 by omega)]
    exact Nat.mod_eq_of_lt hbound
  simp only [convertMuldiv64Set, if_pos h.one_lt_mul, toNat_setWidth]
  generalize val.setWidth 64 * c.mul.setWidth 64 = x at hprod
  rw [← hprod] at hbound ⊢
  congr 1
  split
  · unfold integerDivCeil
    split
    · rename_i hzero
      rw [hzero]
      exact (Nat.div_eq_of_lt (by simp; omega)).symm
    · rename_i hne
      have hx : 0 < x.toNat := pos_of_ne_zero fun e => hne (eq_of_toNat_eq e)
      have hsub : (x - 1#64).toNat = x.toNat - 1 := toNat_sub_of_le (show (1#64).toNat ≤ x.toNat from hx)
      have hle := Nat.div_le_self (x.toNat - 1) div.toNat
      rw [toNat_add, toNat_udiv, hsub, toNat_setWidth, h.toNat_div,
        Nat.mod_eq_of_lt (show div.toNat < 2 ^ 64 by omega),
          show x.toNat + div.toNat - 1 = x.toNat - 1 + div.toNat by omega,
        Nat.add_div_right _ hpos, add_comm]
      exact Nat.mod_eq_of_lt (by simp; omega)
  · rename_i hone
    rw [lt_def, h.toNat_div] at hone
    have : ¬ 1 < div.toNat := hone
    rw [show div.toNat = 1 by omega, Nat.add_sub_cancel, Nat.div_one]

theorem never_early {val : BitVec 32} (hval : val.toNat * mul.toNat ≤ (2 ^ 32 - 1) * div.toNat) (n : Nat) :
    n * div.toNat / mul.toNat + val.toNat ≤ (n + (c.convertMuldiv64Set val).toNat) * div.toNat / mul.toNat := by
  have hpos := h.pos
  have hmul : 0 < mul.toNat := Nat.lt_trans hpos h.lt
  rw [h.toNat_set]
  generalize hw : (val.toNat * mul.toNat + div.toNat - 1) / div.toNat = w
  have hceil : val.toNat * mul.toNat ≤ w * div.toNat := by
    have := Nat.lt_mul_div_succ (val.toNat * mul.toNat + div.toNat - 1) hpos
    rw [hw, Nat.mul_add, Nat.mul_one, Nat.mul_comm div.toNat w] at this; omega
  have hwlt : w < 2 ^ 32 := by
    rw [← hw, Nat.div_lt_iff_lt_mul hpos]; omega
  rw [Nat.mod_eq_of_lt hwlt, Nat.le_div_iff_mul_le hmul, Nat.add_mul, Nat.add_mul]
  exact Nat.add_le_add (Nat.div_mul_le_self _ _) hceil

end

end Runs

/-! ## The period -/

theorem toNat_maxValue (hlt : div.toNat < mul.toNat) :
    (ztimerConvertMuldiv64Init div mul start).maxValue.toNat = (2 ^ 32 - 1) * div.toNat / mul.toNat := by
  have hprod : (2 ^ 32 - 1) * div.toNat < 2 ^ 64 := by omega
  have hle : (2 ^ 32 - 1) * div.toNat / mul.toNat ≤ 2 ^ 32 - 1 := by
    apply Nat.div_le_of_le_mul
    rw [mul_comm mul.toNat]
    exact Nat.mul_le_mul_left _ (hlt.le)
  simp only [ztimerConvertMuldiv64Init, if_pos (show div < mul from hlt), toNat_setWidth, toNat_udiv,
    BitVec.toNat_mul, toNat_ofNat]
  rw [Nat.mod_eq_of_lt (show div.toNat < 2 ^ 64 by omega), Nat.mod_eq_of_lt (show mul.toNat < 2 ^ 64 by omega),
    Nat.mod_eq_of_lt (show 4294967295 < 2 ^ 64 by decide),
      Nat.mod_eq_of_lt (show 4294967295 * div.toNat < 2 ^ 64 from hprod)]
  exact Nat.mod_eq_of_lt (lt_of_le_of_lt hle (by decide))

theorem toNat_capped_le (hlt : c.maxValue < 0xffffffff#32) : (c.capped val).toNat ≤ c.maxValue.toNat := by
  have hhalf : (c.maxValue >>> 1).toNat ≤ c.maxValue.toNat := by
    rw [toNat_ushiftRight, Nat.shiftRight_eq_div_pow]; exact Nat.div_le_self ..
  rw [capped, if_pos hlt]
  split
  · rename_i hval
    exact le_trans (le_of_lt (lt_def.mp hval)) hhalf
  · exact hhalf

theorem addModulo_time {t a b mod : BitVec 32} {x : Nat} (ht : t = BitVec.ofNat 32 (x + b.toNat)) :
    t + addModulo a b mod = BitVec.ofNat 32 (x + (if a < b then mod.toNat + 1 else 0) + a.toNat) := by
  subst ht
  apply eq_of_toNat_eq
  unfold addModulo
  split <;> simp only [toNat_sub, toNat_add, toNat_ofNat] <;> omega

theorem near_add_iff {k : Nat} {e : Int} (hlo : -2 ^ 31 ≤ e) (hhi : e ≤ 2 ^ 31) :
    Near (BitVec.ofInt 32 (k + e)) (BitVec.ofNat 32 k) ↔ -1 ≤ e ∧ e ≤ 1 := by
  simp only [Near, ← toNat_inj, toNat_add, toNat_ofInt, toNat_ofNat]
  omega

theorem near_iff {x m : Nat} {A : Int} (hm : 0 < m) (hlo : -2 ^ 31 * m ≤ A) (hhi : A ≤ 2 ^ 31 * m) :
    Near (BitVec.ofInt 32 ((x + A) / m)) (BitVec.ofNat 32 (x / m)) ↔
      -(m : Int) ≤ (x % m : Nat) + A ∧ (x % m : Nat) + A < 2 * m := by
  have hm' : (0 : Int) < m := by omega
  have hmod := Nat.mod_lt x hm
  have hsum : (x + A) / (m : Int) = (x / m : Nat) + ((x % m : Nat) + A) / (m : Int) := by
    have hx : (x : Int) = (x % m : Nat) + m * (x / m : Nat) := by
      exact_mod_cast (Nat.mod_add_div x m).symm
    rw [show (x : Int) + A = (x % m : Nat) + A + m * (x / m : Nat) by omega,
      Int.add_mul_ediv_left _ _ hm'.ne', add_comm]
  rw [hsum, near_add_iff]
  · rw [Int.le_ediv_iff_mul_le hm', neg_one_mul, ← Int.lt_add_one_iff (b := 1), Int.ediv_lt_iff_lt_mul hm']
    rfl
  · rw [Int.le_ediv_iff_mul_le hm']; omega
  · rw [← Int.lt_add_one_iff, Int.ediv_lt_iff_lt_mul hm']; omega

/-! ## Runs -/

/-- The time counts the wraps of the lower clock by the fixed period. -/
structure Tracks (div mul : BitVec 32) (c : Converted) : Prop extends Runs div mul c where
  max : c.maxValue.toNat = (2 ^ 32 - 1) * div.toNat / mul.toNat
  lower : c.lowerLast.toNat ≤ c.ticks % 2 ^ 32 * div.toNat / mul.toNat
  time : c.checkpoint = BitVec.ofNat 32 (c.ticks / 2 ^ 32 * (c.maxValue.toNat + 1) + c.lowerLast.toNat)

theorem Tracks.init (hpos : 0 < div.toNat) (hlt : div.toNat < mul.toNat) (hshort : mul.toNat < 65536) :
    Tracks div mul (ztimerConvertMuldiv64Init div mul start) where
  pos := hpos
  lt := hlt
  short := hshort
  div_eq := rfl
  mul_eq := rfl
  max := toNat_maxValue hlt
  lower := zero_le
  time := by
    have hzero : (ztimerConvertMuldiv64Init div mul start).ticks / 2 ^ 32 = 0 := Nat.div_eq_of_lt start.isLt
    rw [hzero, Nat.zero_mul, Nat.zero_add]; rfl

theorem Tracks.maxValue_ne (h : Tracks div mul c) : c.maxValue ≠ 0#32 := by
  intro hzero
  have hpos := h.pos
  have hmax : 0 < (2 ^ 32 - 1) * div.toNat / mul.toNat := Nat.div_pos (by omega) (lt_trans hpos h.lt)
  rw [← h.max, hzero] at hmax
  exact lt_irrefl _ hmax

theorem Tracks.maxValue_lt (h : Tracks div mul c) : c.maxValue < 0xffffffff#32 := by
  have hlt := h.lt
  rw [lt_def, h.max, Nat.div_lt_iff_lt_mul (lt_trans h.pos hlt)]
  exact Nat.mul_lt_mul_of_pos_left hlt (by decide)

theorem Tracks.capped (h : Tracks div mul c) (val : BitVec 32) :
    (c.capped val).toNat * mul.toNat ≤ (2 ^ 32 - 1) * div.toNat := by
  have hle := toNat_capped_le val h.maxValue_lt
  rw [h.max, Nat.le_div_iff_mul_le (lt_trans h.pos h.lt)] at hle
  exact hle

structure Read (div mul : BitVec 32) (c : Converted) : Prop extends Tracks div mul c where
  last : c.lowerLast.toNat = c.ticks % 2 ^ 32 * div.toNat / mul.toNat

theorem Tracks.step {g : Nat} (h : Tracks div mul c) (hg : c.Seen g) :
    ∃ c', c.step g = some c' ∧ c'.ticks = c.ticks + g ∧ c'.maxValue = c.maxValue ∧ Read div mul c' := by
  have hnow : (c.convertMuldiv64Now (BitVec.ofNat 32 (c.ticks + g))).toNat =
      (c.ticks + g) % 2 ^ 32 * div.toNat / mul.toNat := by
    rw [h.toNat_now, toNat_ofNat]
  refine ⟨_, if_neg h.maxValue_ne, rfl, rfl, { h with lower := hnow.le, last := hnow, time := ?_ }⟩
  show c.checkpoint + addModulo (c.convertMuldiv64Now (BitVec.ofNat 32 (c.ticks + g))) c.lowerLast c.maxValue =
    BitVec.ofNat 32 ((c.ticks + g) / 2 ^ 32 * (c.maxValue.toNat + 1) +
      (c.convertMuldiv64Now (BitVec.ofNat 32 (c.ticks + g))).toNat)
  rw [addModulo_time h.time]
  rcases hg with hsame | ⟨hwrap, hfall⟩
  · -- within a period of the lower clock the reading does not fall
    have hrise : c.lowerLast.toNat ≤ (c.convertMuldiv64Now (BitVec.ofNat 32 (c.ticks + g))).toNat := by
      rw [hnow]
      exact le_trans h.lower (Nat.div_le_div_right (Nat.mul_le_mul_right _ (by omega)))
    rw [if_neg (by rw [lt_def]; omega), hsame, add_zero]
  · rw [if_pos hfall, hwrap, Nat.add_mul, Nat.one_mul]

theorem Tracks.runAll {g : Nat} {gaps : List Nat} (h : Tracks div mul c)
    (hg : AllGood Converted.step Seen c (g :: gaps)) :
    ∃ c', PipRiot.runAll Converted.step c (g :: gaps) = some c' ∧ c'.ticks = c.ticks + (g :: gaps).sum ∧
      c'.maxValue = c.maxValue ∧ Read div mul c' := by
  induction gaps generalizing c g with
  | nil =>
    obtain ⟨c1, hs, ht, hm, h1⟩ := h.step hg.1
    exact ⟨c1, runAll_cons hs [], ht, hm, h1⟩
  | cons g' gaps ih =>
    obtain ⟨c1, hs, ht, hm, h1⟩ := h.step hg.1
    obtain ⟨c2, hrun, ht2, hm2, h2⟩ := ih h1.toTracks (hg.2 c1 hs)
    refine ⟨c2, (runAll_cons hs _).trans hrun, ?_, hm2.trans hm, h2⟩
    rw [ht2, ht, add_assoc, ← List.sum_cons]

theorem Read.time_eq {n : Nat} (h : Read div mul c) (hticks : c.ticks = start.toNat + n) :
    c.checkpoint =
      BitVec.ofInt 32 ((n * div.toNat + c.ahead div.toNat mul.toNat start.toNat n) / (mul.toNat : Int)) := by
  have hm : (mul.toNat : Int) ≠ 0 := by
    have := h.lt; omega
  have hsplit : (c.ticks : Int) = (c.ticks % 2 ^ 32 : Nat) + 2 ^ 32 * (c.ticks / 2 ^ 32 : Nat) := by
    omega
  have hahead : n * div.toNat + c.ahead div.toNat mul.toNat start.toNat n =
      (c.ticks % 2 ^ 32 : Nat) * div.toNat + (c.ticks / 2 ^ 32 : Nat) * (c.maxValue.toNat + 1) * mul.toNat := by
    rw [ahead, ← hticks]
    have hn : (c.ticks : Int) = start.toNat + n := by omega
    linear_combination (div.toNat : Int) * (hsplit - hn)
  rw [hahead, Int.add_mul_ediv_right _ _ hm, h.time, h.last, ← ofInt_natCast]
  congr 1
  push_cast
  ring

/-- If no wrap is missed, the time differs from the ticks by what it is ahead. The lower timer
is never early. -/
theorem converted_clock_near_iff (hpos : 0 < div.toNat) (hlt : div.toNat < mul.toNat) (hshort : mul.toNat < 65536)
    (start : BitVec 32) :
    (∀ g gaps n A, AllGood step Seen (ztimerConvertMuldiv64Init div mul start) (g :: gaps) → n = (g :: gaps).sum →
      A = (ztimerConvertMuldiv64Init div mul start).ahead div.toNat mul.toNat start.toNat n →
      ∃ c, runAll step (ztimerConvertMuldiv64Init div mul start) (g :: gaps) = some c ∧
        c.checkpoint = BitVec.ofInt 32 (((n * div.toNat : Nat) + A) / mul.toNat) ∧
        (-2 ^ 31 * mul.toNat ≤ A → A ≤ 2 ^ 31 * mul.toNat →
          (Near c.checkpoint (BitVec.ofNat 32 (n * div.toNat / mul.toNat)) ↔
            -(mul.toNat : Int) ≤ (n * div.toNat % mul.toNat : Nat) + A ∧
              (n * div.toNat % mul.toNat : Nat) + A < 2 * mul.toNat))) ∧
    ∀ val n, n * div.toNat / mul.toNat + ((ztimerConvertMuldiv64Init div mul start).capped val).toNat ≤
      (n + ((ztimerConvertMuldiv64Init div mul start).convertMuldiv64Set
        ((ztimerConvertMuldiv64Init div mul start).capped val)).toNat) * div.toNat / mul.toNat := by
  have hinit := @Tracks.init div mul start hpos hlt hshort
  refine ⟨?_, fun val n => hinit.never_early (hinit.capped val) n⟩
  intro g gaps n A hgood hn hA
  obtain ⟨c, hrun, hticks, hmax, hread⟩ := hinit.runAll hgood
  have htime : c.checkpoint = BitVec.ofInt 32 (((n * div.toNat : Nat) + A) / mul.toNat) := by
    rw [@Read.time_eq div mul start c n hread (by rw [hticks, hn]; rfl), hA, ahead, ahead, hmax, Nat.cast_mul]
  refine ⟨c, hrun, htime, fun hlo hhi => ?_⟩
  rw [htime]
  exact near_iff (lt_trans hpos hlt) hlo hhi

/-- 1024 Hz to 1000 Hz, from the second tick of the lower clock over a wrap. -/
theorem converted_clock_near_millis :
    AllGood step Seen (ztimerConvertMuldiv64Init 125#32 128#32 1#32) [2147483648, 2147483648] ∧
    ∃ c, runAll step (ztimerConvertMuldiv64Init 125#32 128#32 1#32) [2147483648, 2147483648] = some c ∧
      Near c.checkpoint (BitVec.ofNat 32 (2 ^ 32 * 125 / 128)) := by
  have hgood : AllGood step Seen (ztimerConvertMuldiv64Init 125#32 128#32 1#32) [2147483648, 2147483648] := by
    decide
  obtain ⟨c, hrun, -, hnear⟩ :=
    (@converted_clock_near_iff 125#32 128#32 (by decide) (by decide) (by decide) 1#32).1 _ _ _ _ hgood rfl rfl
  exact ⟨hgood, c, hrun, (hnear (by decide) (by decide)).mpr (by decide)⟩

/-- Two ticks for three: read twice in each of seven periods of the lower clock, the time
is 3 ahead; with a lower clock that stood at 3000 it is 2000 ahead at once. -/
theorem converted_clock_drifts :
    (runAll step (ztimerConvertMuldiv64Init 2#32 3#32 0#32) (List.replicate 14 2147483648)).map
        (fun c => (c.ticks, c.checkpoint - BitVec.ofNat 32 (c.ticks * 2 / 3))) = some (7 * 2 ^ 32, 3#32) ∧
      (runAll step (ztimerConvertMuldiv64Init 2#32 3#32 3000#32) [0]).map (fun c => c.checkpoint) = some 2000#32 := by
  decide

end

end Converted

end PipRiot.Sys
