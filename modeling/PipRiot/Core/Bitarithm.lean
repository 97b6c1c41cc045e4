import Mathlib.Data.BitVec

/-!
# The bit cache of the run queues

One bit for each priority. With a count-leading-zeros instruction the highest
bit stands for priority 0, without it the lowest; the other end is never used.
-/

namespace PipRiot.Core

open BitVec

/-- The bodies `bitarithm_lsb` has, chosen by the preprocessor. -/
inductive Lsb
  | builtin
  | lookup
  | loop
  deriving DecidableEq, Repr

def multiplyDeBruijnBitPosition : List Nat :=
  [0, 1, 28, 2, 29, 14, 24, 3, 30, 22, 20, 15, 25, 17, 4, 8,
   31, 27, 13, 23, 21, 19, 16, 7, 26, 12, 18, 6, 11, 5, 10, 9]

def lsbLoop : Nat → BitVec 32 → Nat → Nat
  | 0, _, r => r
  | fuel + 1, v, r => if v &&& 1#32 = 0#32 then lsbLoop fuel (v >>> 1) (r + 1) else r

-- a word has 32 bits, so the loop over a word that is not 0 ends within 32 passes
def bitarithmLsb : Lsb → BitVec 32 → Nat
  | .builtin, v => v.ctz.toNat
  | .lookup, v => multiplyDeBruijnBitPosition.getD (((v &&& -v) * 0x077CB531#32) >>> 27).toNat 0
  | .loop, v => lsbLoop 32 v 0

def bitarithmMsb (v : BitVec 32) : Nat := 32 - v.clz.toNat - 1

theorem lowest_and_neg {w : Nat} {v : BitVec w} {k : Nat} (hk : v.getLsbD k = true)
    (hlow : ∀ j < k, v.getLsbD j = false) : v &&& -v = BitVec.twoPow w k := by
  apply eq_of_getLsbD_eq
  intro i hi
  rw [getLsbD_and, getLsbD_neg, getLsbD_twoPow]
  rcases Nat.lt_trichotomy i k with h | rfl | h
  · simp [hlow i h, h.ne']
  · have hno : ¬ ∃ j < i, v.getLsbD j = true := fun ⟨j, hj, e⟩ => by simp [hlow j hj] at e
    simp [hi, hk, hno]
  · have hex : ∃ j < i, v.getLsbD j = true := ⟨k, h, hk⟩
    simp [hex, hi, h.ne]

theorem lsbLoop_eq : ∀ (fuel : Nat) (v : BitVec 32) (k r : Nat), v.getLsbD k = true →
    (∀ j < k, v.getLsbD j = false) → k < fuel → lsbLoop fuel v r = r + k
  | 0, _, _, _, _, _, h => absurd h (Nat.not_lt_zero _)
  | fuel + 1, v, 0, r, hk, _, _ => by
    have hne : ¬ v &&& 1#32 = 0#32 := fun e => by
      have h0 : (v &&& 1#32).getLsbD 0 = false := by rw [e]; rfl
      rw [getLsbD_and, hk] at h0; cases h0
    rw [lsbLoop, if_neg hne, add_zero]
  | fuel + 1, v, k + 1, r, hk, hlow, h => by
    have he : v &&& 1#32 = 0#32 := by
      apply eq_of_getLsbD_eq
      intro i _
      cases i with
      | zero => rw [getLsbD_and, hlow 0 (Nat.succ_pos k)]; rfl
      | succ i => simp
    rw [lsbLoop, if_pos he, lsbLoop_eq fuel (v >>> 1) k (r + 1), add_assoc, add_comm 1 k]
    · rw [getLsbD_ushiftRight, add_comm, hk]
    · intro j hj
      rw [getLsbD_ushiftRight, add_comm]
      exact hlow (j + 1) (Nat.succ_lt_succ hj)
    · exact Nat.lt_of_succ_lt_succ h

theorem deBruijn_twoPow : ∀ k < 32,
    multiplyDeBruijnBitPosition.getD ((BitVec.twoPow 32 k * 0x077CB531#32) >>> 27).toNat 0 = k := by
  decide

theorem bitarithmLsb_spec (impl : Lsb) {v : BitVec 32} (hv : v ≠ 0#32) :
    v.getLsbD (bitarithmLsb impl v) = true ∧ ∀ j < bitarithmLsb impl v, v.getLsbD j = false := by
  have hk := getLsbD_true_ctz_of_ne_zero hv
  have hlow : ∀ j < v.ctz.toNat, v.getLsbD j = false := fun j hj => getLsbD_false_of_lt_ctz hj
  have hlt : v.ctz.toNat < 32 := lt_of_getLsbD hk
  have heq : bitarithmLsb impl v = v.ctz.toNat := by
    cases impl with
    | builtin => rfl
    | lookup => rw [bitarithmLsb, lowest_and_neg hk hlow, deBruijn_twoPow _ hlt]
    | loop => rw [bitarithmLsb, lsbLoop_eq 32 v _ 0 hk hlow hlt, zero_add]
  rw [heq]
  exact ⟨hk, hlow⟩

theorem bitarithmLsb_agree (i j : Lsb) {v : BitVec 32} (hv : v ≠ 0#32) : bitarithmLsb i v = bitarithmLsb j v := by
  obtain ⟨hi, hlow⟩ := bitarithmLsb_spec i hv
  obtain ⟨hj, hlow'⟩ := bitarithmLsb_spec j hv
  apply le_antisymm
  · refine not_lt.mp fun h => ?_
    cases hj.symm.trans (hlow _ h)
  · refine not_lt.mp fun h => ?_
    cases hi.symm.trans (hlow' _ h)

theorem bitarithmLsb_of_forty : bitarithmLsb .lookup 40#32 = bitarithmLsb .loop 40#32 :=
  bitarithmLsb_agree _ _ (by decide)

theorem bitarithmMsb_spec {v : BitVec 32} (hv : v ≠ 0#32) :
    v.getLsbD (bitarithmMsb v) = true ∧ ∀ j > bitarithmMsb v, v.getLsbD j = false := by
  have hk : v.getLsbD (32 - 1 - v.clz.toNat) = true := getLsbD_true_clz_of_ne_zero (Nat.succ_pos 31) hv
  have hlt : v.toNat < 2 ^ (32 - v.clz.toNat) := toNat_lt_two_pow_sub_clz
  have heq : bitarithmMsb v = 32 - 1 - v.clz.toNat := Nat.sub_right_comm 32 _ 1
  rw [heq]
  refine ⟨hk, fun j hj => Nat.testBit_lt_two_pow (lt_of_lt_of_le hlt ?_)⟩
  exact Nat.pow_le_pow_right (Nat.succ_pos 1) (by omega)

/-! ## Setting, clearing and finding bits -/

structure Config where
  levels : Nat
  levels_le : levels ≤ 32
  levels_pos : 0 < levels
  maxThreads : Nat
  hasClz : Bool
  lsb : Lsb
  idleThread : Bool

variable (cfg : Config)

def runqueueBit (priority : Nat) : BitVec 32 :=
  if cfg.hasClz then 0x80000000#32 >>> priority else 1#32 <<< priority

variable (bitcache : BitVec 32)

def setRunqueueBit (priority : Nat) : BitVec 32 :=
  bitcache ||| runqueueBit cfg priority

def clearRunqueueBit (priority : Nat) : BitVec 32 :=
  bitcache &&& ~~~ runqueueBit cfg priority

def getPrioQueueFromRunqueue : Nat :=
  if cfg.hasClz then 31 - bitarithmMsb bitcache else bitarithmLsb cfg.lsb bitcache

def bitIndex (priority : Nat) : Nat := if cfg.hasClz then 31 - priority else priority

def hasBit (priority : Nat) : Bool :=
  bitcache.getLsbD (bitIndex cfg priority)

section
variable {cfg : Config} {c : BitVec 32} {p q : Nat}

theorem hasBit_runqueueBit (cfg : Config) (hp : p < 32) (hq : q < 32) :
    hasBit cfg (runqueueBit cfg p) q = decide (q = p) := by
  unfold hasBit runqueueBit bitIndex
  cases cfg.hasClz with
  | true =>
    have htop : 0x80000000#32 = BitVec.twoPow 32 31 := rfl
    simp only [if_true, htop, getLsbD_ushiftRight, getLsbD_twoPow]
    rw [decide_eq_true (by omega : 31 < 32), Bool.true_and, decide_eq_decide]
    omega
  | false =>
    have hbit : 1#32 <<< p = BitVec.twoPow 32 p := rfl
    simp only [Bool.false_eq_true, if_false, hbit, getLsbD_twoPow]
    rw [decide_eq_true hp, Bool.true_and, decide_eq_decide]; exact eq_comm

theorem hasBit_set (hp : p < 32) (hq : q < 32) :
    hasBit cfg (setRunqueueBit cfg c p) q = (hasBit cfg c q || decide (q = p)) := by
  rw [← hasBit_runqueueBit cfg hp hq]
  exact getLsbD_or ..

theorem hasBit_clear (hp : p < 32) (hq : q < 32) :
    hasBit cfg (clearRunqueueBit cfg c p) q = (hasBit cfg c q && !decide (q = p)) := by
  have hi : bitIndex cfg q < 32 := by
    unfold bitIndex
    split <;> omega
  rw [← hasBit_runqueueBit cfg hp hq]
  simp only [hasBit, clearRunqueueBit, getLsbD_and, getLsbD_not, hi, decide_true, Bool.true_and]

theorem eq_zero_of_hasBit (cfg : Config) (h : ∀ p < 32, hasBit cfg c p = false) : c = 0#32 := by
  apply eq_of_getLsbD_eq
  intro i hi
  rw [getLsbD_zero]
  cases hclz : cfg.hasClz with
  | true =>
    have := h (31 - i) (by omega)
    rwa [hasBit, bitIndex, if_pos hclz, Nat.sub_sub_self (by omega)] at this
  | false =>
    have := h i hi
    rwa [hasBit, bitIndex, hclz] at this

theorem getPrio_spec (cfg : Config) (hc : c ≠ 0#32) : getPrioQueueFromRunqueue cfg c < 32 ∧
    hasBit cfg c (getPrioQueueFromRunqueue cfg c) = true ∧
    ∀ q < getPrioQueueFromRunqueue cfg c, hasBit cfg c q = false := by
  unfold getPrioQueueFromRunqueue hasBit bitIndex
  cases cfg.hasClz with
  | true =>
    obtain ⟨hset, hhigh⟩ := bitarithmMsb_spec hc
    have hlt : bitarithmMsb c < 32 := lt_of_getLsbD hset
    simp only [if_true]
    refine ⟨by omega, ?_, fun q hq => hhigh _ (by omega)⟩
    rw [Nat.sub_sub_self (by omega)]; exact hset
  | false =>
    obtain ⟨hset, hlow⟩ := bitarithmLsb_spec cfg.lsb hc
    exact ⟨lt_of_getLsbD hset, hset, hlow⟩

end

end PipRiot.Core
