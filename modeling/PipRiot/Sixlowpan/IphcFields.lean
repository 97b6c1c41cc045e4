import PipRiot.Sixlowpan.Iphc

/-!
# The fields of a compressed header

What each part of the encoder adds to the two dispatch bytes and to the bytes behind
them, and what the decoder makes of it.
-/

namespace PipRiot.Sixlowpan

open Ipv6 Reading Option

section
variable {m : Nat → UInt8} {p : Nat} {b x y : UInt8} {r : List UInt8} {v : VTcFl} {nh hl : UInt8}

@[simp] theorem orAt_zero : orAt (x :: r) 0 b = (x ||| b) :: r := rfl

@[simp] theorem orAt_one : orAt (x :: y :: r) 1 b = x :: (y ||| b) :: r := rfl

@[simp] theorem orAt_two : orAt (x :: y :: r) 2 b = x :: y :: r.modify 0 (· ||| b) := rfl

/-! ## Traffic class, next header and hop limit -/

def tfBits (v : VTcFl) : UInt8 :=
  if v.getFl = 0 then if v.getTc = 0 then 0x18 else 0x10 else if v.getTcDscp = 0 then 0x08 else 0x00

def tfBytes (v : VTcFl) : List UInt8 :=
  if v.getFl = 0 then if v.getTc = 0 then [] else [v.getTc]
  else if v.getTcDscp = 0 then [v.getTcEcn <<< 6 ||| (v.b1 &&& 0x0f), v.b2, v.b3]
  else [v.getTc, v.b1 &&& 0x0f, v.b2, v.b3]

theorem encodeTf_cons : encodeTf v (x :: r) = (x ||| tfBits v) :: (r ++ tfBytes v) := by
  obtain ⟨h1, h2, h3⟩ := v.getFl_parts
  unfold encodeTf tfBits tfBytes
  rw [h1, h2, h3]
  split
  · split <;> simp
  · split <;> simp

def nhBits (nh : UInt8) : UInt8 := if compressibleNh nh then 0x04 else 0

def nhBytes (nh : UInt8) : List UInt8 := if compressibleNh nh then [] else [nh]

theorem encodeNh_cons : encodeNh nh (x :: r) = (x ||| nhBits nh) :: (r ++ nhBytes nh) := by
  unfold encodeNh nhBits nhBytes
  split <;> simp

def hlBits (hl : UInt8) : UInt8 := if hl = 1 then 0x01 else if hl = 64 then 0x02 else if hl = 255 then 0x03 else 0x00

def hlBytes (hl : UInt8) : List UInt8 := if hl = 1 ∨ hl = 64 ∨ hl = 255 then [] else [hl]

theorem encodeHl_cons : encodeHl hl (x :: r) = (x ||| hlBits hl) :: (r ++ hlBytes hl) := by
  unfold encodeHl hlBits hlBytes
  split <;> simp_all

def dispatch0 (h : Hdr) : UInt8 := 0x60 ||| tfBits h.vTcFl ||| nhBits h.nh ||| hlBits h.hl

theorem dispatch0_fields : ∀ t ∈ [0x00, 0x08, 0x10, 0x18], ∀ n ∈ [0, 0x04], ∀ l ∈ [0x00, 0x01, 0x02, 0x03],
    (0x60 ||| t ||| n ||| l) &&& 0x18 = t ∧ (0x60 ||| t ||| n ||| l) &&& 0x04 = n ∧
    (0x60 ||| t ||| n ||| l : UInt8) &&& 0x03 = l := by
  decide +kernel

theorem dispatch0_masks (h : Hdr) : dispatch0 h &&& 0x18 = tfBits h.vTcFl ∧ dispatch0 h &&& 0x04 = nhBits h.nh ∧
    dispatch0 h &&& 0x03 = hlBits h.hl := by
  apply dispatch0_fields
  · unfold tfBits
    split <;> split <;> simp
  · unfold nhBits
    split <;> simp
  · unfold hlBits
    split
    · simp
    · split
      · simp
      · split <;> simp

theorem ecn_parts {e f : UInt8} (he : e &&& 0x03 = e) (hf : f &&& 0x0f = f) :
    (e <<< 6 ||| f) >>> 6 = e ∧ (e <<< 6 ||| f) &&& 0x0f = f := by
  constructor
  · rw [← he, ← hf]
    apply VTcFl.eq_of_bits
    intro i hi
    interval_cases i <;> simp
  · rw [← hf]
    apply VTcFl.eq_of_bits
    intro i hi
    interval_cases i <;> simp

theorem getTcEcn_and (v : VTcFl) : v.getTcEcn &&& 0x03 = v.getTcEcn := by
  apply VTcFl.eq_of_bits
  intro i hi
  simp only [VTcFl.getTcEcn]
  interval_cases i <;> simp

theorem and_twice (b c : UInt8) : b &&& c &&& c = b &&& c := by rw [UInt8.and_assoc, UInt8.and_self]

theorem decodeTf_value (hb : b &&& 0x18 = tfBits v) (h : Holds m p (tfBytes v)) :
    ∃ w : VTcFl, (decodeTf b p).value m = some (w, p + (tfBytes v).length) ∧ w.getTc = v.getTc ∧ w.getFl = v.getFl := by
  unfold decodeTf
  rw [hb]
  unfold tfBits tfBytes at *
  by_cases hfl : v.getFl = 0
  · simp only [hfl, if_true] at h ⊢
    by_cases htc : v.getTc = 0
    · simp only [htc, if_true]
      refine ⟨_, rfl, ?_, VTcFl.getFl_setFl_zero _⟩
      rw [VTcFl.getTc_setFl, VTcFl.getTc_setTc]
    · simp only [htc, if_false] at h ⊢
      have hm : m p = v.getTc := by simpa using h
      refine ⟨_, rfl, ?_, VTcFl.getFl_setFl_zero _⟩
      rw [VTcFl.getTc_setFl, VTcFl.getTc_setTc, hm]
  · simp only [hfl, if_false] at h ⊢
    by_cases hd : v.getTcDscp = 0
    · simp only [hd, if_true, holds_cons, holds_nil, and_true] at h ⊢
      obtain ⟨h1, h2, h3⟩ := h
      obtain ⟨hecn, hlow⟩ := ecn_parts (getTcEcn_and v) (and_twice v.b1 0x0f)
      refine ⟨_, rfl, ?_, ?_⟩
      · rw [VTcFl.getTc_orFl, VTcFl.getTc_setTcEcn, h1, hecn, VTcFl.getTc_of_dscp hd]
      · rw [VTcFl.getFl_orFl (VTcFl.noFl_setTcEcn _), h1, hlow, h2, h3]; rfl
    · simp only [hd, if_false, holds_cons, holds_nil, and_true] at h ⊢
      obtain ⟨h0, h1, h2, h3⟩ := h
      refine ⟨_, rfl, ?_, ?_⟩
      · rw [VTcFl.getTc_orFl, VTcFl.getTc_setTc, h0]
      · rw [VTcFl.getFl_orFl (VTcFl.noFl_setTc _), h1, h2, h3, and_twice]; rfl

theorem decodeNh_value (hb : b &&& 0x04 = nhBits nh) (h : Holds m p (nhBytes nh)) :
    (decodeNh b p).value m = some (if compressibleNh nh then 0 else nh, p + (nhBytes nh).length) := by
  unfold decodeNh
  unfold nhBits nhBytes at *
  split
  · split <;> simp_all
  · split <;> simp_all

theorem decodeHl_value (hb : b &&& 0x03 = hlBits hl) (h : Holds m p (hlBytes hl)) :
    (decodeHl b p).value m = some (hl, p + (hlBytes hl).length) := by
  unfold decodeHl
  rw [hb]
  unfold hlBits hlBytes at *
  by_cases h1 : hl = 1
  · subst h1; rfl
  · by_cases h2 : hl = 64
    · subst h2; rfl
    · by_cases h3 : hl = 255
      · subst h3; rfl
      · simp_all

end

/-! ## Addresses -/

section
variable {m : Nat → UInt8} {p : Nat} {addr : Addr} {iid : Option (Vector UInt8 8)} {ctx : Option Ctx} {mode : AddrMode}

def AddrMode.bits : AddrMode → UInt8
  | .full => 0
  | .iid64 => 1
  | .iid16 => 2
  | .l2 => 3
  | .ctx64 => 5
  | .ctx16 => 6
  | .ctxL2 => 7

def AddrMode.carried (addr : Addr) : AddrMode → List UInt8
  | .full => addr.slice 0 16
  | .iid64 | .ctx64 => addr.slice 8 8
  | .iid16 | .ctx16 => addr.slice 14 2
  | .l2 | .ctxL2 => []

def lowHalf (addr : Addr) : Addr := Addr.ofBytes fun k => if k < 8 then 0 else addr.u8 k

def AddrMode.restored (ctx : Option Ctx) (addr : Addr) : AddrMode → Addr
  | .full => addr
  | .iid64 | .iid16 | .l2 => (lowHalf addr).setLinkLocalPrefix
  | .ctx64 | .ctx16 | .ctxL2 =>
    match ctx with
    | some c => (lowHalf addr).initPrefix c.pre c.prefixLen
    | none => addr

inductive Chosen (iid : Option (Vector UInt8 8)) (ctx : Option Ctx) (addr : Addr) : AddrMode → Prop
  | full : Chosen iid ctx addr .full
  | iid64 : ctx = none → addr.isLinkLocal → Chosen iid ctx addr .iid64
  | iid16 : ctx = none → addr.isLinkLocal → addr.slice 8 6 = shortIid → Chosen iid ctx addr .iid16
  | l2 {i : Vector UInt8 8} : ctx = none → addr.isLinkLocal → iid = some i → addr.slice 8 8 = i.toList →
      Chosen iid ctx addr .l2
  | ctx64 {c : Ctx} : ctx = some c → Chosen iid ctx addr .ctx64
  | ctx16 {c : Ctx} : ctx = some c → addr.slice 8 6 = shortIid → Chosen iid ctx addr .ctx16
  | ctxL2 {c : Ctx} {i : Vector UInt8 8} : ctx = some c → iid = some i → addr.slice 8 8 = i.toList →
      Chosen iid ctx addr .ctxL2

theorem write_slice {a : Addr} {i n : Nat} {k : Nat} (hk : k < 16) :
    (a.write i (addr.slice i n)).u8 k = if i ≤ k ∧ k < i + n then addr.u8 k else a.u8 k := by
  simp only [Addr.write, Addr.u8_ofBytes hk, Addr.length_slice]
  split
  · rename_i h
    rw [Addr.getD_slice (by omega), Nat.add_sub_cancel' h.1]
  · rfl

theorem write_low (addr : Addr) : Addr.zero.write 8 (addr.slice 8 8) = lowHalf addr := by
  apply Addr.ext
  intro k hk
  rw [write_slice hk, lowHalf, Addr.u8_ofBytes hk]
  by_cases h : k < 8
  · simp [h, not_le.mpr h, hk]
  · simp [h, not_lt.mp h, hk]

theorem write_short (h : addr.slice 8 6 = shortIid) (a : Addr) :
    (a.write 8 shortIid).write 14 (addr.slice 14 2) = a.write 8 (addr.slice 8 8) := by
  apply Addr.ext
  intro k hk
  rw [write_slice hk, write_slice hk, ← h, write_slice hk]
  by_cases h1 : 14 ≤ k
  · rw [if_pos ⟨h1, by omega⟩, if_pos ⟨by omega, by omega⟩]
  · rw [if_neg (by omega)]
    by_cases h2 : 8 ≤ k
    · rw [if_pos ⟨h2, by omega⟩, if_pos ⟨h2, by omega⟩]
    · rw [if_neg (by omega), if_neg (by omega)]

theorem setLinkLocalPrefix_write (l : List UInt8) :
    Addr.zero.setLinkLocalPrefix.write 8 l = (Addr.zero.write 8 l).setLinkLocalPrefix := by
  apply Addr.ext
  intro k hk
  simp only [Addr.setLinkLocalPrefix, Addr.write, Addr.u8_ofBytes hk, Addr.linkLocalPrefix, List.length_cons,
    List.length_nil]
  by_cases h : k < 8
  · simp [h, not_le.mpr h]
  · simp [h]

theorem write_full (addr : Addr) : Addr.zero.write 0 (addr.slice 0 16) = addr := by
  apply Addr.ext
  intro k hk
  rw [write_slice hk, if_pos ⟨Nat.zero_le k, by omega⟩]

theorem decodeAddr_value (hc : Chosen iid ctx addr mode) (h : Holds m p (mode.carried addr)) :
    (decodeAddr iid ctx p mode).value m = some (mode.restored ctx addr, p + (mode.carried addr).length) := by
  cases hc with
  | full =>
    have hv := h.value_bytes (Addr.length_slice addr 0 16)
    simp only [decodeAddr, value_bind, hv, bind_some, AddrMode.carried, write_full]
    simp [AddrMode.restored]
  | iid64 _ _ =>
    have hv := h.value_bytes (Addr.length_slice addr 8 8)
    simp only [decodeAddr, value_bind, hv, bind_some, setLinkLocalPrefix_write, AddrMode.carried, write_low]
    simp [AddrMode.restored]
  | iid16 _ _ hs =>
    have hv := h.value_bytes (Addr.length_slice addr 14 2)
    simp only [decodeAddr, value_bind, hv, bind_some, AddrMode.carried]
    rw [write_short hs, setLinkLocalPrefix_write, write_low]
    simp [AddrMode.restored]
  | l2 _ _ hi hs =>
    subst hi
    simp only [decodeAddr, ← hs, write_low]
    simp [AddrMode.restored, AddrMode.carried]
  | ctx64 hc =>
    subst hc
    have hv := h.value_bytes (Addr.length_slice addr 8 8)
    simp only [decodeAddr, value_bind, hv, bind_some, AddrMode.carried, write_low]
    simp [AddrMode.restored]
  | ctx16 hc hs =>
    subst hc
    have hv := h.value_bytes (Addr.length_slice addr 14 2)
    simp only [decodeAddr, value_bind, hv, bind_some, AddrMode.carried, write_short hs, write_low]
    simp [AddrMode.restored]
  | ctxL2 hc hi hs =>
    subst hc
    subst hi
    simp only [decodeAddr, ← hs, write_low]
    simp [AddrMode.restored, AddrMode.carried]

/-! ## What a prefix determines -/

theorem bit_lowHalf {k : Nat} (hk : k < 128) : (lowHalf addr).bit k = if k < 64 then false else addr.bit k := by
  have hbyte : k / 8 < 16 := by omega
  simp only [Addr.bit, lowHalf, Addr.u8_ofBytes hbyte]
  by_cases h : k < 64
  · rw [if_pos h, if_pos (by omega)]; simp
  · rw [if_neg h, if_neg (by omega)]

def LostBits (c : Ctx) (addr : Addr) : Prop := ∃ k, c.prefixLen ≤ k ∧ k < 64 ∧ addr.bit k = true

theorem restored_ctx_iff {c : Ctx} (hmatch : c.prefixLen ≤ c.pre.matchPrefix addr) :
    (lowHalf addr).initPrefix c.pre c.prefixLen = addr ↔ ¬ LostBits c addr := by
  constructor
  · rintro heq ⟨k, hle, hlt, hbit⟩
    have hk : ((lowHalf addr).initPrefix c.pre c.prefixLen).bit k = addr.bit k := by rw [heq]
    rw [Addr.bit_initPrefix (by omega), if_neg (by omega), bit_lowHalf (by omega), if_pos hlt, hbit] at hk
    cases hk
  · intro hlost
    apply Addr.eq_of_bits
    intro k hk
    rw [Addr.bit_initPrefix hk]
    by_cases hp : k < c.prefixLen
    · rw [if_pos hp]; exact Addr.bit_matchPrefix (by omega)
    · rw [if_neg hp, bit_lowHalf hk]
      by_cases hlow : k < 64
      · rw [if_pos hlow]
        cases hbit : addr.bit k with
        | false => rfl
        | true => exact absurd ⟨k, by omega, hlow, hbit⟩ hlost
      · rw [if_neg hlow]

theorem restored_linkLocal_iff (h : addr.isLinkLocal) :
    (lowHalf addr).setLinkLocalPrefix = addr ↔ ¬ addr.isMulticast := by
  have hbyte : ∀ k < 16, (lowHalf addr).setLinkLocalPrefix.u8 k = if k < 8 then Addr.linkLocalPrefix.getD k 0
      else addr.u8 k := by
    intro k hk
    simp only [Addr.setLinkLocalPrefix, Addr.write, Addr.u8_ofBytes hk, lowHalf]
    by_cases hlow : k < 8
    · rw [if_pos ⟨Nat.zero_le k, by simpa [Addr.linkLocalPrefix] using hlow⟩, if_pos hlow, Nat.sub_zero]
    · rw [if_neg fun hand => hlow (by simpa [Addr.linkLocalPrefix] using hand.2), if_neg hlow, if_neg hlow]
  constructor
  · intro heq hmc
    have h0 := hbyte 0 (by decide)
    rw [heq] at h0
    simp only [Addr.isMulticast, decide_eq_true_eq] at hmc
    rw [hmc] at h0; exact absurd h0 (by decide)
  · intro hmc
    simp only [Addr.isLinkLocal, decide_eq_true_eq] at h
    have hpre : addr.slice 0 8 = Addr.linkLocalPrefix := h.resolve_right fun hand => hmc hand.1
    apply Addr.ext
    intro k hk
    rw [hbyte k hk]
    by_cases hlow : k < 8
    · rw [if_pos hlow, ← hpre, Addr.getD_slice hlow, zero_add]
    · rw [if_neg hlow]

end

end PipRiot.Sixlowpan
