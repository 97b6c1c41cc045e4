import Mathlib.Data.Nat.SuccPred
import PipRiot.Sixlowpan.Iphc

/-!
# How far a compressed header reaches

The widths of the fields follow from the two dispatch bytes. Where the decoder stops and
how far it reads are told by them and by whether contexts and identifiers are known.
-/

namespace PipRiot.Sixlowpan

open Ipv6 Reading Option

def Field (n p w : Nat) : Prop := w = 0 ∨ p + w ≤ n

def tfWidth (b0 : UInt8) : Nat :=
  match b0 &&& 0x18 with
  | 0x00 => 4
  | 0x08 => 3
  | 0x10 => 1
  | _ => 0

def nhWidth (b0 : UInt8) : Nat := if b0 &&& 0x04 = 0 then 1 else 0

def hlWidth (b0 : UInt8) : Nat := if b0 &&& 0x03 = 0 then 1 else 0

def AddrMode.width : AddrMode → Nat
  | .full => 16
  | .iid64 => 8
  | .iid16 => 2
  | .l2 => 0
  | .ctx64 => 8
  | .ctx16 => 2
  | .ctxL2 => 0

def srcWidth (b1 : UInt8) : Nat :=
  match b1 &&& 0x70 with
  | 0x00 => 16
  | 0x10 => 8
  | 0x20 => 2
  | 0x50 => 8
  | 0x60 => 2
  | _ => 0

def dstWidth (b1 : UInt8) : Nat :=
  match b1 &&& 0x0f with
  | 0x00 => 16
  | 0x08 => 16
  | 0x01 => 8
  | 0x02 => 2
  | 0x05 => 8
  | 0x06 => 2
  | 0x09 => 6
  | 0x0a => 4
  | 0x0b => 1
  | 0x0c => 6
  | _ => 0

section
variable {m : Nat → UInt8} {n p : Nat} {b0 b1 : UInt8}

theorem value_decodeTf (b0 : UInt8) (p : Nat) : ∃ v, (decodeTf b0 p).value m = some (v, p + tfWidth b0) := by
  unfold decodeTf tfWidth
  split <;> simp_all

theorem within_decodeTf : Within m n (decodeTf b0 p) ↔ Field n p (tfWidth b0) := by
  unfold decodeTf tfWidth Field
  split <;> simp_all <;> omega

theorem value_decodeNh (b0 : UInt8) (p : Nat) :
    (decodeNh b0 p).value m = some (if b0 &&& 0x04 = 0 then m p else 0, p + nhWidth b0) := by
  unfold decodeNh nhWidth
  split <;> simp

theorem within_decodeNh : Within m n (decodeNh b0 p) ↔ Field n p (nhWidth b0) := by
  unfold decodeNh nhWidth Field
  split <;> simp

theorem value_decodeHl (b0 : UInt8) (p : Nat) : ∃ v, (decodeHl b0 p).value m = some (v, p + hlWidth b0) := by
  unfold decodeHl hlWidth
  split <;> simp_all

theorem within_decodeHl : Within m n (decodeHl b0 p) ↔ Field n p (hlWidth b0) := by
  unfold decodeHl hlWidth Field
  split <;> simp_all

theorem forall_byte {P : UInt8 → Prop} (h : ∀ k < 256, P (UInt8.ofNat k)) (b : UInt8) : P b := by
  have hb := h b.toNat b.toNat_lt
  rwa [UInt8.ofNat_toNat] at hb

theorem and_and_mask {b c d : UInt8} (hd : c &&& d = d) : b &&& d = b &&& c &&& d := by rw [UInt8.and_assoc, hd]

def cidNibble (m : Nat → UInt8) (base : Nat) (nibble : UInt8 → UInt8) : UInt8 :=
  if m (base + 1) &&& 0x80 = 0 then 0 else nibble (m (base + 2))

theorem value_decodeCid (nibble : UInt8 → UInt8) (base : Nat) :
    (decodeCid base (m (base + 1)) nibble).value m = some (cidNibble m base nibble) := by
  unfold decodeCid cidNibble
  split <;> simp

theorem within_decodeCid {nibble : UInt8 → UInt8} {base : Nat} :
    Within m n (decodeCid base b1 nibble) ↔ (b1 &&& 0x80 ≠ 0 → base + 2 < n) := by
  unfold decodeCid
  split <;> simp_all

variable {link : Link} {ctx : Option Ctx} {base : Nat}

def SrcFound (link : Link) (m : Nat → UInt8) (base : Nat) : Prop :=
  m (base + 1) &&& 0x40 ≠ 0 → m (base + 1) &&& 0x30 ≠ 0 → (link.lookupId (cidNibble m base (· >>> 4)).toNat).isSome

def SrcDerived (link : Link) (b1 : UInt8) : Prop := b1 &&& 0x30 = 0x30 → (link.iid link.src).isSome

def DstFound (link : Link) (m : Nat → UInt8) (base : Nat) : Prop :=
  m (base + 1) &&& 0x04 ≠ 0 → m (base + 1) &&& 0x0b ≠ 0 → (link.lookupId (cidNibble m base (· &&& 0x0f)).toNat).isSome

def DstDerived (link : Link) (b1 : UInt8) : Prop := b1 &&& 0x0b = 0x03 → (link.iid link.dst).isSome

theorem value_decodeCtx (nibble : UInt8 → UInt8) (needed : Bool) :
    (needed = true → (link.lookupId (cidNibble m base nibble).toNat).isSome) ∧
        (∃ c, (decodeCtx link base (m (base + 1)) nibble needed ctx).value m = some c ∧ (needed = true → c.isSome)) ∨
      (¬ (needed = true → (link.lookupId (cidNibble m base nibble).toNat).isSome) ∧
        (decodeCtx link base (m (base + 1)) nibble needed ctx).value m = none) := by
  rw [decodeCtx, value_bind, value_decodeCid, bind_some]
  cases needed with
  | false => simp
  | true => cases link.lookupId (cidNibble m base nibble).toNat <;> simp

theorem within_decodeCtx {nibble : UInt8 → UInt8} {needed : Bool} :
    Within m n (decodeCtx link base b1 nibble needed ctx) ↔ (b1 &&& 0x80 ≠ 0 → base + 2 < n) := by
  rw [decodeCtx, within_bind, within_decodeCid]
  refine and_iff_left fun cid _ => ?_
  split
  · split <;> simp
  · simp

theorem value_decodeSrcCtx : SrcFound link m base ∧ (∃ c, (decodeSrcCtx link base (m (base + 1))).value m = some c ∧
      (m (base + 1) &&& 0x40 ≠ 0 → m (base + 1) &&& 0x30 ≠ 0 → c.isSome)) ∨
    ¬ SrcFound link m base ∧ (decodeSrcCtx link base (m (base + 1))).value m = none := by
  unfold decodeSrcCtx SrcFound
  split
  · simp_all
  · rename_i h40
    have h := @value_decodeCtx m link none base (· >>> 4) (m (base + 1) &&& 0x30 ≠ 0)
    simpa [h40] using h

theorem value_decodeDstCtx : DstFound link m base ∧ (∃ c, (decodeDstCtx link base (m (base + 1)) ctx).value m = some c ∧
      (m (base + 1) &&& 0x04 ≠ 0 → m (base + 1) &&& 0x0b ≠ 0 → c.isSome)) ∨
    ¬ DstFound link m base ∧ (decodeDstCtx link base (m (base + 1)) ctx).value m = none := by
  unfold decodeDstCtx DstFound
  split
  · simp_all
  · rename_i h04
    have h := @value_decodeCtx m link ctx base (· &&& 0x0f) (m (base + 1) &&& 0x0b ≠ 0)
    simpa [h04] using h

theorem within_decodeSrcCtx :
    Within m n (decodeSrcCtx link base b1) ↔ (b1 &&& 0x40 ≠ 0 → b1 &&& 0x80 ≠ 0 → base + 2 < n) := by
  unfold decodeSrcCtx
  split
  · simp_all
  · simp_all [within_decodeCtx]

theorem within_decodeDstCtx :
    Within m n (decodeDstCtx link base b1 ctx) ↔ (b1 &&& 0x04 ≠ 0 → b1 &&& 0x80 ≠ 0 → base + 2 < n) := by
  unfold decodeDstCtx
  split
  · simp_all
  · simp_all [within_decodeCtx]

def AddrMode.Known (iid : Option (Vector UInt8 8)) (ctx : Option Ctx) : AddrMode → Prop
  | .full | .iid64 | .iid16 => True
  | .l2 => iid.isSome
  | .ctx64 | .ctx16 => ctx.isSome
  | .ctxL2 => ctx.isSome ∧ iid.isSome

variable {iid : Option (Vector UInt8 8)} {mode : AddrMode}

theorem value_decodeAddr : mode.Known iid ctx ∧ (∃ a, (decodeAddr iid ctx p mode).value m = some (a, p + mode.width)) ∨
    ¬ mode.Known iid ctx ∧ (decodeAddr iid ctx p mode).value m = none := by
  cases mode <;> cases iid <;> cases ctx <;> simp [decodeAddr, AddrMode.Known, AddrMode.width]

theorem within_decodeAddr (h : mode.Known iid ctx ∨ mode.width = 0) :
    Within m n (decodeAddr iid ctx p mode) ↔ Field n p mode.width := by
  cases mode <;> cases iid <;> cases ctx <;> simp_all [decodeAddr, AddrMode.Known, AddrMode.width, Field]

theorem src_modes : ∀ b : UInt8, b &&& 0x70 ∈ [0x00, 0x10, 0x20, 0x30, 0x40, 0x50, 0x60, 0x70] :=
  forall_byte (by decide +kernel)

theorem dst_modes : ∀ b : UInt8, b &&& 0x0f ∈ (List.range 16).map UInt8.ofNat := forall_byte (by decide +kernel)

section
variable (hctx : b1 &&& 0x40 ≠ 0 → b1 &&& 0x30 ≠ 0 → ctx.isSome)
include hctx

theorem value_decodeSrc :
    SrcDerived link b1 ∧ (∃ a, (decodeSrc link b1 ctx p).value m = some (a, p + srcWidth b1)) ∨
      ¬ SrcDerived link b1 ∧ (decodeSrc link b1 ctx p).value m = none := by
  have hv := src_modes b1
  rw [@and_and_mask b1 0x70 0x40 rfl, @and_and_mask b1 0x70 0x30 rfl] at hctx
  rw [SrcDerived, @and_and_mask b1 0x70 0x30 rfl, decodeSrc, srcWidth]
  have key := fun mode => @value_decodeAddr m p ctx (link.iid link.src) mode
  simp only [List.mem_cons, List.not_mem_nil, or_false] at hv
  rcases hv with h | h | h | h | h | h | h | h <;> rw [h] at hctx ⊢
  · simpa +decide [AddrMode.Known, AddrMode.width] using key .full
  · simpa +decide [AddrMode.Known, AddrMode.width] using key .iid64
  · simpa +decide [AddrMode.Known, AddrMode.width] using key .iid16
  · simpa +decide [AddrMode.Known, AddrMode.width] using key .l2
  · simp +decide
  · have hc := hctx (by decide) (by decide)
    simpa +decide [AddrMode.Known, AddrMode.width, hc] using key .ctx64
  · have hc := hctx (by decide) (by decide)
    simpa +decide [AddrMode.Known, AddrMode.width, hc] using key .ctx16
  · have hc := hctx (by decide) (by decide)
    simpa +decide [AddrMode.Known, AddrMode.width, hc] using key .ctxL2

theorem within_decodeSrc : Within m n (decodeSrc link b1 ctx p) ↔ Field n p (srcWidth b1) := by
  have hv := src_modes b1
  rw [@and_and_mask b1 0x70 0x40 rfl, @and_and_mask b1 0x70 0x30 rfl] at hctx
  rw [decodeSrc, srcWidth]
  simp only [List.mem_cons, List.not_mem_nil, or_false] at hv
  rcases hv with h | h | h | h | h | h | h | h <;> rw [h] at hctx ⊢
  · exact within_decodeAddr (.inl trivial)
  · exact within_decodeAddr (.inl trivial)
  · exact within_decodeAddr (.inl trivial)
  · exact within_decodeAddr (.inr rfl)
  · simp [Field]
  · exact within_decodeAddr (.inl (hctx (by decide) (by decide)))
  · exact within_decodeAddr (.inl (hctx (by decide) (by decide)))
  · exact within_decodeAddr (.inr rfl)

end

def dstReach (b1 : UInt8) : Nat := if b1 &&& 0x0f = 0x0c then 8 else dstWidth b1

theorem value_decodeUcPrefix (hctx : ctx.isSome) : ∃ a, (decodeUcPrefix ctx p).value m = some (a, p + 6) := by
  obtain ⟨c, rfl⟩ := isSome_iff_exists.1 hctx
  simp [decodeUcPrefix]

theorem within_decodeUcPrefix (hctx : ctx.isSome) : Within m n (decodeUcPrefix ctx p) ↔ p + 8 ≤ n := by
  obtain ⟨c, rfl⟩ := isSome_iff_exists.1 hctx
  simp [decodeUcPrefix]
  omega

section
variable (hctx : b1 &&& 0x04 ≠ 0 → b1 &&& 0x0b ≠ 0 → ctx.isSome)
include hctx

theorem value_decodeDst :
    DstDerived link b1 ∧ (∃ a, (decodeDst link b1 ctx p).value m = some (a, p + dstWidth b1)) ∨
      ¬ DstDerived link b1 ∧ (decodeDst link b1 ctx p).value m = none := by
  have hv := dst_modes b1
  rw [@and_and_mask b1 0x0f 0x04 rfl, @and_and_mask b1 0x0f 0x0b rfl] at hctx
  rw [DstDerived, @and_and_mask b1 0x0f 0x0b rfl, decodeDst, dstWidth]
  have key := fun mode => @value_decodeAddr m p ctx (link.iid link.dst) mode
  simp only [List.mem_map, List.mem_range] at hv
  obtain ⟨k, hk, h⟩ := hv
  rw [← h] at hctx ⊢
  match k, hk with
  | 0, _ => simpa +decide [AddrMode.Known, AddrMode.width] using key .full
  | 1, _ => simpa +decide [AddrMode.Known, AddrMode.width] using key .iid64
  | 2, _ => simpa +decide [AddrMode.Known, AddrMode.width] using key .iid16
  | 3, _ => simpa +decide [AddrMode.Known, AddrMode.width] using key .l2
  | 5, _ =>
    have hc := hctx (by decide) (by decide)
    simpa +decide [AddrMode.Known, AddrMode.width, hc] using key .ctx64
  | 6, _ =>
    have hc := hctx (by decide) (by decide)
    simpa +decide [AddrMode.Known, AddrMode.width, hc] using key .ctx16
  | 7, _ =>
    have hc := hctx (by decide) (by decide)
    simpa +decide [AddrMode.Known, AddrMode.width, hc] using key .ctxL2
  | 8, _ => simpa +decide [AddrMode.Known, AddrMode.width] using key .full
  | 12, _ => exact .inl ⟨fun hd => absurd hd (by decide), value_decodeUcPrefix (hctx (by decide) (by decide))⟩
  | 4, _ | 9, _ | 10, _ | 11, _ | 13, _ | 14, _ | 15, _ => exact .inl ⟨fun hd => absurd hd (by decide), by simp⟩
  | k + 16, hk => omega

theorem within_decodeDst : Within m n (decodeDst link b1 ctx p) ↔ Field n p (dstReach b1) := by
  have hv := dst_modes b1
  rw [@and_and_mask b1 0x0f 0x04 rfl, @and_and_mask b1 0x0f 0x0b rfl] at hctx
  rw [decodeDst, dstReach, dstWidth]
  simp only [List.mem_map, List.mem_range] at hv
  obtain ⟨k, hk, h⟩ := hv
  rw [← h] at hctx ⊢
  match k, hk with
  | 0, _ | 1, _ | 2, _ | 8, _ => exact within_decodeAddr (.inl trivial)
  | 3, _ | 7, _ => exact within_decodeAddr (.inr rfl)
  | 5, _ | 6, _ => exact within_decodeAddr (.inl (hctx (by decide) (by decide)))
  | 12, _ =>
    refine (within_decodeUcPrefix (hctx (by decide) (by decide))).trans ?_
    simp +decide [Field]
  | 4, _ | 11, _ | 13, _ | 14, _ | 15, _ => simp +decide [Field]
  | 9, _ | 10, _ =>
    simp +decide [Field]; omega
  | k + 16, hk => omega

end

/-! ## The header -/

def fieldsAt (m : Nat → UInt8) (base : Nat) : Nat := base + if m (base + 1) &&& 0x80 = 0 then 2 else 3

def middleWidth (b0 : UInt8) : Nat := tfWidth b0 + nhWidth b0 + hlWidth b0

structure Ipv6Known (link : Link) (m : Nat → UInt8) (base : Nat) : Prop where
  srcFound : SrcFound link m base
  srcDerived : SrcDerived link (m (base + 1))
  dstFound : DstFound link m base
  dstDerived : DstDerived link (m (base + 1))

def ipv6End (m : Nat → UInt8) (base : Nat) : Nat :=
  fieldsAt m base + middleWidth (m base) + srcWidth (m (base + 1)) + dstWidth (m (base + 1))

theorem value_ipv6Decode : Ipv6Known link m base ∧ (∃ h, (ipv6Decode link base).value m = some (h, ipv6End m base) ∧
      h.nh = if m base &&& 0x04 = 0 then m (fieldsAt m base + tfWidth (m base)) else 0) ∨
    ¬ Ipv6Known link m base ∧ (ipv6Decode link base).value m = none := by
  simp only [ipv6Decode, value_bind, value_byte, bind_some]
  rw [← fieldsAt, ipv6End, middleWidth]
  obtain ⟨v, hv⟩ := @value_decodeTf m (m base) (fieldsAt m base)
  simp only [hv, bind_some, value_decodeNh]
  obtain ⟨hl, hhl⟩ := @value_decodeHl m (m base) (fieldsAt m base + tfWidth (m base) + nhWidth (m base))
  simp only [hhl, bind_some, ← add_assoc]
  generalize fieldsAt m base + tfWidth (m base) + nhWidth (m base) + hlWidth (m base) = p
  obtain ⟨hsf, c, hc, hcs⟩ | ⟨hsf, hc⟩ := @value_decodeSrcCtx m link base
  · obtain ⟨hsd, a, ha⟩ | ⟨hsd, ha⟩ := @value_decodeSrc m p (m (base + 1)) link c hcs
    · obtain ⟨hdf, c', hc', hcs'⟩ | ⟨hdf, hc'⟩ := @value_decodeDstCtx m link c base
      · obtain ⟨hdd, a', ha'⟩ | ⟨hdd, ha'⟩ :=
          @value_decodeDst m (p + srcWidth (m (base + 1))) (m (base + 1)) link c' hcs'
        · refine .inl ⟨⟨hsf, hsd, hdf, hdd⟩,
            ⟨v, 0, if m base &&& 0x04 = 0 then m (fieldsAt m base + tfWidth (m base)) else 0, hl, a, a'⟩, ?_, rfl⟩
          simp only [hc, ha, hc', ha', bind_some, value_pure]
        · refine .inr ⟨fun h => hdd h.dstDerived, ?_⟩
          simp only [hc, ha, hc', ha', bind_some, bind_none]
      · refine .inr ⟨fun h => hdf h.dstFound, ?_⟩
        simp only [hc, ha, hc', bind_some, bind_none]
    · refine .inr ⟨fun h => hsd h.srcDerived, ?_⟩
      simp only [hc, ha, bind_some, bind_none]
  · refine .inr ⟨fun h => hsf h.srcFound, ?_⟩
    simp only [hc, bind_none]

structure Ipv6Inside (link : Link) (m : Nat → UInt8) (n base : Nat) : Prop where
  dispatch : base + 1 < n
  middle : Field n (fieldsAt m base) (middleWidth (m base))
  srcCid : m (base + 1) &&& 0x40 ≠ 0 → m (base + 1) &&& 0x80 ≠ 0 → base + 2 < n
  src : SrcFound link m base → Field n (fieldsAt m base + middleWidth (m base)) (srcWidth (m (base + 1)))
  dstCid : SrcFound link m base → SrcDerived link (m (base + 1)) → m (base + 1) &&& 0x04 ≠ 0 →
    m (base + 1) &&& 0x80 ≠ 0 → base + 2 < n
  dst : SrcFound link m base → SrcDerived link (m (base + 1)) → DstFound link m base →
    Field n (fieldsAt m base + middleWidth (m base) + srcWidth (m (base + 1))) (dstReach (m (base + 1)))

theorem field_add {w w' : Nat} : Field n p (w + w') ↔ Field n p w ∧ Field n (p + w) w' := by
  unfold Field
  omega

theorem ipv6Inside_iff : Ipv6Inside link m n base ↔ base + 1 < n ∧ Field n (fieldsAt m base) (middleWidth (m base)) ∧
    (m (base + 1) &&& 0x40 ≠ 0 → m (base + 1) &&& 0x80 ≠ 0 → base + 2 < n) ∧
    (SrcFound link m base → Field n (fieldsAt m base + middleWidth (m base)) (srcWidth (m (base + 1))) ∧
      (SrcDerived link (m (base + 1)) → (m (base + 1) &&& 0x04 ≠ 0 → m (base + 1) &&& 0x80 ≠ 0 → base + 2 < n) ∧
        (DstFound link m base → Field n (fieldsAt m base + middleWidth (m base) + srcWidth (m (base + 1)))
          (dstReach (m (base + 1)))))) :=
  ⟨fun h => ⟨h.dispatch, h.middle, h.srcCid, fun hf => ⟨h.src hf, fun hd => ⟨h.dstCid hf hd, h.dst hf hd⟩⟩⟩,
    fun ⟨h1, h2, h3, h4⟩ =>
      ⟨h1, h2, h3, fun hf => (h4 hf).1, fun hf hd => ((h4 hf).2 hd).1, fun hf hd => ((h4 hf).2 hd).2⟩⟩

theorem within_ipv6Decode : Within m n (ipv6Decode link base) ↔ Ipv6Inside link m n base := by
  rw [ipv6Inside_iff, middleWidth, field_add, field_add]
  obtain ⟨v, hv⟩ := @value_decodeTf m (m base) (fieldsAt m base)
  obtain ⟨hl, hhl⟩ := @value_decodeHl m (m base) (fieldsAt m base + tfWidth (m base) + nhWidth (m base))
  simp only [ipv6Decode, within_bind, within_byte, value_byte, some.injEq, forall_eq']
  rw [← fieldsAt]
  simp only [hv, hhl, within_decodeTf, value_decodeNh, within_decodeNh, within_decodeHl, within_decodeSrcCtx,
    some.injEq, forall_eq', ← add_assoc]
  generalize fieldsAt m base + tfWidth (m base) + nhWidth (m base) + hlWidth (m base) = p
  have hbase : ∀ q : Prop, base < n ∧ base + 1 < n ∧ q ↔ base + 1 < n ∧ q :=
    fun q => ⟨And.right, fun h => ⟨by omega, h⟩⟩
  rw [hbase]
  simp only [and_assoc]
  -- the rest is read as far as the decoding goes
  obtain ⟨hsf, c, hc, hcs⟩ | ⟨hsf, hc⟩ := @value_decodeSrcCtx m link base
  · simp only [hc, hsf, some.injEq, forall_eq', forall_const, within_decodeSrc hcs, within_decodeDstCtx]
    obtain ⟨hsd, a, ha⟩ | ⟨hsd, ha⟩ := @value_decodeSrc m p (m (base + 1)) link c hcs
    · simp only [ha, hsd, some.injEq, forall_eq', forall_const]
      obtain ⟨hdf, c', hc', hcs'⟩ | ⟨hdf, hc'⟩ := @value_decodeDstCtx m link c base
      · simp only [hc', hdf, some.injEq, forall_eq', forall_const, within_decodeDst hcs', within_pure,
          implies_true, and_true]
      · simp only [hc', hdf, reduceCtorEq, false_imp_iff, implies_true]
    · simp only [ha, hsd, reduceCtorEq, false_imp_iff, implies_true]
  · simp only [hc, hsf, reduceCtorEq, false_imp_iff, implies_true]

end

end PipRiot.Sixlowpan
