import PipRiot.Sixlowpan.IphcFields

/-!
# Round trips of the IPv6 header

What the encoder writes for any header, and when the decoder gives the header back.
-/

namespace PipRiot.Sixlowpan

open Ipv6 Reading Option

section
variable {link : Link} {junk : Nat → UInt8} {addr src dst : Addr} {id : Nat} {m : Nat → UInt8} {base p : Nat}
  {b1 x y : UInt8}
  {r buf : List UInt8} {h : Hdr} {c : Ctx} {b cid : UInt8} {iid : Option (Vector UInt8 8)} {mode : AddrMode}
    {l : List UInt8} {out : Addr}

/-! ## Contexts -/

def Usable (link : Link) (addr : Addr) (id : Nat) : Prop :=
  id < 16 ∧ (link.ctxs id).prefixLen > 0 ∧ (link.ctxs id).prefixLen ≤ (link.ctxs id).pre.matchPrefix addr

theorem lookupLoop_usable {l : List Nat} (hl : ∀ i ∈ l, i < 16) : ∀ {best : Nat} {res : Option Nat},
    (∀ i, res = some i → Usable link addr i) → link.lookupLoop addr l best res = some id → Usable link addr id := by
  induction l with
  | nil =>
    intro best res hres h; exact hres id h
  | cons i l ih =>
    intro best res hres h
    have hrest : ∀ j ∈ l, j < 16 := fun j hj => hl j (by simp [hj])
    simp only [Link.lookupLoop] at h
    split at h
    · rename_i hc
      refine ih hrest ?_ h
      intro j hj
      cases hj; exact ⟨hl i (by simp), hc.1, hc.2.1⟩
    · exact ih hrest hres h

theorem lookupAddr_usable (h : link.lookupAddr addr = some id) : Usable link addr id :=
  lookupLoop_usable (by simp) (by simp) h

theorem Usable.lookupId (h : Usable link addr id) : link.lookupId id = some (link.ctxs id) := if_pos ⟨h.1, h.2.1⟩

theorem compCtx_usable (h : link.compCtx addr = some id) : Usable link addr id ∧ (link.ctxs id).comp := by
  simp only [Link.compCtx, Option.filter_eq_some_iff] at h
  exact ⟨lookupAddr_usable h.1, h.2⟩

theorem srcCtx_usable (h : link.srcCtx src = some id) : Usable link src id ∧ (link.ctxs id).comp := by
  unfold Link.srcCtx at h
  split at h
  · cases h
  · exact compCtx_usable h

theorem dstCtx_usable (h : link.dstCtx dst = some id) : Usable link dst id ∧ (link.ctxs id).comp := by
  unfold Link.dstCtx at h
  split at h
  · cases h
  · exact compCtx_usable h

/-! ## What the encoder chooses -/

theorem contextOverlapsIid_comp {ctx : Option Ctx} (h : ∀ c, ctx = some c → c.comp = true) (i : Vector UInt8 8) :
    contextOverlapsIid ctx addr i = false := by
  unfold contextOverlapsIid
  split
  · rfl
  · rename_i c
    simp [h c rfl]

theorem encodeIid_linkLocal (hl : addr.isLinkLocal) (i : Vector UInt8 8) :
    ∃ mode, encodeIid none addr i = (mode.bits, mode.carried addr) ∧ Chosen (some i) none addr mode ∧ mode ≠ .full := by
  unfold encodeIid
  rw [contextOverlapsIid_comp (by simp)]
  split
  · rename_i heq
    exact ⟨.l2, rfl, .l2 rfl hl rfl (by simpa using heq), by simp⟩
  · split
    · rename_i hs
      exact ⟨.iid16, rfl, .iid16 rfl hl hs, by simp⟩
    · exact ⟨.iid64, rfl, .iid64 rfl hl, by simp⟩

def CtxBits (mode : AddrMode) (b : UInt8) : Prop :=
  (0x40 : UInt8) ||| b <<< 4 = mode.bits <<< 4 ∧ 0x04 ||| b = mode.bits ∧ mode ≠ .full

theorem encodeIid_ctx (hc : c.comp) (addr : Addr) (i : Vector UInt8 8) : ∃ mode b,
    encodeIid (some c) addr i = (b, mode.carried addr) ∧ CtxBits mode b ∧ Chosen (some i) (some c) addr mode := by
  unfold encodeIid
  rw [contextOverlapsIid_comp (by simpa using hc)]
  split
  · rename_i heq
    exact ⟨.ctxL2, 3, rfl, ⟨rfl, rfl, by simp⟩, .ctxL2 rfl rfl (by simpa using heq)⟩
  · split
    · rename_i hs
      exact ⟨.ctx16, 2, rfl, ⟨rfl, rfl, by simp⟩, .ctx16 rfl hs⟩
    · exact ⟨.ctx64, 1, rfl, ⟨rfl, rfl, by simp⟩, .ctx64 rfl⟩

def orCid (r : List UInt8) (id : UInt8) : List UInt8 := r.modify 0 (· ||| id)

@[simp] theorem orCid_zero (r : List UInt8) : orCid r 0 = r := by
  cases r <;> simp [orCid]

def cidOf (ctx : Option Nat) : UInt8 := UInt8.ofNat (ctx.getD 0)

/-- The dispatch bits of a source address, the bytes it is carried in, and what they are
decoded to. -/
inductive SrcForm (link : Link) (src : Addr) : UInt8 → List UInt8 → Addr → Prop
  | unspecified : src.isUnspecified → SrcForm link src 0x40 [] Addr.zero
  | mode (mode : AddrMode) : ¬ src.isUnspecified →
      Chosen (link.iid link.src) ((link.srcCtx src).map link.ctxs) src mode →
      (mode = .full → link.srcCtx src = none ∧ ¬ src.isLinkLocal) →
      SrcForm link src (mode.bits <<< 4) (mode.carried src) (mode.restored ((link.srcCtx src).map link.ctxs) src)

theorem encodeSrc_form (h : encodeSrc link src (x :: y :: r) = some buf) : ∃ b l out, SrcForm link src b l out ∧
    buf = x :: (y ||| b) :: (orCid r (cidOf (link.srcCtx src) <<< 4) ++ l) := by
  unfold encodeSrc at h
  split at h
  · rename_i hu
    cases h
    refine ⟨_, _, _, .unspecified hu, ?_⟩
    simp [Link.srcCtx, hu, cidOf]
  · rename_i hu
    simp only at h
    cases hc : link.srcCtx src with
    | none =>
      simp only [hc, isSome_none, Bool.false_eq_true, false_or, map_none] at h
      split at h
      · rename_i hl
        cases hi : link.iid link.src with
        | none => simp [hi] at h
        | some i =>
          obtain ⟨mode, henc, hchosen, hfull⟩ := encodeIid_linkLocal hl i
          simp only [hi, map_some, henc, some.injEq] at h
          subst h
          refine ⟨_, _, _, .mode mode hu (by rw [hc, hi]; exact hchosen) (fun h => absurd h hfull), ?_⟩
          simp [cidOf]
      · rename_i hl
        cases h
        refine ⟨_, _, _, .mode .full hu .full (fun _ => ⟨hc, hl⟩), ?_⟩
        simp [cidOf, AddrMode.bits, AddrMode.carried]
    | some id =>
      obtain ⟨-, hcomp⟩ := srcCtx_usable hc
      simp only [hc, isSome_some, true_or, if_true, map_some] at h
      cases hi : link.iid link.src with
      | none => simp [hi] at h
      | some i =>
        obtain ⟨mode, b, henc, ⟨hor, -, hfull⟩, hchosen⟩ := encodeIid_ctx hcomp src i
        simp only [hi, map_some, henc, some.injEq] at h
        subst h
        refine ⟨_, _, _, .mode mode hu (by rw [hc, hi]; exact hchosen) (fun h => absurd h hfull), ?_⟩
        by_cases hz : id = 0
        · subst hz
          simp [cidOf, UInt8.or_assoc, hor]
        · simp [hz, cidOf, orCid, UInt8.or_assoc, hor]

/-- Not of the form `ffXX::XX:XXXX:XXXX`, with a unicast prefix that is that of a
context. -/
def UcPrefix (link : Link) (junk : Nat → UInt8) (dst : Addr) : Prop :=
  ¬ (dst.isZero 2 2 ∧ dst.isZero 4 4 ∧ dst.isZero 8 2) ∧ (ucPrefixCtx link junk dst).isSome

inductive DstForm (link : Link) (dst : Addr) : UInt8 → UInt8 → List UInt8 → Addr → Prop
  | plain (mode : AddrMode) : ¬ dst.isMulticast → Chosen (link.iid link.dst) none dst mode →
      (link.dst.length > 0 → link.dstCtx dst = none) →
      DstForm link dst mode.bits 0 (mode.carried dst) (mode.restored none dst)
  | ctx (mode : AddrMode) (id : Nat) : ¬ dst.isMulticast → link.dst.length > 0 → link.dstCtx dst = some id →
      Chosen (link.iid link.dst) (some (link.ctxs id)) dst mode → mode ≠ .full →
      DstForm link dst mode.bits (UInt8.ofNat id) (mode.carried dst) (mode.restored (some (link.ctxs id)) dst)
  | mcast8 : dst.isMulticast → dst.u8 1 = 0x02 → dst.isZero 2 13 → DstForm link dst 0x0b 0 [dst.u8 15] dst
  | mcast32 : dst.isMulticast → dst.isZero 2 11 → DstForm link dst 0x0a 0 ([dst.u8 1] ++ dst.slice 13 3) dst
  | mcast48 : dst.isMulticast → dst.isZero 2 9 → DstForm link dst 0x09 0 ([dst.u8 1] ++ dst.slice 11 5) dst
  | mcastFull : dst.isMulticast → DstForm link dst 0x08 0 (dst.slice 0 16) dst

theorem encodeMulticast_form (hmc : dst.isMulticast) (hno : ¬ UcPrefix link junk dst) :
    ∃ b l, DstForm link dst b 0 l dst ∧ encodeMulticast link junk dst (x :: y :: r) = x :: (y ||| b) :: (r ++ l) := by
  unfold encodeMulticast
  simp only
  split
  · rename_i hz
    obtain ⟨h1, h2, h3⟩ := hz
    have h8 : dst.isZero 2 6 := Addr.isZero_append h1 h2 rfl
    have h10 : dst.isZero 2 8 := Addr.isZero_append h8 h3 rfl
    split
    · rename_i hz
      obtain ⟨hscope, h12, h14, h15⟩ := hz
      have hzero : dst.isZero 2 13 :=
        Addr.isZero_append (Addr.isZero_append (Addr.isZero_append h8 h12 rfl) h14 rfl) (Addr.isZero_one h15) rfl
      exact ⟨_, _, .mcast8 hmc hscope hzero, by simp [UInt8.or_assoc, show (0x08 : UInt8) ||| 0x0b = 0x0b from rfl]⟩
    · split
      · rename_i hz
        obtain ⟨h12, h13⟩ := hz
        have hzero : dst.isZero 2 11 := Addr.isZero_append (Addr.isZero_append h10 h12 rfl) (Addr.isZero_one h13) rfl
        exact ⟨_, _, .mcast32 hmc hzero, by simp [UInt8.or_assoc, show (0x08 : UInt8) ||| 0x0a = 0x0a from rfl]⟩
      · split
        · rename_i h11
          have hzero : dst.isZero 2 9 := Addr.isZero_append h10 (Addr.isZero_one h11) rfl
          exact ⟨_, _, .mcast48 hmc hzero, by simp [UInt8.or_assoc, show (0x08 : UInt8) ||| 0x09 = 0x09 from rfl]⟩
        · exact ⟨_, _, .mcastFull hmc, by simp⟩
  · rename_i hz
    split
    · rename_i id hid
      exact absurd ⟨hz, by simp [hid]⟩ hno
    · exact ⟨_, _, .mcastFull hmc, by simp⟩

theorem encodeDst_form (hno : dst.isMulticast → ¬ UcPrefix link junk dst)
    (h : encodeDst link junk dst (x :: y :: r) = some buf) :
    ∃ b cid l out, DstForm link dst b cid l out ∧ buf = x :: (y ||| b) :: (orCid r cid ++ l) := by
  unfold encodeDst at h
  split at h
  · rename_i hmc
    obtain ⟨b, l, hform, heq⟩ := encodeMulticast_form (x := x) (y := y) (r := r) hmc (hno hmc)
    cases h
    exact ⟨b, 0, l, dst, hform, by rw [heq, orCid_zero]⟩
  · rename_i hmc
    simp only at h
    split at h
    · rename_i hused
      obtain ⟨hctx, hlen⟩ := hused
      cases hi : link.iid link.dst with
      | none => simp [hi] at h
      | some i =>
        cases hc : link.dstCtx dst with
        | none =>
          have hl : dst.isLinkLocal := by simpa [hc] using hctx
          obtain ⟨mode, henc, hchosen, -⟩ := encodeIid_linkLocal hl i
          simp only [hi, hc, map_none, map_some, henc, some.injEq] at h
          subst h
          exact ⟨_, _, _, _, .plain mode hmc (by rw [hi]; exact hchosen) (fun _ => hc), by simp⟩
        | some id =>
          obtain ⟨-, hcomp⟩ := dstCtx_usable hc
          obtain ⟨mode, b, henc, ⟨-, hor, hfull⟩, hchosen⟩ := encodeIid_ctx hcomp dst i
          simp only [hi, hc, map_some, henc, some.injEq] at h
          subst h
          refine ⟨_, _, _, _, .ctx mode id hmc hlen hc (by rw [hi]; exact hchosen) hfull, ?_⟩
          by_cases hz : id = 0
          · subst hz
            simp [UInt8.or_assoc, hor]
          · simp [hz, orCid, UInt8.or_assoc, hor]
    · rename_i hused
      cases h
      refine ⟨_, _, _, _, .plain .full hmc .full ?_, by simp [AddrMode.bits, AddrMode.carried]⟩
      intro hlen
      simpa using fun hctx => hused ⟨.inl hctx, hlen⟩

/-! ## What the decoder makes of it -/

theorem and_mask {c d e : UInt8} (h : b &&& c = e) (hd : c &&& d = d) : b &&& d = e &&& d := by
  rw [← h, UInt8.and_assoc, hd]

theorem decodeCtx_value {nibble : UInt8 → UInt8} (hu : Usable link addr id)
    (hcid : (decodeCid base b1 nibble).value m = some (UInt8.ofNat id)) (ctx : Option Ctx) :
    (decodeCtx link base b1 nibble true ctx).value m = some (some (link.ctxs id)) := by
  have hid : (UInt8.ofNat id).toNat = id := by
    have hlt := hu.1
    rw [UInt8.toNat_ofNat']; omega
  simp only [decodeCtx, value_bind, hcid, bind_some, hid, hu.lookupId, if_true]
  rfl

theorem Chosen.bits_plain (hc : Chosen iid none addr mode) :
    mode.bits <<< 4 &&& 0x40 = 0 ∧ mode.bits &&& 0x04 = 0 := by
  cases hc with
  | ctx64 hn | ctx16 hn _ | ctxL2 hn _ _ => cases hn
  | _ => decide

theorem Chosen.bits_ctx (hc : Chosen iid (some c) addr mode)
    (hfull : mode ≠ .full) : (mode.bits <<< 4 &&& 0x40 = 0x40 ∧ mode.bits <<< 4 &&& 0x30 ≠ 0) ∧
      mode.bits &&& 0x04 = 0x04 ∧ mode.bits &&& 0x0b ≠ 0 := by
  cases hc with
  | full => exact absurd rfl hfull
  | iid64 hn _ | iid16 hn _ _ | l2 hn _ _ _ => cases hn
  | _ => decide

theorem decodeSrcCtx_none (h : b1 &&& 0x40 = 0) : (decodeSrcCtx link base b1).value m = some none := by
  rw [decodeSrcCtx, if_pos h]
  rfl

theorem decodeSrcCtx_some (h40 : b1 &&& 0x40 = 0x40) (h30 : b1 &&& 0x30 ≠ 0) (hu : Usable link addr id)
    (hcid : (decodeCid base b1 (· >>> 4)).value m = some (UInt8.ofNat id)) :
    (decodeSrcCtx link base b1).value m = some (some (link.ctxs id)) := by
  rw [decodeSrcCtx, h40, if_neg (by decide), decide_eq_true h30]
  exact decodeCtx_value hu hcid none

theorem decodeSrc_mode (hb : b1 &&& 0x70 = mode.bits <<< (4 : UInt8)) (ctx : Option Ctx) :
    decodeSrc link b1 ctx p = decodeAddr (link.iid link.src) ctx p mode := by
  have hshift : (1 : UInt8) <<< 4 = 0x10 ∧ (2 : UInt8) <<< 4 = 0x20 ∧ (3 : UInt8) <<< 4 = 0x30 ∧
    (5 : UInt8) <<< 4 = 0x50 ∧
      (6 : UInt8) <<< 4 = 0x60 ∧ (7 : UInt8) <<< 4 = 0x70 := by decide
  unfold decodeSrc
  rw [hb]
  cases mode <;> simp [AddrMode.bits, hshift]

theorem decodeDst_mode (hb : b1 &&& 0x0f = mode.bits) (ctx : Option Ctx) :
    decodeDst link b1 ctx p = decodeAddr (link.iid link.dst) ctx p mode := by
  unfold decodeDst
  rw [hb]
  cases mode <;> simp [AddrMode.bits]

theorem decodeSrc_value (hform : SrcForm link src b l out) (hb : b1 &&& 0x70 = b)
    (hcid : (decodeCid base b1 (· >>> 4)).value m = some (cidOf (link.srcCtx src))) (h : Holds m p l) :
    ∃ ctx, (decodeSrcCtx link base b1).value m = some ctx ∧
      (decodeSrc link b1 ctx p).value m = some (out, p + l.length) := by
  have h40 : b1 &&& 0x40 = b &&& 0x40 := and_mask hb rfl
  have h30 : b1 &&& 0x30 = b &&& 0x30 := and_mask hb rfl
  cases hform with
  | unspecified hu =>
    refine ⟨none, ?_, by simp [decodeSrc, hb]⟩
    rw [decodeSrcCtx, h40, if_neg (by decide), decide_eq_false (by rw [h30]; decide)]
    simp [decodeCtx, hcid]
  | mode mode hu hchosen hfull =>
    have hval := decodeAddr_value hchosen h
    -- a context is looked up in the modes that refer to one
    have hctx : (decodeSrcCtx link base b1).value m = some ((link.srcCtx src).map link.ctxs) := by
      cases hc : link.srcCtx src with
      | none =>
        rw [hc] at hchosen
        exact decodeSrcCtx_none (h40.trans hchosen.bits_plain.1)
      | some id =>
        rw [hc] at hchosen hcid hfull
        obtain ⟨⟨hsac, hsam⟩, -⟩ := hchosen.bits_ctx fun heq => by cases (hfull heq).1
        exact decodeSrcCtx_some (h40.trans hsac) (by rw [h30]; exact hsam) (srcCtx_usable hc).1 hcid
    exact ⟨_, hctx, by rw [decodeSrc_mode hb, hval]⟩

theorem decodeDstCtx_some (h4 : b1 &&& 0x04 = 0x04) (hb : b1 &&& 0x0b ≠ 0) (hu : Usable link addr id)
    (hcid : (decodeCid base b1 (· &&& 0x0f)).value m = some (UInt8.ofNat id)) (ctx : Option Ctx) :
    (decodeDstCtx link base b1 ctx).value m = some (some (link.ctxs id)) := by
  rw [decodeDstCtx, h4, if_neg (by decide), decide_eq_true hb]
  exact decodeCtx_value hu hcid ctx

theorem decodeAddr_plain (hc : Chosen iid none addr mode) (ctx : Option Ctx) :
    decodeAddr iid ctx p mode = decodeAddr iid none p mode := by
  cases hc with
  | ctx64 hn | ctx16 hn _ | ctxL2 hn _ _ => cases hn
  | _ => rfl

theorem write_multicast {i n : Nat} {x : UInt8} (hx : dst.u8 1 = x) (hmc : dst.isMulticast)
    (hz : dst.isZero 2 (i - 2)) (hi : 2 ≤ i)
    (hn : i + n = 16) : (Addr.zero.write 0 [0xff, x]).write i (dst.slice i n) = dst := by
  apply Addr.ext
  intro k hk
  rw [write_slice hk]
  by_cases h : i ≤ k
  · rw [if_pos ⟨h, by omega⟩]
  · rw [if_neg (by omega), Addr.write, Addr.u8_ofBytes hk]
    by_cases h2 : k < 2
    · rw [if_pos ⟨Nat.zero_le k, h2⟩]
      simp only [Addr.isMulticast, decide_eq_true_eq] at hmc
      have hcases : k = 0 ∨ k = 1 := by omega
      rcases hcases with rfl | rfl
      · exact hmc.symm
      · exact hx.symm
    · rw [if_neg (by simpa using h2), Addr.u8_zero hk, Addr.u8_of_isZero hz (by omega) (by omega)]

theorem decodeDst_value (hform : DstForm link dst b cid l out) (hb : b1 &&& 0x0f = b)
    (hcid : (decodeCid base b1 (· &&& 0x0f)).value m = some cid) (h : Holds m p l) (ctx : Option Ctx) :
    ∃ ctx', (decodeDstCtx link base b1 ctx).value m = some ctx' ∧
      (decodeDst link b1 ctx' p).value m = some (out, p + l.length) := by
  have h4 : b1 &&& 0x04 = b &&& 0x04 := and_mask hb rfl
  have h0b : b1 &&& 0x0b = b &&& 0x0b := and_mask hb rfl
  have hnone : b &&& 0x04 = 0 → (decodeDstCtx link base b1 ctx).value m = some ctx := by
    intro hz
    rw [decodeDstCtx, h4, if_pos hz]; rfl
  cases hform with
  | plain mode hmc hchosen _ =>
    have hval := decodeAddr_value hchosen h
    exact ⟨ctx, hnone hchosen.bits_plain.2, by rw [decodeDst_mode hb, decodeAddr_plain hchosen ctx, hval]⟩
  | ctx mode id hmc hlen hc hchosen hfull =>
    have hval := decodeAddr_value hchosen h
    obtain ⟨-, hdac, hdam⟩ := hchosen.bits_ctx hfull
    refine ⟨_, decodeDstCtx_some (h4.trans hdac) (by rw [h0b]; exact hdam) (dstCtx_usable hc).1 hcid ctx, ?_⟩
    rw [decodeDst_mode hb, hval]
  | mcast8 hmc hscope hz =>
    refine ⟨ctx, hnone rfl, ?_⟩
    have hm : m p = dst.u8 15 := by simpa using h
    have hslice : [dst.u8 15] = dst.slice 15 1 := rfl
    simp only [decodeDst, hb, value_bind, value_byte, bind_some, hm, hslice]
    rw [write_multicast hscope hmc hz (by decide) rfl]; rfl
  | mcast32 hmc hz =>
    refine ⟨ctx, hnone rfl, ?_⟩
    simp only [List.cons_append, List.nil_append, holds_cons] at h
    have hv := h.2.value_bytes (Addr.length_slice dst 13 3)
    simp only [decodeDst, hb, value_bind, value_byte, bind_some, h.1, hv]
    rw [write_multicast rfl hmc hz (by decide) rfl]; simp
  | mcast48 hmc hz =>
    refine ⟨ctx, hnone rfl, ?_⟩
    simp only [List.cons_append, List.nil_append, holds_cons] at h
    have hv := h.2.value_bytes (Addr.length_slice dst 11 5)
    simp only [decodeDst, hb, value_bind, value_byte, bind_some, h.1, hv]
    rw [write_multicast rfl hmc hz (by decide) rfl]; simp
  | mcastFull hmc =>
    refine ⟨ctx, hnone rfl, ?_⟩
    simp only [decodeDst, hb]; exact decodeAddr_value .full h

/-! ## The whole header -/

def cidBits (link : Link) (h : Hdr) : UInt8 := if link.cidExt h then 0x80 else 0

def cidBytes (link : Link) (h : Hdr) (cid : UInt8) : List UInt8 :=
  if link.cidExt h then [cidOf (link.srcCtx h.src) <<< 4 ||| cid] else []

def middle (h : Hdr) : List UInt8 := tfBytes h.vTcFl ++ nhBytes h.nh ++ hlBytes h.hl

theorem cidOf_eq_zero (hext : ¬ link.cidExt h) :
    cidOf (link.srcCtx h.src) = 0 ∧ ∀ id, link.dstCtx h.dst = some id → id = 0 := by
  simp only [Link.cidExt, decide_eq_true_eq, not_or] at hext
  constructor
  · cases hc : link.srcCtx h.src with
    | none => rfl
    | some id =>
      have hz : id = 0 := by simpa [hc] using hext.1
      rw [hz]; rfl
  · intro id hid
    simpa [hid] using hext.2

theorem DstForm.cid_eq_zero (hform : DstForm link dst b cid l out)
    (hz : ∀ id, link.dstCtx dst = some id → id = 0) : cid = 0 := by
  cases hform with
  | ctx _ id _ _ hc _ _ =>
    rw [hz id hc]; rfl
  | _ => rfl

theorem encode_start (link : Link) (h : Hdr) :
    encodeHl h.hl (encodeNh h.nh (encodeTf h.vTcFl (if link.cidExt h then [0x60, 0x80, 0] else [0x60, 0]))) =
      dispatch0 h :: cidBits link h :: ((if link.cidExt h then [0] else []) ++ middle h) := by
  unfold cidBits
  split
  · rw [encodeTf_cons, encodeNh_cons, encodeHl_cons]
    simp [dispatch0, middle]
  · rw [encodeTf_cons, encodeNh_cons, encodeHl_cons]
    simp [dispatch0, middle]

theorem ipv6Encode_form (hno : h.dst.isMulticast → ¬ UcPrefix link junk h.dst)
    (henc : ipv6Encode link junk h = some buf) :
    ∃ sb sl so db cid dl out, SrcForm link h.src sb sl so ∧ DstForm link h.dst db cid dl out ∧
      buf = dispatch0 h :: (cidBits link h ||| sb ||| db) :: (cidBytes link h cid ++ (middle h ++ sl ++ dl)) := by
  simp only [ipv6Encode, encode_start] at henc
  obtain ⟨buf1, hsrc, hdst⟩ := bind_eq_some_iff.mp henc
  obtain ⟨sb, sl, so, hsform, rfl⟩ := encodeSrc_form hsrc
  obtain ⟨db, cid, dl, out, hdform, rfl⟩ := encodeDst_form hno hdst
  refine ⟨sb, sl, so, db, cid, dl, out, hsform, hdform, ?_⟩
  unfold cidBytes
  split
  · simp [orCid]
  · rename_i hext
    obtain ⟨hs, hd⟩ := cidOf_eq_zero hext
    simp [hs, hdform.cid_eq_zero hd]

theorem dispatch1_fields : ∀ c ∈ [0, 0x80], ∀ s ∈ [0x00, 0x10, 0x20, 0x30, 0x40, 0x50, 0x60, 0x70],
    ∀ d ∈ [0x00, 0x01, 0x02, 0x03, 0x05, 0x06, 0x07, 0x08, 0x09, 0x0a, 0x0b],
    (c ||| s ||| d) &&& 0x80 = c ∧ (c ||| s ||| d) &&& 0x70 = s ∧ (c ||| s ||| d : UInt8) &&& 0x0f = d := by
  decide +kernel

theorem SrcForm.bits (hform : SrcForm link src b l out) : b ∈ [0x00, 0x10, 0x20, 0x30, 0x40, 0x50, 0x60, 0x70] := by
  cases hform with
  | unspecified _ => decide
  | mode mode _ _ _ => cases mode <;> decide

theorem DstForm.bits (hform : DstForm link dst b cid l out) :
    b ∈ [0x00, 0x01, 0x02, 0x03, 0x05, 0x06, 0x07, 0x08, 0x09, 0x0a, 0x0b] := by
  cases hform with
  | plain mode _ _ _ | ctx mode _ _ _ _ _ _ => cases mode <;> decide
  | _ => decide

theorem cidBits_mem (link : Link) (h : Hdr) : cidBits link h ∈ [0, 0x80] := by
  unfold cidBits
  split <;> simp

theorem nibble_parts {a : UInt8} (ha : a &&& 0x0f = a) (hb : b &&& 0x0f = b) :
    (a <<< 4 ||| b) >>> 4 = a ∧ (a <<< 4 ||| b) &&& 0x0f = b := by
  constructor
  · rw [← ha, ← hb]
    apply VTcFl.eq_of_bits
    intro i hi
    interval_cases i <;> simp
  · rw [← hb]
    apply VTcFl.eq_of_bits
    intro i hi
    interval_cases i <;> simp

theorem ofNat_and_nibble : ∀ id < 16, UInt8.ofNat id &&& 0x0f = UInt8.ofNat id := by decide

theorem cidOf_nibble : cidOf (link.srcCtx src) &&& 0x0f = cidOf (link.srcCtx src) := by
  cases hc : link.srcCtx src with
  | none => rfl
  | some id => exact ofNat_and_nibble id (srcCtx_usable hc).1.1

theorem DstForm.cid_nibble (hform : DstForm link dst b cid l out) : cid &&& 0x0f = cid := by
  cases hform with
  | ctx _ id _ _ hc _ _ => exact ofNat_and_nibble id (dstCtx_usable hc).1.1
  | _ => rfl

theorem decodeCid_value (hform : DstForm link h.dst b cid l out)
    (hb : b1 &&& 0x80 = cidBits link h) (hm : Holds m (base + 2) (cidBytes link h cid)) :
    (decodeCid base b1 (· >>> 4)).value m = some (cidOf (link.srcCtx h.src)) ∧
      (decodeCid base b1 (· &&& 0x0f)).value m = some cid := by
  unfold decodeCid
  rw [hb]
  unfold cidBits cidBytes at *
  by_cases hext : link.cidExt h
  · simp only [hext, if_true, holds_cons, holds_nil, and_true] at hm ⊢
    have hnibble : cidOf (link.srcCtx h.src) &&& 0x0f = cidOf (link.srcCtx h.src) := cidOf_nibble
    obtain ⟨hs, hd⟩ := nibble_parts hnibble hform.cid_nibble
    rw [if_neg (by decide), if_neg (by decide)]
    simp only [value_bind, value_byte, bind_some, hm, value_pure, hs, hd, and_self]
  · obtain ⟨hs, hd⟩ := cidOf_eq_zero hext
    simp [hext, hs, hform.cid_eq_zero hd]

theorem ipv6Decode_value {sb db : UInt8} {sl dl : List UInt8} {so : Addr} (hs : SrcForm link h.src sb sl so)
    (hd : DstForm link h.dst db cid dl out)
    (hbuf : buf = dispatch0 h :: (cidBits link h ||| sb ||| db) :: (cidBytes link h cid ++ (middle h ++ sl ++ dl)))
    (hm : Holds m base buf) : ∃ w : VTcFl, (ipv6Decode link base).value m =
      some (⟨w, 0, if compressibleNh h.nh then 0 else h.nh, h.hl, so, out⟩, base + buf.length) ∧
        w.getTc = h.vTcFl.getTc ∧ w.getFl = h.vTcFl.getFl := by
  obtain ⟨hc, hsam, hdam⟩ := dispatch1_fields _ (cidBits_mem link h) sb hs.bits db hd.bits
  obtain ⟨htf, hnh, hhl⟩ := dispatch0_masks h
  have hlen : base + buf.length = base + 1 + 1 + (cidBytes link h cid).length + (tfBytes h.vTcFl).length +
    (nhBytes h.nh).length +
      (hlBytes h.hl).length + sl.length + dl.length := by
    simp only [hbuf, middle, List.length_cons, List.length_append]; omega
  have hpos : (base + if (cidBits link h ||| sb ||| db) &&& 0x80 = 0 then 2 else 3) =
      base + 1 + 1 + (cidBytes link h cid).length := by
    rw [hc]
    unfold cidBits cidBytes
    split <;> simp
  simp only [hbuf, holds_cons, holds_append, middle, List.length_append, ← add_assoc] at hm
  obtain ⟨h0, h1, hcid, ⟨⟨⟨hmtf, hmnh⟩, hmhl⟩, hmsrc⟩, hmdst⟩ := hm
  obtain ⟨hscid, hdcid⟩ := decodeCid_value hd hc hcid
  obtain ⟨w, hw, htc, hfl⟩ := decodeTf_value htf hmtf
  obtain ⟨ctx, hsctx, hsrc⟩ := decodeSrc_value hs hsam hscid hmsrc
  obtain ⟨ctx', hdctx, hdst⟩ := decodeDst_value hd hdam hdcid hmdst ctx
  refine ⟨w, ?_, htc, hfl⟩
  simp only [ipv6Decode, value_bind, value_byte, bind_some, h0, h1, hpos, hw, decodeNh_value hnh hmnh,
    decodeHl_value hhl hmhl, hsctx, hsrc, hdctx, hdst, value_pure, hlen]

/-! ## The condition -/

/-- The source is behind the prefix of its context, or no multicast address taken for a
link-local one. -/
def SrcKept (link : Link) (src : Addr) : Prop :=
  match link.srcCtx src with
  | some id => ¬ LostBits (link.ctxs id) src
  | none => ¬ (src.isMulticast ∧ src.u8 1 &&& 0x0f = 2)

/-- The destination is not compressed with a unicast prefix, and is behind the prefix
of its context where one is used. -/
def DstKept (link : Link) (junk : Nat → UInt8) (dst : Addr) : Prop :=
  if dst.isMulticast then ¬ UcPrefix link junk dst
  else link.dst.length > 0 → ∀ id, link.dstCtx dst = some id → ¬ LostBits (link.ctxs id) dst

theorem isMulticast_of_linkLocal (h : addr.isLinkLocal) :
    addr.isMulticast ↔ addr.isMulticast ∧ addr.u8 1 &&& 0x0f = 2 := by
  refine ⟨fun hmc => ⟨hmc, ?_⟩, fun hmc => hmc.1⟩
  simp only [Addr.isLinkLocal, decide_eq_true_eq] at h
  refine (h.resolve_left fun hpre => ?_).2
  have h0 : addr.u8 0 = 0xfe := by
    have hget := congrArg (List.getD · 0 0) hpre
    simpa [Addr.slice, Addr.linkLocalPrefix] using hget
  simp only [Addr.isMulticast, decide_eq_true_eq] at hmc
  rw [hmc] at h0
  exact absurd h0 (by decide)

theorem Chosen.restored_plain (hc : Chosen iid none addr mode) :
    mode.restored none addr = addr ↔ mode = .full ∨ ¬ addr.isMulticast := by
  cases hc with
  | full => simp [AddrMode.restored]
  | ctx64 hn | ctx16 hn _ | ctxL2 hn _ _ => cases hn
  | iid64 _ hl | iid16 _ hl _ | l2 _ hl _ _ => simpa [AddrMode.restored] using restored_linkLocal_iff hl

theorem Chosen.restored_ctx (hc : Chosen iid (some c) addr mode)
    (hfull : mode ≠ .full) (hmatch : c.prefixLen ≤ c.pre.matchPrefix addr) :
    mode.restored (some c) addr = addr ↔ ¬ LostBits c addr := by
  rw [← restored_ctx_iff hmatch]
  cases hc with
  | full => exact absurd rfl hfull
  | iid64 hn _ | iid16 hn _ _ | l2 hn _ _ _ => cases hn
  | _ => rfl

theorem SrcForm.kept_iff (hform : SrcForm link src b l out) : out = src ↔ SrcKept link src := by
  cases hform with
  | unspecified hu =>
    have hzero : Addr.zero = src := by
      apply Addr.ext
      intro k hk
      rw [Addr.u8_zero hk, Addr.u8_of_isZero hu (Nat.zero_le k) (by omega)]
    have hkept : SrcKept link src := by
      simp only [SrcKept, Link.srcCtx, hu, if_true]
      rintro ⟨hmc, -⟩
      rw [← hzero] at hmc; exact absurd hmc (by decide)
    exact ⟨fun _ => hkept, fun _ => hzero⟩
  | mode mode hu hchosen hfull =>
    unfold SrcKept
    cases hc : link.srcCtx src with
    | none =>
      rw [hc] at hchosen hfull
      simp only [map_none] at hchosen ⊢
      rw [hchosen.restored_plain]
      by_cases hm : mode = .full
      · have hl := (hfull hm).2
        simp only [Addr.isLinkLocal, decide_eq_true_eq, not_or] at hl
        simp [hm, hl.2]
      · have hl : src.isLinkLocal := by
          cases hchosen with
          | full => exact absurd rfl hm
          | ctx64 hn | ctx16 hn _ | ctxL2 hn _ _ => cases hn
          | iid64 _ hl | iid16 _ hl _ | l2 _ hl _ _ => exact hl
        rw [← isMulticast_of_linkLocal hl]
        simp [hm]
    | some id =>
      rw [hc] at hchosen hfull
      refine hchosen.restored_ctx (fun heq => by cases (hfull heq).1) (srcCtx_usable hc).1.2.2

theorem DstForm.kept_iff (hform : DstForm link dst b cid l out)
    (hno : dst.isMulticast → ¬ UcPrefix link junk dst) : out = dst ↔ DstKept link junk dst := by
  have hmcast : dst.isMulticast → (dst = dst ↔ DstKept link junk dst) := by
    intro hmc
    simp only [DstKept, hmc, if_true, true_iff]; exact hno hmc
  cases hform with
  | plain mode hmc hchosen hctx =>
    rw [hchosen.restored_plain, DstKept, if_neg hmc]
    refine iff_of_true (.inr hmc) ?_
    intro hlen id hid
    rw [hctx hlen] at hid; cases hid
  | ctx mode id hmc hlen hc hchosen hfull =>
    rw [hchosen.restored_ctx hfull (dstCtx_usable hc).1.2.2, DstKept, if_neg hmc]
    constructor
    · intro hlost _ id' hid
      rw [hc] at hid
      cases hid; exact hlost
    · intro hkept; exact hkept hlen id hc
  | mcast8 hmc _ _ | mcast32 hmc _ | mcast48 hmc _ | mcastFull hmc => exact hmcast hmc

/-! ## The unicast prefix of a multicast address -/

theorem ucPrefix_bits : ∀ c ∈ [0, 0x80], ∀ s ∈ [0x00, 0x10, 0x20, 0x30, 0x40, 0x50, 0x60, 0x70],
    (c ||| s ||| 0x08 ||| 0x04 : UInt8) &&& 0x0f = 0x0c := by
  decide +kernel

theorem ipv6Encode_uc (hmc : h.dst.isMulticast) (huc : UcPrefix link junk h.dst)
    (henc : ipv6Encode link junk h = some buf) : ∃ b0 b1 rest, buf = b0 :: b1 :: rest ∧ b1 &&& 0x0f = 0x0c := by
  simp only [ipv6Encode, encode_start] at henc
  obtain ⟨buf1, hsrc, hdst⟩ := bind_eq_some_iff.mp henc
  obtain ⟨sb, sl, so, hsform, rfl⟩ := encodeSrc_form hsrc
  obtain ⟨id, hid⟩ := isSome_iff_exists.mp huc.2
  simp only [encodeDst, hmc, if_true, encodeMulticast, if_neg huc.1, hid, some.injEq] at hdst
  refine ⟨dispatch0 h, cidBits link h ||| sb ||| 0x08 ||| 0x04, ?_⟩
  have hbits := ucPrefix_bits _ (cidBits_mem link h) sb hsform.bits
  rw [← hdst]
  split
  · exact ⟨_, rfl, hbits⟩
  · exact ⟨_, rfl, hbits⟩

theorem decodeDst_uc {ctx : Option Ctx} {q : Nat} (hb : b1 &&& 0x0f = 0x0c)
    (hv : (decodeDst link b1 ctx p).value m = some (out, q)) : out.u8 14 = m q := by
  simp only [decodeDst, hb] at hv
  cases ctx with
  | none => cases hv
  | some c =>
    simp only [decodeUcPrefix, value_bind, value_byte, value_bytes, bind_some, value_pure, some.injEq,
      Prod.mk.injEq] at hv
    obtain ⟨rfl, rfl⟩ := hv
    rw [Addr.write, Addr.u8_ofBytes (by decide), if_pos (by simp)]; simp

theorem ipv6Decode_uc {h' : Hdr} {q : Nat} (hb : m (base + 1) &&& 0x0f = 0x0c)
    (hv : (ipv6Decode link base).value m = some (h', q)) : h'.dst.u8 14 = m q := by
  simp only [ipv6Decode, value_bind, value_byte, bind_some, bind_eq_some_iff, value_pure] at hv
  obtain ⟨_, -, _, -, _, -, _, -, _, -, _, -, ⟨dst, q'⟩, hdst, heq⟩ := hv
  cases heq
  exact decodeDst_uc hb hdst

theorem holds_getD (buf : List UInt8) (x : UInt8) : Holds (fun k => buf.getD k x) 0 buf := by
  rw [holds_iff]
  intro k hk
  simp [hk]

theorem ipv6_header_comes_back_iff_kept (henc : ipv6Encode link junk h = some buf) :
    (∀ m, Holds m 0 buf → ∃ h', (ipv6Decode link 0).value m = some (h', buf.length) ∧
      h'.vTcFl.getTc = h.vTcFl.getTc ∧ h'.vTcFl.getFl = h.vTcFl.getFl ∧ (¬ compressibleNh h.nh → h'.nh = h.nh) ∧
      h'.hl = h.hl ∧ h'.src = h.src ∧ h'.dst = h.dst) ↔
    SrcKept link h.src ∧ DstKept link junk h.dst := by
  by_cases huc : h.dst.isMulticast ∧ UcPrefix link junk h.dst
  · -- the two bytes behind the header are taken for the end of the address
    obtain ⟨b0, b1, rest, rfl, hb⟩ := ipv6Encode_uc huc.1 huc.2 henc
    refine iff_of_false ?_ ?_
    · intro hall
      obtain ⟨h', hv, -, -, -, -, -, hdst⟩ := hall _ (holds_getD _ (h.dst.u8 14 + 1))
      have h14 := ipv6Decode_uc hb hv
      rw [hdst] at h14
      simp at h14
    · rintro ⟨-, hkept⟩
      rw [DstKept, if_pos huc.1] at hkept; exact hkept huc.2
  · have hno : h.dst.isMulticast → ¬ UcPrefix link junk h.dst := fun hmc hu => huc ⟨hmc, hu⟩
    obtain ⟨sb, sl, so, db, cid, dl, out, hs, hd, hbuf⟩ := ipv6Encode_form hno henc
    rw [← hs.kept_iff, ← hd.kept_iff hno]
    constructor
    · intro hall
      obtain ⟨h', hv, -, -, -, -, hsrc, hdst⟩ := hall _ (holds_getD buf 0)
      obtain ⟨w, hw, -, -⟩ := ipv6Decode_value hs hd hbuf (holds_getD buf 0)
      rw [hv] at hw
      simp only [some.injEq, Prod.mk.injEq] at hw
      rw [hw.1] at hsrc hdst; exact ⟨hsrc, hdst⟩
    · rintro ⟨hsrc, hdst⟩ m hm
      obtain ⟨w, hw, htc, hfl⟩ := ipv6Decode_value hs hd hbuf hm
      rw [zero_add] at hw
      exact ⟨_, hw, htc, hfl, fun hnh => if_neg hnh, rfl, hsrc, hdst⟩

end

def docLink (prefixLen : Nat) : Link where
  ctxs id := ⟨Addr.zero.write 0 [0x20, 0x01, 0x0d, 0xb8], if id = 0 then prefixLen else 0, true⟩
  iid l :=
    if l.length = 8 then some (Vector.ofFn fun k => if k.val = 0 then l.getD 0 0 ^^^ 0x02 else l.getD k 0) else none
  src := [0x02, 0, 0, 0, 0, 0, 0, 0x0a]
  dst := [0x02, 0, 0, 0, 0, 0, 0, 0x0b]

def docHdr (n : UInt8) : Hdr where
  vTcFl := VTcFl.initial
  len := 0
  nh := 6
  hl := 64
  src := Addr.zero.write 0 [0x20, 0x01, 0x0d, 0xb8, 0, 0, 0, n, 0, 0, 0, 0, 0, 0, 0, 1]
  dst := Addr.zero.write 0 [0xff, 0x02, 0, 0, 0, 0, 0, 0, 0, 0, 0, 0, 0, 0, 0, 1]

theorem ipv6_header_comes_back_from_context :
    ∃ h', (ipv6Decode (docLink 64) 0).value (fun k => [0x7a, 0x5b, 6, 0, 0, 0, 0, 0, 0, 0, 1, 1].getD k 0) =
      some (h', 12) ∧ h'.src = (docHdr 0).src ∧ h'.dst = (docHdr 0).dst := by
  have henc : ipv6Encode (docLink 64) (fun _ => 0) (docHdr 0) =
    some [0x7a, 0x5b, 6, 0, 0, 0, 0, 0, 0, 0, 1, 1] := by decide
  have hsrc : SrcKept (docLink 64) (docHdr 0).src := by
    have hc : (docLink 64).srcCtx (docHdr 0).src = some 0 := by decide
    rw [SrcKept, hc]
    rintro ⟨k, hle, hlt, -⟩
    have hlen : 64 ≤ k := hle
    omega
  have hdst : DstKept (docLink 64) (fun _ => 0) (docHdr 0).dst := by
    rw [DstKept, if_pos (by decide)]; exact fun huc => huc.1 (by decide)
  obtain ⟨h', hv, -, -, -, -, hs, hd⟩ := (ipv6_header_comes_back_iff_kept henc).mpr ⟨hsrc, hdst⟩ _ (holds_getD _ 0)
  exact ⟨h', hv, hs, hd⟩

/-- The 16 bits between a prefix of 32 bits and the interface identifier are lost. -/
theorem ipv6_source_behind_short_context_lost : ∃ buf h', ipv6Encode (docLink 32) (fun _ => 0) (docHdr 1) = some buf ∧
    Holds (fun k => buf.getD k 0) 0 buf ∧ (ipv6Decode (docLink 32) 0).value (fun k => buf.getD k 0) =
      some (h', buf.length) ∧
    h'.src ≠ (docHdr 1).src :=
  ⟨_, _, rfl, holds_getD _ 0, rfl, by decide⟩

end PipRiot.Sixlowpan
