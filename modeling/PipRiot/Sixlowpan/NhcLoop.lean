import PipRiot.Sixlowpan.IphcWidths
import PipRiot.Sixlowpan.Nhc

/-!
# The loop over the next headers

Which headers the loop gets to is told by the bytes of the packet alone. From it follows
when the loop ends and how far it reads.
-/

namespace PipRiot.Sixlowpan

open Ipv6 Reading Option

inductive HeadKind
  | ext
  | reserved
  | ipv6
  | udp
  | other
  deriving DecidableEq

def headKind (b : UInt8) : HeadKind :=
  if b < 0xe0 then .other
  else if b < 0xea then .ext
  else if b < 0xee then .reserved
  else if b < 0xf0 then .ipv6
  else if b < 0xf8 then .udp
  else .other

def headTests (b : UInt8) : HeadKind → Bool
  | .ext => (b &&& 0xf8 = 0xe0 ∨ b &&& 0xf8 = 0xe8) ∧ (extProtnum (b &&& 0x0e)).isSome
  | .reserved => (b &&& 0xf8 = 0xe0 ∨ b &&& 0xf8 = 0xe8) ∧ (extProtnum (b &&& 0x0e)).isNone ∧ b &&& 0x0e ≠ 0x0e
  | .ipv6 => (b &&& 0xf8 = 0xe0 ∨ b &&& 0xf8 = 0xe8) ∧ (extProtnum (b &&& 0x0e)).isNone ∧ b &&& 0x0e = 0x0e
  | .udp => ¬ (b &&& 0xf8 = 0xe0 ∨ b &&& 0xf8 = 0xe8) ∧ b &&& 0xf8 = 0xf0
  | .other => ¬ (b &&& 0xf8 = 0xe0 ∨ b &&& 0xf8 = 0xe8) ∧ b &&& 0xf8 ≠ 0xf0

theorem headKind_tests : ∀ b : UInt8, headTests b (headKind b) := forall_byte (by decide +kernel)

def Recv.start (rx : Recv) : Nat := (rx.rbuf.map (·.pktSize)).getD 0

def Fits (rx : Recv) (size : Nat) : Prop := size ≤ rx.start ∨ rx.room size = true

def lenAt (m : Nat → UInt8) (off : Nat) : Nat := if m off &&& 0x01 = 0 then off + 2 else off + 1

def extLenAt (m : Nat → UInt8) (off : Nat) : Nat := (m (lenAt m off)).toNat

def portsWidth (b : UInt8) : Nat :=
  match b &&& 0x03 with
  | 0x00 => 4
  | 0x01 => 3
  | 0x02 => 3
  | _ => 1

/-- A next header at `off`, in front of which `un` bytes are decompressed. -/
inductive HeaderAt (rx : Recv) (m : Nat → UInt8) : Nat → Nat → Prop
  | first : Fits rx 40 → Ipv6Known rx.link m 0 → ipv6End m 0 ≤ rx.size → m 0 &&& 0x04 ≠ 0 →
      HeaderAt rx m (ipv6End m 0) 40
  | ext {off un : Nat} : HeaderAt rx m off un → headKind (m off) = .ext → Fits rx (un + 2 + extLenAt m off) →
      lenAt m off + 1 + extLenAt m off ≤ rx.size → m off &&& 0x01 ≠ 0 →
        HeaderAt rx m (lenAt m off + 1 + extLenAt m off) (un + 2 + extLenAt m off)
  | ipv6 {off un : Nat} : HeaderAt rx m off un → headKind (m off) = .ipv6 → Fits rx (un + 40) →
      Ipv6Known rx.link m (off + 1) →
      ipv6End m (off + 1) ≤ rx.size → m (off + 1) &&& 0x04 ≠ 0 → HeaderAt rx m (ipv6End m (off + 1)) (un + 40)

def NhcInside (rx : Recv) (m : Nat → UInt8) (n off un : Nat) : Prop :=
  off < n ∧
    match headKind (m off) with
    | .ext => lenAt m off < n ∧ (Fits rx (un + 2 + extLenAt m off) → Field n (lenAt m off + 1) (extLenAt m off))
    | .ipv6 => Fits rx (un + 40) → Ipv6Inside rx.link m n (off + 1)
    | .udp =>
      Fits rx (un + 8) → off + 1 + portsWidth (m off) ≤ n ∧ (m off &&& 0x04 = 0 → off + 3 + portsWidth (m off) ≤ n)
    | .reserved | .other => True

section
variable {rx : Recv} {m : Nat → UInt8} {s t : Nhc} {n off un size : Nat}

structure Ready (rx : Recv) (s : Nhc) : Prop where
  size : s.ipv6Size = max rx.start s.uncompHdrLen
  uncomp : 40 ≤ s.uncompHdrLen
  prev : 0 < s.prevNhOffset
  offset : s.payloadOffset ≤ rx.size

/-- A reception that is at `off`, with `un` bytes decompressed. -/
abbrev Recv.nhc (rx : Recv) (off prev un : Nat) (ipv6 : Nat → UInt8) : Nhc := ⟨off, prev, un, max rx.start un, ipv6⟩

theorem Ready.eq (h : Ready rx s) : s = rx.nhc s.payloadOffset s.prevNhOffset s.uncompHdrLen s.ipv6 := by
  rw [Recv.nhc, ← h.size]

/-! ## The decoders -/

theorem value_realloc (h : s.ipv6Size = max rx.start un) (hlt : un < size) :
    Fits rx size ∧ (realloc rx s size).value m = some { s with ipv6Size := max rx.start size } ∨
      ¬ Fits rx size ∧ (realloc rx s size).value m = none := by
  unfold realloc Fits
  by_cases hsize : s.ipv6Size < size
  · rw [if_pos hsize, show max rx.start size = size by omega]
    cases hroom : rx.room size with
    | false => exact .inr ⟨by simp; omega, rfl⟩
    | true => exact .inl ⟨.inr rfl, rfl⟩
  · rw [if_neg hsize, show max rx.start size = s.ipv6Size by omega]
    exact .inl ⟨.inl (by omega), rfl⟩

theorem within_realloc : Within m n (realloc rx s size) := by
  unfold realloc
  split
  · split <;> simp
  · simp

def extResult (rx : Recv) (m : Nat → UInt8) (s : Nhc) (protnum : UInt8) : Nhc :=
  let off := s.payloadOffset
  let pos := s.uncompHdrLen
  let len := extLenAt m off
  let data := extLenField (m (lenAt m off)) :: (List.range len).map fun k => m (lenAt m off + 1 + k)
  let ipv6 := put s.ipv6 s.prevNhOffset [protnum]
  ⟨lenAt m off + 1 + len, if m off &&& 0x01 = 0 then 0 else pos, pos + 2 + len, max rx.start (pos + 2 + len),
    if m off &&& 0x01 = 0 then put ipv6 pos (m (off + 1) :: data) else put ipv6 (pos + 1) data⟩

/-- The length that the decoder gives an encapsulated header whose compressed form ends at `p`. -/
def hdrLen (rx : Recv) (un p : Nat) : UInt16 :=
  match rx.rbuf with
  | some rbuf => UInt16.ofNat rbuf.datagramSize - UInt16.ofNat (un + 40)
  | none => UInt16.ofNat (rx.size + un) - UInt16.ofNat (40 + p)

def hdrOut (s : Nhc) (hdr : Hdr) : Nat → UInt8 := put (put s.ipv6 s.uncompHdrLen hdr.bytes) s.prevNhOffset [41]

theorem value_udpPorts (b : UInt8) (p : Nat) :
    ∃ ports, (udpPorts b p).value m = some (ports, p + portsWidth b) ∧ ports.length = 4 := by
  unfold udpPorts portsWidth
  split <;> simp_all [htons]

theorem within_udpPorts {b : UInt8} {p : Nat} : Within m n (udpPorts b p) ↔ p + portsWidth b ≤ n := by
  unfold udpPorts portsWidth
  split <;> simp_all <;> omega

/-- The length that the decoder gives a UDP header whose compressed form ends at `p`. -/
def udpLen (rx : Recv) (un p : Nat) : UInt16 :=
  match rx.rbuf with
  | some rbuf => UInt16.ofNat rbuf.datagramSize - UInt16.ofNat un
  | none => UInt16.ofNat (rx.size + 8) - UInt16.ofNat p

def udpOut (rx : Recv) (m : Nat → UInt8) (s : Nhc) (ports : List UInt8) (p : Nat) : Nat → UInt8 :=
  put (put s.ipv6 s.uncompHdrLen (ports ++ htons (udpLen rx s.uncompHdrLen (p + 2)) ++ [m p, m (p + 1)]))
    s.prevNhOffset [17]

section
variable {prev : Nat} {ipv6 : Nat → UInt8} {protnum : UInt8} (hs : s = rx.nhc off prev un ipv6)
include hs

theorem value_realloc_nhc (m : Nat → UInt8) (hlt : un < size) :
    Fits rx size ∧ (realloc rx s size).value m = some { s with ipv6Size := max rx.start size } ∨
      ¬ Fits rx size ∧ (realloc rx s size).value m = none :=
  @value_realloc rx m s un size (by rw [hs]) hlt

theorem value_nhcIpv6ExtDecode (hp : extProtnum (m off &&& 0x0e) = some protnum) :
    Fits rx (un + 2 + extLenAt m off) ∧ (nhcIpv6ExtDecode rx s).value m = some (extResult rx m s protnum) ∨
      ¬ Fits rx (un + 2 + extLenAt m off) ∧ (nhcIpv6ExtDecode rx s).value m = none := by
  have hv := value_realloc_nhc hs m (by omega : un < un + 2 + extLenAt m off)
  subst hs
  simp only [nhcIpv6ExtDecode, value_bind, value_byte, bind_some]
  rw [← lenAt, ← extLenAt]
  obtain ⟨hfits, hv⟩ | ⟨hfits, hv⟩ := hv
  · refine .inl ⟨hfits, ?_⟩
    simp only [hv, hp, bind_some, value_ite, value_bind, value_byte, value_bytes, value_pure, extResult]
    by_cases hnh : m off &&& 0x01 = 0
    · simp only [hnh, if_true, lenAt, extLenAt]
    · simp only [hnh, if_false, lenAt, extLenAt]
  · refine .inr ⟨hfits, ?_⟩
    rw [hv, bind_none]

theorem within_nhcIpv6ExtDecode (hp : extProtnum (m off &&& 0x0e) = some protnum) :
    Within m n (nhcIpv6ExtDecode rx s) ↔ off < n ∧ lenAt m off < n ∧
      (Fits rx (un + 2 + extLenAt m off) → Field n (lenAt m off + 1) (extLenAt m off)) := by
  have hv := value_realloc_nhc hs m (by omega : un < un + 2 + extLenAt m off)
  subst hs
  simp only [nhcIpv6ExtDecode, within_bind, within_byte, value_byte, some.injEq, forall_eq', within_realloc, true_and]
  rw [← lenAt, ← extLenAt]
  refine and_congr_right fun _ => and_congr_right fun hlen => ?_
  obtain ⟨hfits, hv⟩ | ⟨hfits, hv⟩ := hv
  · simp only [hv, some.injEq, forall_eq', hp, hfits, forall_const, Field]
    unfold lenAt at hlen ⊢
    by_cases hnh : m off &&& 0x01 = 0
    · simp only [hnh, if_true] at hlen ⊢
      simp
      omega
    · simp only [hnh, if_false] at hlen ⊢; simp
  · simp only [hv, hfits, reduceCtorEq, false_imp_iff, implies_true]

theorem value_nhcIpv6HdrDecode :
    (Fits rx (un + 40) ∧ Ipv6Known rx.link m (off + 1)) ∧ (∃ hdr, (nhcIpv6HdrDecode rx s).value m =
        some (rx.nhc (ipv6End m (off + 1)) (if m (off + 1) &&& 0x04 = 0 then 0 else un + 6) (un + 40) (hdrOut s hdr))) ∨
      ¬ (Fits rx (un + 40) ∧ Ipv6Known rx.link m (off + 1)) ∧ (nhcIpv6HdrDecode rx s).value m = none := by
  have hv := value_realloc_nhc hs m (by omega : un < un + 40)
  subst hs
  simp only [nhcIpv6HdrDecode, value_bind, value_byte, bind_some]
  obtain ⟨hfits, hv⟩ | ⟨hfits, hv⟩ := hv
  · obtain ⟨hknown, hdr, hd, -⟩ | ⟨hknown, hd⟩ := @value_ipv6Decode m rx.link (off + 1)
    · refine .inl ⟨⟨hfits, hknown⟩, { hdr with len := hdrLen rx un (ipv6End m (off + 1)) }, ?_⟩
      simp only [hv, hd, bind_some, value_pure]; rfl
    · refine .inr ⟨fun hf => hknown hf.2, ?_⟩
      simp only [hv, hd, bind_some, bind_none]
  · refine .inr ⟨fun hf => hfits hf.1, ?_⟩
    rw [hv, bind_none]

theorem within_nhcIpv6HdrDecode :
    Within m n (nhcIpv6HdrDecode rx s) ↔ (Fits rx (un + 40) → Ipv6Inside rx.link m n (off + 1)) := by
  have hv := value_realloc_nhc hs m (by omega : un < un + 40)
  subst hs
  simp only [nhcIpv6HdrDecode, within_bind, within_realloc, true_and, within_ipv6Decode, within_byte, value_byte,
    some.injEq, forall_eq', within_pure, and_true]
  obtain ⟨hfits, hv⟩ | ⟨hfits, hv⟩ := hv
  · simp only [hv, hfits, some.injEq, forall_eq', forall_const]
    refine and_iff_left_of_imp fun hin => ?_
    have := hin.dispatch
    intro a _; omega
  · simp only [hv, hfits, reduceCtorEq, false_imp_iff, implies_true]

theorem value_nhcUdpDecode :
    (Fits rx (un + 8) ∧ m off &&& 0x04 = 0) ∧ (∃ ports p, p = off + 1 + portsWidth (m off) ∧
        (udpPorts (m off) (off + 1)).value m = some (ports, p) ∧ ports.length = 4 ∧
        (nhcUdpDecode rx s).value m = some (rx.nhc (p + 2) s.prevNhOffset (un + 8) (udpOut rx m s ports p))) ∨
      ¬ (Fits rx (un + 8) ∧ m off &&& 0x04 = 0) ∧ (nhcUdpDecode rx s).value m = none := by
  have hv := value_realloc_nhc hs m (by omega : un < un + 8)
  subst hs
  simp only [nhcUdpDecode, value_bind, value_byte, bind_some]
  obtain ⟨ports, hports, hlen⟩ := @value_udpPorts m (m off) (off + 1)
  obtain ⟨hfits, hv⟩ | ⟨hfits, hv⟩ := hv
  · simp only [hv, hports, bind_some, value_ite, value_fail, value_bind, value_bytes, value_pure]
    by_cases hel : m off &&& 0x04 = 0
    · refine .inl ⟨⟨hfits, hel⟩, ports, _, rfl, rfl, hlen, ?_⟩
      rw [if_neg (not_not_intro hel)]; rfl
    · exact .inr ⟨fun hf => hel hf.2, if_pos hel⟩
  · refine .inr ⟨fun hf => hfits hf.1, ?_⟩
    rw [hv, bind_none]

theorem within_nhcUdpDecode :
    Within m n (nhcUdpDecode rx s) ↔ off < n ∧ (Fits rx (un + 8) → off + 1 + portsWidth (m off) ≤ n ∧
      (m off &&& 0x04 = 0 → off + 3 + portsWidth (m off) ≤ n)) := by
  have hv := value_realloc_nhc hs m (by omega : un < un + 8)
  subst hs
  simp only [nhcUdpDecode, within_bind, within_byte, value_byte, some.injEq, forall_eq', within_realloc, true_and]
  refine and_congr_right fun _ => ?_
  obtain ⟨ports, hports, -⟩ := @value_udpPorts m (m off) (off + 1)
  obtain ⟨hfits, hv⟩ | ⟨hfits, hv⟩ := hv
  · simp only [hv, hfits, hports, some.injEq, forall_eq', forall_const, within_udpPorts]
    by_cases hel : m off &&& 0x04 = 0
    · simp [hel]
      omega
    · simp [hel]
  · simp only [hv, hfits, reduceCtorEq, false_imp_iff, implies_true]

end

/-! ## The rounds -/

/-- What a round makes of `s`, which is at `off` with `un` bytes decompressed. -/
inductive RoundTo (rx : Recv) (m : Nat → UInt8) (s : Nhc) (off un : Nat) : Option (Nhc ⊕ Nhc) → Prop
  | ext {protnum : UInt8} : headKind (m off) = .ext → extProtnum (m off &&& 0x0e) = some protnum →
      Fits rx (un + 2 + extLenAt m off) → lenAt m off + 1 + extLenAt m off ≤ rx.size → m off &&& 0x01 ≠ 0 →
      RoundTo rx m s off un (some (.inl (extResult rx m s protnum)))
  | lastExt {protnum : UInt8} : headKind (m off) = .ext → extProtnum (m off &&& 0x0e) = some protnum →
      lenAt m off + 1 + extLenAt m off ≤ rx.size → m off &&& 0x01 = 0 →
      RoundTo rx m s off un (some (.inr (extResult rx m s protnum)))
  | noExt : headKind (m off) = .ext →
      ¬ (Fits rx (un + 2 + extLenAt m off) ∧ lenAt m off + 1 + extLenAt m off ≤ rx.size) → RoundTo rx m s off un none
  | ipv6 {t : Nhc} {hdr : Hdr} : headKind (m off) = .ipv6 → Fits rx (un + 40) → Ipv6Known rx.link m (off + 1) →
      ipv6End m (off + 1) ≤ rx.size → m (off + 1) &&& 0x04 ≠ 0 →
      t = rx.nhc (ipv6End m (off + 1)) (un + 6) (un + 40) (hdrOut s hdr) → RoundTo rx m s off un (some (.inl t))
  | lastIpv6 {t : Nhc} {hdr : Hdr} : headKind (m off) = .ipv6 → ipv6End m (off + 1) ≤ rx.size →
      m (off + 1) &&& 0x04 = 0 →
      t = rx.nhc (ipv6End m (off + 1)) 0 (un + 40) (hdrOut s hdr) → RoundTo rx m s off un (some (.inr t))
  | noIpv6 : headKind (m off) = .ipv6 →
      ¬ (Fits rx (un + 40) ∧ Ipv6Known rx.link m (off + 1) ∧ ipv6End m (off + 1) ≤ rx.size) → RoundTo rx m s off un none
  | udp {t : Nhc} {ports : List UInt8} {p : Nat} : headKind (m off) = .udp → p = off + 1 + portsWidth (m off) →
      (udpPorts (m off) (off + 1)).value m = some (ports, p) → ports.length = 4 → p + 2 ≤ rx.size →
      t = rx.nhc (p + 2) s.prevNhOffset (un + 8) (udpOut rx m s ports p) → RoundTo rx m s off un (some (.inr t))
  | noUdp : headKind (m off) = .udp →
      ¬ (Fits rx (un + 8) ∧ m off &&& 0x04 = 0 ∧ off + 3 + portsWidth (m off) ≤ rx.size) → RoundTo rx m s off un none
  | reserved : headKind (m off) = .reserved → RoundTo rx m s off un (some (.inl s))
  | other : headKind (m off) = .other → RoundTo rx m s off un (some (.inr s))

section
variable (h : Ready rx s)
include h

theorem value_nhcRound : RoundTo rx m s s.payloadOffset s.uncompHdrLen ((nhcRound rx s).value m) := by
  have htests := headKind_tests (m s.payloadOffset)
  simp only [nhcRound, value_bind, value_byte, bind_some, value_ite, nhcIpv6Decode]
  cases hk : headKind (m s.payloadOffset) with
  | ext =>
    simp only [hk, headTests, decide_eq_true_eq] at htests
    obtain ⟨hext, hsome⟩ := htests
    obtain ⟨protnum, hp⟩ := isSome_iff_exists.1 hsome
    rw [if_pos hext, if_pos hsome]
    obtain ⟨hfits, hv⟩ | ⟨hfits, hv⟩ := value_nhcIpv6ExtDecode h.eq hp
    · rw [hv, bind_some]
      by_cases hend : rx.size < (extResult rx m s protnum).payloadOffset
      · rw [if_pos hend]
        exact .noExt hk fun hf => absurd hf.2 (not_le.2 hend)
      · rw [if_neg hend]
        by_cases hnh : m s.payloadOffset &&& 0x01 = 0
        · rw [if_neg (by simp [extResult, hnh])]
          exact .lastExt hk hp (not_lt.1 hend) hnh
        · have := h.uncomp
          rw [if_pos (by simp [extResult, hnh]; omega)]
          exact .ext hk hp hfits (not_lt.1 hend) hnh
    · rw [hv, bind_none]; exact .noExt hk fun hf => hfits hf.1
  | reserved =>
    simp only [hk, headTests, decide_eq_true_eq, isNone_iff_eq_none] at htests
    obtain ⟨hext, hnone, heid⟩ := htests
    rw [if_pos hext, if_neg (by simp [hnone]), if_neg heid, value_pure, bind_some, if_neg (not_lt.2 h.offset),
      if_pos h.prev]
    exact .reserved hk
  | ipv6 =>
    simp only [hk, headTests, decide_eq_true_eq, isNone_iff_eq_none] at htests
    obtain ⟨hext, hnone, heid⟩ := htests
    rw [if_pos hext, if_neg (by simp [hnone]), if_pos heid]
    obtain ⟨⟨hfits, hknown⟩, hdr, hv⟩ | ⟨hfits, hv⟩ := @value_nhcIpv6HdrDecode _ m _ _ _ _ _ h.eq
    · rw [hv, bind_some]
      by_cases hend : rx.size < ipv6End m (s.payloadOffset + 1)
      · rw [if_pos hend]
        exact .noIpv6 hk fun hf => absurd hf.2.2 (not_le.2 hend)
      · rw [if_neg hend]
        by_cases hnh : m (s.payloadOffset + 1) &&& 0x04 = 0
        · rw [if_neg (by simp [hnh])]
          exact .lastIpv6 hk (not_lt.1 hend) hnh (by rw [if_pos hnh])
        · rw [if_pos (by simp [hnh])]
          exact .ipv6 hk hfits hknown (not_lt.1 hend) hnh (by rw [if_neg hnh])
    · rw [hv, bind_none]
      exact .noIpv6 hk fun hf => hfits ⟨hf.1, hf.2.1⟩
  | udp =>
    simp only [hk, headTests, decide_eq_true_eq] at htests
    obtain ⟨hext, hudp⟩ := htests
    rw [if_neg hext, if_pos hudp]
    obtain ⟨⟨hfits, hel⟩, ports, p, hp, hports, hlen, hv⟩ | ⟨hfits, hv⟩ := @value_nhcUdpDecode _ m _ _ _ _ _ h.eq
    · rw [hv, bind_some]
      by_cases hend : rx.size < p + 2
      · rw [if_pos hend]
        exact .noUdp hk fun hf => absurd hf.2.2 (by omega)
      · rw [if_neg hend]
        exact .udp hk hp hports hlen (by omega) rfl
    · rw [hv, bind_none]
      exact .noUdp hk fun hf => hfits ⟨hf.1, hf.2.1⟩
  | other =>
    simp only [hk, headTests, decide_eq_true_eq] at htests
    rw [if_neg htests.1, if_neg htests.2]; exact .other hk

theorem round_ext (hk : headKind (m s.payloadOffset) = .ext)
    (hfits : Fits rx (s.uncompHdrLen + 2 + extLenAt m s.payloadOffset))
    (hend : lenAt m s.payloadOffset + 1 + extLenAt m s.payloadOffset ≤ rx.size) (hnh : m s.payloadOffset &&& 0x01 ≠ 0) :
    ∃ protnum, (nhcRound rx s).value m = some (.inl (extResult rx m s protnum)) := by
  have hround := @value_nhcRound rx m s h
  generalize (nhcRound rx s).value m = r at hround
  cases hround with
  | ext => exact ⟨_, rfl⟩
  | lastExt _ _ _ hz => exact absurd hz hnh
  | noExt _ hno => exact absurd ⟨hfits, hend⟩ hno
  | ipv6 hk' | lastIpv6 hk' | noIpv6 hk' | udp hk' | noUdp hk' | reserved hk' | other hk' =>
    exact absurd (hk.symm.trans hk') (by decide)

theorem round_ipv6 (hk : headKind (m s.payloadOffset) = .ipv6) (hfits : Fits rx (s.uncompHdrLen + 40))
    (hknown : Ipv6Known rx.link m (s.payloadOffset + 1)) (hend : ipv6End m (s.payloadOffset + 1) ≤ rx.size)
    (hnh : m (s.payloadOffset + 1) &&& 0x04 ≠ 0) :
    ∃ t, (nhcRound rx s).value m = some (.inl t) ∧ t.payloadOffset = ipv6End m (s.payloadOffset + 1) ∧
      t.uncompHdrLen = s.uncompHdrLen + 40 := by
  have hround := @value_nhcRound rx m s h
  generalize (nhcRound rx s).value m = r at hround
  cases hround with
  | ipv6 _ _ _ _ _ ht => exact ⟨_, rfl, by rw [ht], by rw [ht]⟩
  | lastIpv6 _ _ hz => exact absurd hz hnh
  | noIpv6 _ hno => exact absurd ⟨hfits, hknown, hend⟩ hno
  | ext hk' | lastExt hk' | noExt hk' | udp hk' | noUdp hk' | reserved hk' | other hk' =>
    exact absurd (hk.symm.trans hk') (by decide)

theorem round_reserved (hk : headKind (m s.payloadOffset) = .reserved) : (nhcRound rx s).value m = some (.inl s) := by
  have hround := @value_nhcRound rx m s h
  generalize (nhcRound rx s).value m = r at hround
  cases hround with
  | reserved => rfl
  | ext hk' | lastExt hk' | noExt hk' | ipv6 hk' | lastIpv6 hk' | noIpv6 hk' | udp hk' | noUdp hk' | other hk' =>
    exact absurd (hk.symm.trans hk') (by decide)

theorem within_nhcRound : Within m n (nhcRound rx s) ↔ NhcInside rx m n s.payloadOffset s.uncompHdrLen := by
  have htests := headKind_tests (m s.payloadOffset)
  simp only [nhcRound, nhcIpv6Decode, within_bind, within_byte, value_byte, some.injEq, forall_eq',
    within_ite, NhcInside]
  refine and_congr_right fun hoff => ?_
  cases hk : headKind (m s.payloadOffset) with
  | ext =>
    simp only [hk, headTests, decide_eq_true_eq] at htests
    obtain ⟨hext, hsome⟩ := htests
    obtain ⟨protnum, hp⟩ := isSome_iff_exists.1 hsome
    simp [hext, hsome, hoff, within_nhcIpv6ExtDecode h.eq hp]
  | reserved =>
    simp only [hk, headTests, decide_eq_true_eq, isNone_iff_eq_none] at htests
    obtain ⟨hext, hnone, heid⟩ := htests
    simp [hext, hnone, heid, hoff]
  | ipv6 =>
    simp only [hk, headTests, decide_eq_true_eq, isNone_iff_eq_none] at htests
    obtain ⟨hext, hnone, heid⟩ := htests
    rw [heid] at hnone
    simp [hext, hnone, heid, hoff, within_nhcIpv6HdrDecode h.eq]
  | udp =>
    simp only [hk, headTests, decide_eq_true_eq] at htests
    obtain ⟨hext, hudp⟩ := htests
    simp [hudp, hoff, within_nhcUdpDecode h.eq]
  | other =>
    simp only [hk, headTests, decide_eq_true_eq] at htests
    simp [htests.1, htests.2]

end

/-! ## The headers of a packet -/

theorem le_ipv6End (m : Nat → UInt8) (base : Nat) : base + 2 ≤ ipv6End m base := by
  unfold ipv6End fieldsAt
  split <;> omega

theorem round_inl (h : Ready rx s) (hv : (nhcRound rx s).value m = some (.inl t))
    (hat : HeaderAt rx m s.payloadOffset s.uncompHdrLen) :
    Ready rx t ∧ HeaderAt rx m t.payloadOffset t.uncompHdrLen ∧
      (headKind (m s.payloadOffset) ≠ .reserved → s.payloadOffset < t.payloadOffset) := by
  have hround := @value_nhcRound rx m s h
  rw [hv] at hround
  have hun := h.uncomp
  cases hround with
  | ext hk hp hfits hend hnh =>
    refine ⟨⟨rfl, ?_, ?_, hend⟩, .ext hat hk hfits hend hnh, fun _ => ?_⟩
    · show 40 ≤ s.uncompHdrLen + 2 + _
      omega
    · simp only [extResult, hnh, if_false]; omega
    · show s.payloadOffset < lenAt m s.payloadOffset + 1 + _
      unfold lenAt
      split <;> omega
  | ipv6 hk hfits hknown hend hnh ht =>
    subst ht
    refine ⟨⟨rfl, le_trans hun (Nat.le_add_right _ _), Nat.succ_pos _, hend⟩, .ipv6 hat hk hfits hknown hend hnh,
      fun _ => ?_⟩
    have := le_ipv6End m (s.payloadOffset + 1)
    show s.payloadOffset < ipv6End m (s.payloadOffset + 1)
    omega
  | reserved hk => exact ⟨h, hat, fun hne => absurd hk hne⟩

theorem reaches_headerAt {s0 : Nhc} (h0 : Ready rx s0) (hat0 : HeaderAt rx m s0.payloadOffset s0.uncompHdrLen)
    (h : Reaches (nhcRound rx) m s0 s) : Ready rx s ∧ HeaderAt rx m s.payloadOffset s.uncompHdrLen := by
  induction h with
  | start => exact ⟨h0, hat0⟩
  | next _ hv ih =>
    have hnext := round_inl ih.1 hv ih.2
    exact ⟨hnext.1, hnext.2.1⟩

structure Opened (rx : Recv) (m : Nat → UInt8) : Prop where
  fits : Fits rx 40
  known : Ipv6Known rx.link m 0
  stop : ipv6End m 0 ≤ rx.size

theorem HeaderAt.opened (h : HeaderAt rx m off un) : Opened rx m ∧ m 0 &&& 0x04 ≠ 0 := by
  induction h with
  | first hfits hknown hend hnh => exact ⟨⟨hfits, hknown, hend⟩, hnh⟩
  | ext _ _ _ _ _ ih | ipv6 _ _ _ _ _ _ ih => exact ih

theorem HeaderAt.reached {s0 : Nhc} (h0 : Ready rx s0) (hat0 : HeaderAt rx m s0.payloadOffset s0.uncompHdrLen)
    (hoff : s0.payloadOffset = ipv6End m 0)
    (hun : s0.uncompHdrLen = 40) (h : HeaderAt rx m off un) : ∃ s, Reaches (nhcRound rx) m s0 s ∧
      s.payloadOffset = off ∧ s.uncompHdrLen = un := by
  induction h with
  | first => exact ⟨s0, .start, hoff, hun⟩
  | ext hat hk hfits hend hnh ih =>
    obtain ⟨s, hs, rfl, rfl⟩ := ih
    obtain ⟨protnum, hv⟩ := round_ext (reaches_headerAt h0 hat0 hs).1 hk hfits hend hnh
    exact ⟨_, hs.next hv, rfl, rfl⟩
  | ipv6 hat hk hfits hknown hend hnh ih =>
    obtain ⟨s, hs, rfl, rfl⟩ := ih
    obtain ⟨t, hv, hoff', hun'⟩ := round_ipv6 (reaches_headerAt h0 hat0 hs).1 hk hfits hknown hend hnh
    exact ⟨t, hs.next hv, hoff', hun'⟩

/-! ## Receiving -/

def opening (rx : Recv) (m : Nat → UInt8) (hdr : Hdr) : Nhc :=
  ⟨ipv6End m 0, 6, 40, max rx.start 40, put rx.junk 0 hdr.bytes⟩

theorem Opened.ready (h : Opened rx m) (hdr : Hdr) : Ready rx (opening rx m hdr) :=
  ⟨rfl, le_rfl, Nat.succ_pos 5, h.stop⟩

theorem Opened.headerAt (h : Opened rx m) (hnh : m 0 &&& 0x04 ≠ 0) (hdr : Hdr) :
    HeaderAt rx m (opening rx m hdr).payloadOffset (opening rx m hdr).uncompHdrLen := .first h.fits h.known h.stop hnh

theorem Opened.not_short (h : Opened rx m) : ¬ rx.size < 2 := by
  have := le_ipv6End m 0
  have := h.stop
  omega

theorem value_realloc_start :
    Fits rx 40 ∧ (realloc rx ⟨0, 6, 40, rx.start, rx.junk⟩ 40).value m = some ⟨0, 6, 40, max rx.start 40, rx.junk⟩ ∨
    ¬ Fits rx 40 ∧ (realloc rx ⟨0, 6, 40, rx.start, rx.junk⟩ 40).value m = none :=
  @value_realloc rx m ⟨0, 6, 40, rx.start, rx.junk⟩ 0 40 (Nat.max_zero _).symm (by decide)

theorem value_nhcLoop (fuel : Nat) (s : Nhc) :
    (nhcLoop rx fuel s).value m = if m 0 &&& 0x04 = 0 then some (some s) else (loop (nhcRound rx) fuel s).value m := by
  rw [nhcLoop, value_bind, value_byte, bind_some, value_ite, value_pure]

theorem value_iphcRecv (h : Opened rx m) :
    ∃ hdr, (ipv6Decode rx.link 0).value m = some (hdr, ipv6End m 0) ∧ ∀ fuel, (iphcRecv rx fuel).value m =
      ((nhcLoop rx fuel (opening rx m hdr)).value m).bind fun t => (afterLoop rx t).value m := by
  obtain ⟨-, hv⟩ | ⟨hno, -⟩ := @value_realloc_start rx m
  · obtain ⟨-, hdr, hd, -⟩ | ⟨hno, -⟩ := @value_ipv6Decode m rx.link 0
    · refine ⟨hdr, hd, fun fuel => ?_⟩
      rw [iphcRecv, if_neg h.not_short, value_bind, ← Recv.start, hv, bind_some, value_bind, hd, bind_some, value_ite,
        if_neg (not_lt.2 h.stop), value_bind]
      rfl
    · exact absurd h.known hno
  · exact absurd h.fits hno

theorem value_iphcRecv_none (h : ¬ Opened rx m) (fuel : Nat) : (iphcRecv rx fuel).value m = none := by
  simp only [iphcRecv, value_ite, value_fail, value_bind]
  rw [← Recv.start]
  split
  · rfl
  · obtain ⟨hfits, hv⟩ | ⟨-, hv⟩ := @value_realloc_start rx m
    · rw [hv, bind_some]
      obtain ⟨hknown, hdr, hd, -⟩ | ⟨-, hd⟩ := @value_ipv6Decode m rx.link 0
      · have hstop : rx.size < ipv6End m 0 := not_le.mp fun hle => h ⟨hfits, hknown, hle⟩
        rw [hd, bind_some, if_pos hstop]
      · rw [hd, bind_none]
    · rw [hv, bind_none]

theorem afterLoop_ne : (afterLoop rx (some s)).value m ≠ some none := by
  simp only [afterLoop, value_bind, value_pure]
  cases (iphcFinish rx s).value m <;> simp

theorem within_iphcFinish : Within m rx.size (iphcFinish rx s) := by
  simp only [iphcFinish, within_bind, within_bytes, within_pure, implies_true, and_true]
  refine ⟨?_, fun a _ => by omega⟩
  unfold recvRoom
  split
  · split <;> simp
  · dsimp only
    split <;> simp

theorem within_afterLoop (t : Option Nhc) : Within m rx.size (afterLoop rx t) := by
  cases t with
  | none => exact within_pure _
  | some t => simp [afterLoop, within_iphcFinish]

theorem within_iphcRecv (hn : 2 ≤ rx.size) (fuel : Nat) :
    Within m rx.size (iphcRecv rx fuel) ↔ (Fits rx 40 → Ipv6Inside rx.link m rx.size 0) ∧
    (Opened rx m → m 0 &&& 0x04 ≠ 0 → ∀ hdr, (ipv6Decode rx.link 0).value m = some (hdr, ipv6End m 0) →
      Within m rx.size (loop (nhcRound rx) fuel (opening rx m hdr))) := by
  rw [iphcRecv, if_neg (not_lt.2 hn), within_bind, ← Recv.start]
  obtain ⟨hfits, hv⟩ | ⟨hfits, hv⟩ := @value_realloc_start rx m
  · simp only [hv, hfits, within_realloc, true_and, some.injEq, forall_eq', forall_const, within_bind,
      within_ipv6Decode]
    refine and_congr_right fun _ => ?_
    obtain ⟨hknown, hdr, hd, -⟩ | ⟨hknown, hd⟩ := @value_ipv6Decode m rx.link 0
    · simp only [hd, some.injEq, forall_eq', Prod.mk.injEq, and_true]
      by_cases hstop : rx.size < ipv6End m 0
      · rw [if_pos hstop]
        exact iff_of_true within_fail fun h => absurd h.stop (not_le.2 hstop)
      · have hopen : Opened rx m := ⟨hfits, hknown, not_lt.1 hstop⟩
        rw [if_neg hstop, within_bind, nhcLoop, within_bind, within_byte]
        simp only [value_byte, some.injEq, forall_eq', within_afterLoop, implies_true, and_true, within_ite,
          within_pure, true_and, hopen, forall_const]
        exact and_iff_right (by omega)
    · simp only [hd, reduceCtorEq, false_imp_iff, implies_true]
  · simp only [hv, hfits, within_realloc, reduceCtorEq, false_imp_iff, implies_true, true_and, true_iff]
    exact fun h => absurd h.fits hfits

end

def bareLink : Link := ⟨fun _ => ⟨Addr.zero, 0, false⟩, fun _ => some (Vector.replicate 8 0), [], []⟩

def bareRecv (size : Nat) : Recv := ⟨bareLink, size, none, fun _ => true, fun _ => 0⟩

def udpPacket (k : Nat) : UInt8 := [0x7e, 0x33, 0xf3, 0x12, 0xab, 0xcd].getD k 0

theorem udpPacket_headers {off un : Nat} (h : HeaderAt (bareRecv 6) udpPacket off un) : off = 2 ∧ un = 40 := by
  induction h with
  | first => exact ⟨rfl, rfl⟩
  | ext _ hk _ _ _ ih | ipv6 _ hk _ _ _ _ ih =>
    rw [ih.1] at hk; exact absurd hk (by decide)

section
variable {rx : Recv} {m : Nat → UInt8}

/-- Reception ends unless it gets to a reserved header. -/
theorem iphcRecv_ends_iff (rx : Recv) (m : Nat → UInt8) :
    (∃ fuel, (iphcRecv rx fuel).value m ≠ some none) ↔ ∀ off un,
      HeaderAt rx m off un → headKind (m off) ≠ .reserved := by
  by_cases h : Opened rx m
  · obtain ⟨hdr, -, hv⟩ := value_iphcRecv h
    simp only [hv, value_nhcLoop]
    by_cases hnh : m 0 &&& 0x04 = 0
    · refine iff_of_true ⟨0, ?_⟩ fun off un hat => absurd hnh hat.opened.2
      rw [if_pos hnh, bind_some]; exact afterLoop_ne
    · simp only [if_neg hnh]
      have h0 := h.ready hdr
      have hat0 := h.headerAt hnh hdr
      constructor
      · rintro ⟨fuel, hne⟩ off un hat hk
        obtain ⟨s, hs, rfl, rfl⟩ := HeaderAt.reached h0 hat0 rfl rfl hat
        have hround := round_reserved (reaches_headerAt h0 hat0 hs).1 hk
        rw [hs.endless hround] at hne; exact hne rfl
      · intro hall
        -- the offset grows with every round and stays below the size
        obtain ⟨k, hk⟩ := loop_ends (fun s : Nhc => s.payloadOffset) rx.size fun t u ht htu => by
          obtain ⟨hr, hat⟩ := reaches_headerAt h0 hat0 ht
          obtain ⟨hr', -, hlt⟩ := round_inl hr htu hat
          exact ⟨hlt (hall _ _ hat), hr'.offset⟩
        refine ⟨k, ?_⟩
        match hl : (loop (nhcRound rx) k (opening rx m hdr)).value m with
        | none => simp
        | some none => exact absurd hl hk
        | some (some t) => exact afterLoop_ne
  · refine iff_of_true ⟨0, ?_⟩ fun off un hat => absurd hat.opened.1 h
    rw [value_iphcRecv_none h]; simp

end

theorem iphcRecv_ends_udp : ∃ fuel, (iphcRecv (bareRecv 6) fuel).value udpPacket ≠ some none := by
  refine (iphcRecv_ends_iff _ _).2 fun off un h => ?_
  rw [(udpPacket_headers h).1]
  decide

def reservedPacket (k : Nat) : UInt8 := [0x7e, 0x33, 0xea].getD k 0

theorem iphcRecv_hangs : ¬ ∃ fuel, (iphcRecv (bareRecv 3) fuel).value reservedPacket ≠ some none := by
  have hknown : Ipv6Known bareLink reservedPacket 0 :=
    ⟨fun h => absurd h (by decide), fun _ => rfl, fun h => absurd h (by decide), fun _ => rfl⟩
  have hopen : Opened (bareRecv 3) reservedPacket := ⟨.inr rfl, hknown, by decide⟩
  obtain ⟨hdr, -, hv⟩ := value_iphcRecv hopen
  have hk : headKind (reservedPacket (ipv6End reservedPacket 0)) = .reserved := by decide
  rintro ⟨fuel, hne⟩
  rw [hv, value_nhcLoop, if_neg (by decide), Reaches.start.endless (round_reserved (hopen.ready hdr) hk)] at hne
  exact hne rfl

section
variable {rx : Recv} {m : Nat → UInt8}

/-- Nothing behind the packet is used if and only if its headers lie in it. -/
theorem iphcRecv_inside_iff (hn : 2 ≤ rx.size) : (∀ fuel, Within m rx.size (iphcRecv rx fuel)) ↔
    (Fits rx 40 → Ipv6Inside rx.link m rx.size 0) ∧ ∀ off un, HeaderAt rx m off un → NhcInside rx m rx.size off un := by
  simp only [within_iphcRecv hn, forall_and, forall_const]
  refine and_congr_right fun _ => ?_
  constructor
  · intro hloop off un hat
    obtain ⟨hopen, hnh⟩ := hat.opened
    obtain ⟨hdr, hd, -⟩ := value_iphcRecv hopen
    have h0 := hopen.ready hdr
    have hat0 := hopen.headerAt hnh hdr
    obtain ⟨s, hs, rfl, rfl⟩ := HeaderAt.reached h0 hat0 rfl rfl hat
    exact (within_nhcRound (reaches_headerAt h0 hat0 hs).1).1
      (within_loop_iff.1 (fun k => hloop k hopen hnh hdr hd) s hs)
  · intro hall fuel hopen hnh hdr _
    have h0 := hopen.ready hdr
    have hat0 := hopen.headerAt hnh hdr
    refine within_loop_of_reaches (fun s hs => ?_) fuel
    obtain ⟨hr, hat⟩ := reaches_headerAt h0 hat0 hs
    exact (within_nhcRound hr).2 (hall _ _ hat)

end

theorem iphcRecv_inside_udp : 2 ≤ (bareRecv 6).size ∧ ∀ fuel, Within udpPacket 6 (iphcRecv (bareRecv 6) fuel) := by
  refine ⟨by decide, (@iphcRecv_inside_iff (bareRecv 6) udpPacket (by decide)).2 ⟨fun _ => ?_, fun off un h => ?_⟩⟩
  · exact ⟨by decide, .inl (by decide), fun h => absurd h (by decide), fun _ => .inl (by decide),
      fun _ _ h => absurd h (by decide), fun _ _ _ => .inl (by decide)⟩
  · obtain ⟨rfl, rfl⟩ := udpPacket_headers h
    refine ⟨by decide, ?_⟩
    exact fun _ => ⟨by decide, fun _ => by decide⟩

/-- The next header field of a packet of two bytes. -/
theorem iphcRecv_reads_behind : ¬ ∀ fuel, Within (fun k => [0x7a, 0x33].getD k 0) 2 (iphcRecv (bareRecv 2) fuel) := by
  intro h
  have h2 := h 0 2 (by decide)
  omega

/-! ## A UDP header comes back -/

section
variable {rx : Recv} {m : Nat → UInt8} {s : Nhc} {hi lo s0 s1 d0 d1 l0 l1 c0 c1 : UInt8} {off p : Nat}

theorem be16_and (c : UInt16) : be16 hi lo &&& c = (hi.toUInt16 <<< 8 &&& c) ||| (lo.toUInt16 &&& c) :=
  UInt16.toBitVec_inj.1 BitVec.and_or_distrib_right

theorem high_byte : ∀ b : UInt8, b.toUInt16 <<< 8 &&& 0xFF00 = 0xF000 → b = 0xf0 := forall_byte (by decide +kernel)

theorem low_byte : ∀ b : UInt8, b.toUInt16 &&& 0xFF00 = 0 := forall_byte (by decide +kernel)

theorem eq_of_port8 (h : be16 hi lo &&& 0xFF00 = 0xF000) : hi = 0xf0 := by
  rw [be16_and, low_byte, UInt16.or_zero] at h
  exact high_byte hi h

theorem port8_back : ∀ b : UInt8, htons ((be16 0xf0 b - 0xF000).toUInt8.toUInt16 + 0xF000) = [0xf0, b] :=
  forall_byte (by decide +kernel)

theorem low_of_port4 : ∀ b : UInt8, be16 0xf0 b &&& 0xFFF0 = 0xF0B0 → ∃ k < 16, b = UInt8.ofNat (0xb0 + k) :=
  forall_byte (by decide +kernel)

theorem eq_of_port4 (h : be16 hi lo &&& 0xFFF0 = 0xF0B0) : hi = 0xf0 ∧ ∃ k < 16, lo = UInt8.ofNat (0xb0 + k) := by
  have hhi : be16 hi lo &&& 0xFF00 = 0xF000 := by
    rw [show (0xFF00 : UInt16) = 0xFFF0 &&& 0xFF00 from rfl, ← UInt16.and_assoc, h]
    rfl
  obtain rfl := eq_of_port8 hhi
  exact ⟨rfl, low_of_port4 lo h⟩

theorem ports4_back : ∀ i < 16, ∀ j < 16,
    let b := (be16 0xf0 (UInt8.ofNat (0xb0 + j)) - 0xF0B0 + (be16 0xf0 (UInt8.ofNat (0xb0 + i)) - 0xF0B0 : UInt16) <<<
      (4 : UInt16)).toUInt8
    htons ((b >>> 4).toUInt16 + 0xF0B0) ++ htons ((b &&& 0x0f).toUInt16 + 0xF0B0) =
      [0xf0, UInt8.ofNat (0xb0 + i), 0xf0, UInt8.ofNat (0xb0 + j)] := by decide +kernel

theorem udpPorts_encoded (hm : Holds m off (nhcUdpEncode [s0, s1, d0, d1, l0, l1, c0, c1])) :
    ∃ q, off + (nhcUdpEncode [s0, s1, d0, d1, l0, l1, c0, c1]).length = q + 2 ∧
      (udpPorts (m off) (off + 1)).value m = some ([s0, s1, d0, d1], q) ∧ (m q = c0 ∧ m (q + 1) = c1) ∧
      headKind (m off) = .udp ∧ m off &&& 0x04 = 0 := by
  simp only [nhcUdpEncode, List.getD_cons_zero, List.getD_cons_succ] at hm ⊢
  split_ifs at hm ⊢ with h4 hd hs
  all_goals simp only [List.cons_append, List.nil_append, holds_cons, add_assoc, Nat.reduceAdd] at hm
  · obtain ⟨rfl, i, hi, rfl⟩ := eq_of_port4 h4.1
    obtain ⟨rfl, j, hj, rfl⟩ := eq_of_port4 h4.2
    obtain ⟨h0, h1, hc0, hc1, -⟩ := hm
    refine ⟨off + 2, rfl, ?_, ⟨hc0, hc1⟩, by rw [h0]; decide⟩
    rw [h0, ← ports4_back i hi j hj, ← h1]; rfl
  · obtain rfl := eq_of_port8 hd
    obtain ⟨h0, h1, h2, h3, hc0, hc1, -⟩ := hm
    refine ⟨off + 4, rfl, ?_, ⟨hc0, hc1⟩, by rw [h0]; decide⟩
    rw [h0, show [s0, s1, 0xf0, d1] = [s0, s1] ++ [0xf0, d1] from rfl, ← port8_back d1, ← h3, ← h1, ← h2]
    rfl
  · obtain rfl := eq_of_port8 hs
    obtain ⟨h0, h1, h2, h3, hc0, hc1, -⟩ := hm
    refine ⟨off + 4, rfl, ?_, ⟨hc0, hc1⟩, by rw [h0]; decide⟩
    rw [h0, show [0xf0, s1, d0, d1] = [0xf0, s1] ++ [d0, d1] from rfl, ← port8_back s1, ← h1, ← h2, ← h3]
    rfl
  · obtain ⟨h0, h1, h2, h3, h₄, hc0, hc1, -⟩ := hm
    refine ⟨off + 5, rfl, ?_, ⟨hc0, hc1⟩, by rw [h0]; decide⟩
    rw [h0, ← h1, ← h2, ← h3, ← h₄]; rfl

theorem nhcRound_restores_udp (h : Ready rx s) {u : List UInt8} (hu : u = [s0, s1, d0, d1, l0, l1, c0, c1])
    (hm : Holds m s.payloadOffset (nhcUdpEncode u)) (hfits : Fits rx (s.uncompHdrLen + 8))
    (hp : s.payloadOffset + (nhcUdpEncode u).length = p) (hend : p ≤ rx.size)
    (hlen : htons (udpLen rx s.uncompHdrLen p) = [l0, l1]) :
    (nhcRound rx s).value m = some (.inr ⟨p, s.prevNhOffset, s.uncompHdrLen + 8, max rx.start (s.uncompHdrLen + 8),
      put (put s.ipv6 s.uncompHdrLen u) s.prevNhOffset [17]⟩) := by
  subst hu
  obtain ⟨q, hq, hports, hsum, hk, hel⟩ := udpPorts_encoded hm
  obtain rfl : q + 2 = p := hq.symm.trans hp
  have hround := @value_nhcRound rx m s h
  generalize (nhcRound rx s).value m = r at hround ⊢
  cases hround with
  | udp _ _ hports' _ _ ht =>
    cases hports.symm.trans hports'
    rw [ht, udpOut, hsum.1, hsum.2, hlen]; rfl
  | noUdp _ hno =>
    obtain ⟨_, hwidth, -⟩ := @value_udpPorts m (m s.payloadOffset) (s.payloadOffset + 1)
    cases hports.symm.trans hwidth
    exact absurd ⟨hfits, hel, by omega⟩ hno
  | ext hk' | lastExt hk' | noExt hk' | ipv6 hk' | lastIpv6 hk' | noIpv6 hk' | reserved hk' | other hk' =>
    exact absurd (hk.symm.trans hk') (by decide)

end

theorem nhcRound_restores_short_ports :
    ∃ t, (nhcRound (bareRecv 6) ⟨2, 6, 40, 40, fun _ => 0⟩).value udpPacket = some (.inr t) ∧
    Holds t.ipv6 40 [0xf0, 0xb1, 0xf0, 0xb2, 0, 8, 0xab, 0xcd] :=
  ⟨_, nhcRound_restores_udp (u := [0xf0, 0xb1, 0xf0, 0xb2, 0, 8, 0xab, 0xcd])
    ⟨rfl, le_rfl, by decide, by decide⟩ rfl rfl (.inr rfl) rfl
    le_rfl rfl, rfl⟩

end PipRiot.Sixlowpan
