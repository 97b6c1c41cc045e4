import PipRiot.Ipv6.Addr

/-!
# The IPv6 header

The fields share bytes as they do in the source: the version, the traffic class and the
flow label are cut out of the first four.
-/

namespace PipRiot.Ipv6

structure VTcFl where
  b0 : UInt8
  b1 : UInt8
  b2 : UInt8
  b3 : UInt8
  deriving DecidableEq

namespace VTcFl

section
variable {v : VTcFl} {t f : UInt8}

def setVersion (v : VTcFl) : VTcFl := { v with b0 := (v.b0 &&& 0x0f) ||| 0x60 }

def setTc (v : VTcFl) (tc : UInt8) : VTcFl :=
  { v with b0 := (v.b0 &&& 0xf0) ||| ((tc >>> (4 : UInt8)) &&& 0x0f),
           b1 := (v.b1 &&& 0x0f) ||| ((tc <<< (4 : UInt8)) &&& 0xf0) }

def setTcEcn (v : VTcFl) (ecn : UInt8) : VTcFl := { v with b0 := (v.b0 &&& 0xf3) ||| ((ecn <<< (2 : UInt8)) &&& 0x0c) }

def setTcDscp (v : VTcFl) (dscp : UInt8) : VTcFl :=
  { v with b0 := (v.b0 &&& 0xfc) ||| ((dscp >>> (4 : UInt8)) &&& 0x03),
           b1 := (v.b1 &&& 0x0f) ||| ((dscp <<< (4 : UInt8)) &&& 0xf0) }

def setFl (v : VTcFl) (fl : Nat) : VTcFl :=
  { v with b1 := (v.b1 &&& 0xf0) ||| (UInt8.ofNat (fl / 65536) &&& 0x0f), b2 := UInt8.ofNat (fl / 256),
           b3 := UInt8.ofNat fl }

def getTc (v : VTcFl) : UInt8 := ((v.b0 &&& 0x0f) <<< 4) ||| ((v.b1 &&& 0xf0) >>> 4)

def getTcEcn (v : VTcFl) : UInt8 := (v.b0 &&& 0x0c) >>> 2

def getTcDscp (v : VTcFl) : UInt8 := ((v.b0 &&& 0x03) <<< 4) ||| ((v.b1 &&& 0xf0) >>> 4)

def getFl (v : VTcFl) : Nat := 65536 * (v.b1 &&& 0x0f).toNat + 256 * v.b2.toNat + v.b3.toNat

def orFl (v : VTcFl) (f1 f2 f3 : UInt8) : VTcFl :=
  { v with b1 := v.b1 ||| (f1 &&& 0x0f), b2 := v.b2 ||| f2, b3 := v.b3 ||| f3 }

def initial : VTcFl := setVersion ⟨0, 0, 0, 0⟩

theorem eq_of_bits {x y : UInt8} (h : ∀ i, ∀ hi : i < 8, x.toBitVec[i] = y.toBitVec[i]) : x = y := by
  apply UInt8.eq_of_toBitVec_eq
  apply BitVec.eq_of_getElem_eq
  exact h

theorem getTc_orFl (v : VTcFl) (f1 f2 f3 : UInt8) : (v.orFl f1 f2 f3).getTc = v.getTc := by
  apply eq_of_bits
  intro i hi
  simp only [getTc, orFl]
  interval_cases i <;> simp

theorem getTc_setFl (v : VTcFl) (fl : Nat) : (v.setFl fl).getTc = v.getTc := by
  apply eq_of_bits
  intro i hi
  simp only [getTc, setFl]
  interval_cases i <;> simp

theorem getTc_setTc (v : VTcFl) (tc : UInt8) : (v.setTc tc).getTc = tc := by
  apply eq_of_bits
  intro i hi
  simp only [getTc, setTc]
  interval_cases i <;> simp

theorem getTc_setTcEcn (v : VTcFl) (ecn : UInt8) : ((v.setTcEcn ecn).setTcDscp 0).getTc = ecn <<< 6 := by
  apply eq_of_bits
  intro i hi
  simp only [getTc, setTcDscp, setTcEcn]
  interval_cases i <;> simp

theorem getTc_of_dscp (h : v.getTcDscp = 0) : v.getTc = v.getTcEcn <<< 6 := by
  have hbits : ∀ i, ∀ hi : i < 8, v.getTcDscp.toBitVec[i] = false := by
    intro i hi
    rw [h]; simp
  apply eq_of_bits
  intro i hi
  have hbit := hbits i hi
  simp only [getTcDscp] at hbit
  simp only [getTc, getTcEcn]
  interval_cases i <;> simp_all

theorem getFl_setFl_zero (v : VTcFl) : (v.setFl 0).getFl = 0 := by
  have hlow : (v.setFl 0).b1 &&& 0x0f = 0 := by
    apply eq_of_bits
    intro i hi
    simp only [setFl]
    interval_cases i <;> simp
  rw [getFl, hlow]
  simp [setFl]

def NoFl (v : VTcFl) : Prop := v.b1 &&& 0x0f = 0 ∧ v.b2 = 0 ∧ v.b3 = 0

theorem getFl_orFl (h : v.NoFl) (f1 f2 f3 : UInt8) :
    (v.orFl f1 f2 f3).getFl = 65536 * (f1 &&& 0x0f).toNat + 256 * f2.toNat + f3.toNat := by
  obtain ⟨h1, h2, h3⟩ := h
  have hlow : (v.b1 ||| (f1 &&& 0x0f)) &&& 0x0f = f1 &&& 0x0f := by
    have hzero : v.b1.toBitVec &&& (0x0f : UInt8).toBitVec = 0 := congrArg UInt8.toBitVec h1
    apply UInt8.eq_of_toBitVec_eq
    rw [UInt8.toBitVec_and, UInt8.toBitVec_or, BitVec.and_or_distrib_right, hzero, UInt8.toBitVec_and, BitVec.and_assoc,
      BitVec.and_self]
    exact BitVec.zero_or
  simp [getFl, orFl, hlow, h2, h3]

theorem noFl_setTc (tc : UInt8) : (initial.setTc tc).NoFl := by
  refine ⟨?_, rfl, rfl⟩
  apply eq_of_bits
  intro i hi
  simp only [setTc, initial, setVersion]
  interval_cases i <;> simp

theorem noFl_setTcEcn (ecn : UInt8) : ((initial.setTcEcn ecn).setTcDscp 0).NoFl := by
  refine ⟨?_, rfl, rfl⟩
  apply eq_of_bits
  intro i hi
  simp only [setTcDscp, setTcEcn, initial, setVersion]
  interval_cases i <;> simp

theorem getFl_parts (v : VTcFl) : UInt8.ofNat (v.getFl / 65536 % 16) = v.b1 &&& 0x0f ∧
    UInt8.ofNat (v.getFl / 256 % 256) = v.b2 ∧ UInt8.ofNat (v.getFl % 256) = v.b3 := by
  have h1 : (v.b1 &&& 0x0f).toNat < 16 := by
    exact lt_of_le_of_lt Nat.and_le_right (by decide)
  have h2 := v.b2.toNat_lt
  have h3 := v.b3.toNat_lt
  refine ⟨?_, ?_, ?_⟩
  · apply UInt8.toNat_inj.mp
    rw [UInt8.toNat_ofNat', getFl]; omega
  · apply UInt8.toNat_inj.mp
    rw [UInt8.toNat_ofNat', getFl]; omega
  · apply UInt8.toNat_inj.mp
    rw [UInt8.toNat_ofNat', getFl]; omega

end

end VTcFl

structure Hdr where
  vTcFl : VTcFl
  len : UInt16
  nh : UInt8
  hl : UInt8
  src : Addr
  dst : Addr

def Hdr.bytes (h : Hdr) : List UInt8 :=
  [h.vTcFl.b0, h.vTcFl.b1, h.vTcFl.b2, h.vTcFl.b3, (h.len >>> 8).toUInt8, h.len.toUInt8, h.nh, h.hl] ++
    h.src.slice 0 16 ++ h.dst.slice 0 16

end PipRiot.Ipv6
