import PipRiot.Lib.Bytes

/-!
# Base 64

Four digits of six bits stand for three bytes. `decode` reads a text over any
alphabet, given by the value of each of its characters; the last group may be
padded.
-/

namespace PipRiot.Base64

def groupBytes (n : Nat) : List Byte := [BitVec.ofNat 8 (n / 65536), BitVec.ofNat 8 (n / 256), BitVec.ofNat 8 n]

def group (a b c d : Nat) : Nat := ((a * 64 + b) * 64 + c) * 64 + d

section
variable (digit : Byte → Option Nat) (pad : Byte)

def decodeLast (a b c d : Byte) : Option (List Byte) :=
  match digit a, digit b, digit c, digit d with
  | some a, some b, some c, some d => some (groupBytes (group a b c d))
  | some a, some b, some c, none => if d = pad then some ((groupBytes (group a b c 0)).take 2) else none
  | some a, some b, none, none => if c = pad ∧ d = pad then some ((groupBytes (group a b 0 0)).take 1) else none
  | _, _, _, _ => none

def decode : List Byte → Option (List Byte)
  | [] => some []
  | [a, b, c, d] => decodeLast digit pad a b c d
  | a :: b :: c :: d :: rest =>
    match digit a, digit b, digit c, digit d, decode rest with
    | some a, some b, some c, some d, some bs => some (groupBytes (group a b c d) ++ bs)
    | _, _, _, _, _ => none
  | _ => none

end

/-! ## Digits put side by side -/

theorem or_of_dvd {x y k : Nat} (hx : 2 ^ k ∣ x) (hy : y < 2 ^ k) : x ||| y = x + y := by
  obtain ⟨q, rfl⟩ := hx
  exact (Nat.two_pow_add_eq_or_of_lt hy q).symm

theorem or_eq_group {a b c d : Nat} (hb : b < 64) (hc : c < 64) (hd : d < 64) :
    a <<< 18 ||| b <<< 12 ||| c <<< 6 ||| d = group a b c d := by
  have h1 : a * 2 ^ 18 ||| b * 2 ^ 12 = a * 2 ^ 18 + b * 2 ^ 12 := or_of_dvd (k := 18) (by omega) (by omega)
  have h2 : a * 2 ^ 18 + b * 2 ^ 12 ||| c * 2 ^ 6 = a * 2 ^ 18 + b * 2 ^ 12 + c * 2 ^ 6 :=
    or_of_dvd (k := 12) (by omega) (by omega)
  have h3 : a * 2 ^ 18 + b * 2 ^ 12 + c * 2 ^ 6 ||| d = a * 2 ^ 18 + b * 2 ^ 12 + c * 2 ^ 6 + d :=
    or_of_dvd (k := 6) (by omega) (by omega)
  simp only [Nat.shiftLeft_eq]
  rw [h1, h2, h3]
  unfold group
  omega

end PipRiot.Base64
