import PipRiot.Lib.Reading

/-!
# Counter mode with CBC-MAC

`ccm.c` and `ctr.c` over any function on blocks of 16 bytes. Pointers to the input are
memories, what is written to the output is the list of the bytes from its start on, and
`size_t` and `int` have 32 bits.
-/

namespace PipRiot.Ccm

abbrev Block : Type := Fin 16 → UInt8

def toInt (n : Nat) : Int := if n % 2 ^ 32 < 2 ^ 31 then (n % 2 ^ 32 : Nat) else (n % 2 ^ 32 : Nat) - 2 ^ 32

def errInvalidCbcMac : Int := -3

def errInvalidDataLength : Int := -3

def errInvalidLengthEncoding : Int := -4

def errInvalidMacLength : Int := -5

/-! ## Helpers -/

def incLoop : Nat → Nat → Block → Block
  | 0, _, block => block
  | n + 1, b, block =>
    let block' : Block := fun i => if i.val = b then block i + 1 else block i
    if block' (Fin.ofNat 16 b) ≠ 0 then block' else incLoop n (b - 1) block'

def blockIncCtr (block : Block) (l : Nat) : Block := incLoop l 15 block

def equals (a b : Nat → UInt8) (len : Nat) : UInt8 :=
  let diff := (List.range len).foldl (fun d i => d ||| (a i ^^^ b i)) 0
  let diff := diff ||| (diff >>> 1 ||| diff <<< 7)
  let diff := diff ||| (diff >>> 2 ||| diff <<< 6)
  let diff := diff ||| (diff >>> 4 ||| diff <<< 4)
  diff + 1

variable (cipher : Block → Block)

/-! ## Counter mode -/

def blockSizeInput (length offset : Nat) : Nat := if 16 < length - offset then 16 else length - offset

def ctrLoop (nonceLen : Nat) (input : Nat → UInt8) (length : Nat) : Nat → Nat → Block → List UInt8 × Block
  | 0, _, nonceCounter => ([], nonceCounter)
  | n + 1, offset, nonceCounter =>
    let streamBlock := cipher nonceCounter
    let k := blockSizeInput length offset
    let output := (List.range k).map fun i => streamBlock (Fin.ofNat 16 i) ^^^ input (offset + i)
    let nonceCounter := blockIncCtr nonceCounter (16 - nonceLen)
    if offset + k < length then
      let r := ctrLoop nonceLen input length n (offset + k) nonceCounter
      (output ++ r.1, r.2)
    else (output, nonceCounter)

/-- `cipher_encrypt_ctr`: what is written, and the counter after it; it returns the
number of the bytes. -/
def encryptCtr (nonceCounter : Block) (nonceLen : Nat) (input : Nat → UInt8) (length : Nat) : List UInt8 × Block :=
  ctrLoop cipher nonceLen input length (length + 1) 0 nonceCounter

/-! ## The message authentication code -/

def cbcLoop (input : Nat → UInt8) (length : Nat) : Nat → Nat → Block → Block
  | 0, _, mac => mac
  | n + 1, offset, mac =>
    let k := blockSizeInput length offset
    let mac := cipher fun i => if i.val < k then mac i ^^^ input (offset + i.val) else mac i
    if offset + k < length then cbcLoop input length n (offset + k) mac else mac

def computeCbcMac (iv : Block) (input : Nat → UInt8) (length : Nat) : Block :=
  if length = 0 then iv else cbcLoop cipher input length length 0 iv

/-- `ccm_create_mac_iv`; its parameter `auth_data_len` has 8 bits. -/
def createMacIv (authDataLen m l : Nat) (nonce : List UInt8) (plaintextLen : Nat) : Option Block :=
  let flags := UInt8.ofNat (64 * (if 0 < authDataLen % 2 ^ 8 then 1 else 0) + 8 * ((m - 2) / 2) + (l - 1))
  let x1 : Block := fun i =>
    if i.val = 0 then flags
    else if 16 - l ≤ i.val then UInt8.ofNat (plaintextLen / 256 ^ (15 - i.val))
    else if i.val ≤ nonce.length then nonce.getD (i.val - 1) 0
    else 0
  if 0 < plaintextLen / 256 ^ l then none else some (cipher x1)

def computeAdataMac (authData : List UInt8) (x1 : Block) : Option Block :=
  if 0 < authData.length then
    if authData.length ≤ 0xFEFF then
      let authDataLenInEncoded := if 14 ≤ authData.length then 14 else authData.length
      let authDataEncoded := UInt8.ofNat (authData.length / 256) :: UInt8.ofNat authData.length ::
        authData.take authDataLenInEncoded
      let x2 := computeCbcMac cipher x1 (authDataEncoded.getD · 0) (authDataLenInEncoded + 2)
      if authDataLenInEncoded < authData.length then
        some (computeCbcMac cipher x2 ((authData.drop authDataLenInEncoded).getD · 0)
          (authData.length - authDataLenInEncoded))
      else some x2
    else none
  else some x1

/-! ## Encryption and decryption -/

def fitsInNbytes (value numBytes : Nat) : Bool := value >>> (8 * min 4 numBytes - 1) ≤ 1

def firstCounter (l : Nat) (nonce : List UInt8) : Block := fun i =>
  if i.val = 0 then UInt8.ofNat (l - 1) else if i.val ≤ min nonce.length (15 - l) then nonce.getD (i.val - 1) 0 else 0

structure Result where
  ret : Int
  output : List UInt8

variable (authData : List UInt8) (macLength lengthEncoding : Nat) (nonce : List UInt8) (input : Nat → UInt8)
  (inputLen : Nat)

def encryptCcm : Result :=
  if macLength % 2 ≠ 0 ∨ macLength < 4 ∨ 16 < macLength then ⟨errInvalidMacLength, []⟩
  else if lengthEncoding < 2 ∨ 8 < lengthEncoding ∨ ¬ fitsInNbytes inputLen lengthEncoding then
    ⟨errInvalidLengthEncoding, []⟩
  else
    match createMacIv cipher authData.length macLength lengthEncoding nonce inputLen with
    | none => ⟨errInvalidDataLength, []⟩
    | some macIv =>
      match computeAdataMac cipher authData macIv with
      | none => ⟨-1, []⟩
      | some macIv =>
        if toInt inputLen < 0 then ⟨toInt inputLen, []⟩
        else
          let mac := computeCbcMac cipher macIv input inputLen
          let (streamBlock, nonceCounter) := encryptCtr cipher (firstCounter lengthEncoding nonce) 16 (fun _ => 0) 16
          let nonceCounter := blockIncCtr nonceCounter (16 - nonce.length)
          let output := (encryptCtr cipher nonceCounter nonce.length input inputLen).1
          if toInt output.length < 0 then ⟨toInt output.length, output⟩
          else ⟨toInt (output.length + macLength), output ++ (List.range macLength).map fun i =>
            mac (Fin.ofNat 16 i) ^^^ streamBlock.getD i 0⟩

def decryptCcm : Result :=
  if macLength % 2 ≠ 0 ∨ macLength < 4 ∨ 16 < macLength then ⟨errInvalidMacLength, []⟩
  else if lengthEncoding < 2 ∨ 8 < lengthEncoding ∨ ¬ fitsInNbytes inputLen lengthEncoding then
    ⟨errInvalidLengthEncoding, []⟩
  else
    let (streamBlock, nonceCounter) := encryptCtr cipher (firstCounter lengthEncoding nonce) 16 (fun _ => 0) 16
    let plainLen := (2 ^ 32 + inputLen - macLength) % 2 ^ 32
    let nonceCounter := blockIncCtr nonceCounter (16 - nonce.length)
    let plain := (encryptCtr cipher nonceCounter nonce.length input plainLen).1
    if toInt plain.length < 0 then ⟨toInt plain.length, plain⟩
    else
      match createMacIv cipher authData.length macLength lengthEncoding nonce plainLen with
      | none => ⟨errInvalidDataLength, plain⟩
      | some macIv =>
        match computeAdataMac cipher authData macIv with
        | none => ⟨-1, plain⟩
        | some macIv =>
          if toInt plainLen < 0 then ⟨toInt plainLen, plain⟩
          else
            let mac := computeCbcMac cipher macIv (plain.getD · 0) plainLen
            if equals (fun i => input (plainLen + i) ^^^ streamBlock.getD i 0)
                (fun i => mac (Fin.ofNat 16 i)) macLength = 0 then
              ⟨errInvalidCbcMac, plain⟩
            else ⟨toInt plainLen, plain⟩

def firstStream (cipher : Block → Block) (lengthEncoding : Nat) (nonce : List UInt8) : List UInt8 × Block :=
  encryptCtr cipher (firstCounter lengthEncoding nonce) 16 (fun _ => 0) 16

def text (cipher : Block → Block) (lengthEncoding : Nat) (nonce : List UInt8) (input : Nat → UInt8)
    (length : Nat) : List UInt8 :=
  (encryptCtr cipher (blockIncCtr (firstStream cipher lengthEncoding nonce).2 (16 - nonce.length)) nonce.length
    input length).1

def tag (cipher : Block → Block) (lengthEncoding : Nat) (nonce : List UInt8) (macLength : Nat)
    (mac : Block) : List UInt8 :=
  (List.range macLength).map fun i => mac (Fin.ofNat 16 i) ^^^ (firstStream cipher lengthEncoding nonce).1.getD i 0

end PipRiot.Ccm
