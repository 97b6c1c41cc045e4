import PipRiot.Crypto.Ccm

/-!
# What is encrypted is decrypted

Counter mode undoes itself, and both sides compute the code of the same bytes. What
remains are the lengths that the two sides check.
-/

namespace PipRiot.Ccm

open Reading List

section
variable {cipher : Block → Block} {nonceLen length n l : Nat} {input m : Nat → UInt8}

/-! ## Counter mode -/

theorem blockSizeInput_last {offset : Nat} (h : ¬ offset + blockSizeInput length offset < length) :
    blockSizeInput length offset = length - offset := by
  unfold blockSizeInput at h ⊢
  split at h
  · omega
  · rename_i hk
    rw [if_neg hk]

theorem blockSizeInput_more {offset : Nat} (h : offset + blockSizeInput length offset < length) :
    0 < blockSizeInput length offset := by
  unfold blockSizeInput at h ⊢
  split at h
  · rename_i hk
    rw [if_pos hk]; omega
  · omega

theorem length_ctrLoop : ∀ (n offset : Nat) (ctr : Block), length ≤ offset + n →
    (ctrLoop cipher nonceLen input length n offset ctr).1.length = length - offset
  | 0, offset, ctr, h => by
    rw [ctrLoop, length_nil]; omega
  | n + 1, offset, ctr, h => by
    rw [ctrLoop]
    split
    · rename_i hmore
      have hpos := blockSizeInput_more hmore
      rw [length_append, length_ctrLoop n _ _ (by omega), length_map, length_range]
      omega
    · rename_i hlast
      rw [length_map, length_range, blockSizeInput_last hlast]

theorem xor_xor_cancel (s b : UInt8) : s ^^^ (s ^^^ b) = b := by rw [← UInt8.xor_assoc, UInt8.xor_self, UInt8.zero_xor]

theorem ctrLoop_twice :
    ∀ (n offset : Nat) (ctr : Block),
      length ≤ offset + n → Holds m offset (ctrLoop cipher nonceLen input length n offset ctr).1 →
    (ctrLoop cipher nonceLen m length n offset ctr).1 = (range (length - offset)).map fun i => input (offset + i)
  | 0, offset, ctr, h, _ => by
    rw [ctrLoop, (Nat.sub_eq_zero_of_le h : length - offset = 0)]; rfl
  | n + 1, offset, ctr, h, hm => by
    rw [ctrLoop] at hm ⊢
    dsimp only at hm ⊢
    have hpiece : Holds m offset
      ((range (blockSizeInput length offset)).map fun i => cipher ctr (Fin.ofNat 16 i) ^^^ input (offset + i)) →
        (range (blockSizeInput length offset)).map (fun i => cipher ctr (Fin.ofNat 16 i) ^^^ m (offset + i)) =
          (range (blockSizeInput length offset)).map fun i => input (offset + i) := by
      intro hold
      apply map_congr_left
      intro i hi
      rw [holds_iff] at hold
      rw [hold i (by simpa using hi), getElem_map, getElem_range, xor_xor_cancel]
    split at hm
    · rename_i hmore
      have hpos := blockSizeInput_more hmore
      rw [holds_append, length_map, length_range] at hm
      rw [if_pos hmore, hpiece hm.1, ctrLoop_twice n _ _ (by omega) hm.2]
      rw [show length - offset = blockSizeInput length offset +
        (length - (offset + blockSizeInput length offset)) by omega, range_add, map_append, map_map]
      dsimp only
      congr 1
      apply map_congr_left
      intro i _
      rw [Function.comp_apply, add_assoc]
    · rename_i hlast
      rw [if_neg hlast, hpiece hm, blockSizeInput_last hlast]

theorem length_encryptCtr (ctr : Block) : (encryptCtr cipher ctr nonceLen input length).1.length = length :=
  length_ctrLoop _ _ _ (by omega)

theorem encryptCtr_twice {ctr : Block} (h : Holds m 0 (encryptCtr cipher ctr nonceLen input length).1) :
    (encryptCtr cipher ctr nonceLen m length).1 = (range length).map input := by
  have := ctrLoop_twice (length + 1) 0 ctr (by omega) h
  simp only [Nat.sub_zero, zero_add] at this
  exact this

/-! ## The code -/

theorem cbcLoop_congr (h : ∀ i < length, m i = input i) : ∀ (n offset : Nat) (mac : Block),
    cbcLoop cipher m length n offset mac = cbcLoop cipher input length n offset mac
  | 0, _, _ => rfl
  | n + 1, offset, mac => by
    have hblock : (fun i : Fin 16 => if i.val < blockSizeInput length offset then mac i ^^^ m (offset + i.val)
      else mac i) =
        fun i : Fin 16 => if i.val < blockSizeInput length offset then mac i ^^^ input (offset + i.val) else mac i := by
      funext i
      split
      · rename_i hi
        rw [h (offset + i.val) (by unfold blockSizeInput at hi; split at hi <;> omega)]
      · rfl
    simp only [cbcLoop, hblock, cbcLoop_congr h n]

theorem computeCbcMac_congr (h : ∀ i < length, m i = input i) (iv : Block) :
    computeCbcMac cipher iv m length = computeCbcMac cipher iv input length := by
  unfold computeCbcMac
  rw [cbcLoop_congr h]

theorem equals_eq {a b : Nat → UInt8} {len : Nat} (h : ∀ i < len, a i = b i) : equals a b len = 1 := by
  have hdiff : ∀ l : List Nat, (∀ i ∈ l, i < len) → l.foldl (fun d i => d ||| (a i ^^^ b i)) (0 : UInt8) = 0 := by
    intro l hl
    induction l with
    | nil => rfl
    | cons i l ih =>
      rw [foldl_cons, h i (hl i (.head _)), UInt8.xor_self, UInt8.or_zero, ih fun j hj => hl j (.tail _ hj)]
  unfold equals
  rw [hdiff _ fun i hi => mem_range.1 hi]
  rfl

/-! ## Lengths -/

def Valid (macLength lengthEncoding : Nat) : Prop :=
  (macLength % 2 = 0 ∧ 4 ≤ macLength ∧ macLength ≤ 16) ∧ 2 ≤ lengthEncoding ∧ lengthEncoding ≤ 8

instance (macLength lengthEncoding : Nat) : Decidable (Valid macLength lengthEncoding) :=
  inferInstanceAs (Decidable (_ ∧ _))

def capacity (lengthEncoding : Nat) : Nat := 2 ^ (8 * min 4 lengthEncoding)

theorem fitsInNbytes_iff {value : Nat} (hl : 2 ≤ l) : fitsInNbytes value l = true ↔ value < capacity l := by
  obtain ⟨s, hs⟩ : ∃ s, 8 * min 4 l = s + 1 := ⟨8 * min 4 l - 1, by omega⟩
  rw [fitsInNbytes, capacity, hs, Nat.add_sub_cancel, decide_eq_true_iff, Nat.shiftRight_eq_div_pow, pow_succ,
    ← Nat.lt_succ_iff, Nat.div_lt_iff_lt_mul (Nat.two_pow_pos s), mul_comm]

theorem toInt_eq (h : n < 2 ^ 31) : toInt n = n := by
  unfold toInt
  split <;> omega

theorem toInt_neg (h : n < 2 ^ 32) (hge : 2 ^ 31 ≤ n) : toInt n < 0 := by
  unfold toInt
  split <;> omega

theorem createMacIv_some (authDataLen : Nat) (nonce : List UInt8) (macLength : Nat) (h : n < capacity l) :
    ∃ iv, createMacIv cipher authDataLen macLength l nonce n = some iv := by
  have hle : capacity l ≤ 256 ^ l := by
    rw [capacity, show 256 = 2 ^ 8 from rfl, ← Nat.pow_mul]
    exact Nat.pow_le_pow_right (by decide) (by omega)
  unfold createMacIv
  rw [Nat.div_eq_of_lt (lt_of_lt_of_le h hle), if_neg (lt_irrefl 0)]
  exact ⟨_, rfl⟩

theorem computeAdataMac_some {authData : List UInt8} (h : authData.length ≤ 0xFEFF) (x1 : Block) :
    ∃ x, computeAdataMac cipher authData x1 = some x := by
  unfold computeAdataMac
  rw [if_pos h]
  by_cases hpos : 0 < authData.length
  · rw [if_pos hpos, ← apply_ite some]; exact ⟨_, rfl⟩
  · exact ⟨x1, if_neg hpos⟩

variable {authData nonce : List UInt8} {macLength lengthEncoding inputLen : Nat}

theorem length_text : (text cipher lengthEncoding nonce input length).length = length := length_encryptCtr _

section
variable (hvalid : Valid macLength lengthEncoding)
  (hfits : inputLen < capacity lengthEncoding) (hlen : inputLen + macLength < 2 ^ 31)
include hvalid hfits hlen

theorem encryptCcm_eq
    {iv x : Block} (hiv : createMacIv cipher authData.length macLength lengthEncoding nonce inputLen = some iv)
    (hx : computeAdataMac cipher authData iv = some x) :
    encryptCcm cipher authData macLength lengthEncoding nonce input inputLen =
      ⟨(inputLen + macLength : Nat), text cipher lengthEncoding nonce input inputLen ++
        tag cipher lengthEncoding nonce macLength (computeCbcMac cipher x input inputLen)⟩ := by
  obtain ⟨hmac, hle⟩ := hvalid
  have htext : (encryptCtr cipher
    (blockIncCtr (encryptCtr cipher (firstCounter lengthEncoding nonce) 16 (fun _ => 0) 16).2 (16 - nonce.length))
      nonce.length input inputLen).1.length = inputLen := length_encryptCtr _
  unfold encryptCcm
  rw [if_neg (by omega), if_neg (by rw [fitsInNbytes_iff hle.1]; omega), hiv]
  dsimp only
  rw [hx]
  dsimp only
  rw [htext, toInt_eq (by omega), if_neg (by omega), if_neg (by omega), toInt_eq hlen]
  rfl

theorem ret_encryptCcm (hauth : authData.length ≤ 0xFEFF) :
      (encryptCcm cipher authData macLength lengthEncoding nonce input inputLen).ret =
      (inputLen + macLength : Nat) := by
  obtain ⟨iv, hiv⟩ := createMacIv_some authData.length nonce macLength hfits
  obtain ⟨x, hx⟩ := computeAdataMac_some hauth iv
  rw [encryptCcm_eq hvalid hfits hlen hiv hx]

end

theorem of_encryptCcm (hlen : inputLen < 2 ^ 32)
    (h : 0 ≤ (encryptCcm cipher authData macLength lengthEncoding nonce input inputLen).ret) :
    Valid macLength lengthEncoding ∧ inputLen < capacity lengthEncoding ∧ inputLen + macLength < 2 ^ 31 ∧
      ∃ iv x, createMacIv cipher authData.length macLength lengthEncoding nonce inputLen = some iv ∧
        computeAdataMac cipher authData iv = some x := by
  revert h
  fun_cases encryptCcm cipher authData macLength lengthEncoding nonce input inputLen with
  | case1 => simp [errInvalidMacLength]
  | case2 => simp [errInvalidLengthEncoding]
  | case3 => simp [errInvalidDataLength]
  | case4 => simp
  | case5 | case6 =>
    rename_i hneg
    exact fun h => absurd h (Int.not_le.2 hneg)
  | case7 hmac hle iv hiv x hx hnneg mac _ _ _ _ output =>
    intro h
    have hfits : inputLen < capacity lengthEncoding := by
      rw [← fitsInNbytes_iff (by omega)]
      simpa using fun hn => hle (.inr (.inr hn))
    have hsmall : inputLen < 2 ^ 31 := by
      apply not_le.mp
      intro hge; exact hnneg (toInt_neg hlen hge)
    refine ⟨⟨by omega, by omega⟩, hfits, ?_, iv, x, hiv, hx⟩
    simp only [output, length_encryptCtr] at h
    apply not_le.mp
    intro hge
    have := toInt_neg (n := inputLen + macLength) (by omega) hge; omega

/-! ## Decryption -/

theorem Valid.passed (h : Valid macLength lengthEncoding) : ¬ (macLength % 2 ≠ 0 ∨ macLength < 4 ∨ 16 < macLength) := by
  have := h.1
  omega

theorem Valid.passed_length (h : Valid macLength lengthEncoding) :
    (lengthEncoding < 2 ∨ 8 < lengthEncoding ∨ ¬ fitsInNbytes inputLen lengthEncoding) ↔
      capacity lengthEncoding ≤ inputLen := by
  have := h.2
  rw [fitsInNbytes_iff h.2.1]
  omega

theorem decryptCcm_eq (hvalid : Valid macLength lengthEncoding) (hfits : inputLen + macLength < capacity lengthEncoding)
    (hlen : inputLen + macLength < 2 ^ 31) {iv x : Block}
    (hiv : createMacIv cipher authData.length macLength lengthEncoding nonce inputLen = some iv)
    (hx : computeAdataMac cipher authData iv = some x)
    (hm : Holds m 0 (text cipher lengthEncoding nonce input inputLen ++
      tag cipher lengthEncoding nonce macLength (computeCbcMac cipher x input inputLen))) :
    decryptCcm cipher authData macLength lengthEncoding nonce m (inputLen + macLength) =
      ⟨inputLen, (range inputLen).map input⟩ := by
  rw [holds_append, length_text, zero_add] at hm
  have hplain : (encryptCtr cipher
    (blockIncCtr (encryptCtr cipher (firstCounter lengthEncoding nonce) 16 (fun _ => 0) 16).2 (16 - nonce.length))
      nonce.length m inputLen).1 = (range inputLen).map input := encryptCtr_twice hm.1
  have hmac : computeCbcMac cipher x (((range inputLen).map input).getD · 0) inputLen =
      computeCbcMac cipher x input inputLen := by
    apply computeCbcMac_congr
    intro i hi
    simp [hi]
  have htag : ∀ i < macLength,
    m (inputLen + i) ^^^ (encryptCtr cipher (firstCounter lengthEncoding nonce) 16 (fun _ => 0) 16).1.getD i 0 =
      computeCbcMac cipher x input inputLen (Fin.ofNat 16 i) := by
    intro i hi
    have := holds_iff.1 hm.2 i (by rw [tag, length_map, length_range]; exact hi)
    simp only [tag, getElem_map, getElem_range] at this
    rw [this, UInt8.xor_assoc, firstStream, UInt8.xor_self, UInt8.xor_zero]
  unfold decryptCcm
  rw [if_neg hvalid.passed, if_neg (by rw [hvalid.passed_length]; omega)]
  dsimp only
  rw [show (2 ^ 32 + (inputLen + macLength) - macLength) % 2 ^ 32 = inputLen by omega, hplain, length_map,
    length_range, toInt_eq (by omega), if_neg (by omega), hiv]
  dsimp only
  rw [hx]
  dsimp only
  rw [if_neg (by omega), hmac, equals_eq htag, if_neg (by decide)]

theorem length_output (hvalid : Valid macLength lengthEncoding) (hfits : inputLen < capacity lengthEncoding) :
    (decryptCcm cipher authData macLength lengthEncoding nonce input inputLen).output.length =
      (2 ^ 32 + inputLen - macLength) % 2 ^ 32 := by
  fun_cases decryptCcm cipher authData macLength lengthEncoding nonce input inputLen with
  | case1 h => exact absurd h hvalid.passed
  | case2 _ h => exact absurd h (by rw [hvalid.passed_length]; omega)
  | case3 | case4 | case5 | case6 | case7 | case8 => exact length_encryptCtr _

theorem output_rejected (h : ¬ (Valid macLength lengthEncoding ∧ inputLen < capacity lengthEncoding)) :
    (decryptCcm cipher authData macLength lengthEncoding nonce input inputLen).output = [] := by
  unfold decryptCcm
  split
  · rfl
  · split
    · rfl
    · rename_i hmac hle
      refine absurd ⟨⟨by omega, by omega⟩, ?_⟩ h
      rw [← fitsInNbytes_iff (by omega)]
      simpa using fun hn => hle (.inr (.inr hn))

theorem sixteen_lt_capacity (hl : 2 ≤ l) : 16 < capacity l :=
  lt_of_lt_of_le (by decide : 16 < 2 ^ 16) (Nat.pow_le_pow_right (by decide) (by omega))

theorem length_output_le_iff (hlen : inputLen < 2 ^ 32) :
    (decryptCcm cipher authData macLength lengthEncoding nonce input inputLen).output.length ≤ inputLen - macLength ↔
      macLength ≤ inputLen ∨ ¬ Valid macLength lengthEncoding := by
  by_cases h : Valid macLength lengthEncoding ∧ inputLen < capacity lengthEncoding
  · have hmac := h.1.1
    rw [length_output h.1 h.2, not_not_intro h.1 |> iff_false_intro, or_false]
    omega
  · rw [output_rejected h, length_nil]
    refine iff_of_true zero_le ?_
    by_cases hvalid : Valid macLength lengthEncoding
    · have hle := not_lt.mp fun hlt => h ⟨hvalid, hlt⟩
      have := sixteen_lt_capacity hvalid.2.1
      have := hvalid.1; exact .inl (by omega)
    · exact .inr hvalid

/-- Decryption gives the text back exactly if the length with the code fits the length
encoding, and it writes no more than the text exactly if the input is not shorter than
the code or the parameters are refused. -/
theorem ccm_round_trip_iff (cipher : Block → Block) (authData : List UInt8) (macLength lengthEncoding : Nat)
    (nonce : List UInt8) :
    (∀ (input m : Nat → UInt8) (inputLen : Nat),
      inputLen < 2 ^ 32 → 0 ≤ (encryptCcm cipher authData macLength lengthEncoding nonce input inputLen).ret →
      Holds m 0 (encryptCcm cipher authData macLength lengthEncoding nonce input inputLen).output →
      (decryptCcm cipher authData macLength lengthEncoding nonce m
        (encryptCcm cipher authData macLength lengthEncoding nonce input inputLen).ret.toNat =
        ⟨inputLen, (range inputLen).map input⟩ ↔ inputLen + macLength < capacity lengthEncoding)) ∧
    ∀ (input : Nat → UInt8) (inputLen : Nat), inputLen < 2 ^ 32 →
      ((decryptCcm cipher authData macLength lengthEncoding nonce input inputLen).output.length ≤ inputLen - macLength ↔
        macLength ≤ inputLen ∨ ¬ Valid macLength lengthEncoding) := by
  refine ⟨fun input m inputLen hlen hret hm => ?_, fun input inputLen hlen => length_output_le_iff hlen⟩
  obtain ⟨hvalid, hfits, hsum, iv, x, hiv, hx⟩ := of_encryptCcm hlen hret
  rw [encryptCcm_eq hvalid hfits hsum hiv hx] at hm ⊢
  rw [Int.toNat_natCast]
  constructor
  · intro h
    apply not_le.mp
    intro hge
    rw [decryptCcm, if_neg hvalid.passed, if_pos (hvalid.passed_length.2 hge)] at h
    have := congrArg Result.ret h
    simp only [errInvalidLengthEncoding] at this; omega
  · intro h
    exact decryptCcm_eq hvalid h hsum hiv hx hm

/-- Three bytes with a code of four, for the identity in the place of a cipher. -/
theorem ccm_round_trip_small :
    decryptCcm id [9] 4 2 (replicate 13 7)
      (put (fun _ => 0) 0 (encryptCcm id [9] 4 2 (replicate 13 7) UInt8.ofNat 3).output) 7 =
      ⟨3, (range 3).map UInt8.ofNat⟩ := by
  have hret : (encryptCcm id [9] 4 2 (replicate 13 7) UInt8.ofNat 3).ret = (7 : Nat) :=
    ret_encryptCcm (by decide) (by decide) (by decide) (by decide)
  have := ((ccm_round_trip_iff id [9] 4 2 (replicate 13 7)).1 UInt8.ofNat _ 3 (by decide) (by rw [hret]; decide)
    (holds_put (m := fun _ => 0))).2 (by decide)
  rwa [hret] at this

/-- A text that fits its length encoding, but not together with the code; and an input
shorter than the code. -/
theorem ccm_too_long_and_too_short :
    (encryptCcm id [] 4 2 (replicate 13 0) (fun _ => 0) 65532).ret = 65536 ∧
      (∀ m, (decryptCcm id [] 4 2 (replicate 13 0) m 65536).ret = errInvalidLengthEncoding) ∧
      (decryptCcm id [] 4 2 (replicate 13 0) (fun _ => 0) 0).output.length = 4294967292 := by
  refine ⟨ret_encryptCcm (by decide) (by decide) (by decide) (by decide), fun m => ?_,
    length_output (by decide) (by decide)⟩
  rw [decryptCcm, if_neg (by decide), if_pos (by decide)]

end

end PipRiot.Ccm
