import PipRiot.Lib.Nor

/-!
# The flash page driver

`flashpage.c` of the nRF52 port, with `FLASHPAGE_SIZE` 4096, write blocks of
four bytes and `CPU_FLASH_BASE` 0. A failed assertion is `none`. `numof` is
`FLASHPAGE_NUMOF`.
-/

namespace PipRiot.Tinyfs

open BitVec

abbrev Flash := Nat → Byte

def word (m : Flash) (a : Nat) : Nat := leValue (slice m a 4)

def flashpagePage (addr : Nat) : Nat := addr / 4096

def flashpageAddr (page : Nat) : Nat := 4096 * page

def flashpageErase (numof : Nat) (m : Flash) (page : Nat) : Option Flash :=
  if page < numof then some (erase m (flashpageAddr page) 4096) else none

def flashpageWrite (numof : Nat) (m : Flash) (target : Nat) (data : List Byte) : Option Flash :=
  if data.length % 4 = 0 ∧ target % 4 = 0 ∧ target + data.length ≤ 4096 * numof then some (program m target data)
  else none

/-! ## Single bytes -/

/-- The word that is programmed for one byte: the byte at `shift` is replaced in what
the flash holds. `char` is unsigned here. -/
def patchedWord (old : BitVec 32) (shift : Nat) (value : Byte) : BitVec 32 :=
  (old &&& ~~~(0xff#32 <<< shift)) + (value.setWidth 32 <<< shift)

def patchedBytes (m : Flash) (address : Nat) (value : Byte) : List Byte :=
  let byteShift := address % 4
  let address32 := address - byteShift
  leBytes 4 (patchedWord (BitVec.ofNat 32 (word m address32)) (byteShift <<< 3) value).toNat

def flashpageWriteUnaligned (numof : Nat) : Flash → Nat → List Byte → Option Flash
  | m, _, [] => some m
  | m, address, value :: data => do
    let m ← flashpageWrite numof m (address - address % 4) (patchedBytes m address value)
    flashpageWriteUnaligned numof m (address + 1) data

section
variable {m : Flash} {a : Nat}

theorem flashpageWrite_eq {numof : Nat} {data : List Byte} (hl : data.length % 4 = 0) (ha : a % 4 = 0)
    (h : a + data.length ≤ 4096 * numof) : flashpageWrite numof m a data = some (program m a data) := if_pos ⟨hl, ha, h⟩

theorem flashpageErase_eq {numof : Nat} (ha : a % 4096 = 0) (h : a < 4096 * numof) :
    flashpageErase numof m (flashpagePage a) = some (erase m a 4096) := by
  unfold flashpageErase flashpagePage flashpageAddr
  rw [if_pos (by omega), show 4096 * (a / 4096) = a by omega]

theorem word_congr {m' : Flash} (h : ∀ x, a ≤ x → x < a + 4 → m x = m' x) : word m a = word m' a := by
  unfold word
  rw [slice_congr h]

theorem slice_four (m : Flash) (a : Nat) : slice m a 4 = [m a, m (a + 1), m (a + 2), m (a + 3)] := rfl

theorem word_lt (m : Flash) (a : Nat) : word m a < 2 ^ 32 := by
  have := leValue_lt (slice m a 4)
  rw [slice_length] at this
  exact this

theorem leBytes_word (m : Flash) (a : Nat) : leBytes 4 (word m a) = slice m a 4 := by
  have := leBytes_leValue (slice m a 4)
  rwa [slice_length] at this

theorem word_of_slice {v : Nat} (hv : v < 2 ^ 32) (h : slice m a 4 = leBytes 4 v) : word m a = v := by
  unfold word
  rw [h, leValue_leBytes]
  exact Nat.mod_eq_of_lt hv

theorem word_blank (h : Blank m a (a + 4)) : word m a = 0xffffffff := by
  unfold word
  rw [slice_four, h a (by omega) (by omega), h (a + 1) (by omega) (by omega), h (a + 2) (by omega) (by omega),
    h (a + 3) (by omega) (by omega)]
  decide

theorem blank_of_word (h : word m a = 0xffffffff) : Blank m a (a + 4) := by
  have hs := leBytes_word m a
  rw [h, slice_four] at hs
  have hff : leBytes 4 0xffffffff = [0xff, 0xff, 0xff, 0xff] := by decide
  rw [hff] at hs
  simp only [List.cons.injEq, and_true] at hs
  obtain ⟨h0, h1, h2, h3⟩ := hs
  intro x hx hx'
  obtain rfl | rfl | rfl | rfl : x = a ∨ x = a + 1 ∨ x = a + 2 ∨ x = a + 3 := by omega
  · exact h0.symm
  · exact h1.symm
  · exact h2.symm
  · exact h3.symm

end

/-! ## A patched word changes one byte -/

theorem leBytes_toNat (x : BitVec 32) : leBytes 4 x.toNat =
    [x.extractLsb' 0 8, x.extractLsb' 8 8, x.extractLsb' 16 8, x.extractLsb' 24 8] := by
  simp [leBytes, BitVec.extractLsb', Nat.shiftRight_eq_div_pow, Nat.div_div_eq_div_mul]

theorem mask_bit (n : Nat) : (0xff#32).getLsbD n = decide (n < 8) := by
  by_cases h : n < 32
  · have key : ∀ k : Fin 32, (0xff#32).getLsbD k = decide (k.val < 8) := by decide
    exact key ⟨n, h⟩
  · rw [getLsbD_of_ge _ _ (by omega)]
    simp; omega

theorem patchedWord_bit (old : BitVec 32) (shift : Nat) (value : Byte) {j : Nat} (hj : j < 32) :
    (patchedWord old shift value).getLsbD j =
      if shift ≤ j ∧ j < shift + 8 then value.getLsbD (j - shift) else old.getLsbD j := by
  -- the masked word and the shifted byte share no bit, so the sum is a disjunction
  have hor : patchedWord old shift value = (old &&& ~~~(0xff#32 <<< shift)) ||| (value.setWidth 32 <<< shift) := by
    apply add_eq_or_of_and_eq_zero
    apply eq_of_getLsbD_eq
    intro i hi
    simp only [getLsbD_and, getLsbD_not, getLsbD_shiftLeft, mask_bit, getLsbD_setWidth,
      getLsbD_zero]
    by_cases hs : i < shift
    · simp [hs]
    · by_cases h8 : i - shift < 8
      · simp [hs, h8, hi]
      · simp [getLsbD_of_ge value (i - shift) (by omega)]
  rw [hor]
  simp only [getLsbD_or, getLsbD_and, getLsbD_not, getLsbD_shiftLeft, mask_bit,
    getLsbD_setWidth]
  split
  · simp [hj, show ¬ j < shift by omega, show j - shift < 8 by omega, show j - shift < 32 by omega]
  · by_cases hs : j < shift
    · simp [hj, hs]
    · simp [hj, hs, show ¬ j - shift < 8 by omega, getLsbD_of_ge value (j - shift) (by omega)]

theorem patchedWord_byte (old : BitVec 32) {k i : Nat} (hk : k < 4) (hi : i < 4) (value : Byte) :
    (patchedWord old (8 * k) value).extractLsb' (8 * i) 8 = if i = k then value else old.extractLsb' (8 * i) 8 := by
  apply eq_of_getLsbD_eq
  intro j hj
  rw [getLsbD_extractLsb', patchedWord_bit _ _ _ (by omega)]
  by_cases h : i = k
  · subst h
    simp [hj, show 8 * i + j - 8 * i = j by omega]
  · rw [if_neg h, if_neg (by omega), getLsbD_extractLsb']

theorem word_byte (m : Flash) (a : Nat) {i : Nat} (hi : i < 4) :
    (BitVec.ofNat 32 (word m a)).extractLsb' (8 * i) 8 = m (a + i) := by
  have h := leBytes_toNat (BitVec.ofNat 32 (word m a))
  rw [toNat_ofNat, Nat.mod_eq_of_lt (word_lt m a), leBytes_word, slice_four] at h
  simp only [List.cons.injEq, and_true] at h
  obtain ⟨h0, h1, h2, h3⟩ := h
  obtain rfl | rfl | rfl | rfl : i = 0 ∨ i = 1 ∨ i = 2 ∨ i = 3 := by omega
  · exact h0.symm
  · exact h1.symm
  · exact h2.symm
  · exact h3.symm

theorem patchedBytes_getD (m : Flash) (a : Nat) (value : Byte) {i : Nat} (hi : i < 4) :
    (patchedBytes m a value).getD i 0xff = if i = a % 4 then value else m (a - a % 4 + i) := by
  have hs : (a % 4) <<< 3 = 8 * (a % 4) := by rw [Nat.shiftLeft_eq]; omega
  rw [← word_byte m _ hi, ← patchedWord_byte _ (Nat.mod_lt a (by omega)) hi]
  simp only [patchedBytes, hs, leBytes_toNat]
  obtain rfl | rfl | rfl | rfl : i = 0 ∨ i = 1 ∨ i = 2 ∨ i = 3 := by omega
  all_goals rfl

theorem program_patched (m : Flash) (a : Nat) (value : Byte) :
    program m (a - a % 4) (patchedBytes m a value) = program m a [value] := by
  have hlen : (patchedBytes m a value).length = 4 := leBytes_length 4 _
  funext x
  by_cases hx : a - a % 4 ≤ x ∧ x < a - a % 4 + 4
  · unfold program
    rw [if_pos hx.1, patchedBytes_getD m a value (by omega)]
    by_cases hxa : x = a
    · subst hxa
      rw [if_pos (by omega)]; simp
    · rw [if_neg (by omega), show a - a % 4 + (x - (a - a % 4)) = x by omega, BitVec.and_self]
      exact (program_frame (by simp; omega) : program m a [value] x = m x).symm
  · rw [program_frame (by omega), program_frame (by simp; omega)]

theorem flashpageWriteUnaligned_eq {numof : Nat} (data : List Byte) (m : Flash) (a : Nat)
    (h : a + data.length ≤ 4096 * numof) : flashpageWriteUnaligned numof m a data = some (program m a data) := by
  induction data generalizing m a with
  | nil => rw [program_nil]; rfl
  | cons value data ih =>
    rw [List.length_cons] at h
    have hlen : (patchedBytes m a value).length = 4 := leBytes_length 4 _
    rw [flashpageWriteUnaligned, flashpageWrite_eq (by omega) (by omega) (by omega), Option.bind_eq_bind,
      Option.bind_some, program_patched, ih _ (a + 1) (by omega), program_cons]

theorem flashpageWriteUnaligned_bytewise {numof : Nat} {m : Flash} {a : Nat} {data : List Byte}
    (h : ∀ x, a ≤ x → x < a + data.length → x < 4096 * numof ∧ m x = 0xff) :
    ∃ m', flashpageWriteUnaligned numof m a data = some m' ∧ slice m' a data.length = data ∧
      ∀ x, x < a ∨ a + data.length ≤ x → m' x = m x := by
  have hb : Blank m a (a + data.length) := fun x hx hx' => (h x hx hx').2
  refine ⟨program m a data, ?_, slice_program hb, fun x hx => program_frame hx⟩
  cases data with
  | nil => rw [program_nil]; rfl
  | cons value data =>
    have hlast := (h (a + data.length) (by simp) (by simp)).1
    exact flashpageWriteUnaligned_eq _ m a (by rw [List.length_cons]; omega)

theorem flashpageWriteUnaligned_across_words :
    ∃ m', flashpageWriteUnaligned 1 (fun _ => 0xff) 3 [0x12, 0xb4] = some m' ∧ slice m' 3 2 = [0x12, 0xb4] ∧
      ∀ x, x < 3 ∨ 5 ≤ x → m' x = 0xff :=
  flashpageWriteUnaligned_bytewise (fun _ _ hx => ⟨lt_of_lt_of_le hx (by decide), rfl⟩)

end PipRiot.Tinyfs
