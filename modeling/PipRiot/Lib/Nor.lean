import PipRiot.Lib.Bytes

/-!
# NOR flash

Programming can only clear bits, so what is left behind is the conjunction of
old and new; erasing sets every bit of a range. A blank range therefore takes
up exactly what is programmed into it. `slid` is the memory in which a range
has been moved down over a blank gap, and `slid_add` moves it piece by piece.
-/

namespace PipRiot

open List

section
variable {m m' : Nat → Byte} {a b n x : Nat} {bs : List Byte}

def program (m : Nat → Byte) (a : Nat) (bs : List Byte) : Nat → Byte :=
  fun x => if a ≤ x then m x &&& bs.getD (x - a) 0xff else m x

def erase (m : Nat → Byte) (a n : Nat) : Nat → Byte :=
  fun x => if a ≤ x ∧ x < a + n then 0xff else m x

def slice (m : Nat → Byte) (a n : Nat) : List Byte := (range n).map fun i => m (a + i)

def Blank (m : Nat → Byte) (a b : Nat) : Prop := ∀ x, a ≤ x → x < b → m x = 0xff

theorem and_ff (b : Byte) : b &&& 0xff = b := BitVec.and_allOnes

theorem ff_and (b : Byte) : (0xff : Byte) &&& b = b := BitVec.allOnes_and

/-! ## Programming and erasing -/

theorem program_frame (h : x < a ∨ a + bs.length ≤ x) : program m a bs x = m x := by
  unfold program
  split
  · rw [getD_eq_getElem?_getD, getElem?_eq_none (by omega), Option.getD_none, and_ff]
  · rfl

theorem program_blank (hb : Blank m a (a + bs.length)) (h : a ≤ x) (h' : x < a + bs.length) :
    program m a bs x = bs.getD (x - a) 0xff := by
  unfold program
  rw [if_pos h, hb x h h', ff_and]

section
variable (m : Nat → Byte) (a : Nat)

theorem program_nil : program m a [] = m := by
  funext x
  exact program_frame (by simp; omega)

theorem program_cons (v : Byte) (bs : List Byte) : program (program m a [v]) (a + 1) bs = program m a (v :: bs) := by
  funext x
  by_cases h1 : x < a
  · rw [program_frame (by omega), program_frame (by omega), program_frame (by omega)]
  · by_cases h2 : x = a
    · subst h2
      simp [program]
    · show (if a + 1 ≤ x then program m a [v] x &&& bs.getD (x - (a + 1)) 0xff else program m a [v] x) = _
      rw [if_pos (by omega), program_frame (by simp; omega), program, if_pos (by omega),
        show x - a = x - (a + 1) + 1 by omega, getD_cons_succ]

theorem program_append (bs cs : List Byte) :
    program (program m a bs) (a + bs.length) cs = program m a (bs ++ cs) := by
  induction bs generalizing m a with
  | nil => rw [program_nil]; rfl
  | cons b bs ih =>
    rw [cons_append, ← program_cons m a b bs, ← program_cons m a b (bs ++ cs), ← ih, length_cons,
      add_right_comm a 1, add_assoc a]

end

theorem erase_of_mem (h : a ≤ x) (h' : x < a + n) : erase m a n x = 0xff := if_pos ⟨h, h'⟩

theorem erase_frame (h : x < a ∨ a + n ≤ x) : erase m a n x = m x := if_neg (by omega)

theorem blank_erase (m : Nat → Byte) (a n : Nat) : Blank (erase m a n) a (a + n) :=
  fun _ h h' => erase_of_mem h h'

theorem erase_of_blank (h : Blank m a (a + n)) : erase m a n = m := by
  funext x
  unfold erase
  split
  · rename_i hx
    exact (h x hx.1 hx.2).symm
  · rfl

theorem erase_add (m : Nat → Byte) (a k n : Nat) : erase (erase m a k) (a + k) n = erase m a (k + n) := by
  funext x
  unfold erase
  by_cases h1 : a + k ≤ x ∧ x < a + k + n
  · rw [if_pos h1, if_pos (by omega)]
  · rw [if_neg h1]
    by_cases h2 : a ≤ x ∧ x < a + k
    · rw [if_pos h2, if_pos (by omega)]
    · rw [if_neg h2, if_neg (by omega)]

theorem Blank.mono {a' b' : Nat} (h : Blank m a b) (ha : a ≤ a') (hb : b' ≤ b) : Blank m a' b' :=
  fun x h1 h2 => h x (by omega) (by omega)

theorem Blank.congr (h : Blank m a b) (he : ∀ x, a ≤ x → x < b → m' x = m x) : Blank m' a b :=
  fun x h1 h2 => by rw [he x h1 h2, h x h1 h2]

/-! ## Slices -/

@[simp] theorem slice_length (m : Nat → Byte) (a n : Nat) : (slice m a n).length = n := by simp [slice]

theorem slice_getD {i : Nat} (h : i < n) (d : Byte) : (slice m a n).getD i d = m (a + i) := by
  rw [getD_eq_getElem?_getD, getElem?_eq_getElem (by simpa using h)]
  simp [slice]

theorem slice_congr (h : ∀ x, a ≤ x → x < a + n → m x = m' x) : slice m a n = slice m' a n := by
  apply map_congr_left
  intro i hi
  have := mem_range.mp hi
  exact h (a + i) (by omega) (by omega)

theorem slice_shift {g : Nat} (h : ∀ x, a ≤ x → x < a + n → m x = m' (x + g)) : slice m a n = slice m' (a + g) n := by
  apply map_congr_left
  intro i hi
  have := mem_range.mp hi
  rw [h (a + i) (by omega) (by omega), add_right_comm]

theorem slice_add (m : Nat → Byte) (a k n : Nat) : slice m a (k + n) = slice m a k ++ slice m (a + k) n := by
  unfold slice
  rw [range_add, map_append, map_map]
  congr 1
  apply map_congr_left
  intro i _
  simp [add_assoc]

theorem slice_take (m : Nat → Byte) (a k n : Nat) : (slice m a n).take k = slice m a (min k n) := by
  unfold slice
  rw [← map_take, take_range]

theorem slice_of_getD (hl : bs.length = n) (h : ∀ i, i < n → m (a + i) = bs.getD i 0xff) : slice m a n = bs := by
  apply ext_getElem
  · rw [slice_length, hl]
  · intro i hi hi'
    rw [slice_length] at hi
    have := h i hi
    rw [getD_eq_getElem?_getD, getElem?_eq_getElem hi', Option.getD_some] at this
    simpa [slice] using this

theorem slice_program (hb : Blank m a (a + bs.length)) : slice (program m a bs) a bs.length = bs := by
  apply slice_of_getD rfl
  intro i hi
  rw [program_blank hb (by omega) (by omega)]
  congr 1
  omega

/-! ## Moving a range down -/

section
variable {g : Nat}

theorem slice_program_erase (hn : bs.length ≤ g) (hb : Blank m a (a + g)) :
    slice (erase (program m a bs) (a + g) n) a bs.length = bs := by
  refine Eq.trans ?_ (slice_program (hb.mono le_rfl (by omega)))
  exact slice_congr fun x _ h2 => erase_frame (by omega)

theorem blank_program_erase (hb : Blank m a (a + g)) :
    Blank (erase (program m a bs) (a + g) bs.length) (a + bs.length) (a + bs.length + g) := by
  intro x h1 h2
  by_cases h3 : a + g ≤ x
  · exact erase_of_mem h3 (by omega)
  · rw [erase_frame (by omega), program_frame (by omega), hb x (by omega) (by omega)]

end

/-- The range `[a + g, a + g + n)` moved down by `g`, the gap above it blank. -/
def slid (m : Nat → Byte) (a g n : Nat) : Nat → Byte := fun x =>
  if x < a then m x else if x < a + n then m (x + g) else if x < a + n + g then 0xff else m x

section
variable {g : Nat}

theorem slid_below (h : x < a) : slid m a g n x = m x := if_pos h

theorem slid_moved (h : a ≤ x) (h' : x < a + n) : slid m a g n x = m (x + g) := by
  unfold slid
  rw [if_neg (by omega), if_pos h']

theorem slid_above (h : a + n + g ≤ x) : slid m a g n x = m x := by
  unfold slid
  rw [if_neg (by omega), if_neg (by omega), if_neg (by omega)]

theorem blank_slid (m : Nat → Byte) (a g n : Nat) : Blank (slid m a g n) (a + n) (a + n + g) := by
  intro x h1 h2
  unfold slid
  rw [if_neg (by omega), if_neg (by omega), if_pos h2]

end

theorem slid_zero {g : Nat} (h : Blank m a (a + g)) : slid m a g 0 = m := by
  funext x
  unfold slid
  by_cases h1 : x < a
  · rw [if_pos h1]
  · rw [if_neg h1, if_neg (by omega)]
    by_cases h2 : x < a + 0 + g
    · rw [if_pos h2, h x (by omega) (by omega)]
    · rw [if_neg h2]

theorem slid_add (m : Nat → Byte) {g : Nat} (a k n : Nat) : slid (slid m a g k) (a + k) g n = slid m a g (k + n) := by
  funext x
  unfold slid
  split_ifs <;> first | rfl | (exfalso; omega)

theorem program_slice_erase {g : Nat} (hn : n ≤ g) (hb : Blank m a (a + g)) :
    erase (program m a (slice m (a + g) n)) (a + g) n = slid m a g n := by
  funext x
  unfold slid
  by_cases h1 : x < a
  · rw [if_pos h1, erase_frame (by omega), program_frame (by omega)]
  · rw [if_neg h1]
    by_cases h2 : x < a + n
    · rw [if_pos h2, erase_frame (by omega), program_blank (hb.mono (by omega) (by simpa using by omega)) (by omega)
        (by simpa using h2), slice_getD (by omega)]
      congr 1
      omega
    · rw [if_neg h2]
      by_cases h3 : x < a + n + g
      · rw [if_pos h3]
        by_cases h4 : a + g ≤ x
        · exact erase_of_mem h4 (by omega)
        · rw [erase_frame (by omega), program_frame (by simp; omega), hb x (by omega) (by omega)]
      · rw [if_neg h3, erase_frame (by omega), program_frame (by simp; omega)]

theorem slid_of_blank {g : Nat} (hb : Blank m a (a + g)) (hs : Blank m (a + g) (a + g + n)) : slid m a g n = m := by
  funext x
  unfold slid
  by_cases h1 : x < a
  · rw [if_pos h1]
  · have hx : x < a + g + n → m x = 0xff := fun h => by
      by_cases h' : x < a + g
      · exact hb x (by omega) h'
      · exact hs x (by omega) h
    rw [if_neg h1]
    by_cases h2 : x < a + n
    · rw [if_pos h2, hs (x + g) (by omega) (by omega), hx (by omega)]
    · rw [if_neg h2]
      by_cases h3 : x < a + n + g
      · rw [if_pos h3, hx (by omega)]
      · rw [if_neg h3]

end

end PipRiot
