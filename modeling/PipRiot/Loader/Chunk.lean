import PipRiot.Loader.Commands

/-!
# Writing one chunk

A chunk of base 64 that fits into the rest of its file is written behind what is
there already, and the status of the file goes from `CREATED` over `LOADING` to
`LOADED` by clearing bits of one word.
-/

namespace PipRiot.Loader

open Tinyfs List Option

/-! ## Decoding -/

theorem strchr_lt {c : Byte} {k : Nat} (h : strchr c = some k) : k < 64 := by
  obtain ⟨hk, -⟩ := findIdx?_eq_some_iff_findIdx_eq.mp h
  exact hk

theorem byte_of_shift (n k : Nat) : BitVec.ofNat 8 (n >>> k &&& 0xff) = BitVec.ofNat 8 (n / 2 ^ k) := by
  apply BitVec.eq_of_toNat_eq
  rw [Nat.shiftRight_eq_div_pow, show (0xff : Nat) = 2 ^ 8 - 1 from rfl, Nat.and_two_pow_sub_one_eq_mod,
    BitVec.toNat_ofNat, BitVec.toNat_ofNat, Nat.mod_mod]

theorem bytes_of_group (n : Nat) :
    [n >>> 16, n >>> 8, n].map (fun x => BitVec.ofNat 8 (x &&& 0xff)) = Base64.groupBytes n := by
  have h0 := byte_of_shift n 0
  rw [Nat.shiftRight_zero, pow_zero, Nat.div_one] at h0
  simp only [map_cons, map_nil, byte_of_shift, h0]
  rfl

theorem decodeQuad_of_last {a b c d : Byte} {bs : List Byte} (h : Base64.decodeLast strchr 61 a b c d = some bs) :
    decodeQuad a b c d = some bs ∧ 0 < bs.length := by
  unfold Base64.decodeLast at h
  unfold decodeQuad
  have hgroup : ∀ {x y z w : Nat}, y < 64 → z < 64 → w < 64 →
      x <<< 18 ||| y <<< 12 ||| z <<< 6 ||| w = Base64.group x y z w := Base64.or_eq_group
  split at h
  · rename_i x y z w hx hy hz hw
    cases h
    simp only [hx, hy, hz, hw, hgroup (strchr_lt hy) (strchr_lt hz) (strchr_lt hw), bytes_of_group]
    exact ⟨rfl, Nat.succ_pos _⟩
  · rename_i x y z hx hy hz hw
    split at h
    · cases h
      have hor := hgroup (x := x) (strchr_lt hy) (strchr_lt hz) (w := 0) (by decide)
      rw [Nat.or_zero] at hor
      simp only [hx, hy, hz, hw, hor, bytes_of_group]
      exact ⟨trivial, Nat.succ_pos _⟩
    · cases h
  · rename_i x y hx hy hz hw
    split at h
    · cases h
      have hor := hgroup (x := x) (strchr_lt hy) (z := 0) (w := 0) (by decide) (by decide)
      rw [Nat.or_zero, Nat.zero_shiftLeft, Nat.or_zero] at hor
      simp only [hx, hy, hz, hw, hor, bytes_of_group]
      exact ⟨trivial, Nat.succ_pos _⟩
    · cases h
  · cases h

theorem decoded_cons {a b c d : Byte} {rest d' : List Byte} (h : decoded (a :: b :: c :: d :: rest) = some d') :
    ∃ bs ds, d' = bs ++ ds ∧ decodeQuad a b c d = some bs ∧ 0 < bs.length ∧ decoded rest = some ds := by
  unfold decoded at h ⊢
  cases rest with
  | nil =>
    obtain ⟨hq, hpos⟩ := decodeQuad_of_last (show Base64.decodeLast strchr 61 a b c d = some d' from h)
    exact ⟨d', [], (append_nil _).symm, hq, hpos, rfl⟩
  | cons e rest =>
    rw [Base64.decode] at h
    split at h
    · rename_i x y z w bs hx hy hz hw hrest
      cases h
      have hlast : Base64.decodeLast strchr 61 a b c d = some (Base64.groupBytes (Base64.group x y z w)) := by
        simp only [Base64.decodeLast, hx, hy, hz, hw]
      obtain ⟨hq, hpos⟩ := decodeQuad_of_last hlast
      exact ⟨_, bs, rfl, hq, hpos, hrest⟩
    · cases h
    · simp

section
variable {v : Volume} {m : Flash} {file : Nat}

theorem fileWrite_fits (v : Volume) (m : Flash) (file offset : Nat) (src : List Byte)
    (hfit : offset + src.length ≤ sizeAt m file) (hin : file + 48 + sizeAt m file ≤ 4096 * v.numof) :
    ∃ r, fileWrite v m file offset src = some (r, program m (file + 48 + offset) src) := by
  have hlt := word_lt m (file + 32)
  unfold fileWrite
  by_cases h0 : src.length = 0
  · rw [if_pos h0, length_eq_zero_iff.mp h0, program_nil]; exact ⟨0, rfl⟩
  · rw [if_neg h0, if_neg (by omega), if_neg (by rw [Nat.mod_eq_of_lt (by unfold sizeAt at hfit; omega)]; omega),
      flashpageWriteUnaligned_eq src m _ (by omega)]
    exact ⟨0, rfl⟩

theorem b64decode_eq (v : Volume) (file : Nat) {z : Nat} (hin : file + 48 + z ≤ 4096 * v.numof) (hz : z < 2 ^ 32) :
    ∀ (chunk : List Byte) {d : List Byte} {m : Flash} {offset : Nat}, decoded chunk = some d → sizeAt m file = z →
      offset + d.length ≤ z →
      b64decode v file chunk m offset = some (program m (file + 48 + offset) d, offset + d.length)
  | [], d, m, offset, hd, _, _ => by
    cases hd
    rw [program_nil]; rfl
  | a :: b :: c :: e :: chunk, d, m, offset, hd, hsize, hfit => by
    obtain ⟨bs, ds, rfl, hq, hpos, hrest⟩ := decoded_cons hd
    rw [length_append] at hfit ⊢
    obtain ⟨r, hw⟩ := fileWrite_fits v m file offset bs (by omega) (by omega)
    have hsize' : sizeAt (program m (file + 48 + offset) bs) file = z := by
      rw [← hsize]
      exact word_congr fun x _ h2 => program_frame (by omega)
    unfold b64decode
    rw [if_pos (by omega), hq]
    simp only [hw]
    rw [Nat.mod_eq_of_lt (by omega), b64decode_eq v file hin hz chunk hrest hsize' (by omega),
      ← add_assoc (file + 48), program_append, add_assoc offset]
  | [_], _, _, _, hd, _, _ => by cases hd
  | [_, _], _, _, _, hd, _, _ => by cases hd
  | [_, _, _], _, _, _, hd, _, _ => by cases hd

/-! ## The status -/

theorem slice_program_and {a : Nat} (old bs : List Byte) (ho : slice m a 4 = old) (hb : bs.length = 4) :
    slice (program m a bs) a 4 = old.zipWith (· &&& ·) bs := by
  obtain ⟨b0, b1, b2, b3, rfl⟩ : ∃ b0 b1 b2 b3, bs = [b0, b1, b2, b3] := by
    match bs, hb with
    | [b0, b1, b2, b3], _ => exact ⟨b0, b1, b2, b3, rfl⟩
  rw [← ho, slice_four, slice_four]
  simp [program]

theorem statusAt_program {old : Nat} (new : Nat) (ho : statusAt m file = old) :
    statusAt (program m (file + 40) (leBytes 4 new)) file =
      leValue ((leBytes 4 old).zipWith (· &&& ·) (leBytes 4 new)) := by
  unfold statusAt word at ho ⊢
  rw [slice_program_and (leBytes 4 old) _ (by rw [← ho]; exact (leBytes_word m _).symm) (leBytes_length 4 new)]

theorem startLoading_spec (hal : file % 4 = 0) (hin : file + 44 ≤ 4096 * v.numof)
    (hst : statusAt m file = Status.created.code ∨ statusAt m file = Status.loading.code) :
    ∃ m', startLoading v m file = some m' ∧ statusAt m' file = Status.loading.code ∧
      ∀ x, x < file + 40 ∨ file + 44 ≤ x → m' x = m x := by
  have hw : ∀ m n, flashpageWrite v.numof m (file + 40) (leBytes 4 n) = some (program m (file + 40) (leBytes 4 n)) :=
    fun m n => flashpageWrite_eq (by simp) (by omega) (by simp; omega)
  have hframe : ∀ (m : Flash) (n x : Nat), x < file + 40 ∨ file + 44 ≤ x →
      program m (file + 40) (leBytes 4 n) x = m x := fun m n x hx => program_frame (by rw [leBytes_length]; omega)
  unfold startLoading
  rcases hst with hst | hst
  · -- the word is programmed once as `CREATED` and once more as `LOADING`
    have h1 : statusAt (program m (file + 40) (leBytes 4 Status.loading.code)) file = Status.loading.code :=
      (statusAt_program _ hst).trans (by decide)
    have h2 := (statusAt_program Status.loading.code h1).trans (show _ = Status.loading.code by decide)
    unfold fileStatus
    simp only [hst, h1, hw, map_some, bind_eq_bind, bind_some]
    exact ⟨_, rfl, h2, fun x hx => (hframe _ _ x hx).trans (hframe _ _ x hx)⟩
  · rw [if_neg (by rw [hst]; decide)]
    exact ⟨m, rfl, hst, fun _ _ => rfl⟩

theorem finishLoading_spec (hal : file % 4 = 0) (hin : file + 44 ≤ 4096 * v.numof)
    (hst : statusAt m file = Status.loading.code) (offset : Nat) :
    ∃ m', finishLoading v m offset file = some (m', if sizeAt m file = offset then 0 else offset) ∧
      statusAt m' file = (if sizeAt m file = offset then Status.loaded.code else Status.loading.code) ∧
      ∀ x, x < file + 40 ∨ file + 44 ≤ x → m' x = m x := by
  unfold finishLoading
  split
  · have h1 : statusAt (program m (file + 40) (leBytes 4 Status.loaded.code)) file = Status.loaded.code :=
      (statusAt_program _ hst).trans (by decide)
    have hw : flashpageWrite v.numof m (file + 40) (leBytes 4 Status.loaded.code) =
        some (program m (file + 40) (leBytes 4 Status.loaded.code)) :=
      flashpageWrite_eq (by simp) (by omega) (by simp; omega)
    unfold fileStatus
    simp only [hst, hw, map_some, bind_eq_bind, bind_some]
    exact ⟨_, rfl, h1, fun x hx => program_frame (by rw [leBytes_length]; omega)⟩
  · exact ⟨m, rfl, hst, fun _ _ => rfl⟩

/-! ## The whole chunk -/

theorem load_spec (v : Volume) (s : State) (file : Nat) {chunk d : List Byte} (hal : file % 4 = 0)
    (hin : file + 48 + sizeAt s.flash file ≤ 4096 * v.numof)
    (hst : statusAt s.flash file = Status.created.code ∨ statusAt s.flash file = Status.loading.code)
    (hd : decoded chunk = some d) (hfit : s.offset + d.length ≤ sizeAt s.flash file)
    (hblank : Blank s.flash (file + 48 + s.offset) (file + 48 + s.offset + d.length)) :
    ∃ m', load v s file chunk =
        some (m', if sizeAt s.flash file = s.offset + d.length then 0 else s.offset + d.length) ∧
      statusAt m' file =
        (if sizeAt s.flash file = s.offset + d.length then Status.loaded.code else Status.loading.code) ∧
      slice m' (file + 48 + s.offset) d.length = d ∧
      ∀ x, x < file + 40 ∨ (file + 44 ≤ x ∧ x < file + 48 + s.offset) ∨ file + 48 + s.offset + d.length ≤ x →
        m' x = s.flash x := by
  obtain ⟨m1, hstart, hst1, hf1⟩ := startLoading_spec (v := v) hal (by omega) hst
  have hsize1 : sizeAt m1 file = sizeAt s.flash file := word_congr fun x _ h2 => hf1 x (by omega)
  have hlt := word_lt s.flash (file + 32)
  have hdec := b64decode_eq v file hin hlt chunk hd hsize1 hfit
  have hframe2 : ∀ x, x < file + 48 → program m1 (file + 48 + s.offset) d x = m1 x := fun x hx =>
    program_frame (by omega)
  have hst2 : statusAt (program m1 (file + 48 + s.offset) d) file = Status.loading.code := by
    rw [← hst1]
    exact word_congr fun x _ h2 => hframe2 x (by omega)
  have hsize2 : sizeAt (program m1 (file + 48 + s.offset) d) file = sizeAt s.flash file := by
    rw [← hsize1]
    exact word_congr fun x _ h2 => hframe2 x (by omega)
  obtain ⟨m', hfinish, hst', hf'⟩ := finishLoading_spec (v := v) hal (by omega) hst2 (s.offset + d.length)
  rw [hsize2] at hfinish hst'
  refine ⟨m', ?_, hst', ?_, ?_⟩
  · unfold load
    rw [hstart]
    simp only [hdec, hfinish]
  · have hblank1 : Blank m1 (file + 48 + s.offset) (file + 48 + s.offset + d.length) :=
      hblank.congr fun x h1 _ => hf1 x (by omega)
    rw [slice_congr fun x h1 _ => hf' x (by omega)]; exact slice_program hblank1
  · intro x hx
    rw [hf' x (by omega), program_frame (by omega), hf1 x (by omega)]

end

end PipRiot.Loader
