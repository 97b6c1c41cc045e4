import PipRiot.Tinyfs.Enumerate

/-!
# What a write to a file changes

`tinyfs_file_write` compares with the size of the content, while the pages of a file are
those of the rounded size without the header. So a write that is accepted may reach up to
48 bytes behind the pages of its file.
-/

namespace PipRiot.Tinyfs

open List Option

section
variable {v : Volume} {m m' : Flash} {file offset : Nat} {src : List Byte}

theorem flashpageWriteUnaligned_some {numof : Nat} : ∀ (data : List Byte) (m : Flash) (a : Nat),
    flashpageWriteUnaligned numof m a data = some m' → data ≠ [] → a + data.length ≤ 4096 * numof
  | [], _, _, _, hne => absurd rfl hne
  | value :: data, m, a, h, _ => by
    rw [flashpageWriteUnaligned, bind_eq_bind, bind_eq_some_iff] at h
    obtain ⟨m1, hw, hrest⟩ := h
    have hlen : (patchedBytes m a value).length = 4 := leBytes_length 4 _
    have hin : a < 4096 * numof := by
      unfold flashpageWrite at hw
      split at hw
      · omega
      · cases hw
    cases data with
    | nil => exact hin
    | cons b data =>
      have hle := flashpageWriteUnaligned_some (b :: data) m1 (a + 1) hrest (by simp)
      simp only [length_cons] at hle ⊢; omega

theorem fileWrite_cases {r : Int} (h : fileWrite v m file offset src = some (r, m')) :
    (src = [] ∧ r = 0 ∧ m' = m) ∨
      (r = -1 ∧ m' = m ∧ (sizeAt m file < offset ∨ sizeAt m file < (offset + src.length) % 2 ^ 32)) ∨
      (r = 0 ∧ m' = program m (file + 48 + offset) src ∧ offset + src.length ≤ sizeAt m file ∧
        file + 48 + offset + src.length ≤ 4096 * v.numof) := by
  unfold fileWrite at h
  split at h
  · rename_i hnil
    cases h
    exact .inl ⟨eq_nil_of_length_eq_zero hnil, rfl, rfl⟩
  · rename_i hnil
    split at h
    · rename_i hsize
      cases h; exact .inr (.inl ⟨rfl, rfl, .inl hsize⟩)
    · split at h
      · rename_i hsize
        cases h; exact .inr (.inl ⟨rfl, rfl, .inr hsize⟩)
      · obtain ⟨m1, hw, heq⟩ := map_eq_some_iff.mp h
        cases heq
        have hfit := flashpageWriteUnaligned_some src m _ hw (by rintro rfl; exact hnil rfl)
        rw [flashpageWriteUnaligned_eq src m _ hfit] at hw
        have hnumof := v.numof_le
        exact .inr (.inr ⟨rfl, (some.inj hw).symm, by omega, hfit⟩)

theorem fileWrite_accepted (hsize : offset + src.length ≤ sizeAt m file)
    (hfit : file + 48 + offset + src.length ≤ 4096 * v.numof) :
    fileWrite v m file offset src = some (0, program m (file + 48 + offset) src) := by
  unfold fileWrite
  split
  · rename_i hnil
    rw [eq_nil_of_length_eq_zero hnil, program_nil]
  · rw [if_neg (by omega), if_neg (by omega), flashpageWriteUnaligned_eq src m _ hfit]
    rfl

end

/-- A write that returns 0 puts erased content bytes to the data and changes nothing else in
the region; one that returns -1 changes nothing. -/
def WritesOnly (v : Volume) (m : Flash) (file extent offset : Nat) (src : List Byte) : Prop :=
  ∀ r m', fileWrite v m file offset src = some (r, m') →
    (r = 0 → (Blank m (file + 48 + offset) (file + 48 + offset + src.length) →
        slice m' (file + 48 + offset) src.length = src) ∧
      ∀ x, v.firstPage ≤ x → x < v.lastPage →
        ¬ (file + 48 + offset ≤ x ∧ x < file + 48 + offset + src.length ∧ x < file + extent) → m' x = m x) ∧
    (r = -1 → m' = m)

/-- The write is accepted and covers a byte of the region behind the pages of the file
that has a set bit. -/
def Spills (v : Volume) (m : Flash) (file size extent offset n : Nat) : Prop :=
  offset + n ≤ size ∧ file + 48 + offset + n ≤ 4096 * v.numof ∧
    ∃ x, file + 48 + offset ≤ x ∧ x < file + 48 + offset + n ∧ file + extent ≤ x ∧ x < v.lastPage ∧ m x ≠ 0

theorem write_stays_in_file_iff (v : Volume) (m : Flash) (pre post : List Entry) (e : Entry)
    (h : Chain v m (pre ++ e :: post)) (offset n : Nat) :
    (∀ src : List Byte, src.length = n → WritesOnly v m (endAddr v.firstPage pre) e.extent offset src) ↔
      ¬ Spills v m (endAddr v.firstPage pre) e.size e.extent offset n := by
  have hfile := (Files.append.mp h.files).2
  have hfits := h.fits
  rw [endAddr_append, endAddr_cons] at hfits
  have hle := le_endAddr post (endAddr v.firstPage pre + e.extent)
  have hsize := hfile.size (by omega)
  have hfirst := le_endAddr pre v.firstPage
  generalize endAddr v.firstPage pre = file at *
  constructor
  · -- zeros clear the byte behind the file
    rintro hall ⟨hn, hfit, x, hx1, hx2, hx3, hlast, hbit⟩
    have hw := hall (replicate n 0) length_replicate 0 _
      (fileWrite_accepted (by rw [length_replicate, hsize]; exact hn) (by rw [length_replicate]; exact hfit))
    have hkept := (hw.1 rfl).2 x (by omega) hlast (by omega)
    apply hbit
    rw [← hkept, program, if_pos hx1, getD_eq_getElem?_getD, getElem?_replicate, if_pos (by omega), getD_some]
    exact BitVec.and_zero
  · intro hno src hlen r m' hw
    obtain ⟨rfl, rfl, rfl⟩ | ⟨rfl, rfl, -⟩ | ⟨rfl, rfl, hn, hfit⟩ := fileWrite_cases hw
    · exact ⟨fun _ => ⟨fun _ => rfl, fun _ _ _ _ => rfl⟩, fun _ => rfl⟩
    · exact ⟨fun hr => absurd hr (by decide), fun _ => rfl⟩
    · refine ⟨fun _ => ⟨slice_program, ?_⟩, fun hr => absurd hr (by decide)⟩
      intro x hge hlt hother
      by_cases hin : file + 48 + offset ≤ x ∧ x < file + 48 + offset + src.length
      · have hzero : m x = 0 := by
          by_contra hbit
          exact hno ⟨by omega, by omega, x, hin.1, by omega, by omega, hlt, hbit⟩
        rw [program, if_pos hin.1, hzero]; exact BitVec.zero_and
      · exact program_frame (by omega)

theorem write_stays_in_fileA : ∃ m, Chain twoPages m [entryA] ∧ WritesOnly twoPages m 4096 4096 10 [1, 2, 3, 4] := by
  obtain ⟨m, -, hc⟩ := create_fileA
  refine ⟨m, hc, (write_stays_in_file_iff twoPages m [] [] entryA hc 10 4).mpr ?_ _ rfl⟩
  rintro ⟨-, -, x, -, hlt, hge, -⟩
  have hlt : x < 4096 + 48 + 10 + 4 := hlt
  have hge : 4096 + 4096 ≤ x := hge
  omega

/-- A byte of content at 4048 of a file of one page is the first byte of the next name. -/
theorem write_clears_next_name : ∃ m es, Chain twoPages m es ∧ es.length = 2 ∧ sizeAt m 4096 = 4096 ∧
    ¬ WritesOnly twoPages m 4096 4096 4048 [0] := by
  have h : ∃ w ∈ createAll twoPages blankFlash [⟨fileA, 4096, 0, .loaded⟩, ⟨fileB, 100, 0, .loaded⟩],
      ∃ u ∈ fileWrite twoPages w.2 4096 4048 [0], u.1 = 0 ∧ sizeAt w.2 4096 = 4096 ∧ w.2 8192 = 98 ∧ u.2 8192 = 0 := by
    decide +kernel
  obtain ⟨⟨created, m⟩, hw, ⟨r, m'⟩, hu, hr, hsize, hold, hnew⟩ := h
  obtain ⟨es, hc, -, hn, -⟩ :=
    createAll_chain _ [] blankFlash m created (chain_format rfl (format_blank rfl)) (by decide) hw
  have hlen : es.length = 2 := by simpa using congrArg List.length hn
  refine ⟨m, es, hc, hlen, hsize, ?_⟩
  intro hwrite
  have hkept := ((hwrite r m' hu).1 hr).2 8192 (by decide) (by decide) (by decide)
  rw [show m' 8192 = 0 from hnew, show m 8192 = 98 from hold] at hkept
  exact absurd hkept (by decide)

end PipRiot.Tinyfs
