import PipRiot.Tinyfs.Walk

/-!
# Formatting and creating

Formatting leaves an empty chain, and a file that fits is appended to the
chain. `tinyfs_create_file` tests only whether the new file ends exactly at the
last page; that the file fits is up to the caller.
-/

namespace PipRiot.Tinyfs

open List Option

/-! ## Erasing pages -/

section
variable {m : Flash}

theorem blank_of_not_needed {page : Nat} (h : flashNeeded m page = false) :
    Blank m (4096 * page) (4096 * page + 4096) := by
  unfold flashNeeded flashpageAddr at h
  rw [List.any_eq_false] at h
  intro x h1 h2
  have hi := h ((x - 4096 * page) / 4) (mem_range.mpr (by omega))
  simp only [bne_iff_ne, ne_eq, not_not] at hi
  exact blank_of_word hi x (by omega) (by omega)

theorem flashPage_eq {numof page : Nat} (h : page < numof) :
    flashPage numof m page = some (erase m (4096 * page) 4096) := by
  unfold flashPage
  by_cases hn : flashNeeded m page = true
  · rw [if_pos hn, flashpageErase, if_pos h]; rfl
  · rw [if_neg hn, erase_of_blank (blank_of_not_needed (by simpa using hn))]

theorem flashPages_eq {numof : Nat} : ∀ (n page : Nat) (m : Flash), page + n ≤ numof →
    flashPages numof m page n = some (erase m (4096 * page) (4096 * n))
  | 0, page, m, _ => by
    rw [flashPages, erase_of_blank]
    intro x h1 h2; omega
  | n + 1, page, m, h => by
    rw [flashPages, flashPage_eq (by omega), bind_eq_bind, bind_some, flashPages_eq n (page + 1) _ (by omega),
      show 4096 * (page + 1) = 4096 * page + 4096 by omega, erase_add, show 4096 * (n + 1) = 4096 + 4096 * n by omega]

end

section
variable {v : Volume} {m m' : Flash}

theorem format_eq (hi : v.initialized = true) (m : Flash) :
    format v m = some (erase m v.firstPage (v.lastPage - v.firstPage)) := by
  have h1 := v.first_aligned
  have h2 := v.last_aligned
  have h3 := v.first_lt
  have h4 := v.last_le
  unfold format flashpagePage
  rw [hi]
  simp only [Bool.true_eq_false, if_false]
  rw [flashPages_eq _ _ _ (by omega), show 4096 * (v.firstPage / 4096) = v.firstPage by omega,
    show 4096 * (v.lastPage / 4096 - v.firstPage / 4096) = v.lastPage - v.firstPage by omega]

theorem chain_format (hi : v.initialized = true) (h : format v m = some m') : Chain v m' [] := by
  have h3 := v.first_lt
  rw [format_eq hi] at h
  cases h
  refine ⟨trivial, h3.le, ?_⟩
  exact (blank_erase m v.firstPage _).mono le_rfl (by omega)

/-! ## Creating a file -/

def nameField (name : CString) : List Byte := strncpy name.bytes 31 ++ [0]

theorem nameField_length (name : CString) : (nameField name).length = 32 := by
  simp [nameField, strncpy]
  omega

def newEntry (name : CString) (size exec : Nat) (status : Status) (h0 : 0 < size) (hs : size ≤ filesizeMax)
    (hx : exec = 0 ∨ exec = 1) : Entry where
  name := nameField name
  size := size
  status := status.code
  exec := exec
  body := replicate (round size - 48) 0xff
  name_length := nameField_length name
  size_pos := h0
  size_le := hs
  status_lt := by cases status <;> decide
  exec_lt := by omega
  body_length := List.length_replicate

theorem slice_blank {a n : Nat} (h : Blank m a (a + n)) : slice m a n = replicate n 0xff := by
  apply slice_of_getD length_replicate
  intro i hi
  rw [h (a + i) (by omega) (by omega), getD_eq_getElem?_getD, getElem?_replicate, if_pos hi, getD_some]

section
variable {es : List Entry} {name : CString} {size exec : Nat} {status : Status}

theorem createFile_refused (h : v.initialized = false ∨ size = 0 ∨ filesizeMax < size ∨ (exec ≠ 0 ∧ exec ≠ 1)) :
    createFile v m name size exec status = some (none, m) := by
  unfold createFile
  rw [if_pos h]

theorem createFile_full (h : Chain v m es) (hfull : endAddr v.firstPage es = v.lastPage) :
    createFile v m name size exec status = some (none, m) := by
  unfold createFile
  split
  · rfl
  · rw [h.firstFree, if_pos hfull]

theorem createFile_fits (name : CString) (size exec : Nat) (status : Status) (hi : v.initialized = true) (h0 : 0 < size)
    (hs : size ≤ filesizeMax) (hx : exec = 0 ∨ exec = 1) (h : Chain v m es)
    (hfit : endAddr v.firstPage es + round size ≤ v.lastPage) :
    ∃ m', createFile v m name size exec status = some (some (endAddr v.firstPage es), m') ∧
      Chain v m' (es ++ [newEntry name size exec status h0 hs hx]) := by
  have hl := v.last_lt
  have hle := v.last_le
  have hal := endAddr_aligned es v.firstPage v.first_aligned
  generalize he : newEntry name size exec status h0 hs hx = e
  have hext : e.extent = round size := by rw [← he]; rfl
  have hspec := e.extent_spec
  generalize hc : endAddr v.firstPage es = c at *
  have hhead : (e.header (nextOf v (c + e.extent))).bytes.length = 48 := e.header_length _
  refine ⟨program m c (e.header (nextOf v (c + e.extent))).bytes, ?_, ?_⟩
  · have hw : flashpageWrite v.numof m c (e.header (nextOf v (c + e.extent))).bytes =
        some (program m c (e.header (nextOf v (c + e.extent))).bytes) :=
      flashpageWrite_eq (by omega) (by omega) (by omega)
    have hfile : (⟨strncpy name.bytes 31 ++ [0], size,
        if (c + round size) % 2 ^ 32 = v.lastPage then v.firstPage else (c + round size) % 2 ^ 32,
        status.code, exec⟩ : FileT) = e.header (nextOf v (c + e.extent)) := by
      rw [← he, Nat.mod_eq_of_lt (by omega)]; rfl
    unfold createFile
    rw [if_neg (by rw [hi]; simp; omega), h.firstFree, hc, if_neg (by omega)]
    simp only [hfile, hw, map_some]
  · have hblank : Blank m c v.lastPage := hc ▸ h.free
    have hframe : ∀ x, x < c ∨ c + 48 ≤ x →
        program m c (e.header (nextOf v (c + e.extent))).bytes x = m x := fun x hx => program_frame (by omega)
    have hend : endAddr v.firstPage (es ++ [e]) = c + e.extent := by rw [endAddr_append, hc]; rfl
    refine ⟨Files.append.mpr ⟨?_, ?_, trivial⟩, by omega, ?_⟩
    · exact h.files.congr fun x _ h2 => hframe x (by omega)
    · rw [hc, show e.extent = 48 + (e.extent - 48) by omega, slice_add, ← show e.extent = 48 + (e.extent - 48) by omega,
        Entry.image]
      congr 1
      · have hroom : Blank m c (c + (e.header (nextOf v (c + e.extent))).bytes.length) :=
          hblank.mono le_rfl (by omega)
        have := slice_program hroom
        rwa [hhead] at this
      · rw [show e.body = replicate (e.extent - 48) 0xff by rw [← he]; rfl]
        apply slice_blank
        exact (hblank.mono (by omega) (by omega)).congr fun x h1 _ => hframe x (by omega)
    · exact (hblank.mono (by omega) le_rfl).congr fun x h1 _ => hframe x (by omega)

end

end

end PipRiot.Tinyfs
