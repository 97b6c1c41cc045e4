import PipRiot.Tinyfs.Create

/-!
# Enumerating and searching what was created

After a sequence of creations on a formatted region the walk visits the created
files in order, unless several files fill the region to the last page: then the
last one is neither visited nor found.
-/

namespace PipRiot.Tinyfs

open List

structure Request where
  name : CString
  size : Nat
  exec : Nat
  status : Status

def totalSize (rs : List Request) : Nat := (rs.map fun r => round r.size).sum

section
variable (v : Volume)

def createAll : Flash → List Request → Option (List Nat × Flash)
  | m, [] => some ([], m)
  | m, r :: rs =>
    match createFile v m r.name r.size r.exec r.status with
    | some (some file, m) => (createAll m rs).map fun p => (file :: p.1, p.2)
    | _ => none

/-- The iteration visits the created files once each in order, and a search
finds the first created with the name. -/
def EnumerationComplete (m : Flash) (created : List Nat) (rs : List Request) : Prop :=
  enumerate v m = some created ∧ created.Nodup ∧
    ∀ name : CString, name.bytes.length < 32 →
      fileSearch v m name =
        some (((created.zip rs).find? fun p => p.2.name.bytes = name.bytes).map Prod.fst)

end

/-! ## Names -/

theorem strncmpEq_padded : ∀ (n k : Nat) (s t : List Byte), s.length < n → (0 : Byte) ∉ s → (0 : Byte) ∉ t →
    (strncmpEq (s ++ replicate k 0) t n = true ↔ s = t)
  | 0, _, _, _, h, _, _ => by omega
  | n + 1, k, [], t, _, _, ht => by
    have h0 : ([] ++ replicate k (0 : Byte)).headD 0 = 0 := by cases k <;> rfl
    unfold strncmpEq
    rw [h0]
    cases t with
    | nil => simp
    | cons y t =>
      have hy : ((0 : Byte) == y) = false := by
        rw [beq_eq_false_iff_ne]
        rintro rfl
        exact ht (mem_cons_self ..)
      rw [headD_cons, hy]; simp
  | n + 1, k, x :: s, t, hl, hs, ht => by
    have hx : (x == (0 : Byte)) = false := by
      rw [beq_eq_false_iff_ne]
      rintro rfl
      exact hs (mem_cons_self ..)
    have hs' : (0 : Byte) ∉ s := fun h => hs (mem_cons_of_mem x h)
    simp only [strncmpEq, cons_append, headD_cons, tail_cons, hx, Bool.false_or]
    cases t with
    | nil => rw [headD_nil, hx]; simp
    | cons y t =>
      have ht' : (0 : Byte) ∉ t := fun h => ht (mem_cons_of_mem y h)
      rw [Bool.and_eq_true, tail_cons, strncmpEq_padded n k s t (by simpa using hl) hs' ht']
      simp

theorem strncmpEq_nameField {name name' : CString} (h : name.bytes.length < 32) :
    strncmpEq (nameField name) name'.bytes 32 = decide (name.bytes = name'.bytes) := by
  have hpad : nameField name = name.bytes ++ replicate (32 - name.bytes.length) 0 := by
    unfold nameField strncpy
    rw [take_of_length_le (by omega), append_assoc,
      show 32 - name.bytes.length = 31 - name.bytes.length + 1 by omega, replicate_succ']
  rw [Bool.eq_iff_iff, hpad, strncmpEq_padded 32 _ _ _ h name.nonzero name'.nonzero, decide_eq_true_iff]

/-! ## The created files -/

section
variable {v : Volume} {m m' : Flash}

theorem createFile_some {name : CString} {size exec file : Nat} {status : Status}
    (h : createFile v m name size exec status = some (some file, m')) :
    v.initialized = true ∧ 0 < size ∧ size ≤ filesizeMax ∧ (exec = 0 ∨ exec = 1) := by
  by_cases hbad : v.initialized = false ∨ size = 0 ∨ filesizeMax < size ∨ (exec ≠ 0 ∧ exec ≠ 1)
  · rw [createFile_refused hbad] at h; cases h
  · rw [not_or, Bool.not_eq_false] at hbad
    refine ⟨hbad.1, ?_⟩
    omega

theorem createAll_chain : ∀ (rs : List Request) (es : List Entry) (m m' : Flash) (created : List Nat), Chain v m es →
    endAddr v.firstPage es + totalSize rs ≤ v.lastPage → createAll v m rs = some (created, m') →
    ∃ fs, Chain v m' (es ++ fs) ∧ created = starts (endAddr v.firstPage es) fs ∧
      fs.map Entry.name = rs.map (fun r => nameField r.name) ∧
      endAddr v.firstPage (es ++ fs) = endAddr v.firstPage es + totalSize rs
  | [], es, m, m', created, hc, _, h => by
    cases h
    refine ⟨[], ?_, rfl, rfl, ?_⟩
    · rw [append_nil]; exact hc
    · rw [append_nil]; rfl
  | r :: rs, es, m, m', created, hc, hfit, h => by
    have htot : totalSize (r :: rs) = round r.size + totalSize rs := by simp [totalSize]
    unfold createAll at h
    split at h
    · rename_i file m1 hcreate
      obtain ⟨⟨ps, _⟩, hrest, heq⟩ := Option.map_eq_some_iff.mp h
      cases heq
      obtain ⟨hi, h0, hs, hx⟩ := createFile_some hcreate
      obtain ⟨m2, hnew, hchain⟩ := createFile_fits r.name r.size r.exec r.status hi h0 hs hx hc (by omega)
      rw [hnew] at hcreate
      cases hcreate
      have hend : endAddr v.firstPage (es ++ [newEntry r.name r.size r.exec r.status h0 hs hx]) =
          endAddr v.firstPage es + round r.size := by rw [endAddr_append]; rfl
      obtain ⟨fs, h1, h2, h3, h4⟩ := createAll_chain rs _ m1 _ ps hchain (by omega) hrest
      rw [append_assoc, singleton_append] at h1 h4
      refine ⟨_, h1, ?_, ?_, by omega⟩
      · rw [h2, hend]; rfl
      · rw [map_cons, map_cons, h3]; rfl
    · cases h

theorem starts_nodup : ∀ (es : List Entry) (a : Nat), (∀ x ∈ starts a es, a ≤ x) ∧ (starts a es).Nodup
  | [], _ => by simp [starts]
  | e :: es, a => by
    have hx := e.extent_spec
    obtain ⟨h1, h2⟩ := starts_nodup es (a + e.extent)
    simp only [starts, mem_cons, nodup_cons]
    refine ⟨?_, ?_, h2⟩
    · rintro x (rfl | hx')
      · exact le_rfl
      · have := h1 x hx'; omega
    · intro ha
      have := h1 a ha; omega

theorem starts_length : ∀ (es : List Entry) (a : Nat), (starts a es).length = es.length
  | [], _ => rfl
  | e :: es, a => by simp [starts, starts_length es]

theorem locate_created (name : CString) : ∀ (fs : List Entry) (rs : List Request) (a : Nat),
    fs.map Entry.name = rs.map (fun r => nameField r.name) → (∀ r ∈ rs, r.name.bytes.length < 32) →
    locate name a fs = (((starts a fs).zip rs).find? fun p => p.2.name.bytes = name.bytes).map Prod.fst
  | [], _, _, _, _ => rfl
  | e :: fs, [], _, hn, _ => by simp at hn
  | e :: fs, r :: rs, a, hn, hr => by
    simp only [map_cons, List.cons.injEq] at hn
    have hhas : e.hasName name = decide (r.name.bytes = name.bytes) := by
      unfold Entry.hasName
      rw [hn.1, strncmpEq_nameField (hr r (mem_cons_self ..))]
    have ih := locate_created name fs rs (a + e.extent) hn.2 fun r' h' => hr r' (mem_cons_of_mem r h')
    rw [starts, zip_cons_cons, find?_cons]
    by_cases hname : r.name.bytes = name.bytes
    · rw [locate_here (by simpa [hname] using hhas)]
      simp [hname]
    · rw [locate_there (by simpa [hname] using hhas), ih]
      simp [hname]

end

theorem enumeration_complete_iff (v : Volume) (hi : v.initialized = true) (m m0 m' : Flash)
    (hformat : format v m = some m0) (rs : List Request) (hnames : ∀ r ∈ rs, r.name.bytes.length < 32)
    (hfit : totalSize rs ≤ v.lastPage - v.firstPage) (created : List Nat)
    (hcreate : createAll v m0 rs = some (created, m')) :
    EnumerationComplete v m' created rs ↔ ¬ (totalSize rs = v.lastPage - v.firstPage ∧ 2 ≤ rs.length) := by
  have hlt := v.first_lt
  have hc0 := chain_format hi hformat
  obtain ⟨fs, hc, rfl, hn, hend⟩ := createAll_chain rs [] m0 m' created hc0 (by simp only [endAddr]; omega) hcreate
  rw [nil_append] at hc hend
  simp only [endAddr] at hend hcreate ⊢
  have hlen : fs.length = rs.length := by simpa using congrArg List.length hn
  have hfull : (endAddr v.firstPage fs = v.lastPage ∧ 2 ≤ fs.length) ↔
      (totalSize rs = v.lastPage - v.firstPage ∧ 2 ≤ rs.length) := by omega
  rw [← hfull]
  constructor
  · rintro ⟨henum, _⟩ hbad
    rw [hc.enumerate_eq hi, Option.some.injEq] at henum
    have := congrArg List.length henum
    rw [starts_length, starts_length, visible, if_pos hbad, length_dropLast] at this
    omega
  · intro hgood
    refine ⟨?_, (starts_nodup fs _).2, fun name _ => ?_⟩
    · rw [hc.enumerate_eq hi, visible_of_not hgood]
    · rw [hc.search_eq hi name, visible_of_not hgood, locate_created name fs rs _ hn hnames]

/-! ## Regions of two and three pages -/

def twoPages : Volume where
  firstPage := 4096
  lastPage := 12288
  numof := 128
  initialized := true
  first_pos := by decide
  first_aligned := by decide
  last_aligned := by decide
  first_lt := by decide
  last_le := by decide
  numof_le := by decide

def threePages : Volume :=
  { twoPages with
    lastPage := 16384
    last_aligned := by decide
    first_lt := by decide
    last_le := by decide }

def blankFlash : Flash := fun _ => 0xff

theorem format_blank {v : Volume} (hi : v.initialized = true) : format v blankFlash = some blankFlash := by
  rw [format_eq hi, erase_of_blank (m := blankFlash) fun _ _ _ => rfl]

def fileA : CString := ⟨[97], by decide⟩
def fileB : CString := ⟨[98], by decide⟩

def entryA : Entry := newEntry fileA 100 0 .loaded (by decide) (by decide) (.inl rfl)

theorem create_fileA : ∃ m, createFile twoPages blankFlash fileA 100 0 .loaded = some (some 4096, m) ∧
    Chain twoPages m [entryA] :=
  createFile_fits fileA 100 0 .loaded rfl (by decide) (by decide) (.inl rfl) (chain_format rfl (format_blank rfl))
    (by decide)

def sampleEntry (name : CString) (status : Status) : Entry :=
  newEntry name 100 0 status (by decide) (by decide) (.inl rfl)

theorem create_two (st : Status) : ∃ m1 m, createFile threePages blankFlash fileA 100 0 st = some (some 4096, m1) ∧
    createFile threePages m1 fileB 100 0 .loaded = some (some 8192, m) ∧ Chain threePages m1 [sampleEntry fileA st] ∧
    Chain threePages m [sampleEntry fileA st, sampleEntry fileB .loaded] := by
  obtain ⟨m1, h1, hc1⟩ := createFile_fits fileA 100 0 st rfl (by decide) (by decide) (.inl rfl)
    (chain_format (v := threePages) rfl (format_blank rfl)) (by decide)
  have hend : endAddr 4096 [sampleEntry fileA st] = 8192 := show 4096 + round 100 = 8192 by decide
  obtain ⟨m, h, hc⟩ := createFile_fits fileB 100 0 .loaded rfl (by decide) (by decide) (.inl rfl) hc1
    (hend ▸ by decide)
  exact ⟨m1, m, h1, h.trans (congrArg (fun a => some (some a, m)) hend), hc1, hc⟩

theorem enumeration_complete_two_files : ∃ m',
    createAll threePages blankFlash [⟨fileA, 100, 0, .loaded⟩, ⟨fileB, 100, 0, .loaded⟩] = some ([4096, 8192], m') ∧
    EnumerationComplete threePages m' [4096, 8192] [⟨fileA, 100, 0, .loaded⟩, ⟨fileB, 100, 0, .loaded⟩] := by
  obtain ⟨m1, m', h1, h, -⟩ := create_two .loaded
  have hall : createAll threePages blankFlash [⟨fileA, 100, 0, .loaded⟩, ⟨fileB, 100, 0, .loaded⟩] =
      some ([4096, 8192], m') := by
    simp only [createAll, h1, h]; rfl
  refine ⟨m', hall, ?_⟩
  exact (enumeration_complete_iff threePages rfl blankFlash blankFlash m' (format_blank rfl) _ (by decide) (by decide) _
    hall).mpr (by decide)

theorem enumeration_misses_last_of_full : ∃ created m',
    createAll twoPages blankFlash [⟨fileA, 100, 0, .loaded⟩, ⟨fileB, 100, 0, .loaded⟩] = some (created, m') ∧
      created = [4096, 8192] ∧ enumerate twoPages m' = some [4096] ∧ fileSearch twoPages m' fileB = some none := by
  have h : ∃ w ∈ createAll twoPages blankFlash [⟨fileA, 100, 0, .loaded⟩, ⟨fileB, 100, 0, .loaded⟩],
      w.1 = [4096, 8192] ∧ enumerate twoPages w.2 = some [4096] ∧ fileSearch twoPages w.2 fileB = some none := by
    decide +kernel
  obtain ⟨⟨created, m'⟩, hw, h1, h2, h3⟩ := h
  exact ⟨created, m', hw, h1, h2, h3⟩

end PipRiot.Tinyfs
