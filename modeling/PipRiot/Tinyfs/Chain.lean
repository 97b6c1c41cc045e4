import PipRiot.Tinyfs.FileSystem

/-!
# Chains of files

The abstract content of a region is a list of files, `Entry`. `Files` says that
the files of a list stand end to end in flash, each with the `next` pointer of
its place, and `Chain` that they do so from the first page on and that the rest
of the region is blank. The walks over the headers are computed on such lists.
-/

namespace PipRiot.Tinyfs

open List

/-- A file apart from its place: the header without `next`, and the bytes behind
it up to the end of its last page. -/
structure Entry where
  name : List Byte
  size : Nat
  status : Nat
  exec : Nat
  body : List Byte
  name_length : name.length = 32
  size_pos : 0 < size
  size_le : size ≤ filesizeMax
  status_lt : status < 2 ^ 32
  exec_lt : exec < 2 ^ 32
  body_length : body.length = round size - 48

theorem round_eq {s : Nat} (h : s ≤ filesizeMax) : round s = (s + 4095) / 4096 * 4096 := by
  unfold filesizeMax at h
  unfold round
  omega

def Entry.extent (e : Entry) : Nat := round e.size

theorem Entry.extent_spec (e : Entry) : e.extent % 4096 = 0 ∧ 4096 ≤ e.extent ∧ e.extent ≤ 2 ^ 29 := by
  have h1 := e.size_pos
  have h2 := e.size_le
  unfold Entry.extent
  rw [round_eq h2]
  unfold filesizeMax at h2
  omega

def Entry.header (e : Entry) (next : Nat) : FileT := ⟨e.name, e.size, next, e.status, e.exec⟩

def Entry.image (e : Entry) (next : Nat) : List Byte := (e.header next).bytes ++ e.body

theorem Entry.header_length (e : Entry) (next : Nat) : (e.header next).bytes.length = 48 := by
  simp [FileT.bytes, Entry.header, e.name_length]

section
variable (v : Volume)

def nextOf (a : Nat) : Nat := if a = v.lastPage then v.firstPage else a

def endAddr : Nat → List Entry → Nat
  | a, [] => a
  | a, e :: es => endAddr (a + e.extent) es

def starts : Nat → List Entry → List Nat
  | _, [] => []
  | a, e :: es => a :: starts (a + e.extent) es

def Files (m : Flash) : Nat → List Entry → Prop
  | _, [] => True
  | a, e :: es => slice m a e.extent = e.image (nextOf v (a + e.extent)) ∧ Files m (a + e.extent) es

structure Chain (m : Flash) (es : List Entry) : Prop where
  files : Files v m v.firstPage es
  fits : endAddr v.firstPage es ≤ v.lastPage
  free : Blank m (endAddr v.firstPage es) v.lastPage

end

/-! ## Lists of files -/

theorem endAddr_cons (a : Nat) (e : Entry) (es : List Entry) : endAddr a (e :: es) = endAddr (a + e.extent) es := rfl

theorem endAddr_append : ∀ (es fs : List Entry) (a : Nat), endAddr a (es ++ fs) = endAddr (endAddr a es) fs
  | [], _, _ => rfl
  | e :: es, fs, a => endAddr_append es fs (a + e.extent)

theorem starts_append : ∀ (es fs : List Entry) (a : Nat), starts a (es ++ fs) = starts a es ++ starts (endAddr a es) fs
  | [], _, _ => rfl
  | e :: es, fs, a => by
    simp only [cons_append, starts, endAddr]
    rw [starts_append es fs (a + e.extent)]

theorem le_endAddr : ∀ (es : List Entry) (a : Nat), a + 4096 * es.length ≤ endAddr a es
  | [], a => by simp [endAddr]
  | e :: es, a => by
    have h1 := le_endAddr es (a + e.extent)
    have h2 := e.extent_spec
    simp only [endAddr, length_cons]; omega

theorem endAddr_add : ∀ (es : List Entry) (a g : Nat), endAddr (a + g) es = endAddr a es + g
  | [], _, _ => rfl
  | e :: es, a, g => by
    simp only [endAddr]
    rw [← endAddr_add es (a + e.extent) g, add_right_comm]

theorem endAddr_aligned : ∀ (es : List Entry) (a : Nat), a % 4096 = 0 → endAddr a es % 4096 = 0
  | [], _, h => h
  | e :: es, a, h => by
    have := e.extent_spec
    exact endAddr_aligned es (a + e.extent) (by omega)

section
variable {v : Volume} {m m' : Flash}

theorem Files.append : ∀ {es fs : List Entry} {a : Nat},
    Files v m a (es ++ fs) ↔ Files v m a es ∧ Files v m (endAddr a es) fs
  | [], _, _ => by simp [Files, endAddr]
  | e :: es, fs, a => by
    simp only [cons_append, Files, endAddr]
    rw [Files.append, and_assoc]

theorem Files.congr : ∀ {es : List Entry} {a : Nat}, Files v m a es →
    (∀ x, a ≤ x → x < endAddr a es → m' x = m x) → Files v m' a es
  | [], _, _, _ => trivial
  | e :: es, a, ⟨h, hs⟩, he => by
    have hle := le_endAddr es (a + e.extent)
    have hs' : Files v m' (a + e.extent) es := hs.congr fun x h1 h2 => he x (by omega) h2
    refine ⟨?_, hs'⟩
    rw [← h]
    apply slice_congr
    intro x h1 h2
    exact he x h1 (by simp only [endAddr]; omega)

theorem Chain.congr {es : List Entry} (h : Chain v m es) (he : ∀ x, v.firstPage ≤ x → x < v.lastPage → m' x = m x) :
    Chain v m' es where
  files := h.files.congr fun x h1 h2 => he x h1 (lt_of_lt_of_le h2 h.fits)
  fits := h.fits
  free := h.free.congr fun x h1 h2 =>
    he x (le_trans (le_trans (Nat.le_add_right _ _) (le_endAddr es v.firstPage)) h1) h2

/-! ## Reading a header -/

theorem slice_image {a n : Nat} {f : FileT} {body : List Byte} (hf : f.name.length = 32)
    (h : slice m a n = f.bytes ++ body) :
    slice m a 32 = f.name ∧ slice m (a + 32) 4 = leBytes 4 f.size ∧ slice m (a + 36) 4 = leBytes 4 f.next ∧
      slice m (a + 40) 4 = leBytes 4 f.status ∧ slice m (a + 44) 4 = leBytes 4 f.exec ∧
      slice m (a + 48) (n - 48) = body := by
  have hn : n = 32 + (4 + (4 + (4 + (4 + (n - 48))))) := by
    have := congrArg List.length h
    simp [FileT.bytes, hf] at this
    omega
  rw [hn] at h
  simp only [slice_add, FileT.bytes, append_assoc] at h
  obtain ⟨h1, h⟩ := append_inj h (by simp [hf])
  obtain ⟨h2, h⟩ := append_inj h (by simp)
  obtain ⟨h3, h⟩ := append_inj h (by simp)
  obtain ⟨h4, h⟩ := append_inj h (by simp)
  obtain ⟨h5, h⟩ := append_inj h (by simp)
  exact ⟨h1, h2, h3, h4, h5, h⟩

theorem load_image {a next : Nat} {e : Entry} (hn : next < 2 ^ 32) (h : slice m a e.extent = e.image next) :
    loadFile m a = e.header next ∧ slice m (a + 48) (e.extent - 48) = e.body := by
  have hsize : e.size < 2 ^ 32 := lt_of_le_of_lt e.size_le (by decide)
  obtain ⟨h1, h2, h3, h4, h5, h6⟩ := slice_image e.name_length h
  refine ⟨?_, h6⟩
  unfold loadFile sizeAt nextAt statusAt execAt
  rw [h1, word_of_slice hsize h2, word_of_slice hn h3, word_of_slice e.status_lt h4, word_of_slice e.exec_lt h5]
  rfl

theorem Volume.last_lt (v : Volume) : v.lastPage ≤ 2 ^ 31 := by
  have h1 := v.last_le
  have h2 := v.numof_le
  omega

theorem nextOf_lt {a : Nat} (h : a ≤ v.lastPage) : nextOf v a < 2 ^ 32 := by
  have h1 := v.last_lt
  have h2 := v.first_lt
  unfold nextOf
  split <;> omega

theorem nextOf_of_lt {a : Nat} (h : a < v.lastPage) : nextOf v a = a := if_neg (by omega)

theorem nextOf_last : nextOf v v.lastPage = v.firstPage := if_pos rfl

theorem nextOf_ne_free {a : Nat} (h : a ≤ v.lastPage) : nextOf v a ≠ freePage := by
  have h1 := v.last_lt
  have h2 := v.first_lt
  unfold nextOf freePage
  split <;> omega

theorem Files.load {e : Entry} {es : List Entry} {a : Nat} (h : Files v m a (e :: es))
    (hl : a + e.extent ≤ v.lastPage) :
    loadFile m a = e.header (nextOf v (a + e.extent)) := (load_image (nextOf_lt hl) h.1).1

theorem Files.next {e : Entry} {es : List Entry} {a : Nat} (h : Files v m a (e :: es))
    (hl : a + e.extent ≤ v.lastPage) :
    nextAt m a = nextOf v (a + e.extent) := congrArg FileT.next (h.load hl)

theorem Files.size {e : Entry} {es : List Entry} {a : Nat} (h : Files v m a (e :: es))
    (hl : a + e.extent ≤ v.lastPage) :
    sizeAt m a = e.size := congrArg FileT.size (h.load hl)

theorem Files.name {e : Entry} {es : List Entry} {a : Nat} (h : Files v m a (e :: es))
    (hl : a + e.extent ≤ v.lastPage) :
    slice m a 32 = e.name := congrArg FileT.name (h.load hl)

theorem Files.body {e : Entry} {es : List Entry} {a : Nat} (h : Files v m a (e :: es)) :
    slice m (a + 48) (e.extent - 48) = e.body := by
  have hx := e.extent_spec
  have hi := h.1
  rw [show e.extent = 48 + (e.extent - 48) by omega, slice_add, ← show e.extent = 48 + (e.extent - 48) by omega,
    Entry.image] at hi
  exact (append_inj hi (by rw [slice_length, e.header_length])).2

theorem nextAt_blank {a b : Nat} (h : Blank m a b) (hb : a + 40 ≤ b) : nextAt m a = freePage :=
  word_blank (h.mono (by omega) (by omega))

/-! ## The first free page -/

theorem firstPage_ne_free (v : Volume) : freePage ≠ v.firstPage := by
  have h1 := v.last_lt
  have h2 := v.first_lt
  unfold freePage
  omega

theorem firstFree_run : ∀ (es : List Entry) (a fuel : Nat), es.length < fuel → v.firstPage ≤ a → a < v.lastPage →
    a % 4096 = 0 → Files v m a es → endAddr a es ≤ v.lastPage → Blank m (endAddr a es) v.lastPage →
    runLoop (firstFreeBody v m) fuel a =
      some (some (if endAddr a es = v.lastPage then none else some (endAddr a es)))
  | _, _, 0, hf, _, _, _, _, _, _ => by omega
  | [], a, fuel + 1, _, hge, hlt, hal, _, _, hb => by
    have hla := v.last_aligned
    have hfree : nextAt m a = freePage := nextAt_blank hb (by omega)
    have hbody : firstFreeBody v m a = .inr (some (some a)) := by
      unfold firstFreeBody
      rw [hfree, if_neg (firstPage_ne_free v), if_pos rfl]
    rw [runLoop_inr hbody, endAddr, if_neg hlt.ne]
  | e :: es, a, fuel + 1, hf, hge, hlt, hal, h, hle, hb => by
    have hx := e.extent_spec
    have hend := le_endAddr es (a + e.extent)
    rw [endAddr_cons] at hle hb ⊢
    have hnext := h.next (by omega)
    by_cases hlast : a + e.extent = v.lastPage
    · -- the list wraps to the first page, so nothing follows
      have hes : endAddr (a + e.extent) es = v.lastPage := by omega
      have hbody : firstFreeBody v m a = .inr (some none) := by
        unfold firstFreeBody
        rw [hnext, hlast, nextOf_last, if_pos rfl]
      rw [runLoop_inr hbody, if_pos hes]
    · have hbody : firstFreeBody v m a = .inl (a + e.extent) := by
        have hfree := nextOf_ne_free (v := v) (a := a + e.extent) (by omega)
        rw [nextOf_of_lt (by omega)] at hnext hfree
        unfold firstFreeBody
        rw [hnext, if_neg (by omega), if_neg hfree, if_pos (by omega)]
      rw [runLoop_inl hbody]
      exact firstFree_run es (a + e.extent) fuel (by simpa using hf) (by omega) (by omega) (by omega) h.2 hle hb

theorem Chain.length_lt {es : List Entry} (h : Chain v m es) : es.length < pointers := by
  have h1 := le_endAddr es v.firstPage
  have h2 := h.fits
  have h3 := v.last_lt
  unfold pointers
  omega

theorem Chain.firstFree {es : List Entry} (h : Chain v m es) : getFirstFreePageAddr v m =
    some (if endAddr v.firstPage es = v.lastPage then none else some (endAddr v.firstPage es)) := by
  unfold getFirstFreePageAddr
  rw [firstFree_run es v.firstPage pointers h.length_lt
    le_rfl v.first_lt v.first_aligned h.files h.fits h.free]
  rfl

end

end PipRiot.Tinyfs
