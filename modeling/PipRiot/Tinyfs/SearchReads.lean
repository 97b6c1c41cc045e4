import PipRiot.Tinyfs.Walk

/-!
# What a search reads

The bytes that `tinyfs_file_search` reads: fields of headers in flash, and the
first bytes of the name it is given, as many as `strncmp` looks at.
-/

namespace PipRiot.Tinyfs

open List

def strncmpReads : List Byte → List Byte → Nat → Nat
  | _, _, 0 => 0
  | s, t, n + 1 => if s.headD 0 = t.headD 0 ∧ s.headD 0 ≠ 0 then strncmpReads s.tail t.tail n + 1 else 1

inductive Touch
  | flash (x : Nat)
  | name (k : Nat)
  deriving DecidableEq

def wordReads (x : Nat) : List Touch := (range 4).map fun k => .flash (x + k)

section
variable (v : Volume) (m : Flash) (name : CString)

def firstReads : List Touch := if v.initialized = false then [] else wordReads (v.firstPage + 36)

-- the two comparisons with the successor's `next` read the same word
def nextReads (file : Nat) : List Touch :=
  wordReads (file + 36) ++ if v.initialized = false then [] else wordReads (nextAt m file + 36)

def nameReads (file : Nat) : List Touch :=
  (range (strncmpReads (slice m file 32) name.bytes 32)).flatMap fun k => [.flash (file + k), .name k]

def visitReads (file : Nat) : List Touch :=
  nameReads m name file ++ if hasName m name file then [] else nextReads v m file

def searchReads : List Touch :=
  firstReads v ++
    match getFirstFile v m with
    | none => []
    | some file => (heads (searchBody v m name) pointers file).flatMap (visitReads v m name)

end

def searched (name : CString) : List Entry → List Entry
  | [] => []
  | e :: es => if e.hasName name then [e] else e :: searched name es

section
variable {v : Volume} {m : Flash} {name : CString}

theorem strncmpReads_le : ∀ (n : Nat) (s t : List Byte), strncmpReads s t n ≤ n
  | 0, _, _ => Nat.le_refl 0
  | n + 1, s, t => by
    have ih := strncmpReads_le n s.tail t.tail
    unfold strncmpReads
    split <;> omega

theorem strncmpReads_pos (n : Nat) (s t : List Byte) : 0 < strncmpReads s t (n + 1) := by
  unfold strncmpReads
  split <;> omega

theorem lt_of_strncmpReads : ∀ (n : Nat) (s t : List Byte) (k : Nat), k < strncmpReads s t n → (0 : Byte) ∉ t →
    k ≤ t.length
  | 0, _, _, k, h, _ => absurd h (Nat.not_lt_zero k)
  | n + 1, s, t, 0, _, _ => zero_le
  | n + 1, s, [], k + 1, h, _ => by
    unfold strncmpReads at h
    split at h
    · rename_i hc
      exact absurd hc.1 hc.2
    · omega
  | n + 1, s, c :: t, k + 1, h, hz => by
    unfold strncmpReads at h
    split at h
    · exact Nat.succ_le_succ (lt_of_strncmpReads n s.tail t k (by simpa using h) fun hm => hz (mem_cons_of_mem c hm))
    · omega

/-! ## Looking a file up -/

def lookup (name : CString) (a : Nat) (es : List Entry) : Option (Nat × Entry) :=
  ((starts a es).zip es).find? fun p => p.2.hasName name

theorem lookup_cons (name : CString) (a : Nat) (e : Entry) (es : List Entry) :
    lookup name a (e :: es) = if e.hasName name then some (a, e) else lookup name (a + e.extent) es := by
  unfold lookup
  rw [starts, zip_cons_cons, find?_cons]
  split <;> simp_all

theorem lookup_append (name : CString) : ∀ (es fs : List Entry) (a : Nat),
    lookup name a (es ++ fs) = (lookup name a es).or (lookup name (endAddr a es) fs)
  | [], fs, a => rfl
  | e :: es, fs, a => by
    rw [cons_append, lookup_cons, lookup_cons, lookup_append name es fs, endAddr_cons]
    split <;> rfl

theorem lookup_visible (name : CString) (es : List Entry) : lookup name v.firstPage (visible v es) = none ∨
    lookup name v.firstPage (visible v es) = lookup name v.firstPage es := by
  unfold visible
  split
  · have hne : es ≠ [] := ne_nil_of_length_pos (by omega)
    have happ := lookup_append name es.dropLast [es.getLast hne] v.firstPage
    rw [dropLast_append_getLast] at happ
    cases hl : lookup name v.firstPage es.dropLast with
    | none => exact .inl rfl
    | some p =>
      rw [hl] at happ; exact .inr happ.symm
  · exact .inr rfl

theorem Files.lookup {name : CString} {f : Nat} {e : Entry} : ∀ {es : List Entry} {a : Nat}, Files v m a es →
    endAddr a es ≤ v.lastPage → lookup name a es = some (f, e) →
    a ≤ f ∧ f + e.extent ≤ endAddr a es ∧ sizeAt m f = e.size
  | [], a, _, _, hl => by cases hl
  | e' :: es, a, h, hend, hl => by
    have hle := le_endAddr es (a + e'.extent)
    rw [endAddr_cons] at hend ⊢
    rw [lookup_cons] at hl
    split at hl
    · cases hl
      exact ⟨Nat.le_refl f, by omega, h.size (by omega)⟩
    · obtain ⟨h1, h2, h3⟩ := Files.lookup h.2 hend hl
      exact ⟨by omega, h2, h3⟩

/-! ## Reading a chain -/

theorem forall_wordReads {P : Touch → Prop} {x : Nat} (h : ∀ y, x ≤ y → y < x + 4 → P (.flash y)) :
    ∀ t ∈ wordReads x, P t := by
  intro t ht
  obtain ⟨k, hk, rfl⟩ := mem_map.mp ht
  have hk := mem_range.mp hk
  exact h (x + k) (by omega) (by omega)

theorem nextOf_mem {a : Nat} (ha : v.firstPage ≤ a) (hl : a ≤ v.lastPage) (hal : a % 4096 = 0) :
    v.firstPage ≤ nextOf v a ∧ nextOf v a + 4096 ≤ v.lastPage := by
  have h1 := v.first_aligned
  have h2 := v.last_aligned
  have h3 := v.first_lt
  unfold nextOf
  split <;> omega

section
variable {P : Touch → Prop} (hflash : ∀ x, v.firstPage ≤ x → x < v.lastPage → P (.flash x))

include hflash

theorem Files.visit {e : Entry} {es : List Entry} {a : Nat} (h : Files v m a (e :: es)) (ha : v.firstPage ≤ a)
    (hal : a % 4096 = 0) (hl : a + e.extent ≤ v.lastPage) :
    (∀ t ∈ visitReads v m name a, P t) ↔ ∀ k < strncmpReads e.name name.bytes 32, P (.name k) := by
  have hx := e.extent_spec
  have hname : ∀ t ∈ nextReads v m a, P t := by
    obtain ⟨h1, h2⟩ := nextOf_mem (a := a + e.extent) (by omega) hl (by omega)
    unfold nextReads
    rw [h.next hl, forall_mem_append]
    refine ⟨forall_wordReads fun y h1 h2 => hflash y (by omega) (by omega), ?_⟩
    split
    · exact fun t ht => absurd ht not_mem_nil
    · exact forall_wordReads fun y h1 h2 => hflash y (by omega) (by omega)
  have hle := strncmpReads_le 32 e.name name.bytes
  unfold visitReads nameReads
  rw [h.name hl, forall_mem_append]
  constructor
  · intro ⟨hn, _⟩ k hk
    exact hn _ (mem_flatMap.mpr ⟨k, mem_range.mpr hk, by simp⟩)
  · intro hn
    constructor
    · intro t ht
      obtain ⟨k, hk, ht⟩ := mem_flatMap.mp ht
      have hk := mem_range.mp hk
      simp only [mem_cons, not_mem_nil, or_false] at ht
      rcases ht with rfl | rfl
      · exact hflash _ (by omega) (by omega)
      · exact hn k hk
    · split
      · exact fun t ht => absurd ht not_mem_nil
      · exact hname

theorem Files.visits : ∀ (es : List Entry) (a : Nat), Files v m a es → v.firstPage ≤ a → a % 4096 = 0 →
    endAddr a es ≤ v.lastPage →
    ((∀ t ∈ (starts a (searched name es)).flatMap (visitReads v m name), P t) ↔
      ∀ e ∈ searched name es, ∀ k < strncmpReads e.name name.bytes 32, P (.name k))
  | [], a, _, _, _, _ => by simp [searched, starts]
  | e :: es, a, h, ha, hal, hl => by
    have hx := e.extent_spec
    have hend := le_endAddr es (a + e.extent)
    rw [endAddr_cons] at hl
    have hvisit : (∀ t ∈ visitReads v m name a, P t) ↔ _ := h.visit hflash ha hal (by omega)
    unfold searched
    split
    · rw [starts, starts, flatMap_singleton, hvisit]; simp
    · rw [starts, flatMap_cons, forall_mem_append, hvisit, forall_mem_cons,
        Files.visits es (a + e.extent) h.2 (by omega) (by omega) hl]

end

theorem Seen.visits (hi : v.initialized = true) : ∀ (es : List Entry) (e : Entry) (a fuel : Nat),
    es.length < fuel → Seen v m a (e :: es) →
    heads (searchBody v m name) fuel a = starts a (searched name (e :: es))
  | _, _, _, 0, hf, _ => by omega
  | es, e, a, fuel + 1, hf, h => by
    have hbody := h.searchBody_eq hi name
    unfold searched
    by_cases hn : e.hasName name = true
    · rw [if_pos hn] at hbody
      rw [heads_inr hbody, if_pos hn]; rfl
    · rw [if_neg hn] at hbody
      rw [if_neg hn]
      cases es with
      | nil =>
        rw [heads_inr hbody]; rfl
      | cons e' es =>
        rw [heads_inl hbody, Seen.visits hi es e' (a + e.extent) fuel (by simpa using hf) h.tail]
        rfl

theorem Chain.heads_search {es : List Entry} (hi : v.initialized = true) (h : Chain v m es) (hes : es ≠ []) :
    heads (searchBody v m name) pointers v.firstPage = starts v.firstPage (searched name (visible v es)) := by
  have hp : pointers = pointers - 1 + 1 := rfl
  rcases h.cases with rfl | ⟨e, rfl, hfull⟩ | ⟨hne, hseen⟩
  · exact absurd rfl hes
  · have hbody : ∃ r, searchBody v m name v.firstPage = .inr r := by
      unfold searchBody
      rw [h.single hfull]
      split
      · exact ⟨_, rfl⟩
      · exact ⟨_, rfl⟩
    obtain ⟨r, hr⟩ := hbody
    rw [hp, heads_inr hr, visible_of_not (by simp)]
    unfold searched
    split <;> rfl
  · obtain ⟨-, e, vis, hv, hlen⟩ := h.visible_cons hne
    rw [hv] at hseen ⊢; exact Seen.visits hi vis e _ _ hlen hseen

theorem Chain.visible_files {es : List Entry} (h : Chain v m es) :
    Files v m v.firstPage (visible v es) ∧ endAddr v.firstPage (visible v es) ≤ v.lastPage := by
  rcases h.cases with rfl | ⟨e, rfl, -⟩ | ⟨-, hseen⟩
  · rw [visible_of_not (by simp)]; exact ⟨h.files, h.fits⟩
  · rw [visible_of_not (by simp)]; exact ⟨h.files, h.fits⟩
  · exact ⟨hseen.files, hseen.lt.le⟩

theorem Chain.searchReads {es : List Entry} (hi : v.initialized = true) (h : Chain v m es) (name : CString)
    {P : Touch → Prop} (hflash : ∀ x, v.firstPage ≤ x → x < v.lastPage → P (.flash x)) :
    (∀ t ∈ searchReads v m name, P t) ↔
      ∀ e ∈ searched name (visible v es), ∀ k < strncmpReads e.name name.bytes 32, P (.name k) := by
  have hl := v.last_aligned
  have hf := v.first_aligned
  have hlt := v.first_lt
  have hfirst : ∀ t ∈ firstReads v, P t := by
    unfold firstReads
    rw [if_neg (by simp [hi])]
    exact forall_wordReads fun y h1 h2 => hflash y (by omega) (by omega)
  obtain ⟨hfiles, hfits⟩ := h.visible_files
  unfold Tinyfs.searchReads
  rw [forall_mem_append, and_iff_right hfirst, h.first hi, ← hfiles.visits hflash _ _ le_rfl hf hfits]
  by_cases hes : es = []
  · subst hes
    rw [if_pos rfl, visible_of_not (by simp)]
    simp [searched, starts]
  · rw [if_neg hes]
    simp only [h.heads_search hi hes]

end

end PipRiot.Tinyfs
