import PipRiot.Tinyfs.Chain

/-!
# Walking a chain

`tinyfs_get_next_file` looks at the `next` field of the successor: if that one
is blank or wraps to the first page, the successor is not returned. In a full
region this hides the last of several files. `visible` is the part of a chain
that the walks see.
-/

namespace PipRiot.Tinyfs

open List

section
variable (v : Volume)

def enumBody (m : Flash) (file : Nat) : Nat ⊕ Unit :=
  match getNextFile v m file with
  | some next => .inl next
  | none => .inr ()

def enumerate (m : Flash) : Option (List Nat) :=
  match getFirstFile v m with
  | none => some []
  | some file => (runLoop (enumBody v m) pointers file).map fun _ => heads (enumBody v m) pointers file

def visible (es : List Entry) : List Entry :=
  if endAddr v.firstPage es = v.lastPage ∧ 2 ≤ es.length then es.dropLast else es

def Entry.hasName (name : CString) (e : Entry) : Bool := strncmpEq e.name name.bytes 32

def locate (name : CString) (a : Nat) (es : List Entry) : Option Nat :=
  (((starts a es).zip es).find? fun p => p.2.hasName name).map Prod.fst

def Stops (m : Flash) (c : Nat) : Prop := nextAt m c = freePage ∨ nextAt m c = v.firstPage

end

section
variable {v : Volume} {m : Flash} {a : Nat} {e : Entry} {es : List Entry} {name : CString}

theorem getNextFile_stop {c : Nat} (ha : nextAt m a = c) (hs : Stops v m c) : getNextFile v m a = none := by
  unfold getNextFile
  simp only [ha]
  rcases hs with hs | hs
  · simp only [hs, if_true, ite_self]
  · simp only [hs, if_true, ite_self]

theorem getNextFile_go {c : Nat} (hi : v.initialized = true) (ha : nextAt m a = c) (hs : ¬ Stops v m c) :
    getNextFile v m a = some c := by
  unfold Stops at hs
  rw [not_or] at hs
  unfold getNextFile
  simp only [ha, hi, if_neg hs.1, if_neg hs.2]
  rfl

theorem getNextFile_inside {e' : Entry} (hi : v.initialized = true)
    (ha : v.firstPage ≤ a) (h : Files v m a (e :: e' :: es)) (hc : a + e.extent + e'.extent < v.lastPage) :
    getNextFile v m a = some (a + e.extent) := by
  have hx := e.extent_spec
  have hnext := h.next (by omega)
  rw [nextOf_of_lt (by omega)] at hnext
  apply getNextFile_go hi hnext
  intro hs
  have hnext' := h.2.next (by omega)
  have hfree := nextOf_ne_free (v := v) (a := a + e.extent + e'.extent) (by omega)
  rw [nextOf_of_lt hc] at hnext' hfree
  rcases hs with hs | hs
  · exact hfree (hnext' ▸ hs)
  · omega

/-- Files that the walk sees: they end before the last page, at a place where
it stops. -/
structure Seen (v : Volume) (m : Flash) (a : Nat) (es : List Entry) : Prop where
  ge : v.firstPage ≤ a
  files : Files v m a es
  lt : endAddr a es < v.lastPage
  stops : Stops v m (endAddr a es)

theorem Seen.tail (h : Seen v m a (e :: es)) : Seen v m (a + e.extent) es :=
  ⟨le_trans h.ge (Nat.le_add_right _ _), h.files.2, h.lt, h.stops⟩

theorem Seen.next (hi : v.initialized = true) (h : Seen v m a (e :: es)) :
    getNextFile v m a = if es = [] then none else some (a + e.extent) := by
  have hlt := h.lt
  rw [endAddr_cons] at hlt
  cases es with
  | nil =>
    have hlt : a + e.extent < v.lastPage := hlt
    have hnext := h.files.next (by omega)
    rw [nextOf_of_lt hlt] at hnext; exact getNextFile_stop hnext h.stops
  | cons e' es =>
    have hend' := le_endAddr es (a + e.extent + e'.extent)
    rw [endAddr_cons] at hlt
    exact getNextFile_inside hi h.ge h.files (by omega)

theorem Seen.enumerates (hi : v.initialized = true) : ∀ (es : List Entry) (e : Entry) (a fuel : Nat),
    es.length < fuel → Seen v m a (e :: es) →
    runLoop (enumBody v m) fuel a = some () ∧ heads (enumBody v m) fuel a = starts a (e :: es)
  | _, _, _, 0, hf, _ => by omega
  | [], e, a, fuel + 1, _, h => by
    have hbody : enumBody v m a = .inr () := by
      unfold enumBody
      rw [h.next hi, if_pos rfl]
    exact ⟨runLoop_inr hbody fuel, heads_inr hbody fuel⟩
  | e' :: es, e, a, fuel + 1, hf, h => by
    have hbody : enumBody v m a = .inl (a + e.extent) := by
      unfold enumBody
      rw [h.next hi, if_neg (by simp)]
    obtain ⟨hr, hh⟩ := Seen.enumerates hi es e' (a + e.extent) fuel (by simpa using hf) h.tail
    rw [runLoop_inl hbody, heads_inl hbody, hr, hh]; exact ⟨rfl, rfl⟩

theorem Files.hasName (name : CString) (h : Files v m a (e :: es))
    (hl : a + e.extent ≤ v.lastPage) : Tinyfs.hasName m name a = e.hasName name := by
  unfold Tinyfs.hasName Entry.hasName
  rw [h.name hl]

theorem locate_here (h : e.hasName name = true) : locate name a (e :: es) = some a := by
  unfold locate
  rw [starts, zip_cons_cons, find?_cons, h]
  rfl

theorem locate_there (h : e.hasName name = false) : locate name a (e :: es) = locate name (a + e.extent) es := by
  unfold locate
  rw [starts, zip_cons_cons, find?_cons, h]

theorem Seen.searchBody_eq (hi : v.initialized = true) (name : CString) (h : Seen v m a (e :: es)) :
    searchBody v m name a =
      if e.hasName name then .inr (some a) else if es = [] then .inr none else .inl (a + e.extent) := by
  have hlt := h.lt
  have hend := le_endAddr es (a + e.extent)
  rw [endAddr_cons] at hlt
  unfold searchBody
  rw [h.files.hasName name (by omega), h.next hi]
  cases es with
  | nil => rfl
  | cons e' es => rfl

theorem Seen.search (hi : v.initialized = true) (name : CString) : ∀ (es : List Entry) (e : Entry) (a fuel : Nat),
    es.length < fuel → Seen v m a (e :: es) →
    runLoop (searchBody v m name) fuel a = some (locate name a (e :: es))
  | _, _, _, 0, hf, _ => by omega
  | es, e, a, fuel + 1, hf, h => by
    have hbody := h.searchBody_eq hi name
    by_cases hn : e.hasName name = true
    · rw [if_pos hn] at hbody
      rw [runLoop_inr hbody, locate_here hn]
    · rw [if_neg hn] at hbody
      rw [locate_there (Bool.not_eq_true _ ▸ hn)]
      cases es with
      | nil => exact runLoop_inr hbody fuel
      | cons e' es =>
        rw [runLoop_inl hbody]
        exact Seen.search hi name es e' (a + e.extent) fuel (by simpa using hf) h.tail

theorem statuses_of_files : ∀ (es : List Entry) (a : Nat), Files v m a es → endAddr a es ≤ v.lastPage →
    (starts a es).map (statusAt m) = es.map Entry.status
  | [], _, _, _ => rfl
  | e :: es, a, h, hl => by
    have hle := le_endAddr es (a + e.extent)
    rw [endAddr_cons] at hl
    have hstatus : statusAt m a = e.status := congrArg FileT.status (h.load (by omega))
    rw [starts, map_cons, map_cons, hstatus, statuses_of_files es (a + e.extent) h.2 hl]

/-! ## Whole chains -/

theorem visible_of_not (h : ¬ (endAddr v.firstPage es = v.lastPage ∧ 2 ≤ es.length)) :
    visible v es = es := if_neg h

theorem visible_append {z : Entry} (hes : es ≠ []) (h : endAddr v.firstPage (es ++ [z]) = v.lastPage) :
    visible v (es ++ [z]) = es := by
  have hl : 0 < es.length := length_pos_iff.mpr hes
  unfold visible
  rw [if_pos ⟨h, by simp; omega⟩, dropLast_concat]

theorem Chain.first (hi : v.initialized = true) (h : Chain v m es) :
    getFirstFile v m = if es = [] then none else some v.firstPage := by
  have hl := v.last_aligned
  have hf := v.first_aligned
  have hlt := v.first_lt
  unfold getFirstFile
  cases es with
  | nil =>
    have hfree : Blank m v.firstPage v.lastPage := h.free
    rw [nextAt_blank hfree (by omega), if_pos rfl, if_pos rfl, ite_self]
  | cons e es =>
    have hfit := h.fits
    have hend := le_endAddr es (v.firstPage + e.extent)
    rw [endAddr_cons] at hfit
    rw [h.files.next (by omega), if_neg (nextOf_ne_free (by omega)), hi]; rfl

theorem Chain.cases (h : Chain v m es) :
    es = [] ∨ (∃ e, es = [e] ∧ endAddr v.firstPage es = v.lastPage) ∨
      (visible v es ≠ [] ∧ Seen v m v.firstPage (visible v es)) := by
  have hl := v.last_aligned
  have hal := endAddr_aligned es v.firstPage v.first_aligned
  have hfit := h.fits
  by_cases hes : es = []
  · exact .inl hes
  · right
    by_cases hfull : endAddr v.firstPage es = v.lastPage
    · obtain ⟨vis, z, rfl⟩ := (eq_nil_or_concat' es).resolve_left hes
      by_cases hvis : vis = []
      · subst hvis; exact .inl ⟨z, rfl, hfull⟩
      · right
        rw [visible_append hvis hfull]
        obtain ⟨h1, h2⟩ := Files.append.mp h.files
        have hz := z.extent_spec
        have hc : endAddr v.firstPage vis + z.extent = v.lastPage := by
          rw [endAddr_append] at hfull; exact hfull
        refine ⟨hvis, le_rfl, h1, by omega, .inr ?_⟩
        rw [h2.next (by omega), hc, nextOf_last]
    · right
      rw [visible_of_not fun hf => hfull hf.1]
      exact ⟨hes, le_rfl, h.files, by omega, .inl (nextAt_blank h.free (by omega))⟩

theorem Chain.single (h : Chain v m [e]) (hfull : endAddr v.firstPage [e] = v.lastPage) :
    getNextFile v m v.firstPage = none := by
  have hend : v.firstPage + e.extent = v.lastPage := hfull
  have hnext := h.files.next (by omega)
  rw [hend, nextOf_last] at hnext
  exact getNextFile_stop hnext (.inr hnext)

theorem visible_length_le (es : List Entry) : (visible v es).length ≤ es.length := by
  unfold visible
  split
  · simp
  · exact le_rfl

theorem Chain.visible_cons (h : Chain v m es) (hne : visible v es ≠ []) :
    es ≠ [] ∧ ∃ e vis, visible v es = e :: vis ∧ vis.length < pointers := by
  constructor
  · rintro rfl
    exact hne (visible_of_not (by simp))
  · obtain ⟨e, vis, hv⟩ := exists_cons_of_ne_nil hne
    have hlen := visible_length_le (v := v) es
    have hptr := h.length_lt
    rw [hv, length_cons] at hlen; exact ⟨e, vis, hv, by omega⟩

theorem Chain.enumerate_eq (hi : v.initialized = true) (h : Chain v m es) :
    enumerate v m = some (starts v.firstPage (visible v es)) := by
  unfold enumerate
  rw [h.first hi]
  rcases h.cases with rfl | ⟨e, rfl, hfull⟩ | ⟨hne, hseen⟩
  · rw [if_pos rfl, visible_of_not (by simp)]; rfl
  · rw [if_neg (by simp), visible_of_not (by simp)]
    have hbody : enumBody v m v.firstPage = .inr () := by
      unfold enumBody
      rw [h.single hfull]
    have hp : pointers = pointers - 1 + 1 := rfl
    simp only
    rw [hp, runLoop_inr hbody, heads_inr hbody]; rfl
  · obtain ⟨hes, e, vis, hv, hlen⟩ := h.visible_cons hne
    rw [hv] at hseen ⊢
    rw [if_neg hes]
    obtain ⟨hr, hh⟩ := Seen.enumerates hi vis e v.firstPage pointers hlen hseen
    simp only [hr, hh]; rfl

theorem Chain.search_eq (hi : v.initialized = true) (name : CString) (h : Chain v m es) :
    fileSearch v m name = some (locate name v.firstPage (visible v es)) := by
  unfold fileSearch
  rw [h.first hi]
  rcases h.cases with rfl | ⟨e, rfl, hfull⟩ | ⟨hne, hseen⟩
  · rw [if_pos rfl, visible_of_not (by simp)]; rfl
  · rw [if_neg (by simp), visible_of_not (by simp)]
    have hbody : searchBody v m name v.firstPage = .inr (locate name v.firstPage [e]) := by
      unfold searchBody
      rw [h.single hfull, h.files.hasName name hfull.le]
      cases hn : e.hasName name with
      | true => rw [locate_here hn, if_pos rfl]
      | false => rw [locate_there hn]; rfl
    exact runLoop_inr hbody (pointers - 1)
  · obtain ⟨hes, e, vis, hv, hlen⟩ := h.visible_cons hne
    rw [hv] at hseen ⊢
    rw [if_neg hes]
    exact Seen.search hi name vis e v.firstPage pointers hlen hseen

theorem locate_mem {f : Nat} (h : locate name a es = some f) : f ∈ starts a es := by
  obtain ⟨p, hp, rfl⟩ := Option.map_eq_some_iff.mp h
  exact (of_mem_zip (mem_of_find?_eq_some hp)).1

theorem starts_visible {f : Nat} (h : f ∈ starts a (visible v es)) : f ∈ starts a es := by
  unfold visible at h
  split at h
  · have hne : es ≠ [] := ne_nil_of_length_pos (by omega)
    rw [← dropLast_append_getLast hne, starts_append]; exact mem_append_left _ h
  · exact h

theorem Chain.search_spec (name : CString) (h : Chain v m es) :
    ∃ r, fileSearch v m name = some r ∧ (∀ f, r = some f → f ∈ starts v.firstPage es) ∧
      ∀ m', Chain v m' es → fileSearch v m' name = some r := by
  cases hi : v.initialized with
  | false =>
    have hnone : ∀ m, fileSearch v m name = some none := by
      intro m
      unfold fileSearch getFirstFile
      rw [if_pos hi]
    exact ⟨none, hnone m, fun f hf => (by cases hf), fun m' _ => hnone m'⟩
  | true =>
    refine ⟨_, h.search_eq hi name, ?_, fun m' h' => h'.search_eq hi name⟩
    intro f hf; exact starts_visible (locate_mem hf)

end

end PipRiot.Tinyfs
