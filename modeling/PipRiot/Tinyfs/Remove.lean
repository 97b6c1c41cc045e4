import PipRiot.Tinyfs.Enumerate

/-!
# Removing a file

The pages of the file are erased and every later file that the walk sees is
slid down over the gap, page by page. Files behind the walk's end stay where
they are.
-/

namespace PipRiot.Tinyfs

open List Option

/-! ## Moving one file -/

section
variable {m : Flash} {numof g : Nat}

theorem copyPage_eq {dst : Nat} (hd : dst % 4096 = 0) (hg : g % 4096 = 0) (h4 : 4096 ≤ g)
    (hn : dst + g + 4096 ≤ 4096 * numof) (hb : Blank m dst (dst + g)) :
    copyPage numof m dst (dst + g) = some (slid m dst g 4096) := by
  unfold copyPage
  by_cases hneeded : flashNeeded m (flashpagePage (dst + g)) = true
  · rw [if_pos hneeded, flashpageWrite_eq (by simp) (by omega) (by simp; omega), bind_eq_bind, bind_some,
      flashpageErase_eq (by omega) (by omega), program_slice_erase h4 hb]
  · have hs := blank_of_not_needed (Bool.eq_false_iff.mpr hneeded)
    unfold flashpagePage at hs
    rw [show 4096 * ((dst + g) / 4096) = dst + g by omega] at hs
    rw [if_neg hneeded, slid_of_blank hb hs]

theorem copyPages_eq (hg : g % 4096 = 0) (h4 : 4096 ≤ g) : ∀ (i : Nat) (m : Flash) (dst : Nat), dst % 4096 = 0 →
    dst + g + 4096 * i ≤ 4096 * numof → Blank m dst (dst + g) →
    copyPages numof i m dst (dst + g) = some (slid m dst g (4096 * i), dst + 4096 * i)
  | 0, m, dst, _, _, hb => by
    rw [copyPages, mul_zero, slid_zero hb, add_zero]
  | i + 1, m, dst, hd, hn, hb => by
    have hb' : Blank (slid m dst g 4096) (dst + 4096) (dst + 4096 + g) := blank_slid m dst g 4096
    have hn' := le_trans (Nat.add_le_add_left (Nat.le_add_left 4096 (4096 * i)) (dst + g)) hn
    have hpage : copyPage numof m dst (dst + g) = some (slid m dst g 4096) := copyPage_eq hd hg h4 hn' hb
    rw [copyPages, hpage, bind_eq_bind, bind_some, add_right_comm dst g,
      copyPages_eq hg h4 i _ (dst + 4096) (by omega) (by omega) hb', slid_add,
      show 4096 * (i + 1) = 4096 + 4096 * i by omega, add_assoc dst]

end

variable {es : List Entry}

section
variable {v : Volume} {m : Flash} {g : Nat}

def movedPage (m : Flash) (e : Entry) (dst src : Nat) : List Byte :=
  (e.header (dst + e.extent)).bytes ++ slice m (src + 48) 4048

theorem movedPage_length (m : Flash) (e : Entry) (dst src : Nat) : (movedPage m e dst src).length = 4096 := by
  rw [movedPage, length_append, e.header_length, slice_length]

theorem moveFile_eq {e : Entry} {dst : Nat} (hd : dst % 4096 = 0) (hg : g % 4096 = 0) (h4 : 4096 ≤ g)
    (hl : dst + g + e.extent ≤ v.lastPage) (h : Files v m (dst + g) (e :: es)) :
    moveFile v m dst (dst + g) = copyPages v.numof (e.extent / 4096 - 1)
      (erase (program m dst (movedPage m e dst (dst + g))) (dst + g) 4096) (dst + 4096) (dst + g + 4096) := by
  have hx := e.extent_spec
  have hlast := v.last_le
  have hlen := e.header_length (dst + e.extent)
  have hload := h.load hl
  have hsize : round (loadFile m (dst + g)).size = e.extent := by rw [hload]; rfl
  have hfile : ({ loadFile m (dst + g) with next := dst + e.extent } : FileT) = e.header (dst + e.extent) := by
    rw [hload]; rfl
  -- the rest of the page is read after the header has been written
  have hread : slice (program m dst (e.header (dst + e.extent)).bytes) (dst + g + 48) (4096 - 48) =
      slice m (dst + g + 48) 4048 := slice_congr fun x h1 _ => program_frame (by omega)
  have hrest : (slice m (dst + g + 48) 4048).length = 4048 := slice_length ..
  unfold moveFile movedPage
  simp only [hsize, hfile]
  rw [flashpageWrite_eq (by omega) (by omega) (by omega), bind_eq_bind, bind_some, hread,
    flashpageWrite_eq (by omega) (by omega) (by omega), bind_some, flashpageErase_eq (by omega) (by omega),
    bind_some, show dst + 48 = dst + (e.header (dst + e.extent)).bytes.length by rw [hlen], program_append]

theorem moveFile_spec {e : Entry} {dst : Nat} (hd : dst % 4096 = 0) (hg : g % 4096 = 0) (h4 : 4096 ≤ g)
    (hl : dst + g + e.extent ≤ v.lastPage) (h : Files v m (dst + g) (e :: es)) (hb : Blank m dst (dst + g)) :
    ∃ m', moveFile v m dst (dst + g) = some (m', dst + e.extent) ∧ slice m' dst e.extent = e.image (dst + e.extent) ∧
      Blank m' (dst + e.extent) (dst + e.extent + g) ∧ ∀ x, x < dst ∨ dst + e.extent + g ≤ x → m' x = m x := by
  have hx := e.extent_spec
  have hlast := v.last_le
  have hpl := movedPage_length m e dst (dst + g)
  have hfirst := slice_program_erase (n := 4096) (hpl.le.trans h4) hb
  have hgap : Blank (erase (program m dst (movedPage m e dst (dst + g))) (dst + g)
    (movedPage m e dst (dst + g)).length) _ _ :=
    blank_program_erase hb
  rw [hpl] at hfirst hgap
  have hrun := moveFile_eq hd hg h4 hl h
  generalize hm1 : erase (program m dst (movedPage m e dst (dst + g))) (dst + g) 4096 = m1 at hfirst hgap hrun
  have hframe : ∀ x, x < dst ∨ dst + 4096 + g ≤ x → m1 x = m x := by
    intro x hx
    rw [← hm1, erase_frame (by omega), program_frame (by omega)]
  generalize hi : e.extent / 4096 - 1 = i at hrun
  have hext : e.extent = 4096 + 4096 * i := by omega
  refine ⟨slid m1 (dst + 4096) g (4096 * i), ?_, ?_, ?_, ?_⟩
  · rw [hrun, add_right_comm dst g, copyPages_eq hg h4 i m1 (dst + 4096) (by omega) (by omega) hgap, hext,
      add_assoc]
  · have hbody := (load_image (nextOf_lt hl) h.1).2
    have hlow : slice (slid m1 (dst + 4096) g (4096 * i)) dst 4096 = movedPage m e dst (dst + g) := by
      rw [← hfirst]
      exact slice_congr fun x _ h2 => slid_below h2
    have hhigh : slice (slid m1 (dst + 4096) g (4096 * i)) (dst + 4096) (4096 * i) =
        slice m (dst + g + 4096) (4096 * i) := by
      rw [slice_shift (fun x h1 h2 => slid_moved h1 h2), add_right_comm]
      exact slice_congr fun x h1 _ => hframe x (by omega)
    rw [show e.extent - 48 = 4048 + 4096 * i by omega, slice_add, add_assoc _ 48] at hbody
    rw [Entry.image, ← hbody, ← append_assoc]
    conv_lhs => rw [hext]
    rw [slice_add, hlow, hhigh]; rfl
  · rw [hext, ← add_assoc]
    exact blank_slid m1 (dst + 4096) g (4096 * i)
  · intro x hx
    rcases hx with hx | hx
    · rw [slid_below (by omega), hframe x (by omega)]
    · rw [slid_above (by omega), hframe x (by omega)]

/-! ## Consolidating -/

theorem Seen.congr {m' : Flash} {es : List Entry} {a : Nat} (h : Seen v m a es) (he : ∀ x, a ≤ x → m' x = m x) :
    Seen v m' a es := by
  have hle := le_endAddr es a
  refine ⟨h.ge, h.files.congr fun x h1 _ => he x h1, h.lt, ?_⟩
  have hnext : nextAt m' (endAddr a es) = nextAt m (endAddr a es) := word_congr fun x h1 _ => he x (by omega)
  unfold Stops
  rw [hnext]
  exact h.stops

theorem consolidate_spec (hi : v.initialized = true) (hg : g % 4096 = 0) (h4 : 4096 ≤ g) :
    ∀ (es : List Entry) (m : Flash) (dst fuel : Nat), es.length ≤ fuel → dst % 4096 = 0 → Blank m dst (dst + g) →
      (es ≠ [] → Seen v m (dst + g) es) →
      ∃ m', consolidate v fuel m dst (if es = [] then none else some (dst + g)) = some m' ∧ Files v m' dst es ∧
        Blank m' (endAddr dst es) (endAddr dst es + g) ∧ ∀ x, x < dst ∨ endAddr dst es + g ≤ x → m' x = m x
  | [], m, dst, fuel, _, _, hb, _ => by
    refine ⟨m, ?_, trivial, hb, fun _ _ => rfl⟩
    rw [if_pos rfl, consolidate]
  | e :: es, _, _, 0, hf, _, _, _ => by simp at hf
  | e :: es, m, dst, fuel + 1, hf, hd, hb, hseen => by
    have hx := e.extent_spec
    have hs := hseen (by simp)
    have hlt := hs.lt
    have hend := le_endAddr es (dst + g + e.extent)
    have hend' := le_endAddr es (dst + e.extent)
    rw [endAddr_cons] at hlt
    obtain ⟨m1, hmove, himage, hgap, hframe⟩ := moveFile_spec hd hg h4 (by omega) hs.files hb
    have hrest : es ≠ [] → Seen v m1 (dst + e.extent + g) es := by
      intro _
      have ht := hs.tail
      rw [add_right_comm] at ht
      exact ht.congr fun x h1 => hframe x (.inr h1)
    obtain ⟨m2, hrun, hfiles, hblank, hframe2⟩ :=
      consolidate_spec hi hg h4 es m1 (dst + e.extent) fuel (by simpa using hf) (by omega) hgap hrest
    refine ⟨m2, ?_, ⟨?_, hfiles⟩, hblank, ?_⟩
    · rw [if_neg (by simp), consolidate, hs.next hi]
      simp only [hmove, bind_eq_bind, bind_some]
      rw [add_right_comm]; exact hrun
    · rw [nextOf_of_lt (by omega), ← himage]
      exact slice_congr fun x _ h2 => hframe2 x (.inl h2)
    · intro x h
      rw [endAddr_cons] at h
      rw [hframe2 x (by omega), hframe x (by omega)]

/-! ## The search for the file -/

theorem locate_append {name : CString} {e : Entry} {post : List Entry} (he : e.hasName name = true) :
    ∀ (pre : List Entry) (a : Nat), (∀ f ∈ pre, ¬ f.hasName name = true) →
      locate name a (pre ++ e :: post) = some (endAddr a pre)
  | [], a, _ => locate_here he
  | f :: pre, a, h => by
    rw [cons_append, locate_there (Bool.eq_false_iff.mpr (h f (mem_cons_self ..))), endAddr_cons]
    exact locate_append he pre (a + f.extent) fun x hx => h x (mem_cons_of_mem f hx)

theorem locate_none {name : CString} : ∀ (es : List Entry) (a : Nat), (¬ ∃ e ∈ es, e.hasName name = true) →
    locate name a es = none
  | [], _, _ => rfl
  | e :: es, a, h => by
    have he : ¬ e.hasName name = true := fun h' => h ⟨e, mem_cons_self .., h'⟩
    rw [locate_there (Bool.eq_false_iff.mpr he)]
    exact locate_none es (a + e.extent) fun ⟨f, hf, h'⟩ => h ⟨f, mem_cons_of_mem e hf, h'⟩

theorem Seen.right : ∀ (pre : List Entry) {es : List Entry} {a : Nat}, Seen v m a (pre ++ es) →
    Seen v m (endAddr a pre) es
  | [], _, _, h => h
  | _ :: pre, _, _, h => Seen.right pre h.tail

section
variable {es pre post : List Entry} {e : Entry}

theorem Chain.visible_split (hi : v.initialized = true) (h : Chain v m es) (hv : visible v es = pre ++ e :: post) :
    Files v m v.firstPage (pre ++ e :: post) ∧ endAddr v.firstPage (pre ++ e :: post) ≤ v.lastPage ∧
      getNextFile v m (endAddr v.firstPage pre) =
        (if post = [] then none else some (endAddr v.firstPage pre + e.extent)) ∧
      (post ≠ [] → Seen v m (endAddr v.firstPage pre + e.extent) post) := by
  rcases h.cases with rfl | ⟨e', rfl, hfull⟩ | ⟨_, hseen⟩
  · rw [visible_of_not (by simp)] at hv
    simp at hv
  · rw [visible_of_not (by simp)] at hv
    obtain ⟨rfl, hpost⟩ | ⟨_, _, hbad⟩ := cons_eq_append_iff.mp hv
    · cases hpost
      exact ⟨h.files, h.fits, h.single hfull, fun hne => absurd rfl hne⟩
    · simp at hbad
  · rw [hv] at hseen
    have hright := Seen.right pre hseen
    exact ⟨hseen.files, hseen.lt.le, hright.next hi, fun _ => hright.tail⟩

theorem endAddr_without (a : Nat) (pre : List Entry) (e : Entry) (post : List Entry) :
    endAddr a (pre ++ e :: post) = endAddr a (pre ++ post) + e.extent := by
  rw [endAddr_append, endAddr_append, endAddr_cons, endAddr_add]

theorem Chain.remove_found {name : CString} (hi : v.initialized = true) (h : Chain v m es)
    (hv : visible v es = pre ++ e :: post) (hpre : ∀ f ∈ pre, ¬ f.hasName name = true) (he : e.hasName name = true) :
    ∃ m', remove v m name = some (0, m') ∧ Files v m' v.firstPage (pre ++ post) ∧
      Blank m' (endAddr v.firstPage (pre ++ post)) (endAddr v.firstPage (pre ++ post) + e.extent) ∧
      ∀ x, endAddr v.firstPage (pre ++ post) + e.extent ≤ x → m' x = m x := by
  obtain ⟨hfiles, hfit, hnext, hseen⟩ := h.visible_split hi hv
  have hlen := h.length_lt
  have hvis := visible_length_le (v := v) es
  rw [hv, length_append, length_cons] at hvis
  have hal := endAddr_aligned pre v.firstPage v.first_aligned
  have hx := e.extent_spec
  have hlast := v.last_le
  rw [endAddr_without, endAddr_append] at hfit
  rw [endAddr_append]
  obtain ⟨hfpre, hfe⟩ := Files.append.mp hfiles
  generalize hdst : endAddr v.firstPage pre = dst at *
  have hge := le_endAddr post dst
  have hflash : flashFile v m dst = some (erase m dst e.extent) := by
    unfold flashFile flashpagePage
    rw [hfe.size (by omega), show round e.size = e.extent from rfl, flashPages_eq _ _ _ (by omega),
      show 4096 * (dst / 4096) = dst by omega, show 4096 * (e.extent / 4096) = e.extent by omega]
  obtain ⟨m', hrun, hpost, hblank, hframe⟩ := consolidate_spec hi hx.1 hx.2.1 post (erase m dst e.extent) dst pointers
    (by omega) hal (blank_erase m dst e.extent) fun hne => (hseen hne).congr fun x h1 => erase_frame (.inr h1)
  refine ⟨m', ?_, Files.append.mpr ⟨?_, ?_⟩, hblank, ?_⟩
  · unfold remove
    rw [hi, h.search_eq hi, hv, locate_append he pre _ hpre, hdst]
    simp only [Bool.true_eq_false, if_false, hnext, hflash, bind_eq_bind, bind_some, hrun]
  · refine hfpre.congr fun x _ h2 => ?_
    rw [hdst] at h2
    rw [hframe x (.inl h2), erase_frame (.inl h2)]
  · rw [hdst]; exact hpost
  · intro x h1
    rw [hframe x (.inr h1), erase_frame (by omega)]

theorem Chain.remove_missing {name : CString} (hi : v.initialized = true) (h : Chain v m es)
    (hn : ¬ ∃ e ∈ visible v es, e.hasName name = true) : remove v m name = some (-1, m) := by
  unfold remove
  rw [hi, h.search_eq hi, locate_none _ _ hn]
  rfl

end

end

/-! ## Contents

The content of a file starts behind its header but its pages are counted from
its size alone, so the last bytes of a content can lie in the next header. -/

def kept (name : CString) (es : List Entry) : List Entry := es.eraseP (Entry.hasName name)

def listing (m : Flash) : Nat → List Entry → List (Entry × List Byte)
  | _, [] => []
  | a, e :: es => (e, slice m (a + 48) e.size) :: listing m (a + e.extent) es

def Entry.spill (e : Entry) : Nat := 48 + e.size - e.extent

section
variable (v : Volume)

def behind (a : Nat) : List Entry → List Byte
  | [] => replicate 48 0xff
  | e :: _ => (e.header (nextOf v (a + e.extent))).bytes

def spills : Nat → List Entry → List (Entry × List Byte)
  | _, [] => []
  | a, e :: es => (e, (behind v (a + e.extent) es).take e.spill) :: spills (a + e.extent) es

/-- Contents that run over the end of their pages find the same bytes there
when the file of the name is gone. -/
def SpillKept (name : CString) (es : List Entry) : Prop :=
  spills v v.firstPage (kept name es) = (spills v v.firstPage es).eraseP fun p => p.1.hasName name

/-- `tinyfs_remove` deletes the first file of the name and nothing else. -/
def RemovesOnly (m : Flash) (name : CString) (es : List Entry) : Prop :=
  ∃ r m', remove v m name = some (r, m') ∧
    (r = 0 → Chain v m' (kept name es) ∧ enumerate v m' = some (starts v.firstPage (kept name es)) ∧
      listing m' v.firstPage (kept name es) = (listing m v.firstPage es).eraseP fun p => p.1.hasName name) ∧
    (r = -1 → m' = m)

end

section
variable {v : Volume} {m : Flash}

theorem spills_of_room : ∀ (es : List Entry) (a : Nat), (∀ e ∈ es, 48 + e.size ≤ e.extent) →
    spills v a es = es.map fun e => (e, [])
  | [], _, _ => rfl
  | e :: es, a, h => by
    have hspill : e.spill = 0 := Nat.sub_eq_zero_of_le (h e (mem_cons_self ..))
    rw [spills, hspill, take_zero, map_cons, spills_of_room es _ fun f hf => h f (mem_cons_of_mem e hf)]

theorem spillKept_of_room {name : CString} (h : ∀ e ∈ es, 48 + e.size ≤ e.extent) : SpillKept v name es := by
  unfold SpillKept kept
  rw [spills_of_room es _ h, spills_of_room _ _ fun e he => h e (mem_of_mem_eraseP he), eraseP_map]
  rfl

theorem behind_eq {a : Nat} (h : Files v m a es) (hb : Blank m (endAddr a es) (endAddr a es + 48)) :
    behind v a es = slice m a 48 := by
  cases es with
  | nil => exact (slice_blank hb).symm
  | cons e es =>
    have hx := e.extent_spec
    have himage := h.1
    rw [show e.extent = 48 + (e.extent - 48) by omega, slice_add,
      ← show e.extent = 48 + (e.extent - 48) by omega] at himage
    exact (append_inj_left himage (by rw [slice_length, e.header_length])).symm

theorem content_eq {e : Entry} {a : Nat} (h : Files v m a (e :: es)) (hl : a + e.extent ≤ v.lastPage)
    (hb : Blank m (endAddr a (e :: es)) (endAddr a (e :: es) + 48)) :
    slice m (a + 48) e.size = e.body.take e.size ++ (behind v (a + e.extent) es).take e.spill := by
  have hx := e.extent_spec
  have hle : e.size ≤ e.extent := by
    have hs := e.size_le
    unfold Entry.extent
    rw [round_eq hs]; omega
  rw [behind_eq h.2 hb, ← (load_image (nextOf_lt hl) h.1).2, slice_take, slice_take]
  unfold Entry.spill
  by_cases hroom : 48 + e.size ≤ e.extent
  · rw [Nat.sub_eq_zero_of_le hroom, Nat.zero_min, min_eq_left (by omega)]
    simp [slice]
  · rw [min_eq_right (by omega), min_eq_left (by omega),
      show a + e.extent = a + 48 + (e.extent - 48) by omega, ← slice_add]
    congr 1
    omega

def withBody (p : Entry × List Byte) : Entry × List Byte := (p.1, p.1.body.take p.1.size ++ p.2)

theorem withBody_injective : Function.Injective withBody := by
  rintro ⟨e, s⟩ ⟨f, t⟩ h
  simp only [withBody, Prod.mk.injEq] at h
  obtain ⟨rfl, h⟩ := h
  rw [append_cancel_left h]

theorem listing_eq : ∀ (es : List Entry) (a : Nat), Files v m a es → endAddr a es ≤ v.lastPage →
    Blank m (endAddr a es) (endAddr a es + 48) → listing m a es = (spills v a es).map withBody
  | [], _, _, _, _ => rfl
  | e :: es, a, h, hl, hb => by
    have hend := le_endAddr es (a + e.extent)
    rw [endAddr_cons] at hl
    rw [listing, spills, map_cons, content_eq h (by omega) hb, listing_eq es (a + e.extent) h.2 hl hb]
    rfl

/-! ## Exactly when nothing else is lost -/

section
variable {name : CString} {es : List Entry}

theorem Chain.remove_full (hi : v.initialized = true) (h : Chain v m es)
    (hfull : endAddr v.firstPage es = v.lastPage ∧ 2 ≤ es.length) (hfound : ∃ e ∈ visible v es, e.hasName name = true) :
    ∃ m', remove v m name = some (0, m') ∧ ¬ Chain v m' (kept name es) := by
  obtain ⟨e0, hmem, hname⟩ := hfound
  obtain ⟨e, pre, post, hpre, he, hv, hkept⟩ := exists_of_eraseP hmem hname
  obtain ⟨m', hrun, -, hblank, -⟩ := h.remove_found hi hv hpre he
  refine ⟨m', hrun, fun hc => ?_⟩
  have hx := e.extent_spec
  obtain ⟨vis, z, rfl⟩ := (eq_nil_or_concat' es).resolve_left (by rintro rfl; simp at hfull)
  have hvis : visible v (vis ++ [z]) = vis := by
    unfold visible
    rw [if_pos hfull, dropLast_concat]
  rw [hvis] at hmem hkept
  have hk : kept name (vis ++ [z]) = pre ++ post ++ [z] := by
    unfold kept
    rw [eraseP_append_left hname _ hmem, hkept]
  rw [hk] at hc
  have hfit := hc.fits
  rw [endAddr_append] at hfit
  have hnext := (Files.append.mp hc.files).2.next hfit
  rw [nextAt_blank hblank (by omega)] at hnext
  exact nextOf_ne_free hfit hnext.symm

theorem Chain.remove_kept (hi : v.initialized = true) (h : Chain v m es)
    (hfull : ¬ (endAddr v.firstPage es = v.lastPage ∧ 2 ≤ es.length))
    (hfound : ∃ e ∈ visible v es, e.hasName name = true) :
    ∃ m', remove v m name = some (0, m') ∧ Chain v m' (kept name es) ∧
      endAddr v.firstPage (kept name es) < endAddr v.firstPage es := by
  obtain ⟨e0, hmem, hname⟩ := hfound
  obtain ⟨e, pre, post, hpre, he, hv, hkept⟩ := exists_of_eraseP hmem hname
  obtain ⟨m', hrun, hfiles, hblank, hframe⟩ := h.remove_found hi hv hpre he
  have hx := e.extent_spec
  have hfit := h.fits
  have hfree := h.free
  rw [visible_of_not hfull] at hv hkept
  rw [hv, endAddr_without] at hfit hfree
  refine ⟨m', hrun, ?_, ?_⟩
  · rw [kept, hkept]
    refine ⟨hfiles, by omega, ?_⟩
    intro x h1 h2
    by_cases hx : x < endAddr v.firstPage (pre ++ post) + e.extent
    · exact hblank x h1 hx
    · rw [hframe x (by omega)]; exact hfree x (by omega) h2
  · rw [kept, hkept, hv, endAddr_without]; omega

theorem listing_kept_iff {m' : Flash} (h : Chain v m es) (h' : Chain v m' (kept name es))
    (hfull : ¬ (endAddr v.firstPage es = v.lastPage ∧ 2 ≤ es.length))
    (hlt : endAddr v.firstPage (kept name es) < endAddr v.firstPage es) :
    listing m' v.firstPage (kept name es) = (listing m v.firstPage es).eraseP (fun p => p.1.hasName name) ↔
      SpillKept v name es := by
  have hl := v.last_aligned
  have hal := endAddr_aligned es v.firstPage v.first_aligned
  have hfit := h.fits
  by_cases hlast : endAddr v.firstPage es = v.lastPage
  · -- the region is full of one file, the removed one
    cases es with
    | nil => exact absurd hlt (lt_irrefl _)
    | cons e es =>
      have hlen : es.length = 0 := by
        by_contra hne
        exact hfull ⟨hlast, by rw [length_cons]; omega⟩
      rw [eq_nil_of_length_eq_zero hlen] at hlt ⊢
      have he : e.hasName name = true := by
        by_contra he
        simp [kept, he] at hlt
      simp [SpillKept, kept, listing, spills, he]
  · rw [listing_eq es _ h.files h.fits (h.free.mono le_rfl (by omega)),
      listing_eq _ _ h'.files h'.fits (h'.free.mono le_rfl (by omega)), eraseP_map]
    exact (map_injective_iff.mpr withBody_injective).eq_iff

end

end

theorem remove_loses_nothing_iff (v : Volume) (hi : v.initialized = true) (m : Flash) (es : List Entry)
    (h : Chain v m es) (name : CString) :
    RemovesOnly v m name es ↔ ((∃ e ∈ visible v es, e.hasName name = true) →
      ¬ (endAddr v.firstPage es = v.lastPage ∧ 2 ≤ es.length) ∧ SpillKept v name es) := by
  by_cases hfound : ∃ e ∈ visible v es, e.hasName name = true
  · by_cases hfull : endAddr v.firstPage es = v.lastPage ∧ 2 ≤ es.length
    · obtain ⟨m', hrun, hbad⟩ := h.remove_full hi hfull hfound
      constructor
      · rintro ⟨r, m'', heq, hok, _⟩
        rw [hrun] at heq
        cases heq; exact absurd (hok rfl).1 hbad
      · intro hcond; exact absurd hfull (hcond hfound).1
    · obtain ⟨m', hrun, hc, hlt⟩ := h.remove_kept hi hfull hfound
      have hfit := h.fits
      have henum : enumerate v m' = some (starts v.firstPage (kept name es)) := by
        rw [hc.enumerate_eq hi, visible_of_not fun hf => by omega]
      have hlist := listing_kept_iff h hc hfull hlt
      constructor
      · rintro ⟨r, m'', heq, hok, _⟩ _
        rw [hrun] at heq
        cases heq; exact ⟨hfull, hlist.mp (hok rfl).2.2⟩
      · intro hcond
        exact ⟨0, m', hrun, fun _ => ⟨hc, henum, hlist.mpr (hcond hfound).2⟩, fun hr => absurd hr (by decide)⟩
  · have hres : RemovesOnly v m name es :=
      ⟨-1, m, h.remove_missing hi hfound, fun hr => absurd hr (by decide), fun _ => rfl⟩
    exact ⟨fun _ hex => absurd hex hfound, fun _ => hres⟩

/-- The second of two files moves to the place of the first. -/
theorem remove_loses_nothing_of_two : ∃ m e f, Chain threePages m [e, f] ∧ e.hasName fileA = true ∧
    RemovesOnly threePages m fileA [e, f] ∧
    ∃ m', remove threePages m fileA = some (0, m') ∧ Chain threePages m' [f] := by
  obtain ⟨-, m, -, -, -, hc⟩ := create_two .loaded
  have hname : (sampleEntry fileA .loaded).hasName fileA = true := by decide
  have hfull : ¬ (endAddr 4096 [sampleEntry fileA .loaded, sampleEntry fileB .loaded] = 16384 ∧ 2 ≤ 2) := by decide
  have hvis : visible threePages [sampleEntry fileA .loaded, sampleEntry fileB .loaded] =
      [sampleEntry fileA .loaded, sampleEntry fileB .loaded] := visible_of_not hfull
  obtain ⟨m', hrun, hc', -⟩ := @Chain.remove_kept _ _ fileA _ rfl hc hfull ⟨_, by rw [hvis]; simp, hname⟩
  refine ⟨m, _, _, hc, hname, ?_, m', hrun, ?_⟩
  · refine (remove_loses_nothing_iff threePages rfl m _ hc fileA).mpr fun _ => ⟨hfull, spillKept_of_room ?_⟩
    decide
  · rwa [kept, eraseP_cons_of_pos hname] at hc'

/-- Two files of one page fill the region; with the first one the second one is
gone from the list, too. -/
theorem remove_loses_last_of_full :
    ∃ m es, Chain twoPages m es ∧ es.length = 2 ∧ ¬ RemovesOnly twoPages m fileA es := by
  have h : ∃ w ∈ createAll twoPages blankFlash [⟨fileA, 100, 0, .loaded⟩, ⟨fileB, 100, 0, .loaded⟩],
      ∃ u ∈ remove twoPages w.2 fileA, u.1 = 0 ∧ enumerate twoPages u.2 = some [] := by
    decide +kernel
  obtain ⟨⟨created, m⟩, hw, ⟨r, m'⟩, hu, hr, henum⟩ := h
  obtain ⟨es, hc, -, hn, -⟩ :=
    createAll_chain _ [] blankFlash m created (chain_format rfl (format_blank rfl)) (by decide) hw
  have hlen : es.length = 2 := by simpa using congrArg List.length hn
  refine ⟨m, es, hc, hlen, ?_⟩
  rintro ⟨r', m'', hrun, hok, _⟩
  rw [show remove twoPages m fileA = some (r, m') from hu] at hrun
  cases hrun
  have hstarts := (hok hr).2.1
  rw [show enumerate twoPages m' = some [] from henum, some.injEq] at hstarts
  have hkept := congrArg List.length hstarts
  rw [starts_length, length_nil] at hkept
  have hle : es.length - 1 ≤ (kept fileA es).length := le_length_eraseP
  omega

end PipRiot.Tinyfs
