import PipRiot.Lib.System
import PipRiot.Tinyfs.Remove

/-!
# The layout over whole runs

`Layout` says of the bytes in flash what the chain of headers has to look like.
It holds in every state that calls of the interface lead to from a formatted
region, provided that the caller creates no file that is larger than the free
pages, writes no content over the end of a file's pages, passes only pointers to
files, and removes no file from a region that several files fill.
-/

namespace PipRiot.Tinyfs

open List

inductive Op
  | format
  | create (name : CString) (size exec : Nat) (status : Status)
  | write (file offset : Nat) (src : List Byte)
  | status (file : Nat) (status : Status)
  | remove (name : CString)

def step (v : Volume) (m : Flash) : Op → Option Flash
  | .format => format v m
  | .create name size exec status => (createFile v m name size exec status).map Prod.snd
  | .write file offset src => (fileWrite v m file offset src).map Prod.snd
  | .status file status => (fileStatus v m file status).map Prod.snd
  | .remove name => (remove v m name).map Prod.snd

section
variable (v : Volume) (m : Flash)

def endOf (file : Nat) : Nat := file + round (sizeAt m file)

structure Placed (file : Nat) : Prop where
  aligned : file % 4096 = 0
  size_pos : 0 < sizeAt m file
  size_le : sizeAt m file ≤ filesizeMax
  inside : endOf m file ≤ v.lastPage
  next : nextAt m file = if endOf m file = v.lastPage then v.firstPage else endOf m file

def Extents : Nat → List Nat → Nat → Prop
  | a, [], c => a = c
  | a, f :: fs, c => f = a ∧ Placed v m f ∧ Extents (endOf m f) fs c

structure Layout (fs : List Nat) (c : Nat) : Prop where
  extents : Extents v m v.firstPage fs c
  fits : c ≤ v.lastPage
  free : Blank m c v.lastPage

/-- What a caller has to respect in a region with the files `fs` up to `c`. -/
def SafeIn (fs : List Nat) (c : Nat) : Op → Prop
  | .format => True
  | .create _ size exec _ =>
    (size = 0 ∨ filesizeMax < size ∨ (exec ≠ 0 ∧ exec ≠ 1)) ∨ c = v.lastPage ∨ c + round size ≤ v.lastPage
  | .write file offset src =>
    (src.length = 0 ∨ sizeAt m file < offset ∨ sizeAt m file < (offset + src.length) % 2 ^ 32) ∨
      (file ∈ fs ∧ 48 + offset + src.length ≤ round (sizeAt m file))
  | .status file _ => file ∈ fs
  | .remove name => ¬ (c = v.lastPage ∧ 2 ≤ fs.length ∧ ∃ f ∈ fs.dropLast, hasName m name f = true)

def Safe (op : Op) : Prop := ∀ fs c, Layout v m fs c → SafeIn v m fs c op

end

section
variable {v : Volume} {m m' : Flash}

/-! ## The layout of a chain -/

theorem Files.end_eq {e : Entry} {es : List Entry} {a : Nat} (h : Files v m a (e :: es))
    (hl : a + e.extent ≤ v.lastPage) : endOf m a = a + e.extent := by
  unfold endOf
  rw [h.size hl]
  rfl

theorem extents_of_files : ∀ (es : List Entry) (a : Nat), a % 4096 = 0 → Files v m a es → endAddr a es ≤ v.lastPage →
    Extents v m a (starts a es) (endAddr a es)
  | [], _, _, _, _ => rfl
  | e :: es, a, ha, h, hl => by
    have hx := e.extent_spec
    have hge := le_endAddr es (a + e.extent)
    rw [endAddr_cons] at hl
    have hsize := h.size (by omega)
    have hend := h.end_eq (by omega)
    have hrest := extents_of_files es (a + e.extent) (by omega) h.2 hl
    refine ⟨rfl, ⟨ha, ?_, ?_, ?_, ?_⟩, ?_⟩
    · rw [hsize]; exact e.size_pos
    · rw [hsize]; exact e.size_le
    · omega
    · rw [hend]; exact h.next (by omega)
    · rw [hend]; exact hrest

theorem Extents.placed {f : Nat} : ∀ {fs : List Nat} {a c : Nat}, Extents v m a fs c → f ∈ fs → Placed v m f
  | [], _, _, _, hf => by simp at hf
  | _ :: fs, _, _, ⟨_, hp, hrest⟩, hf => by
    rcases mem_cons.mp hf with rfl | hf
    · exact hp
    · exact hrest.placed hf

theorem Placed.room {f : Nat} (h : Placed v m f) : f + 4096 ≤ endOf m f := by
  have hpos := h.size_pos
  have hle := h.size_le
  unfold endOf
  rw [round_eq hle]
  omega

theorem Placed.not_blank {f : Nat} (h : Placed v m f) : ¬ Blank m f v.lastPage := by
  intro hb
  have hroom := h.room
  have hin := h.inside
  have hnext := h.next
  rw [nextAt_blank hb (by omega)] at hnext
  exact nextOf_ne_free hin hnext.symm

theorem Extents.unique : ∀ {fs fs' : List Nat} {a c c' : Nat}, Extents v m a fs c → Extents v m a fs' c' →
    Blank m c v.lastPage → Blank m c' v.lastPage → fs = fs' ∧ c = c'
  | [], [], _, _, _, h, h', _, _ => ⟨rfl, h.symm.trans h'⟩
  | [], f :: fs, a, c, c', h, ⟨hf, hp, _⟩, hb, _ => by
    rw [← show a = c from h, ← hf] at hb; exact absurd hb hp.not_blank
  | f :: fs, [], a, c, c', ⟨hf, hp, _⟩, h', _, hb' => by
    rw [← show a = c' from h', ← hf] at hb'; exact absurd hb' hp.not_blank
  | f :: fs, f' :: fs', a, c, c', ⟨hf, _, h⟩, ⟨hf', _, h'⟩, hb, hb' => by
    subst hf
    subst hf'
    obtain ⟨rfl, rfl⟩ := h.unique h' hb hb'
    exact ⟨rfl, rfl⟩

theorem Layout.unique {fs fs' : List Nat} {c c' : Nat} (h : Layout v m fs c) (h' : Layout v m fs' c') :
    fs = fs' ∧ c = c' := h.extents.unique h'.extents h.free h'.free

theorem Chain.layout {es : List Entry} (h : Chain v m es) :
    Layout v m (starts v.firstPage es) (endAddr v.firstPage es) :=
  ⟨extents_of_files es v.firstPage v.first_aligned h.files h.fits, h.fits, h.free⟩

/-! ## Changes inside one file -/

def Entry.rewritten (e : Entry) (m : Flash) (a : Nat) : Entry where
  name := e.name
  size := e.size
  status := statusAt m a
  exec := execAt m a
  body := slice m (a + 48) (round e.size - 48)
  name_length := e.name_length
  size_pos := e.size_pos
  size_le := e.size_le
  status_lt := word_lt m (a + 40)
  exec_lt := word_lt m (a + 44)
  body_length := slice_length m _ _

theorem rewritten_image {e : Entry} {a next : Nat} (h : slice m a e.extent = e.image next)
    (he : ∀ x, a ≤ x → x < a + 40 → m' x = m x) : slice m' a e.extent = (e.rewritten m' a).image next := by
  have hx := e.extent_spec
  obtain ⟨h1, h2, h3, -⟩ := slice_image e.name_length h
  have hname : slice m' a 32 = e.name := by
    rw [slice_congr fun x _ _ => he x (by omega) (by omega)]; exact h1
  have hsize : slice m' (a + 32) 4 = leBytes 4 e.size := by
    rw [slice_congr fun x _ _ => he x (by omega) (by omega)]; exact h2
  have hnext : slice m' (a + 36) 4 = leBytes 4 next := by
    rw [slice_congr fun x _ _ => he x (by omega) (by omega)]; exact h3
  conv_lhs => rw [show e.extent = 32 + (4 + (4 + (4 + (4 + (e.extent - 48))))) by omega]
  simp only [slice_add, Entry.image, Entry.header, Entry.rewritten, FileT.bytes, append_assoc, statusAt, execAt,
    leBytes_word, hname, add_assoc, Nat.reduceAdd]
  rw [hsize, hnext]
  rfl

theorem starts_get {f : Nat} : ∀ (es : List Entry) (a i : Nat), (starts a es)[i]? = some f →
    ∃ pre e post, es = pre ++ e :: post ∧ pre.length = i ∧ f = endAddr a pre
  | [], _, _, hf => by simp [starts] at hf
  | e :: es, a, 0, hf => by
    cases hf; exact ⟨[], e, es, rfl, rfl, rfl⟩
  | e :: es, a, i + 1, hf => by
    obtain ⟨pre, e', post, rfl, rfl, rfl⟩ := starts_get es (a + e.extent) i hf
    exact ⟨e :: pre, e', post, rfl, rfl, rfl⟩

theorem Chain.rewrite {pre post : List Entry} {e : Entry} (h : Chain v m (pre ++ e :: post))
    (he : ∀ x, x < endAddr v.firstPage pre + 40 ∨ endAddr v.firstPage pre + e.extent ≤ x → m' x = m x) :
    Chain v m' (pre ++ e.rewritten m' (endAddr v.firstPage pre) :: post) := by
  obtain ⟨hpre, hfile, hpost⟩ := Files.append.mp h.files
  have hend : endAddr v.firstPage (pre ++ e.rewritten m' (endAddr v.firstPage pre) :: post) =
      endAddr v.firstPage (pre ++ e :: post) := by
    rw [endAddr_append, endAddr_append]; rfl
  have hle := le_endAddr post (endAddr v.firstPage pre + e.extent)
  refine ⟨Files.append.mpr ⟨?_, ?_, ?_⟩, ?_, ?_⟩
  · exact hpre.congr fun x _ h2 => he x (.inl (by omega))
  · have himage := rewritten_image hfile fun x _ h2 => he x (.inl h2)
    exact himage
  · exact hpost.congr fun x h1 _ => he x (.inr h1)
  · rw [hend]; exact h.fits
  · rw [hend]
    refine h.free.congr fun x h1 _ => he x (.inr ?_)
    rw [endAddr_append, endAddr_cons] at h1; omega

theorem Chain.update {es : List Entry} {f : Nat} (h : Chain v m es) (hf : f ∈ starts v.firstPage es)
    (he : ∀ x, x < f + 40 ∨ endOf m f ≤ x → m' x = m x) : ∃ es', Chain v m' es' := by
  obtain ⟨i, hget⟩ := mem_iff_getElem?.mp hf
  obtain ⟨pre, e, post, rfl, -, rfl⟩ := starts_get es v.firstPage i hget
  have hfit := h.fits
  rw [endAddr_append, endAddr_cons] at hfit
  have hle := le_endAddr post (endAddr v.firstPage pre + e.extent)
  rw [(Files.append.mp h.files).2.end_eq (by omega)] at he
  exact ⟨_, h.rewrite he⟩

/-! ## One lemma for each call -/

theorem fileStatus_frame {f : Nat} (status : Status) (ha : f % 4 = 0) (hl : f + 44 ≤ 4096 * v.numof) (m : Flash) :
    ∃ r m', fileStatus v m f status = some (r, m') ∧ ∀ x, x < f + 40 ∨ f + 44 ≤ x → m' x = m x := by
  generalize hbs : leBytes 4 status.code = bs
  have hlen : bs.length = 4 := by rw [← hbs]; exact leBytes_length 4 _
  have hw : ∀ m, flashpageWrite v.numof m (f + 40) bs = some (program m (f + 40) bs) := fun m =>
    flashpageWrite_eq (by omega) (by omega) (by omega)
  have hframe : ∀ (m : Flash) x, x < f + 40 ∨ f + 44 ≤ x → program m (f + 40) bs x = m x := fun m x hx =>
    program_frame (by omega)
  -- a file in status CREATED has been written before it is looked at again
  have hlook : ∀ m1 : Flash, (∀ x, x < f + 40 ∨ f + 44 ≤ x → m1 x = m x) → ∃ r m',
      (if statusAt m1 f = Status.loading.code then
        if status = .free ∨ status = .created then some (-1, m1) else some (0, program m1 (f + 40) bs)
      else some (-1, m1) : Option (Int × Flash)) = some (r, m') ∧ ∀ x, x < f + 40 ∨ f + 44 ≤ x → m' x = m x := by
    intro m1 h1
    split
    · split
      · exact ⟨_, _, rfl, h1⟩
      · exact ⟨_, _, rfl, fun x hx => (hframe m1 x hx).trans (h1 x hx)⟩
    · exact ⟨_, _, rfl, h1⟩
  unfold fileStatus
  simp only [hbs, hw, Option.map_some, Option.bind_eq_bind, Option.bind_some]
  split
  · exact ⟨_, _, rfl, hframe m⟩
  · split
    · exact ⟨_, _, rfl, fun _ _ => rfl⟩
    · split
      · exact hlook _ (hframe m)
      · exact hlook m fun _ _ => rfl

section
variable {es : List Entry}

theorem create_keeps (h : Chain v m es) {name : CString} {size exec : Nat} {status : Status}
    (hs : SafeIn v m (starts v.firstPage es) (endAddr v.firstPage es) (.create name size exec status)) :
    ∃ p m', createFile v m name size exec status = some (p, m') ∧ ∃ es', Chain v m' es' := by
  rcases hs with hs | hs | hs
  · exact ⟨none, m, createFile_refused (.inr hs), es, h⟩
  · exact ⟨none, m, createFile_full h hs, es, h⟩
  · by_cases hbad : v.initialized = false ∨ size = 0 ∨ filesizeMax < size ∨ (exec ≠ 0 ∧ exec ≠ 1)
    · exact ⟨none, m, createFile_refused hbad, es, h⟩
    · rw [not_or, Bool.not_eq_false] at hbad
      obtain ⟨m', hnew, hc⟩ := createFile_fits name size exec status hbad.1 (by omega) (by omega) (by omega) h hs
      exact ⟨_, m', hnew, _, hc⟩

theorem write_keeps (h : Chain v m es) {file offset : Nat} {src : List Byte}
    (hs : SafeIn v m (starts v.firstPage es) (endAddr v.firstPage es) (.write file offset src)) :
    ∃ r m', fileWrite v m file offset src = some (r, m') ∧ ∃ es', Chain v m' es' := by
  unfold fileWrite
  by_cases h1 : src.length = 0
  · exact ⟨0, m, if_pos h1, es, h⟩
  · rw [if_neg h1]
    by_cases h2 : sizeAt m file < offset
    · exact ⟨-1, m, if_pos h2, es, h⟩
    · rw [if_neg h2]
      by_cases h3 : sizeAt m file < (offset + src.length) % 2 ^ 32
      · exact ⟨-1, m, if_pos h3, es, h⟩
      · rw [if_neg h3]
        obtain ⟨hf, hroom⟩ := hs.resolve_left (by simp only [h1, h2, h3, or_self, not_false_eq_true])
        have hend := (h.layout.extents.placed hf).inside
        have hlast := v.last_le
        have hroom' : file + 48 + offset + src.length ≤ endOf m file := by unfold endOf; omega
        rw [flashpageWriteUnaligned_eq src m _ (by omega)]
        exact ⟨0, _, rfl, h.update hf fun x hx => program_frame (by omega)⟩

theorem status_keeps (h : Chain v m es) {file : Nat} (status : Status) (hf : file ∈ starts v.firstPage es) :
    ∃ r m', fileStatus v m file status = some (r, m') ∧ ∃ es', Chain v m' es' := by
  have hp := h.layout.extents.placed hf
  have ha := hp.aligned
  have hroom := hp.room
  have hend := hp.inside
  have hlast := v.last_le
  obtain ⟨r, m', hrun, hframe⟩ := fileStatus_frame (v := v) (f := file) status (by omega) (by omega) m
  exact ⟨r, m', hrun, h.update hf fun x hx => hframe x (by omega)⟩

theorem hasName_of_mem {name : CString} {e : Entry} : ∀ (es : List Entry) (a : Nat), Files v m a es →
    endAddr a es ≤ v.lastPage → e ∈ es → e.hasName name = true → ∃ f ∈ starts a es, hasName m name f = true
  | [], _, _, _, he, _ => by simp at he
  | e' :: es, a, h, hl, he, hn => by
    have hge := le_endAddr es (a + e'.extent)
    rw [endAddr_cons] at hl
    rcases mem_cons.mp he with rfl | he
    · exact ⟨a, mem_cons_self .., by rw [h.hasName name (by omega), hn]⟩
    · obtain ⟨f, hf, hn'⟩ := hasName_of_mem es (a + e'.extent) h.2 hl he hn
      exact ⟨f, mem_cons_of_mem a hf, hn'⟩

theorem remove_keeps (h : Chain v m es) {name : CString}
    (hs : SafeIn v m (starts v.firstPage es) (endAddr v.firstPage es) (.remove name)) :
    ∃ r m', remove v m name = some (r, m') ∧ ∃ es', Chain v m' es' := by
  cases hi : v.initialized with
  | false => exact ⟨-1, m, if_pos hi, es, h⟩
  | true =>
    by_cases hfound : ∃ e ∈ visible v es, e.hasName name = true
    · have hfull : ¬ (endAddr v.firstPage es = v.lastPage ∧ 2 ≤ es.length) := by
        intro hfull
        obtain ⟨e, he, hn⟩ := hfound
        rw [visible, if_pos hfull] at he
        obtain ⟨vis, z, rfl⟩ := (eq_nil_or_concat' es).resolve_left (by rintro rfl; simp at he)
        rw [dropLast_concat] at he
        have hfit := h.fits
        rw [endAddr_append] at hfit
        have hle := le_endAddr [z] (endAddr v.firstPage vis)
        obtain ⟨f, hf, hn'⟩ := hasName_of_mem vis v.firstPage (Files.append.mp h.files).1 (by omega) he hn
        apply hs
        refine ⟨hfull.1, by rw [starts_length]; exact hfull.2, f, ?_, hn'⟩
        rw [starts_append, show starts (endAddr v.firstPage vis) [z] = [endAddr v.firstPage vis] from rfl,
          dropLast_concat]
        exact hf
      obtain ⟨m', hrun, hc, -⟩ := h.remove_kept hi hfull hfound
      exact ⟨0, m', hrun, _, hc⟩
    · exact ⟨-1, m, h.remove_missing hi hfound, es, h⟩

theorem safe_step (hi : v.initialized = true) (h : Chain v m es) {op : Op} (hs : Safe v m op) :
    ∃ m', step v m op = some m' ∧ ∃ es', Chain v m' es' := by
  have hs := hs _ _ h.layout
  cases op with
  | format =>
    have hrun := format_eq hi m
    exact ⟨_, hrun, [], chain_format hi hrun⟩
  | create name size exec status =>
    obtain ⟨p, m', hrun, hc⟩ := create_keeps h hs
    exact ⟨m', by simp only [step, hrun, Option.map_some], hc⟩
  | write file offset src =>
    obtain ⟨r, m', hrun, hc⟩ := write_keeps h hs
    exact ⟨m', by simp only [step, hrun, Option.map_some], hc⟩
  | status file status =>
    obtain ⟨r, m', hrun, hc⟩ := status_keeps h status hs
    exact ⟨m', by simp only [step, hrun, Option.map_some], hc⟩
  | remove name =>
    obtain ⟨r, m', hrun, hc⟩ := remove_keeps h hs
    exact ⟨m', by simp only [step, hrun, Option.map_some], hc⟩

theorem safe_run (hi : v.initialized = true) {m0 t : Flash} (hformat : format v m = some m0)
    (h : ReachVia (step v) (Safe v) m0 t) : ∃ es, Chain v t es := by
  refine h.inv (fun t => ∃ es, Chain v t es) ⟨[], chain_format hi hformat⟩ ?_
  rintro t u op ⟨es, hc⟩ hs hstep
  obtain ⟨u', hrun, hc'⟩ := safe_step hi hc hs
  rw [hstep] at hrun
  cases hrun
  exact hc'

end

end

/-- In a run of safe calls every state has the layout, every safe call returns,
and a file that does not fit is refused without a write. -/
theorem layout_over_safe_runs (v : Volume) (hi : v.initialized = true) (m m0 t : Flash) (hformat : format v m = some m0)
    (h : ReachVia (step v) (Safe v) m0 t) :
    ∃ fs c, Layout v t fs c ∧ (∀ op, Safe v t op → ∃ u, step v t op = some u) ∧
      ∀ name size exec status, Safe v t (.create name size exec status) → v.lastPage < c + round size →
        createFile v t name size exec status = some (none, t) := by
  obtain ⟨es, hc⟩ := safe_run hi hformat h
  refine ⟨starts v.firstPage es, endAddr v.firstPage es, hc.layout, ?_, ?_⟩
  · intro op hs
    obtain ⟨u, hrun, _⟩ := safe_step hi hc hs
    exact ⟨u, hrun⟩
  · intro name size exec status hs hlarge
    rcases hs _ _ hc.layout with hbad | hfull | hfit
    · exact createFile_refused (.inr hbad)
    · exact createFile_full hc hfull
    · omega

theorem layout_over_safe_runs_two_files : ∃ t, ReachVia (step threePages) (Safe threePages) blankFlash t ∧
    sizeAt t 4096 = 100 ∧ sizeAt t 8192 = 100 ∧ ∃ fs c, Layout threePages t fs c := by
  have hsafe {m : Flash} {es : List Entry} (name : CString) (hc : Chain threePages m es)
      (hfit : endAddr 4096 es + round 100 ≤ 16384) : Safe threePages m (.create name 100 0 .loaded) := by
    intro fs c hl
    obtain ⟨-, rfl⟩ := hl.unique hc.layout
    exact .inr (.inr hfit)
  obtain ⟨m1, m, h1, h, hc1, hc⟩ := create_two .loaded
  have hrun : ReachVia (step threePages) (Safe threePages) blankFlash m :=
    .next (.next .start (hsafe fileA (chain_format rfl (format_blank rfl)) (by decide)) (congrArg (Option.map _) h1))
      (hsafe fileB hc1 (by decide)) (congrArg (Option.map _) h)
  obtain ⟨fs, c, hl, -⟩ := layout_over_safe_runs threePages rfl blankFlash blankFlash m (format_blank rfl) hrun
  exact ⟨m, hrun, hc.files.size (by decide), hc.files.2.size (by decide), fs, c, hl⟩

theorem layout_broken_by_large_file :
    ∃ m', createFile twoPages blankFlash fileA 12288 0 .loaded = some (some 4096, m') ∧
    ∀ fs c, ¬ Layout twoPages m' fs c := by
  have h : ∃ w ∈ createFile twoPages blankFlash fileA 12288 0 .loaded, w.1 = some 4096 ∧ sizeAt w.2 4096 = 12288 ∧
      nextAt w.2 4096 = 16384 := by
    decide +kernel
  obtain ⟨⟨p, m'⟩, hw, rfl, hsize, hnext⟩ := h
  refine ⟨m', hw, fun fs c hl => ?_⟩
  cases fs with
  | nil =>
    have hc : 4096 = c := hl.extents
    have hfree : Blank m' 4096 12288 := hc ▸ hl.free
    rw [nextAt_blank hfree (by decide)] at hnext; exact absurd hnext (by decide)
  | cons f fs =>
    obtain ⟨rfl, hplaced, _⟩ := hl.extents
    have hin := hplaced.inside
    unfold endOf at hin
    rw [show twoPages.firstPage = 4096 from rfl, hsize] at hin
    exact absurd hin (by decide)

end PipRiot.Tinyfs
