import PipRiot.Loader.Protocol

/-!
# Initialisation

`tinyfs_init` sets the pages, lets `_tinyfs_cleanup` reset the files that were
being loaded and then marks the module as initialised. `_tinyfs_cleanup` walks
with `tinyfs_get_first_file`, which answers `NULL` before that mark, so behind a
reset it finds no file.
-/

namespace PipRiot.Tinyfs

open List

/-! ## The functions -/

section
variable (v : Volume)

def flashFileContent (m : Flash) (file : Nat) : Option Flash := do
  let backup : FileT := { loadFile m file with status := Status.created.code }
  let m ← flashFile v m file
  flashpageWrite v.numof m file backup.bytes

def cleanupFile (m : Flash) (file : Nat) : Option Flash :=
  if statusAt m file = Status.loading.code then flashFileContent v m file else some m

def cleanupBody (s : Flash × Nat) : (Flash × Nat) ⊕ Option Flash :=
  match cleanupFile v s.1 s.2 with
  | none => .inr none
  | some m =>
    match getNextFile v m s.2 with
    | some next => .inl (m, next)
    | none => .inr (some m)

def cleanup (m : Flash) : Option Flash :=
  match getFirstFile v m with
  | none => some m
  | some file => (runLoop (cleanupBody v) pointers (m, file)).join

end

def lastPageOf (flashEnd : Nat) : Nat := (flashEnd / 4096 * 4096 + (2 ^ 32 - 4096)) % 2 ^ 32

/-- `none` if the assertion fails or the pages are not pages of the flash. -/
def setPages (numof : Nat) (moduleInit : Bool) (flashStart flashEnd : Nat) : Option Volume :=
  if h : 0 < round flashStart ∧ round flashStart < lastPageOf flashEnd ∧ lastPageOf flashEnd ≤ 4096 * numof ∧
    numof ≤ 2 ^ 19
  then
    some
      { firstPage := round flashStart
        lastPage := lastPageOf flashEnd
        numof := numof
        initialized := moduleInit
        first_pos := h.1
        first_aligned := Nat.mul_mod_left _ _
        last_aligned := by unfold lastPageOf; omega
        first_lt := h.2.1
        last_le := h.2.2.1
        numof_le := h.2.2.2 }
  else none

def init (numof : Nat) (moduleInit : Bool) (m : Flash) (flashStart flashEnd : Nat) : Option (Volume × Flash) := do
  let v ← setPages numof moduleInit flashStart flashEnd
  let m ← cleanup v m
  some ({ v with initialized := true }, m)

structure Recovered (fs : List Nat) (m m' : Flash) : Prop where
  settled : ∀ file ∈ fs, statusAt m' file ≠ Status.loading.code
  reset : ∀ file ∈ fs, statusAt m file = Status.loading.code →
    loadFile m' file = { loadFile m file with status := Status.created.code } ∧
      Blank m' (file + 48) (file + 48 + sizeAt m file)
  kept : ∀ file ∈ fs, statusAt m file ≠ Status.loading.code →
    ∀ x, file ≤ x → x < file + 48 + sizeAt m file → m' x = m x

/-! ## Resetting a file -/

def Entry.emptied (e : Entry) : Entry :=
  { e with
    status := Status.created.code
    body := replicate (round e.size - 48) 0xff
    status_lt := by decide
    body_length := length_replicate }

def Entry.wiped (e : Entry) (m : Flash) (a next : Nat) : Flash :=
  program (erase m a e.extent) a (e.emptied.header next).bytes

section
variable {v : Volume} {m m' : Flash} {e : Entry} {es : List Entry} {a : Nat} {fs : List Nat}

theorem recovered_refl (h : ∀ file ∈ fs, statusAt m file ≠ Status.loading.code) : Recovered fs m m where
  settled := h
  reset := fun file hfile hs => absurd hs (h file hfile)
  kept := fun _ _ _ _ _ _ => rfl

theorem Recovered.cons (h : Recovered [a] m m') (hs : Recovered fs m m') : Recovered (a :: fs) m m' where
  settled := forall_mem_cons.mpr ⟨h.settled a mem_cons_self, hs.settled⟩
  reset := forall_mem_cons.mpr ⟨h.reset a mem_cons_self, hs.reset⟩
  kept := forall_mem_cons.mpr ⟨h.kept a mem_cons_self, hs.kept⟩

theorem loadFile_congr (h : ∀ x, a ≤ x → x < a + 48 → m' x = m x) : loadFile m' a = loadFile m a := by
  have hword : ∀ k, k ≤ 44 → word m' (a + k) = word m (a + k) :=
    fun k _ => word_congr fun x h1 h2 => h x (by omega) (by omega)
  unfold loadFile sizeAt nextAt statusAt execAt
  rw [slice_congr fun x h1 h2 => h x h1 (by omega), hword 32 (by decide), hword 36 (by decide), hword 40 (by decide),
    hword 44 le_rfl]

theorem Recovered.congr {n n' : Flash} (h : Recovered fs m m')
    (he : ∀ file ∈ fs, ∀ x, file ≤ x → x < file + 48 + sizeAt m file → n x = m x ∧ n' x = m' x) :
    Recovered fs n n' := by
  have hload : ∀ file ∈ fs, loadFile n file = loadFile m file ∧ loadFile n' file = loadFile m' file :=
    fun file hfile => ⟨loadFile_congr fun x h1 _ => (he file hfile x h1 (by omega)).1,
      loadFile_congr fun x h1 _ => (he file hfile x h1 (by omega)).2⟩
  have hsize : ∀ file ∈ fs, sizeAt n file = sizeAt m file := fun file hfile => congrArg FileT.size (hload file hfile).1
  refine ⟨fun file hfile => ?_, fun file hfile hs => ?_, fun file hfile hs x h1 h2 => ?_⟩
  · exact (congrArg FileT.status (hload file hfile).2).trans_ne (h.settled file hfile)
  · obtain ⟨hheader, hblank⟩ := h.reset file hfile ((congrArg FileT.status (hload file hfile).1).symm.trans hs)
    rw [(hload file hfile).1, (hload file hfile).2, hsize file hfile]
    exact ⟨hheader, hblank.congr fun x h1 h2 => (he file hfile x (by omega) h2).2⟩
  · rw [hsize file hfile] at h2
    rw [(he file hfile x h1 h2).1, (he file hfile x h1 h2).2]
    exact h.kept file hfile ((congrArg FileT.status (hload file hfile).1).symm.trans_ne hs) x h1 h2

theorem flashFileContent_eq (ha : a % 4096 = 0) (h : Files v m a (e :: es)) (hl : a + e.extent ≤ v.lastPage) :
    flashFileContent v m a = some (e.wiped m a (nextOf v (a + e.extent))) := by
  have hx := e.extent_spec
  have hlast := v.last_le
  have hlen := e.emptied.header_length (nextOf v (a + e.extent))
  have hflash : flashFile v m a = some (erase m a e.extent) := by
    unfold flashFile flashpagePage
    rw [h.size hl, show round e.size = e.extent from rfl, flashPages_eq _ _ _ (by omega),
      show 4096 * (a / 4096) = a by omega, show 4096 * (e.extent / 4096) = e.extent by omega]
  unfold flashFileContent
  rw [h.load hl, hflash]
  exact @flashpageWrite_eq _ a v.numof (e.emptied.header (nextOf v (a + e.extent))).bytes (by omega) (by omega)
    (by omega)

theorem wiped_blank (m : Flash) (e : Entry) (a next : Nat) : Blank (e.wiped m a next) (a + 48) (a + e.extent) := by
  have hlen := e.emptied.header_length next
  exact ((blank_erase m a e.extent).mono (by omega) le_rfl).congr fun x _ _ => program_frame (by omega)

theorem wiped_image (m : Flash) (e : Entry) (a next : Nat) :
    slice (e.wiped m a next) a e.extent = e.emptied.image next := by
  have hx := e.extent_spec
  have hlen := e.emptied.header_length next
  have hhead := slice_program ((blank_erase m a e.extent).mono le_rfl
    (by omega : a + (e.emptied.header next).bytes.length ≤ _))
  rw [hlen] at hhead
  rw [show e.extent = 48 + (e.extent - 48) by omega, slice_add, Entry.image]
  exact congrArg₂ _ hhead (slice_blank ((wiped_blank m e a next).mono le_rfl (by omega)))

theorem getNextFile_congr (h : nextAt m' a = nextAt m a) (hn : nextAt m' (nextAt m a) = nextAt m (nextAt m a)) :
    getNextFile v m' a = getNextFile v m a := by
  simp only [getNextFile, h, hn]

/-- The successor is found as before; it is the file itself if that is alone and fills the region. -/
theorem cleanupFile_spec (ha : a % 4096 = 0) (h : Files v m a (e :: es)) (hl : a + e.extent ≤ v.lastPage)
    (hroom : 48 + e.size ≤ e.extent) (hn : nextAt m a = a ∨ a + e.extent ≤ nextAt m a) :
    ∃ m', cleanupFile v m a = some m' ∧ getNextFile v m' a = getNextFile v m a ∧ Recovered [a] m m' ∧
      ∀ x, x < a ∨ a + e.extent ≤ x → m' x = m x := by
  have hload := h.load hl
  unfold cleanupFile
  by_cases hs : statusAt m a = Status.loading.code
  · have hlen := e.emptied.header_length (nextOf v (a + e.extent))
    have hx := e.extent_spec
    obtain ⟨hnew, -⟩ := load_image (e := e.emptied) (nextOf_lt hl) (wiped_image m e a _)
    have hnext : nextAt (e.wiped m a _) a = nextAt m a :=
      (congrArg FileT.next hnew).trans (congrArg FileT.next hload).symm
    have hframe : ∀ x, x < a ∨ a + e.extent ≤ x → e.wiped m a (nextOf v (a + e.extent)) x = m x := by
      intro x hx
      rw [Entry.wiped, program_frame (by omega), erase_frame hx]
    rw [if_pos hs, flashFileContent_eq ha h hl]
    refine ⟨_, rfl, getNextFile_congr hnext ?_, ⟨forall_mem_singleton.mpr ?_, forall_mem_singleton.mpr fun _ => ?_,
      forall_mem_singleton.mpr (absurd hs)⟩, hframe⟩
    · rcases hn with heq | hle
      · rw [heq]; exact hnext
      · exact word_congr fun x _ _ => hframe x (by omega)
    · rw [show statusAt (e.wiped m a _) a = Status.created.code from congrArg FileT.status hnew]
      decide
    · rw [hnew, hload, h.size hl]
      exact ⟨rfl, (wiped_blank m e a _).mono le_rfl (by omega)⟩
  · rw [if_neg hs]
    exact ⟨m, rfl, rfl, recovered_refl (forall_mem_singleton.mpr hs), fun _ _ => rfl⟩

theorem Seen.cleanup (hi : v.initialized = true) : ∀ (es : List Entry) (e : Entry) (a fuel : Nat) (m : Flash),
    es.length < fuel → a % 4096 = 0 → (∀ e' ∈ e :: es, 48 + e'.size ≤ e'.extent) → Seen v m a (e :: es) →
    ∃ m', runLoop (cleanupBody v) fuel (m, a) = some (some m') ∧ Recovered (starts a (e :: es)) m m' ∧
      ∀ x, x < a → m' x = m x
  | _, _, _, 0, _, hf, _, _, _ => by omega
  | es, e, a, fuel + 1, m, hf, ha, hroom, h => by
    have hx := e.extent_spec
    have hend := le_endAddr es (a + e.extent)
    have hlt := h.lt
    rw [endAddr_cons] at hlt
    have he := hroom e mem_cons_self
    obtain ⟨m1, hm1, hnext, hrec, hframe⟩ :=
      cleanupFile_spec ha h.files (by omega) he
        (.inr (by rw [h.files.next (by omega), nextOf_of_lt (by omega)]))
    rw [h.next hi] at hnext
    cases es with
    | nil =>
      have hbody : cleanupBody v (m, a) = .inr (some m1) := by
        simp only [cleanupBody, hm1, hnext, if_true]
      exact ⟨m1, runLoop_inr hbody fuel, hrec, fun x hx => hframe x (.inl hx)⟩
    | cons e' es =>
      have hbody : cleanupBody v (m, a) = .inl (m1, a + e.extent) := by
        simp [cleanupBody, hm1, hnext]
      obtain ⟨m', hrun, hrest, hkeep⟩ := Seen.cleanup hi es e' (a + e.extent) fuel m1 (by simpa using hf) (by omega)
        (fun e'' he => hroom e'' (mem_cons_of_mem e he)) (h.tail.congr fun x hx => hframe x (.inr hx))
      rw [runLoop_inl hbody]
      refine ⟨m', hrun, .cons (hrec.congr ?_) (hrest.congr ?_), fun x hx => ?_⟩
      · refine forall_mem_singleton.mpr fun x _ h2 => ⟨rfl, hkeep x ?_⟩
        rw [h.files.size (by omega)] at h2
        omega
      · intro file hfile x h1 _
        exact ⟨(hframe x (.inr (((starts_nodup _ _).1 file hfile).trans h1))).symm, rfl⟩
      · rw [hkeep x (by omega), hframe x (.inl hx)]

theorem cleanup_recovers (hi : v.initialized = true) (h : Chain v m es)
    (hroom : ∀ e ∈ visible v es, 48 + e.size ≤ e.extent) :
    ∃ m', cleanup v m = some m' ∧ Recovered (starts v.firstPage (visible v es)) m m' := by
  unfold cleanup
  rw [h.first hi]
  rcases h.cases with rfl | ⟨e, rfl, hfull⟩ | ⟨hne, hseen⟩
  · rw [visible_of_not (by simp)]
    exact ⟨m, rfl, recovered_refl nofun⟩
  · rw [visible_of_not (by simp)] at hroom ⊢
    have hend : v.firstPage + e.extent = v.lastPage := hfull
    obtain ⟨m', hm', hnext, hrec, -⟩ := cleanupFile_spec v.first_aligned h.files hend.le (hroom e mem_cons_self)
      (.inl (by rw [h.files.next hend.le, hend, nextOf_last]))
    rw [h.single hfull] at hnext
    have hbody : cleanupBody v (m, v.firstPage) = .inr (some m') := by
      simp only [cleanupBody, hm', hnext]
    exact ⟨m', congrArg Option.join (runLoop_inr hbody (pointers - 1)), hrec⟩
  · obtain ⟨hes, e, vis, hv, hlen⟩ := h.visible_cons hne
    rw [hv] at hroom hseen ⊢
    rw [if_neg hes]
    obtain ⟨m', hrun, hrec, -⟩ := Seen.cleanup hi vis e v.firstPage pointers m hlen v.first_aligned hroom hseen
    exact ⟨m', congrArg Option.join hrun, hrec⟩

/-! ## Behind a reset -/

theorem cleanup_uninitialized (hi : v.initialized = false) (m : Flash) : cleanup v m = some m := by
  unfold cleanup getFirstFile
  rw [if_pos hi]

theorem setPages_initialized {numof flashStart flashEnd : Nat} {moduleInit : Bool}
    (h : setPages numof moduleInit flashStart flashEnd = some v) : v.initialized = moduleInit := by
  unfold setPages at h
  split at h
  · cases h; rfl
  · cases h

theorem second_init_recovers {numof flashStart flashEnd : Nat} (hv : setPages numof true flashStart flashEnd = some v)
    (h : Chain v m es) (hroom : ∀ e ∈ visible v es, 48 + e.size ≤ e.extent) :
    ∃ w m', init numof true m flashStart flashEnd = some (w, m') ∧
      Recovered (starts v.firstPage (visible v es)) m m' := by
  obtain ⟨m', hrun, hrec⟩ := cleanup_recovers (setPages_initialized hv) h hroom
  exact ⟨{ v with initialized := true }, m', by simp [init, hv, hrun], hrec⟩

theorem second_init_two_files : ∃ m w m', Chain threePages m [sampleEntry fileA .loading, sampleEntry fileB .loaded] ∧
    statusAt m 0x1000 = Status.loading.code ∧ init 128 true m 0x1000 0x5000 = some (w, m') ∧
    Recovered [0x1000, 0x2000] m m' ∧ statusAt m' 0x1000 = Status.created.code := by
  obtain ⟨-, m, -, -, -, hchain⟩ := create_two .loading
  obtain ⟨w, m', hrun, hrec⟩ := @second_init_recovers threePages m _ 128 0x1000 0x5000 rfl hchain (by decide)
  have hst : statusAt m 0x1000 = Status.loading.code := by
    have := statuses_of_files _ _ hchain.files hchain.fits
    exact (List.cons.inj this).1
  exact ⟨m, w, m', hchain, hst, hrun, hrec, congrArg FileT.status (hrec.reset 0x1000 (by decide) hst).1⟩

theorem Chain.loading_iff (h : Chain v m es) :
    (∀ file ∈ starts v.firstPage es, statusAt m file ≠ Status.loading.code) ↔
      ∀ e ∈ es, e.status ≠ Status.loading.code := by
  rw [← forall_mem_map (P := (· ≠ Status.loading.code)), statuses_of_files es v.firstPage h.files h.fits,
    forall_mem_map]

end

theorem init_recovers_iff (numof flashStart flashEnd : Nat) (v : Volume)
    (hv : setPages numof false flashStart flashEnd = some v) (m : Flash) (es : List Entry) (h : Chain v m es) :
    (∃ w m', init numof false m flashStart flashEnd = some (w, m') ∧ Recovered (starts v.firstPage es) m m') ↔
      ∀ e ∈ es, e.status ≠ Status.loading.code := by
  rw [← h.loading_iff]
  have hinit : init numof false m flashStart flashEnd = some ({ v with initialized := true }, m) := by
    unfold init
    rw [hv, Option.bind_eq_bind, Option.bind_some, cleanup_uninitialized (setPages_initialized hv)]
    rfl
  constructor
  · rintro ⟨w, m', hrun, hrec⟩
    rw [hinit] at hrun
    cases hrun; exact hrec.settled
  · intro hnone; exact ⟨_, m, hinit, recovered_refl hnone⟩

theorem init_recovers_loaded : ∃ v m, setPages 128 false 0x1000 0x4000 = some v ∧ Chain v m [entryA] ∧
    ∃ w m', init 128 false m 0x1000 0x4000 = some (w, m') ∧ Recovered [0x1000] m m' := by
  obtain ⟨m, -, hchain⟩ := create_fileA
  have hfiles : Chain { twoPages with initialized := false } m [entryA] := ⟨hchain.files, hchain.fits, hchain.free⟩
  have hv : setPages 128 false 0x1000 0x4000 = some { twoPages with initialized := false } := rfl
  refine ⟨_, m, hv, hfiles, ?_⟩
  refine (init_recovers_iff 128 0x1000 0x4000 _ hv m [entryA] hfiles).mpr ?_
  intro e he
  cases mem_singleton.mp he
  decide

/-- The power fails behind the first chunk; the file is still being loaded. -/
theorem init_leaves_loading : ∃ s ∈ runAll (Loader.step twoPages Loader.decimal) Loader.start
      [.mkbin [fileA, Loader.six, Loader.zero], .ldbin [fileA, Loader.zeros]],
    ∃ r ∈ init 128 false s.flash 0x1000 0x4000, getFirstFile r.1 r.2 = some 0x1000 ∧
      statusAt s.flash 0x1000 = Status.loading.code ∧ statusAt r.2 0x1000 = Status.loading.code ∧
        ¬ Recovered [0x1000] s.flash r.2 := by
  have hrun : ∃ s ∈ runAll (Loader.step twoPages Loader.decimal) Loader.start
      [.mkbin [fileA, Loader.six, Loader.zero], .ldbin [fileA, Loader.zeros]],
      ∃ r ∈ init 128 false s.flash 0x1000 0x4000, getFirstFile r.1 r.2 = some 0x1000 ∧
        statusAt s.flash 0x1000 = Status.loading.code ∧ statusAt r.2 0x1000 = Status.loading.code := by
    decide +kernel
  obtain ⟨s, hs, r, hr, hfirst, hbefore, hafter⟩ := hrun
  exact ⟨s, hs, r, hr, hfirst, hbefore, hafter, fun h => h.settled 0x1000 (by simp) hafter⟩

end PipRiot.Tinyfs
