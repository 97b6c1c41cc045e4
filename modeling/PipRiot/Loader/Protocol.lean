import PipRiot.Loader.Chunk

/-!
# The loading protocol

The invariant of the commands: the region holds a chain of files, and of each
file the content is what has been decoded for it, followed by erased bytes. At
most one of them is being loaded, and `offset` is how far it has come.
-/

namespace PipRiot.Loader

open Tinyfs List Option

abbrev Item := Entry × List Byte

structure Progress (p : Item) : Prop where
  room : 48 + p.1.size ≤ p.1.extent
  le : p.2.length ≤ p.1.size
  content : p.1.body.take p.1.size = p.2 ++ replicate (p.1.size - p.2.length) 0xff
  status : (p.1.status = Status.created.code ∧ p.2 = []) ∨ p.1.status = Status.loading.code ∨
    (p.1.status = Status.loaded.code ∧ p.2.length = p.1.size)

def isPending (p : Item) : Bool := p.1.status == Status.loading.code

def pendingLen (p : Item) : Nat := if isPending p then p.2.length else 0

structure Inv (v : Volume) (s : State) (ps : List Item) : Prop where
  chain : Chain v s.flash (ps.map Prod.fst)
  given : s.given = ps.map Prod.snd
  notFull : ¬ (endAddr v.firstPage (ps.map Prod.fst) = v.lastPage ∧ 2 ≤ (ps.map Prod.fst).length)
  progress : ∀ p ∈ ps, Progress p
  single : ps.countP isPending ≤ 1
  offset : s.offset = (ps.map pendingLen).sum

/-! ## Lists of files -/

theorem sum_pendingLen {ps : List Item} (h : ps.countP isPending = 0) : (ps.map pendingLen).sum = 0 := by
  induction ps with
  | nil => rfl
  | cons p ps ih =>
    have hp : isPending p = false := by
      by_contra hp
      simp [countP_cons, hp] at h
    rw [countP_cons, hp] at h
    rw [map_cons, sum_cons, ih (by simpa using h), pendingLen, hp]; rfl

theorem split_map {ps : List Item} {pre' post' : List Entry} {e : Entry} (h : ps.map Prod.fst = pre' ++ e :: post') :
    ∃ pre g post, ps = pre ++ (e, g) :: post ∧ pre.map Prod.fst = pre' := by
  obtain ⟨pre, rest, rfl, hpre, hrest⟩ := map_eq_append_iff.mp h
  obtain ⟨p, post, rfl, rfl, -⟩ := map_eq_cons_iff.mp hrest
  exact ⟨pre, p.2, post, rfl, hpre⟩

theorem locate_split {name : CString} {f : Nat} : ∀ (es : List Entry) (a : Nat), locate name a es = some f →
    ∃ pre e post, es = pre ++ e :: post ∧ f = endAddr a pre ∧ e.hasName name = true ∧ ∀ x ∈ pre, ¬ x.hasName name = true
  | [], _, h => by cases h
  | e :: es, a, h => by
    cases he : e.hasName name with
    | true =>
      rw [locate_here he] at h
      cases h; exact ⟨[], e, es, rfl, rfl, he, nofun⟩
    | false =>
      rw [locate_there he] at h
      obtain ⟨pre, e', post, rfl, hf, he', hpre⟩ := locate_split es (a + e.extent) h
      refine ⟨e :: pre, e', post, rfl, hf, he', fun x hx => ?_⟩
      rcases mem_cons.mp hx with rfl | hx
      · rw [he]; exact Bool.false_ne_true
      · exact hpre x hx

theorem starts_idxOf (a : Nat) (pre : List Entry) (e : Entry) (post : List Entry) :
    (starts a (pre ++ e :: post)).idxOf (endAddr a pre) = pre.length := by
  have hnodup := (starts_nodup (pre ++ e :: post) a).2
  rw [starts_append] at hnodup ⊢
  have hnot : endAddr a pre ∉ starts a pre := fun hmem =>
    (nodup_append.mp hnodup).2.2 _ hmem _ (mem_cons_self ..) rfl
  rw [idxOf_append_of_notMem hnot, starts, idxOf_cons_self, starts_length, add_zero]

theorem modify_given (f : List Byte → List Byte) (p : Item) (post : List Item) : ∀ pre : List Item,
    ((pre ++ p :: post).map Prod.snd).modify pre.length f = pre.map Prod.snd ++ f p.2 :: post.map Prod.snd
  | [] => rfl
  | q :: pre => by
    rw [cons_append, map_cons, length_cons, modify_succ_cons, modify_given f p post pre]
    rfl

theorem eraseIdx_given (p : Item) (post pre : List Item) :
    ((pre ++ p :: post).map Prod.snd).eraseIdx pre.length = (pre ++ post).map Prod.snd := by
  rw [map_append, eraseIdx_append_of_length_le (by rw [length_map]), length_map, Nat.sub_self,
    map_cons, eraseIdx_cons_zero, map_append]

/-! ## What the invariant says of the flash -/

section
variable {v : Volume} {s : State} {ps pre post : List Item} {p : Item}

def place (v : Volume) (pre : List Item) : Nat := endAddr v.firstPage (pre.map Prod.fst)

theorem Inv.walk (hi : v.initialized = true) (h : Inv v s ps) :
    files v s.flash = starts v.firstPage (ps.map Prod.fst) ∧ countLoading v s.flash = ps.countP isPending := by
  have hfiles : files v s.flash = starts v.firstPage (ps.map Prod.fst) := by
    unfold files
    rw [h.chain.enumerate_eq hi, visible_of_not h.notFull]; rfl
  refine ⟨hfiles, ?_⟩
  unfold countLoading
  rw [hfiles, show isLoading s.flash = (· == Status.loading.code) ∘ statusAt s.flash from rfl, ← countP_map,
    statuses_of_files _ _ h.chain.files h.chain.fits, countP_map, countP_map]
  rfl

structure Stored (v : Volume) (m : Flash) (f : Nat) (p : Item) : Prop where
  aligned : f % 4096 = 0
  inside : f + p.1.extent ≤ v.lastPage
  header : loadFile m f = p.1.header (nextOf v (f + p.1.extent))
  body : slice m (f + 48) (p.1.extent - 48) = p.1.body

theorem Inv.stored (h : Inv v s (pre ++ p :: post)) : Stored v s.flash (place v pre) p := by
  have hfiles := h.chain.files
  have hfit := h.chain.fits
  rw [map_append, map_cons] at hfiles hfit
  rw [endAddr_append, endAddr_cons] at hfit
  have hle := le_endAddr (post.map Prod.fst) (place v pre + p.1.extent)
  have hinside : place v pre + p.1.extent ≤ v.lastPage := by
    unfold place at hle ⊢; omega
  have hfile := (Files.append.mp hfiles).2
  exact ⟨endAddr_aligned _ _ v.first_aligned, hinside, hfile.load hinside, hfile.body⟩

namespace Stored

variable {m : Flash} {f : Nat}

section
variable (h : Stored v m f p)
include h

theorem size : sizeAt m f = p.1.size := congrArg FileT.size h.header

theorem status : statusAt m f = p.1.status := congrArg FileT.status h.header

theorem isLoading_eq : isLoading m f = isPending p := by
  rw [isLoading, h.status, isPending]

theorem content (hp : Progress p) : slice m (f + 48) p.1.size = p.2 ++ replicate (p.1.size - p.2.length) 0xff := by
  have hroom := hp.room
  rw [← hp.content, ← h.body, slice_take, min_eq_left (by omega)]

theorem parts (hp : Progress p) :
    slice m (f + 48) p.2.length = p.2 ∧ Blank m (f + 48 + p.2.length) (f + 48 + p.1.size) := by
  have hcontent := h.content hp
  have hle := hp.le
  conv at hcontent => lhs; rw [show p.1.size = p.2.length + (p.1.size - p.2.length) by omega, slice_add]
  obtain ⟨h1, h2⟩ := append_inj hcontent (slice_length ..)
  refine ⟨h1, fun x hx hx' => ?_⟩
  have hget := congrArg (fun l => l.getD (x - (f + 48 + p.2.length)) 0) h2
  rw [slice_getD (by omega), getD_eq_getElem?_getD, getElem?_replicate, if_pos (by omega), getD_some,
    show f + 48 + p.2.length + (x - (f + 48 + p.2.length)) = x by omega] at hget
  exact hget

end

end Stored

section
variable (hi : v.initialized = true)
include hi

theorem Inv.at_index (h : Inv v s ps) {i f : Nat} (hf : (files v s.flash)[i]? = some f) :
    ∃ pre p post, ps = pre ++ p :: post ∧ pre.length = i ∧ f = place v pre := by
  rw [(h.walk hi).1] at hf
  obtain ⟨pre', e, post', hes, hlen, rfl⟩ := starts_get _ _ _ hf
  obtain ⟨pre, g, post, rfl, hpre⟩ := split_map hes
  refine ⟨pre, (e, g), post, rfl, ?_, ?_⟩
  · rw [← hlen, ← hpre, length_map]
  · rw [place, hpre]

theorem Inv.index (h : Inv v s (pre ++ p :: post)) : (files v s.flash).idxOf (place v pre) = pre.length := by
  rw [(h.walk hi).1, map_append, map_cons, place, starts_idxOf, length_map]

theorem Inv.search (h : Inv v s ps) (name : CString) :
    (fileSearch v s.flash name = some none ∧ ¬ ∃ e ∈ ps.map Prod.fst, e.hasName name = true) ∨
      ∃ pre p post, ps = pre ++ p :: post ∧ fileSearch v s.flash name = some (some (place v pre)) ∧
        p.1.hasName name = true ∧ ∀ x ∈ pre.map Prod.fst, ¬ x.hasName name = true := by
  have hsearch := h.chain.search_eq hi name
  rw [visible_of_not h.notFull] at hsearch
  cases hloc : locate name v.firstPage (ps.map Prod.fst) with
  | none =>
    left
    rw [hloc] at hsearch
    refine ⟨hsearch, fun hfound => ?_⟩
    obtain ⟨e0, hmem, hname⟩ := hfound
    obtain ⟨e, pre, post, hpre, he, hes, -⟩ := exists_of_eraseP hmem hname
    rw [hes, locate_append he pre _ hpre] at hloc; cases hloc
  | some f =>
    right
    rw [hloc] at hsearch
    obtain ⟨pre', e, post', hes, rfl, he, hpre'⟩ := locate_split _ _ hloc
    obtain ⟨pre, g, post, rfl, rfl⟩ := split_map hes
    exact ⟨pre, (e, g), post, rfl, hsearch, he, hpre'⟩

theorem Inv.complete (h : Inv v s ps) : Complete v s := by
  intro i f hf hst
  obtain ⟨pre, p, post, rfl, rfl, rfl⟩ := h.at_index hi hf
  have hstored := h.stored
  have hp := h.progress p (by simp)
  rw [hstored.status] at hst
  have hlen : p.2.length = p.1.size := by
    rcases hp.status with ⟨hc, -⟩ | hc | ⟨-, hlen⟩
    · rw [hst] at hc; cases hc
    · rw [hst] at hc; cases hc
    · exact hlen
  rw [hstored.size, hstored.content hp, hlen, Nat.sub_self, replicate_zero, append_nil, h.given,
    map_append, getElem?_append_right (by rw [length_map]), length_map, Nat.sub_self]
  rfl

end

/-! ## The commands -/

theorem Inv.pending (h : Inv v s (pre ++ p :: post)) (hp : isPending p = true) :
    pre.countP isPending = 0 ∧ post.countP isPending = 0 ∧ s.offset = p.2.length := by
  have hcount := h.single
  have hoff := h.offset
  rw [countP_append, countP_cons, hp, if_pos rfl] at hcount
  have hpre : pre.countP isPending = 0 := by omega
  have hpost : post.countP isPending = 0 := by omega
  rw [map_append, sum_append, map_cons, sum_cons, sum_pendingLen hpre, sum_pendingLen hpost,
    pendingLen, hp, if_pos rfl] at hoff
  exact ⟨hpre, hpost, by omega⟩

theorem Inv.ready (h : Inv v s (pre ++ p :: post)) (hst : p.1.status ≠ Status.loaded.code)
    (hnone : isPending p = false → (pre ++ p :: post).countP isPending = 0) :
    pre.countP isPending = 0 ∧ post.countP isPending = 0 ∧ s.offset = p.2.length := by
  cases hp : isPending p with
  | true => exact h.pending hp
  | false =>
    have hzero := hnone hp
    have hoff := h.offset
    rw [sum_pendingLen hzero] at hoff
    rw [countP_append, countP_cons] at hzero
    have hnew : p.2 = [] := by
      rcases (h.progress p (by simp)).status with ⟨-, hnil⟩ | hl | ⟨hl, -⟩
      · exact hnil
      · simp only [isPending, beq_eq_false_iff_ne] at hp; exact absurd hl hp
      · exact absurd hl hst
    rw [hnew]; exact ⟨by omega, by omega, hoff⟩

theorem progress_rewritten {e : Entry} {m : Flash} {f : Nat} {g : List Byte} (hroom : 48 + e.size ≤ e.extent)
    (hle : g.length ≤ e.size) (hcontent : slice m (f + 48) e.size = g ++ replicate (e.size - g.length) 0xff)
    (hst : statusAt m f = if e.size = g.length then Status.loaded.code else Status.loading.code) :
    Progress (e.rewritten m f, g) where
  room := hroom
  le := hle
  content := by
    show (slice m (f + 48) (e.extent - 48)).take e.size = _
    rw [slice_take, min_eq_left (by omega), hcontent]; rfl
  status := by
    show (statusAt m f = _ ∧ _) ∨ statusAt m f = _ ∨ (statusAt m f = _ ∧ _)
    rw [hst]
    split
    · rename_i hfull
      exact .inr (.inr ⟨rfl, hfull.symm⟩)
    · exact .inr (.inl rfl)

theorem Inv.load {e : Entry} {g chunk d : List Byte} (h : Inv v s (pre ++ (e, g) :: post))
    (hpre : pre.countP isPending = 0) (hpost : post.countP isPending = 0) (hoff : s.offset = g.length)
    (hst : e.status ≠ Status.loaded.code) (hd : decoded chunk = some d) (hfit : s.offset + d.length ≤ e.size) :
    ∃ m' o' e', Loader.load v s (place v pre) chunk = some (m', o') ∧ e'.extent = e.extent ∧
      Inv v ⟨m', o', s.given.modify pre.length (· ++ d)⟩ (pre ++ (e', g ++ d) :: post) := by
  have hstored := h.stored
  have hp := h.progress (e, g) (by simp)
  obtain ⟨hg, hblank⟩ := hstored.parts hp
  have hroom : 48 + e.size ≤ e.extent := hp.room
  have hinside : place v pre + e.extent ≤ v.lastPage := hstored.inside
  have haligned := hstored.aligned
  have hlast := v.last_le
  have hsize : sizeAt s.flash (place v pre) = e.size := hstored.size
  rw [hoff] at hfit
  have hstatus : statusAt s.flash (place v pre) = Status.created.code ∨
      statusAt s.flash (place v pre) = Status.loading.code := by
    rw [hstored.status]
    rcases hp.status with ⟨hc, -⟩ | hc | ⟨hc, -⟩
    · exact .inl hc
    · exact .inr hc
    · exact absurd hc hst
  obtain ⟨m', hload, hst', hslice, hframe⟩ := load_spec v s (place v pre) (by omega) (by omega) hstatus hd (by omega)
    (hblank.mono (by rw [hoff]) (by rw [hoff]; simp only; omega))
  rw [hoff] at hload hslice hframe
  rw [hsize] at hload
  rw [hsize, hoff] at hst'
  refine ⟨m', _, e.rewritten m' (place v pre), hload, rfl, ?_⟩
  have hchain := h.chain
  rw [map_append, map_cons] at hchain
  have hkeep : ∀ x, x < place v pre + 40 ∨ place v pre + e.extent ≤ x → m' x = s.flash x := fun x hx =>
    hframe x (by omega)
  have hnew := hchain.rewrite hkeep
  have hend : endAddr v.firstPage ((pre ++ (e.rewritten m' (place v pre), g ++ d) :: post).map Prod.fst) =
      endAddr v.firstPage ((pre ++ (e, g) :: post).map Prod.fst) := by
    rw [map_append, map_append, endAddr_append, endAddr_append]; rfl
  have hfirst : slice m' (place v pre + 48) g.length = g :=
    (slice_congr fun x _ h2 => hframe x (by omega)).trans hg
  have hcontent : slice m' (place v pre + 48) e.size =
      g ++ d ++ replicate (e.size - (g.length + d.length)) 0xff := by
    rw [show e.size = g.length + (d.length + (e.size - (g.length + d.length))) by omega, slice_add, slice_add,
      ← show e.size = g.length + (d.length + (e.size - (g.length + d.length))) by omega, hslice,
      hfirst, slice_blank, append_assoc]
    intro x h1 h2
    rw [hframe x (by omega)]
    exact hblank x (by simp only; omega) (by simp only; omega)
  refine ⟨?_, ?_, ?_, ?_, ?_, ?_⟩
  · rw [map_append, map_cons]; exact hnew
  · rw [h.given, modify_given, map_append, map_cons]
  · rw [hend]
    have hfull := h.notFull
    simpa using hfull
  · intro q hq
    rcases mem_append.mp hq with hq | hq
    · exact h.progress q (mem_append_left _ hq)
    · rcases mem_cons.mp hq with rfl | hq
      · exact progress_rewritten hroom (by rwa [length_append]) (by rwa [length_append])
          (by rwa [length_append])
      · exact h.progress q (mem_append_right _ (mem_cons_of_mem _ hq))
  · rw [countP_append, countP_cons, hpre, hpost]
    split <;> omega
  · rw [map_append, sum_append, map_cons, sum_cons, sum_pendingLen hpre, sum_pendingLen hpost,
      pendingLen]
    show _ = 0 + ((if statusAt m' (place v pre) == Status.loading.code then (g ++ d).length else 0) + 0)
    rw [hst', length_append]
    split
    · rfl
    · simp

theorem get_middle_ne {α : Type} (pre post : List α) (x y : α) {i : Nat} (hi : i ≠ pre.length) :
    (pre ++ x :: post)[i]? = (pre ++ y :: post)[i]? := by
  rw [getElem?_append, getElem?_append]
  split
  · rfl
  · obtain ⟨k, hk⟩ : ∃ k, i - pre.length = k + 1 := ⟨i - pre.length - 1, by omega⟩
    rw [hk, getElem?_cons_succ, getElem?_cons_succ]

theorem get_middle {α : Type} (pre post : List α) (x : α) : (pre ++ x :: post)[pre.length]? = some x := by
  rw [getElem?_append_right le_rfl, Nat.sub_self]
  rfl

theorem loadedKept_of_inv (hi : v.initialized = true) {t : State} {q : Item} (h : Inv v s (pre ++ p :: post))
    (h' : Inv v t (pre ++ q :: post)) (hext : q.1.extent = p.1.extent) (hst : p.1.status ≠ Status.loaded.code) :
    LoadedKept v s t := by
  have hfiles : files v t.flash = files v s.flash := by
    rw [(h.walk hi).1, (h'.walk hi).1]
    simp only [map_append, map_cons, starts_append, starts, hext]
  intro f hf hloaded
  obtain ⟨i, hget⟩ := mem_iff_getElem?.mp hf
  obtain ⟨pre1, r, post1, hps, hlen, rfl⟩ := h.at_index hi hget
  obtain ⟨pre2, r', post2, hps', hlen', hplace⟩ := h'.at_index hi (hfiles ▸ hget)
  have hstored : Stored v s.flash (place v pre1) r := (hps ▸ h).stored
  have hstored' : Stored v t.flash (place v pre1) r' := hplace ▸ (hps' ▸ h').stored
  have hr : (pre ++ p :: post)[i]? = some r := by
    rw [hps, ← hlen]; exact get_middle ..
  have hr' : (pre ++ q :: post)[i]? = some r' := by
    rw [hps', ← hlen']; exact get_middle ..
  have hne : i ≠ pre.length := by
    rintro rfl
    rw [get_middle] at hr
    cases hr; exact hst (hstored.status ▸ hloaded)
  rw [get_middle_ne pre post q p hne, hr] at hr'
  cases hr'
  have hroom := ((hps ▸ h).progress r (by simp)).room
  refine ⟨hstored'.header.trans hstored.header.symm, ?_⟩
  have hbody := congrArg (List.take r.1.size) (hstored'.body.trans hstored.body.symm)
  rwa [slice_take, slice_take, min_eq_left (by omega), ← hstored.size] at hbody

theorem Inv.ldbin (hi : v.initialized = true) (h : Inv v s ps) {strtol : List Byte → Strtol} {args : List CString}
    (hgood : Good v strtol s (.ldbin args)) :
    ∃ t out ps', Loader.ldbin v s args = some (t, out) ∧ Inv v t ps' ∧ LoadedKept v s t := by
  have hsame : ∀ out, ∃ t out' ps', (some (s, out) : Result) = some (t, out') ∧ Inv v t ps' ∧ LoadedKept v s t :=
    fun out => ⟨s, out, ps, rfl, h, fun _ _ _ => ⟨rfl, rfl⟩⟩
  match args, hgood with
  | [], _ => exact hsame _
  | [_], _ => exact hsame _
  | name :: chunk :: _, hgood =>
    obtain ⟨d, hd, hfile⟩ := hgood
    rcases h.search hi name with ⟨hsearch, -⟩ | ⟨pre, ⟨e, g⟩, post, rfl, hsearch, -, -⟩
    · simp only [Loader.ldbin, hsearch]; exact hsame _
    · have hstored := h.stored
      have hcount := (h.walk hi).2
      have hsingle := h.single
      simp only [Loader.ldbin, hsearch]
      by_cases hchunk : checkChunk chunk.bytes = false
      · rw [if_pos hchunk]; exact hsame _
      rw [if_neg hchunk, if_neg (by omega)]
      by_cases hother : countLoading v s.flash = 1 ∧ isLoading s.flash (place v pre) = false
      · rw [if_pos hother]; exact hsame _
      rw [if_neg hother]
      obtain ⟨hst, hfit⟩ := (hfile _ hsearch).resolve_left hother
      rw [hstored.status] at hst
      rw [hstored.size] at hfit
      have hnone : isPending (e, g) = false → (pre ++ (e, g) :: post).countP isPending = 0 := by
        intro hp
        rw [hcount, hstored.isLoading_eq] at hother
        simp only [hp, and_true] at hother; omega
      obtain ⟨hpre, hpost, hoff⟩ := h.ready hst hnone
      obtain ⟨m', o', e', hload, hext, hinv⟩ := h.load hpre hpost hoff hst hd hfit
      rw [hload, hd, h.index hi]
      exact ⟨_, _, _, rfl, hinv, loadedKept_of_inv hi h hinv hext hst⟩

theorem Inv.append (h : Inv v s ps) {e : Entry} {m : Flash} (hchain : Chain v m (ps.map Prod.fst ++ [e]))
    (hroom : 48 + e.size ≤ e.extent) (hbody : e.body.take e.size = replicate e.size 0xff)
    (hst : e.status = Status.created.code)
    (hspace : endAddr v.firstPage (ps.map Prod.fst ++ [e]) < v.lastPage ∨ ps = []) :
    Inv v ⟨m, s.offset, s.given ++ [[]]⟩ (ps ++ [(e, [])]) := by
  have hidle : isPending (e, []) = false := by
    rw [isPending, hst]; rfl
  refine ⟨?_, ?_, ?_, ?_, ?_, ?_⟩
  · rw [map_append]; exact hchain
  · rw [map_append, h.given]; rfl
  · rw [map_append]
    rintro ⟨hend, hlen⟩
    rcases hspace with hlt | rfl
    · exact Nat.ne_of_lt hlt hend
    · exact absurd hlen (by simp)
  · intro q hq
    rcases mem_append.mp hq with hq | hq
    · exact h.progress q hq
    · rw [mem_singleton.mp hq]
      exact ⟨hroom, zero_le, hbody, .inl ⟨hst, rfl⟩⟩
  · rw [countP_append, countP_singleton, hidle]; exact h.single
  · rw [map_append, sum_append, map_singleton, sum_singleton, pendingLen, hidle]
    exact h.offset

section
variable (hi : v.initialized = true)
include hi

theorem Inv.mkbin (h : Inv v s ps) {strtol : List Byte → Strtol} {args : List CString}
    (hgood : Good v strtol s (.mkbin args)) : ∃ t out ps', Loader.mkbin v strtol s args = some (t, out) ∧
      Inv v t ps' := by
  have hsame : ∀ out, ∃ t out' ps', (some (s, out) : Result) = some (t, out') ∧ Inv v t ps' :=
    fun out => ⟨s, out, ps, rfl, h⟩
  match args, hgood with
  | [], _ => exact hsame _
  | [_], _ => exact hsame _
  | [_, _], _ => exact hsame _
  | name :: size :: exec :: _, hgood =>
    rcases h.search hi name with ⟨hsearch, -⟩ | ⟨pre, p, post, -, hsearch, -⟩
    · simp only [Loader.mkbin, hsearch]
      cases hsize : convert strtol size.bytes with
      | none => exact hsame _
      | some n =>
        cases hexec : convert strtol exec.bytes with
        | none => exact hsame _
        | some x =>
          simp only
          by_cases hx : x ≠ 0 ∧ x ≠ 1
          · rw [if_pos hx]; exact hsame _
          rw [if_neg hx]
          by_cases hbad : n = 0 ∨ filesizeMax < n
          · rw [createFile_refused (.inr (hbad.imp id .inl))]; exact hsame _
          have h0 : 0 < n := by omega
          have hmax : n ≤ filesizeMax := by omega
          have hx' : x = 0 ∨ x = 1 := by omega
          rcases hgood n hsize h0 hmax _ _ h.chain.layout with hfull | ⟨hroom, hspace⟩
          · rw [createFile_full h.chain hfull]; exact hsame _
          · have hle : endAddr v.firstPage (ps.map Prod.fst) + round n ≤ v.lastPage := by
              rcases hspace with hlt | ⟨-, heq⟩
              · exact hlt.le
              · exact heq.le
            obtain ⟨m', hnew, hchain⟩ := createFile_fits name n x .created hi h0 hmax hx' h.chain hle
            rw [hnew]
            have hbody : (replicate (round n - 48) (0xff : Byte)).take n = replicate n 0xff := by
              rw [take_replicate, min_eq_left (by omega)]
            have hspace' :
                endAddr v.firstPage (ps.map Prod.fst ++ [newEntry name n x .created h0 hmax hx']) < v.lastPage ∨
                  ps = [] := by
              rcases hspace with hlt | ⟨hnil, -⟩
              · left
                rw [endAddr_append]; exact hlt
              · right
                have hlen := congrArg List.length hnil
                rw [starts_length, length_map] at hlen
                exact length_eq_zero_iff.mp hlen
            exact ⟨_, _, _, rfl, h.append hchain hroom hbody rfl hspace'⟩
    · simp only [Loader.mkbin, hsearch]; exact hsame _

theorem Inv.removeOne (h : Inv v s ps) {name : CString}
    (hgood : ∀ file, fileSearch v s.flash name = some (some file) → isLoading s.flash file = false) :
    ∃ t out ps', Loader.removeOne v s name = some (t, out) ∧ Inv v t ps' := by
  unfold Loader.removeOne
  rcases h.search hi name with ⟨hsearch, hnone⟩ | ⟨pre, p, post, rfl, hsearch, hname, hpre⟩
  · rw [← visible_of_not h.notFull] at hnone
    have hmissing := h.chain.remove_missing hi hnone
    rw [hsearch, hmissing]; exact ⟨_, _, ps, rfl, h⟩
  · have hmem : p.1 ∈ (pre ++ p :: post).map Prod.fst := mem_map_of_mem (by simp)
    rw [← visible_of_not h.notFull] at hmem
    obtain ⟨m', hrun, hchain, hlt⟩ := h.chain.remove_kept hi h.notFull ⟨p.1, hmem, hname⟩
    have hkept : kept name ((pre ++ p :: post).map Prod.fst) = (pre ++ post).map Prod.fst := by
      rw [kept, map_append, map_cons, eraseP_append_right _ hpre, eraseP_cons_of_pos hname,
        map_append]
    rw [hkept] at hchain hlt
    have hpend : isPending p = false := h.stored.isLoading_eq ▸ hgood _ hsearch
    have hfit := h.chain.fits
    rw [hsearch, hrun]
    simp only [h.index hi]
    refine ⟨_, _, pre ++ post, rfl, hchain, ?_, fun hfull => ?_, ?_, ?_, ?_⟩
    · rw [h.given, eraseIdx_given]
    · exact absurd hfull.1 (Nat.ne_of_lt (lt_of_lt_of_le hlt hfit))
    · intro q hq
      refine h.progress q ?_
      rcases mem_append.mp hq with hq | hq
      · exact mem_append_left _ hq
      · exact mem_append_right _ (mem_cons_of_mem _ hq)
    · have hsingle := h.single
      rw [countP_append, countP_cons] at hsingle
      rw [countP_append]; omega
    · have hoff := h.offset
      simp only [map_append, map_cons, sum_append, sum_cons] at hoff ⊢
      rw [hoff, pendingLen, hpend]; simp

theorem Inv.removeAll : ∀ (names : List CString) {s : State} {ps : List Item}, Inv v s ps →
    RemovesSafely v s names → ∃ t out ps', Loader.removeAll v s names = some (t, out) ∧ Inv v t ps' := by
  intro names
  induction names with
  | nil =>
    intro s ps h _; exact ⟨s, [], ps, rfl, h⟩
  | cons name names ih =>
    intro s ps h hgood
    obtain ⟨t, out, ps', hone, h'⟩ := h.removeOne hi hgood.1
    obtain ⟨u, out', ps'', hall, h''⟩ := ih h' (hgood.2 t out hone)
    refine ⟨u, out ++ out', ps'', ?_, h''⟩
    unfold Loader.removeAll
    rw [hone]
    simp only [hall, map_some]

theorem Inv.fmtbin (h : Inv v s ps) (hgood : countLoading v s.flash = 0) :
    ∃ t out, Loader.fmtbin v s = some (t, out) ∧ Inv v t [] := by
  have hrun := format_eq hi s.flash
  have hoff := h.offset
  rw [(h.walk hi).2] at hgood
  rw [sum_pendingLen hgood] at hoff
  unfold Loader.fmtbin
  rw [hrun]
  exact ⟨_, _, rfl, chain_format hi hrun, rfl, by simp, by simp, zero_le, hoff⟩

end

/-! ## Runs -/

theorem Inv.step (hi : v.initialized = true) (h : Inv v s ps) {strtol : List Byte → Strtol} {c : Command}
    (hgood : Good v strtol s c) : ∃ t ps', Loader.step v strtol s c = some t ∧ Inv v t ps' := by
  cases c with
  | mkbin args =>
    obtain ⟨t, out, ps', hrun, h'⟩ := h.mkbin hi hgood
    exact ⟨t, ps', by simp only [Loader.step, hrun, map_some], h'⟩
  | ldbin args =>
    obtain ⟨t, out, ps', hrun, h', -⟩ := h.ldbin hi hgood
    exact ⟨t, ps', by simp only [Loader.step, hrun, map_some], h'⟩
  | rm args =>
    cases args with
    | nil => exact ⟨s, ps, rfl, h⟩
    | cons name names =>
      obtain ⟨t, out, ps', hrun, h'⟩ := Inv.removeAll hi (name :: names) h hgood
      exact ⟨t, ps', by simp only [Loader.step, Loader.rm, hrun, map_some], h'⟩
  | fmtbin =>
    obtain ⟨t, out, hrun, h'⟩ := h.fmtbin hi hgood
    exact ⟨t, [], by simp only [Loader.step, hrun, map_some], h'⟩

end

/-- In a run of commands that respect the protocol every loaded file holds the
chunks given for it, at most one file is being loaded, every such command
returns, and `ldbin` leaves the loaded files alone. -/
theorem loading_protocol (v : Volume) (hi : v.initialized = true) (strtol : List Byte → Strtol) (m m0 : Flash)
    (hformat : format v m = some m0) (t : State) (h : ReachVia (step v strtol) (Good v strtol) ⟨m0, 0, []⟩ t) :
    (∃ c, Layout v t.flash (files v t.flash) c) ∧ Complete v t ∧ countLoading v t.flash ≤ 1 ∧
      ∀ c, Good v strtol t c → ∃ u, step v strtol t c = some u ∧ ∀ args, c = .ldbin args → LoadedKept v t u := by
  have hinv : ∃ ps, Inv v t ps := by
    refine h.inv (fun t => ∃ ps, Inv v t ps) ⟨[], chain_format hi hformat, rfl, by simp, by simp, zero_le, rfl⟩ ?_
    intro t u c ht hgood hstep
    obtain ⟨ps, ht⟩ := ht
    obtain ⟨u', ps', hrun, hu⟩ := ht.step hi hgood
    rw [hstep] at hrun
    cases hrun; exact ⟨ps', hu⟩
  obtain ⟨ps, ht⟩ := hinv
  obtain ⟨hfiles, hcount⟩ := ht.walk hi
  refine ⟨⟨_, hfiles ▸ ht.chain.layout⟩, ht.complete hi, hcount ▸ ht.single, fun c hgood => ?_⟩
  obtain ⟨u, ps', hrun, -⟩ := ht.step hi hgood
  refine ⟨u, hrun, fun args hc => ?_⟩
  subst hc
  obtain ⟨u', out, ps'', hld, -, hkept⟩ := ht.ldbin hi hgood
  have heq : step v strtol t (.ldbin args) = some u' := by simp only [step, hld, map_some]
  rw [hrun] at heq
  cases heq
  exact hkept

/-! ## Files of six bytes -/

def decimal (str : List Byte) : Strtol :=
  if str ≠ [] ∧ str.all fun c => 48 ≤ c && c ≤ 57 then
    ⟨(str.foldl (fun n c => 10 * n + (c.toNat - 48)) 0 : Nat), false, some []⟩
  else ⟨0, false, none⟩

def zero : CString := ⟨[48], by decide⟩

def six : CString := ⟨[54], by decide⟩

def zeros : CString := ⟨[65, 65, 65, 65], by decide⟩

def start : State := ⟨blankFlash, 0, []⟩

def Takes (s : State) (name : CString) (file : Nat) : Prop :=
  fileSearch threePages s.flash name = some (some file) ∧ statusAt s.flash file ≠ Status.loaded.code ∧
    s.offset + 3 ≤ sizeAt s.flash file

instance (s : State) (name : CString) (file : Nat) : Decidable (Takes s name file) :=
  inferInstanceAs (Decidable (_ ∧ _))

theorem Takes.good {s : State} {name : CString} {file : Nat} (h : Takes s name file) :
    Good threePages decimal s (.ldbin [name, zeros]) := by
  refine ⟨[0, 0, 0], by decide, fun f hf => .inr ?_⟩
  rw [h.1] at hf
  cases hf
  exact h.2

/-- Two files are made, the first is loaded, the second gets its first chunk. -/
theorem loading_protocol_two_files : ∃ t u, ReachVia (step threePages decimal) (Good threePages decimal) start t ∧
    files threePages t.flash = [4096, 8192] ∧ statusAt t.flash 4096 = Status.loaded.code ∧ Complete threePages t ∧
    step threePages decimal t (.ldbin [fileB, zeros]) = some u ∧ LoadedKept threePages t u := by
  have hrun : ∃ s1 ∈ step threePages decimal start (.mkbin [fileA, six, zero]),
      (sizeAt s1.flash 4096 = 6 ∧ sizeAt s1.flash 8192 = 4294967295) ∧
      ∃ s2 ∈ step threePages decimal s1 (.mkbin [fileB, six, zero]), Takes s2 fileA 4096 ∧
      ∃ s3 ∈ step threePages decimal s2 (.ldbin [fileA, zeros]), Takes s3 fileA 4096 ∧
      ∃ t ∈ step threePages decimal s3 (.ldbin [fileA, zeros]), Takes t fileB 8192 ∧
        files threePages t.flash = [4096, 8192] ∧ statusAt t.flash 4096 = Status.loaded.code := by
    decide +kernel
  obtain ⟨s1, hs1, ⟨hsize, hblank⟩, s2, hs2, hg2, s3, hs3, hg3, t, ht, hgt, hfiles, hloaded⟩ := hrun
  have hmkbin : Good threePages decimal start (.mkbin [fileA, six, zero]) := by
    intro n hn _ _ fs c hl
    obtain ⟨rfl, rfl⟩ := hl.unique (chain_format rfl (format_blank rfl)).layout
    cases hn; exact .inr ⟨by decide, .inl (by decide)⟩
  have hmkbin' : Good threePages decimal s1 (.mkbin [fileB, six, zero]) := by
    intro n hn _ _ fs c hl
    cases hn
    refine .inr ⟨by decide, .inl ?_⟩
    cases fs with
    | nil => rw [← show 4096 = c from hl.extents]; decide
    | cons f fs =>
      obtain ⟨rfl, -, hrest⟩ := hl.extents
      rw [endOf, show threePages.firstPage = 4096 from rfl, hsize] at hrest
      cases fs with
      | nil => rw [← show 8192 = c from hrest]; decide
      | cons f fs =>
        obtain ⟨rfl, hplaced, -⟩ := hrest
        have hle := hplaced.size_le
        rw [show 4096 + Tinyfs.round 6 = 8192 from rfl, hblank] at hle
        exact absurd hle (by decide)
  have hreach : ReachVia (step threePages decimal) (Good threePages decimal) start t :=
    .next (.next (.next (.next .start hmkbin hs1) hmkbin' hs2) hg2.good hs3) hg3.good ht
  obtain ⟨-, hcomplete, -, hnext⟩ :=
    loading_protocol threePages rfl decimal blankFlash blankFlash (format_blank rfl) t hreach
  obtain ⟨u, hu, hkept⟩ := hnext _ hgt.good
  exact ⟨t, u, hreach, hfiles, hloaded, hcomplete, hu, hkept _ rfl⟩

/-- A file is removed while it is being loaded; the next one then starts in the
middle and is loaded without its first half. -/
theorem removal_keeps_offset : ∃ t ∈ runAll (step twoPages decimal) start
      [.mkbin [fileA, six, zero], .ldbin [fileA, zeros], .rm [fileA], .mkbin [fileB, six, zero], .ldbin [fileB, zeros]],
    ¬ Complete twoPages t := by
  have hrun : ∃ t ∈ runAll (step twoPages decimal) start
      [.mkbin [fileA, six, zero], .ldbin [fileA, zeros], .rm [fileA], .mkbin [fileB, six, zero], .ldbin [fileB, zeros]],
      files twoPages t.flash = [4096] ∧ statusAt t.flash 4096 = Status.loaded.code ∧ sizeAt t.flash 4096 = 6 ∧
        t.given = [[0, 0, 0]] := by
    decide +kernel
  obtain ⟨t, ht, hfiles, hst, hsize, hgiven⟩ := hrun
  refine ⟨t, ht, fun h => ?_⟩
  have hcontent := h 0 4096 (by rw [hfiles]; rfl) hst
  rw [hgiven, hsize] at hcontent
  have hlen := congrArg List.length (some.inj hcontent)
  rw [slice_length] at hlen
  exact absurd hlen (by decide)

end PipRiot.Loader
