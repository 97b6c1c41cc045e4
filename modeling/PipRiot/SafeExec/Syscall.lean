import Mathlib.Data.List.TakeWhile
import PipRiot.SafeExec.Layout
import PipRiot.Tinyfs.Layout

/-!
# The system calls of a child

`syscall_handler` runs in RIOT's partition on addresses that the child has put
into its saved context and onto its stack. A run alternates between the child,
which can do anything to its two writable blocks, and the handler. The functions
of the C library are parameters together with the bytes they read; the MPU only
turns accesses into faults and is left out.
-/

namespace PipRiot.SafeExec

open List

open Tinyfs (Volume CString Flash Entry Chain sizeAt fileSearch)

abbrev Mem := Addr → Byte

abbrev Word := BitVec 32

def flash (m : Mem) : Flash := fun x => m (BitVec.ofNat 32 x)

def nameAt (m : Mem) (a : Addr) : CString where
  bytes := (readBytes m a 32).takeWhile (· ≠ 0)
  nonzero := by
    intro h
    simpa using List.mem_takeWhile_imp h

/-! ## Devices and the C library -/

/-- The first value read from a device that can be read, and whether a value can be
written. -/
structure Board where
  read : Nat → Option (BitVec 16)
  write : Nat → BitVec 16 → Bool

namespace Board

variable (b : Board)

def getTemp : Word :=
  match b.read 5 with
  | none => 0
  | some v => v.signExtend 32

def getLed (pos : Word) : Word :=
  if 3 < pos.toNat then -1
  else
    match b.read pos.toNat with
    | none => -1
    | some v => v.signExtend 32

def setLed (pos val : Word) : Word :=
  if 3 < pos.toNat then -1
  else if 1 < val.toNat then -1
  else if b.write pos.toNat (val.setWidth 16) then 0
  else -1

end Board

/-- `vprintf` gives its result and the stores of its `%n` conversions, `strtol` its
value and what it stores through the end pointer. -/
structure Libc where
  vprintf : Addr → Addr → Mem → Word × List (Addr × List Byte)
  vprintfReads : Addr → Addr → Mem → Addr → Prop
  vprintf_local : ∀ fmt ap m m', (∀ x, vprintfReads fmt ap m x → m' x = m x) → vprintf fmt ap m' = vprintf fmt ap m
  strtol : Addr → Word → Mem → Word × Option Addr
  strtolReads : Addr → Word → Mem → Addr → Prop
  strtol_local : ∀ str base m m', (∀ x, strtolReads str base m x → m' x = m x) → strtol str base m' = strtol str base m
  isprint : Word → Word

/-! ## The handler -/

/-- The memory, the areas written through addresses of the child, and the status
once it has exited. -/
structure State where
  mem : Mem
  stores : List (Area 32)
  exited : Option Word

namespace State

def store (s : State) (a : Addr) (bs : List Byte) : State :=
  { s with mem := writeBytes s.mem a bs, stores := s.stores ++ [⟨a, bs.length⟩] }

def storeWord (s : State) (a : Addr) (v : Word) : State := s.store a (leBytes 4 v.toNat)

def storeAll (s : State) (ws : List (Addr × List Byte)) : State := ws.foldl (fun s w => s.store w.1 w.2) s

end State

inductive Call
  | exit (status : Word)
  | vprintf (format ap : Addr)
  | getTemp
  | isprint (character : Word)
  | strtol (nptr endptr : Addr) (base : Word)
  | getLed (pos : Word)
  | setLed (pos val : Word)
  | copyFile (name buf : Addr) (nbyte : Word)
  | getFileSize (name size : Addr)
  | memset (s : Addr) (c n : Word)
  | other
  deriving DecidableEq

def Call.decode (argv : Nat → Word) : Call :=
  match (argv 0).toNat with
  | 0 => .exit (argv 1)
  | 1 => .vprintf (argv 1) (argv 2)
  | 2 => .getTemp
  | 3 => .isprint (argv 1)
  | 4 => .strtol (argv 1) (argv 2) (argv 3)
  | 5 => .getLed (argv 1)
  | 6 => .setLed (argv 1) (argv 2)
  | 7 => .copyFile (argv 1) (argv 2) (argv 3)
  | 8 => .getFileSize (argv 1) (argv 2)
  | 9 => .memset (argv 1) (argv 2) (argv 3)
  | _ => .other

def Call.words : Call → Nat
  | .getTemp | .other => 1
  | .exit _ | .isprint _ | .getLed _ => 2
  | .vprintf _ _ | .setLed _ _ | .getFileSize _ _ => 3
  | .strtol _ _ _ | .copyFile _ _ _ | .memset _ _ _ => 4

def copyFrom (file : Nat) (buf : Addr) : Nat → Nat → State → State × Nat
  | i, 0, s => (s, i)
  | i, n + 1, s =>
    if i < sizeAt (flash s.mem) file then
      copyFrom file buf (i + 1) n (s.store (buf + BitVec.ofNat 32 i) [flash s.mem (file + 48 + i)])
    else (s, i)

def copyFile (v : Volume) (name buf : Addr) (nbyte : Word) (s : State) : Option (State × Word) :=
  match fileSearch v (flash s.mem) (nameAt s.mem name) with
  | none => none
  | some none => some (s, -1)
  | some (some file) =>
    some ((copyFrom file buf 0 nbyte.toNat s).1, BitVec.ofNat 32 (copyFrom file buf 0 nbyte.toNat s).2)

def getFileSize (v : Volume) (name : Addr) (m : Mem) : Option (Word × Word) :=
  match fileSearch v (flash m) (nameAt m name) with
  | none => none
  | some none => some (-1, 0)
  | some (some file) => some (0, BitVec.ofNat 32 (sizeAt (flash m) file))

def perform (v : Volume) (L : Libc) (b : Board) (argv : Addr) (s : State) : Call → Option State
  | .exit status => some { s with exited := some status }
  | .vprintf format ap =>
    let r := L.vprintf format ap s.mem
    some ((s.storeAll r.2).storeWord argv r.1)
  | .getTemp => some (s.storeWord argv b.getTemp)
  | .isprint c => some (s.storeWord argv (L.isprint c))
  | .strtol nptr endptr base =>
    let r := L.strtol nptr base s.mem
    some ((s.storeAll (if endptr = 0 then [] else r.2.toList.map fun e => (endptr, leBytes 4 e.toNat))).storeWord argv
      r.1)
  | .getLed pos => some (s.storeWord argv (b.getLed pos))
  | .setLed pos val => some (s.storeWord argv (b.setLed pos val))
  | .copyFile name buf nbyte => (copyFile v name buf nbyte s).map fun r => r.1.storeWord argv r.2
  | .getFileSize name size => (getFileSize v name s.mem).map fun r => (s.storeWord size r.2).storeWord argv r.1
  | .memset p c n => some ((s.store p (replicate n.toNat (c.setWidth 8))).storeWord argv p)
  | .other => some s

namespace Setup

variable (S : Setup)

/-- The block that is cut for the stack and the VIDT reaches up to the interface. -/
def stackBlock : Area 32 := .between S.childStk S.childItf

def Writable (x : Addr) : Prop := S.stackBlock.Mem x ∨ S.block1.Mem x

instance (x : Addr) : Decidable (S.Writable x) := inferInstanceAs (Decidable (_ ∨ _))

def Owned (x : Addr) : Prop := S.Writable x ∨ S.flashBlock.Mem x

instance (x : Addr) : Decidable (S.Owned x) := inferInstanceAs (Decidable (_ ∨ _))

end Setup

def InVolume (v : Volume) (x : Addr) : Prop := v.firstPage ≤ x.toNat ∧ x.toNat < v.lastPage

instance (v : Volume) (x : Addr) : Decidable (InVolume v x) := inferInstanceAs (Decidable (_ ∧ _))

/-- `spOff` is the place of the stack pointer in `basicContext_t`. -/
structure Config where
  setup : Setup
  volume : Volume
  libc : Libc
  spOff : Nat
  spOff_fits : spOff + 4 ≤ setup.ctxSize
  ctx_fits : 212 + setup.ctxSize ≤ 8192
  apart : ∀ x, setup.Writable x → ¬ InVolume volume x

inductive Event
  | child (program : Mem → Mem)
  | syscall (b : Board)

namespace Config

variable (C : Config)

def argv (m : Mem) : Addr := readWord m (C.setup.childCtx + BitVec.ofNat 32 C.spOff)

def call (m : Mem) : Call := .decode fun k => readWord m (C.argv m + BitVec.ofNat 32 (4 * k))

def syscallHandler (b : Board) (s : State) : Option State :=
  perform C.volume C.libc b (C.argv s.mem) s (C.call s.mem)

def view (m : Mem) : Mem := fun x => if C.setup.Owned x then m x else 0

def step (s : State) (e : Event) : Option State :=
  if s.exited.isSome then some s
  else
    match e with
    | .child program => some { s with mem := fun x => if C.setup.Writable x then program (C.view s.mem) x else s.mem x }
    | .syscall b => C.syscallHandler b s

/-! ## Confinement -/

def Readable (x : Addr) : Prop := C.setup.Owned x ∨ InVolume C.volume x

instance (x : Addr) : Decidable (C.Readable x) := inferInstanceAs (Decidable (_ ∨ _))

/-- Outside the writable blocks nothing changes from `s` to `t`, and the handler
stores nothing there. -/
structure Kept (s t : State) : Prop where
  mem : ∀ x, ¬ C.setup.Writable x → t.mem x = s.mem x
  stores : ∀ A ∈ t.stores, A ∈ s.stores ∨ ∀ x, A.Mem x → C.setup.Writable x

structure Agree (s s' : State) : Prop where
  mem : ∀ x, C.Readable x → s'.mem x = s.mem x
  exited : s'.exited = s.exited

end Config

def Range (P : Addr → Prop) (a : Addr) (n : Nat) : Prop := ∀ k < n, P (a + BitVec.ofNat 32 k)

instance (P : Addr → Prop) [DecidablePred P] (a : Addr) (n : Nat) : Decidable (Range P a n) :=
  inferInstanceAs (Decidable (∀ k < n, _))

namespace Config

variable (C : Config)

def NameReadable (m : Mem) (a : Addr) : Prop :=
  ∀ k < 32, (∀ j < k, m (a + BitVec.ofNat 32 j) ≠ 0) → C.Readable (a + BitVec.ofNat 32 k)

def CallConfined (m : Mem) (argv : Addr) : Call → Prop
  | .exit _ | .other => True
  | .getTemp | .isprint _ | .getLed _ | .setLed _ _ => Range C.setup.Writable argv 4
  | .vprintf format ap => Range C.setup.Writable argv 4 ∧ (∀ x, C.libc.vprintfReads format ap m x → C.Readable x) ∧
      ∀ w ∈ (C.libc.vprintf format ap m).2, Range C.setup.Writable w.1 w.2.length
  | .strtol nptr endptr base => Range C.setup.Writable argv 4 ∧
      (∀ x, C.libc.strtolReads nptr base m x → C.Readable x) ∧ (endptr ≠ 0 → Range C.setup.Writable endptr 4)
  | .copyFile name buf nbyte => Range C.setup.Writable argv 4 ∧ C.NameReadable m name ∧
      ∀ file, fileSearch C.volume (flash m) (nameAt m name) = some (some file) →
        Range C.setup.Writable buf (min nbyte.toNat (sizeAt (flash m) file)) ∧
          file + 48 + min nbyte.toNat (sizeAt (flash m) file) ≤ C.volume.lastPage
  | .getFileSize name size => Range C.setup.Writable argv 4 ∧ C.NameReadable m name ∧ Range C.setup.Writable size 4
  | .memset p _ n => Range C.setup.Writable argv 4 ∧ Range C.setup.Writable p n.toNat

/-- The words of the frame that are read, and what is accessed through the arguments,
are the child's. -/
def Good (s : State) : Event → Prop
  | .child _ => True
  | .syscall _ => s.exited.isSome ∨
      (Range C.Readable (C.argv s.mem) (4 * (C.call s.mem).words) ∧ C.CallConfined s.mem (C.argv s.mem) (C.call s.mem))

end Config

theorem Range.mem {P : Addr → Prop} {a : Addr} {n : Nat} (h : Range P a n) {x : Addr} (hx : dist a x < n) : P x := by
  have := h (dist a x) hx
  rwa [add_dist] at this

theorem Call.words_pos (c : Call) : 0 < c.words := by
  cases c <;> simp [words]

theorem Call.decode_congr {w w' : Nat → Word} (h : ∀ k < (decode w).words, w' k = w k) : decode w' = decode w := by
  have h0 : w' 0 = w 0 := h 0 (words_pos _)
  revert h
  unfold decode
  rw [h0]
  split <;> intro h <;> simp only [words] at h <;> simp [h]

namespace Config

variable {C : Config} {s s' t t' u u' : State}

/-! ## Two runs side by side -/

theorem Kept.refl (s : State) : C.Kept s s := ⟨fun _ _ => rfl, fun _ h => .inl h⟩

theorem Kept.trans (h : C.Kept s t) (h' : C.Kept t u) : C.Kept s u where
  mem x hx := (h'.mem x hx).trans (h.mem x hx)
  stores A hA := by
    rcases h'.stores A hA with hA | hA
    · exact h.stores A hA
    · exact .inr hA

structure Paired (C : Config) (s s' t t' : State) : Prop where
  kept : C.Kept s t
  agree : C.Agree t t'

theorem Paired.trans (h : C.Paired s s' t t') (h' : C.Paired t t' u u') : C.Paired s s' u u' :=
  ⟨h.kept.trans h'.kept, h'.agree⟩

theorem Paired.store (h : C.Agree s s') {a : Addr} {bs : List Byte} (hw : Range C.setup.Writable a bs.length) :
    C.Paired s s' (s.store a bs) (s'.store a bs) := by
  refine ⟨⟨?_, ?_⟩, ?_, h.exited⟩
  · intro x hx
    apply writeBytes_of_le
    apply not_lt.mp
    intro hlt; exact hx (hw.mem hlt)
  · intro A hA
    rcases mem_append.mp hA with hA | hA
    · exact .inl hA
    · rw [mem_singleton.mp hA]; exact .inr fun x hx => hw.mem hx
  · intro x hx
    exact writeBytes_congr a bs fun _ => h.mem x hx

theorem Paired.storeWord (h : C.Agree s s') {a : Addr} (v : Word) (hw : Range C.setup.Writable a 4) :
    C.Paired s s' (s.storeWord a v) (s'.storeWord a v) :=
  .store h (by rwa [leBytes_length])

theorem Paired.storeAll (ws : List (Addr × List Byte)) (hw : ∀ w ∈ ws, Range C.setup.Writable w.1 w.2.length) :
    ∀ {s s' : State}, C.Agree s s' → C.Paired s s' (s.storeAll ws) (s'.storeAll ws) := by
  induction ws with
  | nil =>
    intro s s' h; exact ⟨.refl s, h⟩
  | cons w ws ih =>
    intro s s' h
    have hstore := Paired.store h (hw w (mem_cons_self ..))
    exact hstore.trans (ih (fun w' h' => hw w' (mem_cons_of_mem w h')) hstore.agree)

/-! ## What is read -/

theorem Agree.readWord (h : C.Agree s s') {a : Addr} (hr : Range C.Readable a 4) :
    readWord s'.mem a = readWord s.mem a := by
  unfold PipRiot.readWord
  rw [readBytes_congr (fun x hx => h.mem x (hr.mem hx)) (by decide)]

theorem argv_readable (C : Config) : Range C.Readable (C.setup.childCtx + BitVec.ofNat 32 C.spOff) 4 := by
  intro k hk
  have hctx := C.spOff_fits
  have hfits := C.ctx_fits
  have hmem : C.setup.ctx.Mem (C.setup.childCtx + BitVec.ofNat 32 C.spOff + BitVec.ofNat 32 k) := by
    rw [BitVec.add_assoc, ← BitVec.ofNat_add]
    show dist C.setup.childCtx _ < C.setup.ctxSize
    rw [dist_add _ (by omega)]; omega
  exact .inl (.inl (.inr (Setup.block1_within C.ctx_fits C.setup.ctx (by simp) _ hmem)))

theorem Agree.argv (h : C.Agree s s') : C.argv s'.mem = C.argv s.mem := h.readWord C.argv_readable

theorem Agree.call (h : C.Agree s s') (hr : Range C.Readable (C.argv s.mem) (4 * (C.call s.mem).words)) :
    C.call s'.mem = C.call s.mem := by
  apply Call.decode_congr
  intro k hk
  rw [h.argv]
  apply h.readWord
  intro j hj
  rw [BitVec.add_assoc, ← BitVec.ofNat_add]
  apply hr
  unfold Config.call
  omega

theorem takeWhile_congr (l l' : List Byte) (hl : l'.length = l.length)
    (h : ∀ k (hk : k < l.length), (∀ j (hj : j < k), l[j] ≠ 0) → l'[k] = l[k]) :
    l'.takeWhile (· ≠ 0) = l.takeWhile (· ≠ 0) := by
  induction l generalizing l' with
  | nil => rw [length_eq_zero_iff.mp hl]
  | cons c l ih =>
    obtain ⟨c', l', rfl⟩ := exists_cons_of_length_eq_add_one hl
    have hc : c' = c := h 0 (by simp) fun j hj => absurd hj (Nat.not_lt_zero j)
    subst hc
    by_cases h0 : c' = 0
    · simp [h0]
    · have htail := ih l' (by simpa using hl) fun k hk hj => by
        have := h (k + 1) (by simpa using hk) fun j hj' => by
          cases j with
          | zero => exact h0
          | succ j => exact hj j (by omega)
        simpa using this
      simp only [takeWhile_cons, htail]

theorem Agree.nameAt (h : C.Agree s s') {a : Addr} (hr : C.NameReadable s.mem a) :
    nameAt s'.mem a = nameAt s.mem a := by
  have hbytes : (readBytes s'.mem a 32).takeWhile (· ≠ 0) = (readBytes s.mem a 32).takeWhile (· ≠ 0) := by
    apply takeWhile_congr _ _ (by simp)
    intro k hk hj
    simp only [readBytes, getElem_map, getElem_range] at hj ⊢
    exact h.mem _ (hr k hk hj)
  unfold SafeExec.nameAt
  simp only [hbytes]

theorem Agree.flash (h : C.Agree s s') {x : Nat} (h1 : C.volume.firstPage ≤ x) (h2 : x < C.volume.lastPage) :
    flash s'.mem x = flash s.mem x := by
  have hlast := C.volume.last_lt
  refine h.mem _ (.inr ?_)
  unfold InVolume
  rw [BitVec.toNat_ofNat, Nat.mod_eq_of_lt (by omega)]
  exact ⟨h1, h2⟩

theorem Kept.flash (h : C.Kept s t) {x : Nat} (h1 : C.volume.firstPage ≤ x) (h2 : x < C.volume.lastPage) :
    flash t.mem x = flash s.mem x := by
  have hlast := C.volume.last_lt
  refine h.mem _ fun hw => C.apart _ hw ?_
  unfold InVolume
  rw [BitVec.toNat_ofNat, Nat.mod_eq_of_lt (by omega)]
  exact ⟨h1, h2⟩

/-! ## The calls -/

section
variable {file : Nat}

theorem copyFrom_paired (hfirst : C.volume.firstPage ≤ file) (hfile : file + 48 ≤ C.volume.lastPage)
    (buf : Addr) (z : Nat) :
    ∀ (n i : Nat) {s s' : State}, C.Agree s s' → sizeAt (SafeExec.flash s.mem) file = z →
      (∀ k, i ≤ k → k < i + n → k < z →
        C.setup.Writable (buf + BitVec.ofNat 32 k) ∧ file + 48 + k < C.volume.lastPage) →
      C.Paired s s' (copyFrom file buf i n s).1 (copyFrom file buf i n s').1 ∧
        (copyFrom file buf i n s').2 = (copyFrom file buf i n s).2 := by
  intro n
  induction n with
  | zero =>
    intro i s s' h _ _; exact ⟨⟨.refl s, h⟩, rfl⟩
  | succ n ih =>
    intro i s s' h hz hin
    have hz' : sizeAt (SafeExec.flash s'.mem) file = z := by
      rw [← hz]
      exact Tinyfs.word_congr fun x h1 h2 => h.flash (by omega) (by omega)
    unfold copyFrom
    rw [hz, hz']
    by_cases hi : i < z
    · obtain ⟨hw, hlast⟩ := hin i (Nat.le_refl i) (by omega) hi
      have hbyte : Range C.setup.Writable (buf + BitVec.ofNat 32 i) [SafeExec.flash s.mem (file + 48 + i)].length := by
        intro k hk
        rw [Nat.lt_one_iff.mp hk, BitVec.add_zero]; exact hw
      have hstore := Paired.store h hbyte
      have hsize : sizeAt (SafeExec.flash (s.store (buf + BitVec.ofNat 32 i)
          [SafeExec.flash s.mem (file + 48 + i)]).mem) file = z := by
        rw [← hz]
        exact Tinyfs.word_congr fun x h1 h2 => hstore.kept.flash (by omega) (by omega)
      rw [if_pos hi, if_pos hi, h.flash (by omega) hlast]
      obtain ⟨hp, hres⟩ := ih (i + 1) hstore.agree hsize fun k h1 h2 => hin k (by omega) (by omega)
      exact ⟨hstore.trans hp, hres⟩
    · rw [if_neg hi, if_neg hi]; exact ⟨⟨.refl s, h⟩, rfl⟩

end

section
variable {es : List Entry} (hc : Chain C.volume (flash s.mem) es) (h : C.Agree s s')

include hc h

theorem search_agree {name : Addr} (hn : C.NameReadable s.mem name) :
    ∃ r, fileSearch C.volume (SafeExec.flash s.mem) (nameAt s.mem name) = some r ∧
      fileSearch C.volume (SafeExec.flash s'.mem) (nameAt s'.mem name) = some r ∧
      ∀ f, r = some f → C.volume.firstPage ≤ f ∧ f + 48 ≤ C.volume.lastPage := by
  obtain ⟨r, hr, hmem, hall⟩ := hc.search_spec (nameAt s.mem name)
  refine ⟨r, hr, ?_, ?_⟩
  · rw [h.nameAt hn]
    exact hall _ (hc.congr fun x h1 h2 => h.flash h1 h2)
  · intro f hf
    have hplaced := hc.layout.extents.placed (hmem f hf)
    have hroom := hplaced.room
    have hinside := hplaced.inside
    exact ⟨(Tinyfs.starts_nodup es C.volume.firstPage).1 f (hmem f hf), by omega⟩

theorem perform_paired (b : Board) {argv : Addr} {call : Call} (hconf : C.CallConfined s.mem argv call) :
    ∃ t t', perform C.volume C.libc b argv s call = some t ∧ perform C.volume C.libc b argv s' call = some t' ∧
      C.Paired s s' t t' := by
  -- all calls but the first and the last end with the store of the result
  have hresult : ∀ {t t' : State} (v : Word), C.Paired s s' t t' → Range C.setup.Writable argv 4 →
      C.Paired s s' (t.storeWord argv v) (t'.storeWord argv v) :=
    fun v hp hw => hp.trans (.storeWord hp.agree v hw)
  have hstart : C.Paired s s' s s' := ⟨.refl s, h⟩
  cases call with
  | exit status => exact ⟨_, _, rfl, rfl, ⟨fun _ _ => rfl, fun _ hA => .inl hA⟩, h.mem, rfl⟩
  | other => exact ⟨_, _, rfl, rfl, hstart⟩
  | getTemp | isprint c | getLed pos | setLed pos val => exact ⟨_, _, rfl, rfl, hresult _ hstart hconf⟩
  | vprintf format ap =>
    obtain ⟨hw, hreads, hstores⟩ := hconf
    have heq := C.libc.vprintf_local format ap s.mem s'.mem fun x hx => h.mem x (hreads x hx)
    refine ⟨_, _, rfl, rfl, ?_⟩
    rw [heq]
    exact hresult _ (.storeAll _ hstores h) hw
  | strtol nptr endptr base =>
    obtain ⟨hw, hreads, hend⟩ := hconf
    have heq := C.libc.strtol_local nptr base s.mem s'.mem fun x hx => h.mem x (hreads x hx)
    refine ⟨_, _, rfl, rfl, ?_⟩
    rw [heq]
    refine hresult _ (.storeAll _ ?_ h) hw
    intro w hmem
    split at hmem
    · cases hmem
    · rename_i hne
      obtain ⟨e, -, rfl⟩ := mem_map.mp hmem
      exact hend hne
  | copyFile name buf nbyte =>
    obtain ⟨hw, hname, hfile⟩ := hconf
    obtain ⟨r, hr, hr', hplace⟩ := search_agree hc h hname
    cases r with
    | none =>
      refine ⟨s.storeWord argv (-1), s'.storeWord argv (-1), ?_, ?_, hresult _ hstart hw⟩
      · simp only [perform, copyFile, hr, Option.map_some]
      · simp only [perform, copyFile, hr', Option.map_some]
    | some file =>
      obtain ⟨hfirst, hlast⟩ := hplace file rfl
      obtain ⟨hbuf, hcontent⟩ := hfile file hr
      obtain ⟨hp, hres⟩ := copyFrom_paired hfirst hlast buf _ nbyte.toNat 0 h rfl fun k _ h1 h2 =>
        ⟨hbuf k (by omega), by omega⟩
      refine ⟨(copyFrom file buf 0 nbyte.toNat s).1.storeWord argv
        (BitVec.ofNat 32 (copyFrom file buf 0 nbyte.toNat s).2),
        (copyFrom file buf 0 nbyte.toNat s').1.storeWord argv (BitVec.ofNat 32 (copyFrom file buf 0 nbyte.toNat s').2),
        ?_, ?_, ?_⟩
      · simp only [perform, copyFile, hr, Option.map_some]
      · simp only [perform, copyFile, hr', Option.map_some]
      · rw [hres]; exact hresult _ hp hw
  | getFileSize name size =>
    obtain ⟨hw, hname, hsize⟩ := hconf
    obtain ⟨r, hr, hr', hplace⟩ := search_agree hc h hname
    have hstore : ∀ v : Word, C.Paired s s' (s.storeWord size v) (s'.storeWord size v) := fun v => .storeWord h v hsize
    cases r with
    | none =>
      refine ⟨(s.storeWord size 0).storeWord argv (-1), (s'.storeWord size 0).storeWord argv (-1), ?_, ?_,
        hresult _ (hstore 0) hw⟩
      · simp only [perform, getFileSize, hr, Option.map_some]
      · simp only [perform, getFileSize, hr', Option.map_some]
    | some file =>
      obtain ⟨hfirst, hlast⟩ := hplace file rfl
      have heq : sizeAt (SafeExec.flash s'.mem) file = sizeAt (SafeExec.flash s.mem) file :=
        Tinyfs.word_congr fun x h1 h2 => h.flash (by omega) (by omega)
      refine ⟨(s.storeWord size (BitVec.ofNat 32 (sizeAt (SafeExec.flash s.mem) file))).storeWord argv 0,
        (s'.storeWord size (BitVec.ofNat 32 (sizeAt (SafeExec.flash s.mem) file))).storeWord argv 0, ?_, ?_,
        hresult _ (hstore _) hw⟩
      · simp only [perform, getFileSize, hr, Option.map_some]
      · simp only [perform, getFileSize, hr', Option.map_some, heq]
  | memset p c n =>
    obtain ⟨hw, hfill⟩ := hconf
    refine ⟨_, _, rfl, rfl, hresult _ (.store h ?_) hw⟩
    rwa [length_replicate]

end

/-! ## Runs -/

theorem child_paired (h : C.Agree s s') (program : Mem → Mem) :
    C.Paired s s' { s with mem := fun x => if C.setup.Writable x then program (C.view s.mem) x else s.mem x }
      { s' with mem := fun x => if C.setup.Writable x then program (C.view s'.mem) x else s'.mem x } := by
  have hview : C.view s'.mem = C.view s.mem := by
    funext x
    unfold view
    split
    · rename_i hx
      exact h.mem x (.inl hx)
    · rfl
  refine ⟨⟨fun x hx => if_neg hx, fun A hA => .inl hA⟩, fun x hx => ?_, h.exited⟩
  simp only [hview, h.mem x hx]

theorem step_paired {es : List Entry} (hc : Chain C.volume (SafeExec.flash s.mem) es) (h : C.Agree s s') {e : Event}
    (hgood : C.Good s e) : ∃ t t', C.step s e = some t ∧ C.step s' e = some t' ∧ C.Paired s s' t t' := by
  unfold step
  by_cases hex : s.exited.isSome = true
  · rw [if_pos hex, if_pos (by rwa [h.exited])]
    exact ⟨s, s', rfl, rfl, .refl s, h⟩
  · rw [if_neg hex, if_neg (by rwa [h.exited])]
    cases e with
    | child program => exact ⟨_, _, rfl, rfl, child_paired h program⟩
    | syscall b =>
      obtain ⟨hframe, hconf⟩ := hgood.resolve_left hex
      unfold syscallHandler
      rw [h.argv, h.call hframe]; exact perform_paired hc h b hconf

end Config

/-- A child whose system calls all pass addresses of its own stays confined: the
memory outside its writable blocks does not change, the handler stores nothing
there, and what the child has in its blocks depends only on them and the files. -/
theorem child_confined (C : Config) (s s' : State) (es : List Entry) (hchain : Chain C.volume (flash s.mem) es)
    (events : List Event) (hgood : AllGood C.step C.Good s events) (hagree : C.Agree s s') :
    ∃ t t', runAll C.step s events = some t ∧ runAll C.step s' events = some t' ∧ C.Kept s t ∧ C.Agree t t' := by
  have hstep : ∀ t t' e, C.Kept s t ∧ C.Agree t t' → C.Good t e →
      ∃ u u', C.step t e = some u ∧ C.step t' e = some u' ∧ C.Kept s u ∧ C.Agree u u' := by
    intro t t' e hR hg
    have hc : Chain C.volume (flash t.mem) es := hchain.congr fun x h1 h2 => hR.1.flash h1 h2
    obtain ⟨u, u', hu, hu', hp⟩ := Config.step_paired hc hR.2 hg
    exact ⟨u, u', hu, hu', hR.1.trans hp.kept, hp.agree⟩
  exact AllGood.lockstep hstep events hgood ⟨.refl s, hagree⟩

/-! ## A child that clears four bytes -/

def sampleChild : Setup := ⟨0x20001000, 0x1000, 100, 76⟩

theorem sampleChild_apart (x : Addr) (hx : sampleChild.Writable x) : ¬ InVolume Tinyfs.twoPages x := by
  have h0 : sampleChild.stackBlock = ⟨0x20001800, 2048⟩ := by decide
  have h1 : sampleChild.block1 = ⟨0x20002000, 8192⟩ := by decide
  intro hv
  rw [Setup.Writable, h0, h1] at hx
  simp only [Area.Mem, dist] at hx
  simp only [InVolume, Tinyfs.twoPages] at hv
  bv_omega

def sampleConfig : Config where
  setup := sampleChild
  volume := Tinyfs.twoPages
  libc :=
    { vprintf := fun _ _ _ => (0, []), vprintfReads := fun _ _ _ _ => False, vprintf_local := fun _ _ _ _ _ => rfl
      strtol := fun _ _ _ => (0, none), strtolReads := fun _ _ _ _ => False, strtol_local := fun _ _ _ _ _ => rfl
      isprint := fun _ => 0 }
  spOff := 0
  spOff_fits := by decide
  ctx_fits := by decide
  apart := sampleChild_apart

def clearWord (p : Addr) : Mem :=
  writeBytes (writeBytes (fun _ => 0) sampleChild.childCtx (leBytes 4 sampleChild.childStk.toNat)) sampleChild.childStk
    ([9, p.toNat, 0, 4].flatMap (leBytes 4))

def clearing (p : Addr) (m : Mem) : Mem := fun x => if sampleChild.Writable x then clearWord p x else m x

def sampleBoard : Board := ⟨fun _ => none, fun _ _ => false⟩

theorem sample_memory : ∃ m : Mem, Chain sampleConfig.volume (flash m) [Tinyfs.entryA] := by
  obtain ⟨m, -, hc⟩ := Tinyfs.create_fileA
  refine ⟨fun x => m x.toNat, hc.congr fun x _ hx => ?_⟩
  have hlt : x < 12288 := hx
  rw [flash, BitVec.toNat_ofNat, Nat.mod_eq_of_lt (by omega)]

theorem readWord_child (C : Config) (m p : Mem) {a : Addr} (h : Range C.setup.Writable a 4) :
    readWord (fun x => if C.setup.Writable x then p x else m x) a = readWord p a := by
  unfold readWord
  rw [readBytes_congr (fun x hx => if_pos (h.mem hx)) (by decide)]

theorem sample_call {frame m m' : Mem} {c : Call} (hm : m' = fun x => if sampleChild.Writable x then frame x else m x)
    (hsp : readWord frame sampleChild.childCtx = sampleChild.childStk)
    (hc : Call.decode (fun k => readWord frame (sampleChild.childStk + BitVec.ofNat 32 (4 * k))) = c)
    (hw : c.words ≤ 4) : sampleConfig.argv m' = sampleChild.childStk ∧ sampleConfig.call m' = c := by
  have hframe : ∀ k < 4, Range sampleChild.Writable (sampleChild.childStk + BitVec.ofNat 32 (4 * k)) 4 := by decide
  have hargv : sampleConfig.argv m' = sampleChild.childStk :=
    hm ▸ (readWord_child sampleConfig m frame (by decide)).trans hsp
  refine ⟨hargv, ?_⟩
  rw [Config.call, hargv, ← hc]
  apply Call.decode_congr
  rw [hc, hm]
  exact fun k hk => readWord_child sampleConfig m _ (hframe k (lt_of_lt_of_le hk hw))

/-- Two memories that differ in a word of RIOT. -/
theorem child_confined_sample : ∃ m m' : Mem, Chain sampleConfig.volume (flash m) [Tinyfs.entryA] ∧
    m' 0x20000ffc ≠ m 0x20000ffc ∧
    ∃ t t', runAll sampleConfig.step ⟨m, [], none⟩
      [.child fun _ => clearWord 0x20001d00, .syscall sampleBoard] = some t ∧
      runAll sampleConfig.step ⟨m', [], none⟩ [.child fun _ => clearWord 0x20001d00, .syscall sampleBoard] = some t' ∧
      sampleConfig.Kept ⟨m, [], none⟩ t ∧ sampleConfig.Agree t t' := by
  obtain ⟨m, hc⟩ := sample_memory
  refine ⟨m, fun x => if sampleConfig.Readable x then m x else ~~~(m x), hc, ?_,
    child_confined sampleConfig ⟨m, [], none⟩ _ _ hc _ ⟨trivial, ?_⟩ ⟨fun x hx => if_pos hx, rfl⟩⟩
  · show (if sampleConfig.Readable 0x20000ffc then m 0x20000ffc else ~~~(m 0x20000ffc)) ≠ m 0x20000ffc
    rw [if_neg (by decide)]
    bv_omega
  · intro t ht
    obtain ⟨hargv, hcall⟩ := @sample_call _ m (clearing 0x20001d00 m) (.memset 0x20001d00 0 4) rfl (by decide)
      (by decide) (by decide)
    have hmem : t.mem = clearing 0x20001d00 m := congrArg State.mem (Option.some.inj ht).symm
    refine ⟨.inr ?_, fun _ _ => trivial⟩
    rw [hmem, hargv, hcall]; exact ⟨by decide, by decide, by decide⟩

-- the word below the RAM that is left over belongs to RIOT
theorem memset_reaches_riot : ∃ m : Mem, Chain sampleConfig.volume (flash m) [Tinyfs.entryA] ∧
    ∃ t, runAll sampleConfig.step ⟨m, [], none⟩ [.child fun _ => clearWord 0x20000ffc, .syscall sampleBoard] = some t ∧
      ¬ sampleConfig.Kept ⟨m, [], none⟩ t := by
  obtain ⟨m, hc⟩ := sample_memory
  obtain ⟨hargv, hcall⟩ :=
    @sample_call _ m (clearing 0x20000ffc m) (.memset 0x20000ffc 0 4) rfl (by decide) (by decide) (by decide)
  have hrun : sampleConfig.step ⟨clearing 0x20000ffc m, [], none⟩ (.syscall sampleBoard) =
      some (((⟨clearing 0x20000ffc m, [], none⟩ : State).store 0x20000ffc (replicate 4 0)).storeWord
        sampleChild.childStk 0x20000ffc) := by
    simp only [Config.step, Option.isSome_none, Bool.false_eq_true, if_false, Config.syscallHandler, hargv, hcall]
    rfl
  refine ⟨m, hc, ((⟨clearing 0x20000ffc m, [], none⟩ : State).store 0x20000ffc (replicate 4 0)).storeWord
    sampleChild.childStk 0x20000ffc, ?_, ?_⟩
  · rw [runAll_cons (t := ⟨clearing 0x20000ffc m, [], none⟩) rfl, runAll_cons hrun, runAll]
  · intro h
    have hstore := h.stores ⟨0x20000ffc, 4⟩ (mem_append_left _ (mem_append_right _ (mem_singleton.mpr rfl)))
    rcases hstore with hold | hin
    · cases hold
    · exact absurd (hin 0x20000ffc (by decide)) (by decide)

end PipRiot.SafeExec
