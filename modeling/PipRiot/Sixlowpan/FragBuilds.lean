import PipRiot.Sixlowpan.FragRb

/-!
# The reassembly buffer in builds that forward fragments

`_rbuf_add` returns the index of an entry or a negative code in one variable. With minimal
forwarding or selective fragment recovery (SFR) the success code 0 of a helper takes the
place of the index.
-/

namespace PipRiot.Sixlowpan

structure Build extends FragConfig where
  -- `MODULE_GNRC_SIXLOWPAN_FRAG`, `_FRAG_MINFWD` and `_FRAG_SFR`
  frag : Bool
  minfwd : Bool
  sfr : Bool

namespace Frame

variable (f : Frame)

def isRfrag : Bool := f.byte 0 &&& 0xfe = 0xe8

def rfragSize : Nat := ((f.byte 2).toNat * 256 + (f.byte 3).toNat) % 1024

def rfragOffset : Nat := (f.byte 4).toNat * 256 + (f.byte 5).toNat

/-- The offset that is handed over with the frame, 0 for the sequence number 0. -/
def start : Nat := if f.isRfrag then if f.byte 2 &&& 0x7c = 0 then 0 else f.rfragOffset else f.offset

def content : Nat := if f.isRfrag then 6 else f.payload

/-- What of a key a fragment tells: for an RFRAG not the size. -/
def told (k : Key) : Key := if f.isRfrag then { k with size := 0 } else k

/-- What identifies the datagram, and the size of the fragment. -/
def fragment (b : Build) (f : Frame) : Option (Key × Nat) :=
  if b.frag ∧ (f.isFrag1 ∨ f.isFragN) then
    if f.fragSize b.toFragConfig = 0 then none else some (f.key, f.fragSize b.toFragConfig)
  else if b.sfr ∧ f.isRfrag then
    some (⟨f.src, f.dst, (f.byte 1).toNat, if f.start = 0 then f.rfragOffset else 0⟩, f.rfragSize)
  else none

end Frame

/-- What the system answers beside `Env`: the entry of the virtual reassembly buffer and
the new one for a route, with the success of the forwarding, the memory of a
reallocation, and what decompression adds to the offsets. -/
structure Answers extends Env where
  vrb : Option (Option Nat × Bool)
  route : Option Bool
  resize : Option (Nat → UInt8)
  diff : Int

structure FwdRb extends Rb where
  offsetDiff : Nat → Int

namespace FwdRb
variable (b : Build) (s : FwdRb) (f : Frame) (env : Answers)

def fits (key : Key) (e : Entry) : Bool :=
  e.pkt.isSome ∧ e.key.tag = key.tag ∧ (b.sfr ∧ key.size = 0 ∨ e.key.size = key.size) ∧ e.key.src = key.src ∧
    e.key.dst = key.dst

def getLoop (key : Key) : List Nat → Option Nat → Option Nat → Search
  | [], res, oldest => .missing res oldest
  | i :: l, res, oldest =>
    if fits b key (s.rbuf i) then .found i
    else
      getLoop key l (if res = none ∧ (s.rbuf i).pkt = none then some i else res)
        (match oldest with
        | none => some i
        | some o => if (s.rbuf o).arrival - (s.rbuf i).arrival < 0xffffffff / 2 then some i else some o)

def create (key : Key) (i : Nat) : FwdRb × Option Nat :=
  match env.alloc with
  | none => ({ s with toRb := s.setEntry i { s.rbuf i with pkt := none } }, none)
  | some mem =>
    let size := if b.minfwd ∨ b.sfr then if b.iphc then 40 else 0 else key.size
    let data := (List.range size).map fun j => if j < 8 then 0 else mem j
    (⟨s.setEntry i ⟨(s.rbuf i).ints, key, 0, env.getTime, some data⟩, Function.update s.offsetDiff i 0⟩, some i)

def rbufGet (key : Key) : Option (FwdRb × Option Nat) :=
  match s.getLoop b key (List.range b.rbufSize) none none with
  | .found i =>
    if b.delTimer > 0 ∧ (s.rbuf i).currentSize = 0 then some (s, none)
    else some ({ s with toRb := s.setEntry i { s.rbuf i with arrival := env.getTime } }, some i)
  | .missing (some i) _ => some (s.create b env key i)
  | .missing none none => none
  | .missing none (some o) =>
    if !b.doNotOverride ∨ env.getTime - (s.rbuf o).arrival > b.timeout then
      (s.remove b.toFragConfig o).map fun u => create b { s with toRb := u } env key o
    else some (s, none)

def removed (i : Nat) (code : Int) : Option (FwdRb × Int) :=
  (s.remove b.toFragConfig i).map fun u => ({ s with toRb := u }, code)

/-- The entry is the first of the array, whichever one the fragment is in. -/
def forwardUncomp (ok : Bool) : Option (FwdRb × Int) :=
  removed b { s with toRb := s.setEntry 0 { s.rbuf 0 with ints := none } } 0 (if ok then 0 else -1)

variable (offset n i : Nat)

def copied (data : List UInt8) : FwdRb :=
  let src := if offset = 0 ∧ f.byte f.content = Frame.uncomp then f.content + 1 else f.content
  { s with toRb := s.setEntry i { s.rbuf i with
    pkt := some (data.take offset ++ (List.range n).map (fun j => f.byte (src + j)) ++ data.drop (offset + n)) } }

def store : Option (FwdRb × Int) :=
  let e := { s.rbuf i with currentSize := ((s.rbuf i).currentSize + n) % 2 ^ 16 }
  let s1 : FwdRb := { s with toRb := s.setEntry i e }
  let first := offset = 0 ∧ f.byte f.content = Frame.uncomp
  if offset = 0 ∧ b.iphc ∧ f.byte f.content &&& 0xe0 = 0x60 then
    match env.markOk, env.iphcRecv with
    | true, none => none
    | true, some (some (more, data)) =>
      let diff := (s.offsetDiff i + env.diff).bmod 256
      let e' := { e with currentSize := (e.currentSize + more) % 2 ^ 16, pkt := some data }
      if b.sfr ∧ f.isRfrag then
        some (⟨s.setEntry i { e' with key.size := ((e.key.size + diff) % 2 ^ 16).toNat },
          Function.update s.offsetDiff i diff⟩, i)
      else some ({ s with toRb := s.setEntry i e' }, i)
    | _, _ => s1.removed b i (-1)
  else if first ∧ b.minfwd ∧ f.isFrag1 ∧ e.currentSize = n ∧ env.route.isSome then
    s1.forwardUncomp b (env.route.getD false)
  else
    let s2 : FwdRb :=
      if first ∧ b.sfr ∧ f.isRfrag then
        { s with toRb := s.setEntry i { e with key.size := (e.key.size + 2 ^ 16 - 1) % 2 ^ 16 } }
      else s1
    let data := (s2.rbuf i).pkt.getD []
    if b.minfwd ∨ b.sfr then
      match env.resize with
      | none => s2.removed b i (-1)
      | some mem =>
        let size := (s2.rbuf i).key.size
        some (s2.copied f offset n i (data.take size ++ (List.range (size - data.length)).map mem), 0)
    else some (s2.copied f offset n i data, i)

def offsetIn (i : Nat) : Nat := if b.sfr then ((f.start + s.offsetDiff i) % 2 ^ b.word).toNat else f.start

def addTo (n i : Nat) : Option (FwdRb × Int) :=
  let offset := s.offsetIn b f i
  if (offset + n) % 2 ^ b.word > (s.rbuf i).key.size then s.removed b i (-1)
  else
    match checkFragments s.ints offset n (b.intSize + 1) (s.rbuf i).ints with
    | none => none
    | some .again => s.removed b i (-2)
    | some .duplicate => some (s, i)
    | some .success =>
      match s.updateInts b.toFragConfig i offset n with
      | none => s.removed b i (-1)
      | some u => store b { s with toRb := u } f env offset n i

def forwardVrb (n : Nat) (ints : Option Nat) (ok : Bool) : Option (FwdRb × Int) :=
  match checkFragments s.ints f.start n (b.intSize + 1) ints with
  | none => none
  | some .again => (baseRm (b.intSize + 1) s.ints ints).map fun l => ({ s with ints := l }, -1)
  | some .duplicate => some (s, -4)
  | some .success =>
    match s.intGetFree b.toFragConfig with
    | none => some (s, -1)
    | some k =>
      let l := Function.update s.ints k ⟨ints, f.start % 2 ^ 16, (f.start + n - 1) % 2 ^ 16⟩
      some ({ s with ints := l }, if ok then -4 else -1)

def rbufAdd : Option (FwdRb × Int) :=
  match f.fragment b with
  | none => some (s, -1)
  | some (key, n) =>
    (Rb.gc b.toFragConfig env.gcTime (List.range b.rbufSize) s.toRb).bind fun u =>
      match if b.minfwd ∧ f.start > 0 ∧ f.isFragN then env.vrb else none with
      | some (ints, ok) => forwardVrb b { s with toRb := u } f n ints ok
      | none =>
        match rbufGet b { s with toRb := u } env key with
        | none => none
        | some (v, none) => some (v, -1)
        | some (v, some i) => v.addTo b f env n i

def rbAdd (env' : Answers) : Option (FwdRb × Option Nat) :=
  let res := match s.rbufAdd b f env with
    | some (u, -2) => u.rbufAdd b f env'
    | r => r
  res.map fun r => (r.1, if r.2 < 0 then none else some r.2.toNat)

/-- An entry that is returned is the one of the fragment. -/
def ReturnsOwn (env' : Answers) : Prop :=
  ∀ u i, s.rbAdd b f env env' = some (u, some i) → ∃ key n, f.fragment b = some (key, n) ∧
    f.told (u.rbuf i).key = f.told key

/-! ## Where the index is lost -/

/-- The fragment gets an entry: the state with it, the key and the size of the fragment, and
the index. -/
def got : Option (FwdRb × Key × Nat × Nat) :=
  match f.fragment b with
  | none => none
  | some (key, n) =>
    (Rb.gc b.toFragConfig env.gcTime (List.range b.rbufSize) s.toRb).bind fun u =>
      match if b.minfwd ∧ f.start > 0 ∧ f.isFragN then env.vrb else none with
      | some _ => none
      | none =>
        match rbufGet b { s with toRb := u } env key with
        | some (v, some i) => some (v, key, n, i)
        | _ => none

/-- It is new, fits, finds a slot for its interval, and is no compressed first fragment. -/
structure Stores (n i : Nat) : Prop where
  fits : (s.offsetIn b f i + n) % 2 ^ b.word ≤ (s.rbuf i).key.size
  new : checkFragments s.ints (s.offsetIn b f i) n (b.intSize + 1) (s.rbuf i).ints = some .success
  slot : s.updateInts b.toFragConfig i (s.offsetIn b f i) n ≠ none
  plain : ¬ (s.offsetIn b f i = 0 ∧ b.iphc ∧ f.byte f.content &&& 0xe0 = 0x60)

/-- It is the first and so far the only one of an uncompressed datagram for which there is a route. -/
def Forwards : Prop :=
  (offset = 0 ∧ f.byte f.content = Frame.uncomp) ∧ b.minfwd ∧ f.isFrag1 ∧ ((s.rbuf i).currentSize + n) % 2 ^ 16 = n ∧
    env.route.isSome

/-- What is returned for a fragment that is stored is entry 0, emptied if the fragment is forwarded. -/
def FirstOwn (key : Key) : Prop :=
  (s.Forwards b f env offset n i → env.route = some true → f.told { (s.rbuf 0).key with size := 0 } = f.told key) ∧
    (¬ s.Forwards b f env offset n i → env.resize ≠ none → f.told (s.rbuf 0).key = f.told key)

def KeepsIndex : Prop := ∀ v key n i, s.got b f env = some (v, key, n, i) → b.minfwd ∨ b.sfr → v.Stores b f n i →
  v.FirstOwn b f env (v.offsetIn b f i) n i key

section
variable {b : Build} {s u : FwdRb} {f : Frame} {env env' : Answers} {key : Key} {offset n i j : Nat} {r c : Int}

theorem getLoop_fits : ∀ {l : List Nat} {res oldest : Option Nat}, s.getLoop b key l res oldest = .found i →
    fits b key (s.rbuf i)
  | [], _, _, h => by cases h
  | j :: l, res, oldest, h => by
    unfold getLoop at h
    split at h
    · cases h; assumption
    · exact getLoop_fits h

theorem create_key (h : s.create b env key j = (u, some i)) : (u.rbuf i).key = key := by
  unfold create at h
  split at h
  · cases h
  · cases h
    simp [Rb.setEntry]

/-- A normal fragment announces a size. -/
def Sized (b : Build) (f : Frame) (key : Key) : Prop := b.sfr → f.isRfrag = false → key.size ≠ 0

theorem told_of_fits {e : Entry} (hsize : Sized b f key) (h : fits b key e) : f.told e.key = f.told key := by
  simp only [fits, decide_eq_true_eq] at h
  obtain ⟨-, htag, hfit, hsrc, hdst⟩ := h
  unfold Frame.told
  split
  · rw [Key.mk.injEq]; exact ⟨hsrc, hdst, htag, rfl⟩
  · rename_i hr
    have heq : e.key.size = key.size := hfit.resolve_left fun h => hsize h.1 (Bool.eq_false_iff.mpr hr) h.2
    cases key
    subst htag heq hsrc hdst
    rfl

theorem rbufGet_told (hsize : Sized b f key) (h : s.rbufGet b env key = some (u, some i)) :
    f.told (u.rbuf i).key = f.told key := by
  unfold rbufGet at h
  split at h
  · rename_i hfound
    have hfits := getLoop_fits hfound
    split at h
    · cases h
    · cases h
      simp only [Rb.setEntry, Function.update_self]
      exact told_of_fits hsize hfits
  · rw [create_key (Option.some.inj h)]
  · cases h
  · split at h
    · obtain ⟨_, -, h⟩ := Option.map_eq_some_iff.mp h
      rw [create_key h]
    · cases h

/-- A result that is no error is the index of an entry of the fragment. -/
def Owned (f : Frame) (key : Key) (x : Option (FwdRb × Int)) : Prop :=
  ∀ u r, x = some (u, r) → 0 ≤ r → f.told (u.rbuf r.toNat).key = f.told key

theorem owned_none : Owned f key none := by
  rintro u r ⟨⟩

theorem owned_some : Owned f key (some (u, r)) ↔ (0 ≤ r → f.told (u.rbuf r.toNat).key = f.told key) :=
  ⟨fun h => h u r rfl, fun h v c heq => by cases heq; exact h⟩

theorem owned_removed (hc : c < 0) : Owned f key (s.removed b i c) := by
  intro u r h hr
  obtain ⟨_, -, h⟩ := Option.map_eq_some_iff.mp h
  cases h
  omega

theorem forwardUncomp_owned {ok : Bool} :
    Owned f key (s.forwardUncomp b ok) ↔ (ok = true → f.told { (s.rbuf 0).key with size := 0 } = f.told key) := by
  have heq : s.forwardUncomp b ok = some (⟨s.setEntry 0 { s.rbuf 0 with
      ints := none, key := { (s.rbuf 0).key with size := 0 }, pkt := none }, s.offsetDiff⟩, if ok then 0 else -1) := by
    simp [forwardUncomp, removed, Rb.remove, Rb.setEntry, baseRm]
  rw [heq, owned_some]
  cases ok with
  | false => simp
  | true => simp [Rb.setEntry]

theorem copied_key (data : List UInt8) (j : Nat) : ((s.copied f offset n i data).rbuf j).key = (s.rbuf j).key := by
  by_cases hj : j = i
  · simp [copied, Rb.setEntry, hj]
  · simp [copied, Rb.setEntry, hj]

theorem told_size {k : Key} (h : f.isRfrag = true) (size : Nat) : f.told { k with size := size } = f.told k := by
  simp [Frame.told, h]

theorem setEntry_told {e : Entry} (he : f.told e.key = f.told (s.rbuf i).key) (j : Nat) :
    f.told ((s.setEntry i e).rbuf j).key = f.told (s.rbuf j).key := by
  by_cases hj : j = i
  · subst hj
    simpa [Rb.setEntry] using he
  · simp [Rb.setEntry, hj]

theorem store_owned (hown : f.told (s.rbuf i).key = f.told key) :
    Owned f key (s.store b f env offset n i) ↔
      (b.minfwd ∨ b.sfr → ¬ (offset = 0 ∧ b.iphc ∧ f.byte f.content &&& 0xe0 = 0x60) →
        s.FirstOwn b f env offset n i key) := by
  unfold store
  by_cases hiphc : offset = 0 ∧ b.iphc ∧ f.byte f.content &&& 0xe0 = 0x60
  · rw [if_pos hiphc]
    refine iff_of_true ?_ fun _ hnot => absurd hiphc hnot
    split
    · exact owned_none
    · split
      · rename_i hr
        refine owned_some.mpr fun _ => (setEntry_told ?_ i).trans hown
        exact told_size hr.2 _
      · refine owned_some.mpr fun _ => (setEntry_told ?_ i).trans hown
        rfl
    · exact owned_removed (by decide)
  · rw [if_neg hiphc]
    by_cases hfwd : s.Forwards b f env offset n i
    · have hkey : ((s.setEntry i { s.rbuf i with currentSize := ((s.rbuf i).currentSize + n) % 2 ^ 16 }).rbuf 0).key =
          (s.rbuf 0).key := by
        by_cases hi : 0 = i
        · simp [Rb.setEntry, hi]
        · simp [Rb.setEntry, hi]
      rw [if_pos (by exact hfwd), forwardUncomp_owned, hkey]
      have hroute : env.route.getD false = true ↔ env.route = some true := by
        cases env.route <;> simp
      rw [hroute]
      exact ⟨fun h _ _ => ⟨fun _ => h, fun hnot => absurd hfwd hnot⟩, fun h => (h (.inl hfwd.2.1) hiphc).1 hfwd⟩
    · rw [if_neg (by exact hfwd)]
      generalize hs2 : (if (offset = 0 ∧ f.byte f.content = Frame.uncomp) ∧ b.sfr ∧ f.isRfrag then _
        else _ : FwdRb) = s2
      have htold : ∀ j, f.told (s2.rbuf j).key = f.told (s.rbuf j).key := by
        intro j
        rw [← hs2]
        split
        · rename_i hr
          refine setEntry_told ?_ j
          exact told_size hr.2.2 _
        · refine setEntry_told ?_ j
          rfl
      split
      · rename_i hmodule
        split
        · rename_i hnone
          exact iff_of_true (owned_removed (by decide)) fun _ _ => ⟨fun h => absurd h hfwd, fun _ h => absurd hnone h⟩
        · rename_i mem hsome
          have hne : env.resize ≠ none := by simp [hsome]
          rw [owned_some, Int.toNat_zero, copied_key, htold]
          exact ⟨fun h _ _ => ⟨fun hf => absurd hf hfwd, fun _ _ => h (Int.le_refl 0)⟩,
            fun h _ => (h hmodule hiphc).2 hfwd hne⟩
      · rename_i hplain
        refine iff_of_true (owned_some.mpr fun _ => ?_) fun h => absurd h hplain
        rw [Int.toNat_natCast, copied_key, htold]; exact hown

theorem updateInts_entry {t : Rb} (h : s.updateInts b.toFragConfig i offset n = some t) (j : Nat) :
    (t.rbuf j).key = (s.rbuf j).key ∧ (t.rbuf j).currentSize = (s.rbuf j).currentSize := by
  obtain ⟨k, -, rfl⟩ := Option.map_eq_some_iff.mp h
  by_cases hj : j = i
  · simp [Rb.setEntry, hj]
  · simp [Rb.setEntry, hj]

theorem addTo_owned (hown : f.told (s.rbuf i).key = f.told key) : Owned f key (s.addTo b f env n i) ↔
    (b.minfwd ∨ b.sfr → s.Stores b f n i → s.FirstOwn b f env (s.offsetIn b f i) n i key) := by
  unfold addTo
  dsimp only
  split
  · rename_i hlong
    exact iff_of_true (owned_removed (by decide)) fun _ h => absurd h.fits (not_le.mpr hlong)
  · rename_i hfits
    split
    · rename_i hcheck
      refine iff_of_true owned_none fun _ h => ?_
      cases hcheck.symm.trans h.new
    · rename_i hcheck
      refine iff_of_true (owned_removed (by decide)) fun _ h => ?_
      cases hcheck.symm.trans h.new
    · rename_i hcheck
      refine iff_of_true (owned_some.mpr fun _ => hown) fun _ h => ?_
      cases hcheck.symm.trans h.new
    · rename_i hcheck
      split
      · rename_i hslot
        exact iff_of_true (owned_removed (by decide)) fun _ h => absurd hslot h.slot
      · rename_i t hslot
        obtain ⟨hkey, -⟩ := updateInts_entry hslot i
        have hfirst : FirstOwn b { s with toRb := t } f env (s.offsetIn b f i) n i key ↔
            s.FirstOwn b f env (s.offsetIn b f i) n i key := by
          simp only [FirstOwn, Forwards, (updateInts_entry hslot 0).1, (updateInts_entry hslot i).2]
        rw [store_owned (by rw [hkey]; exact hown), hfirst]
        refine ⟨fun h hmodule hst => h hmodule hst.plain, fun h hmodule hplain => h hmodule ⟨?_, hcheck, ?_, hplain⟩⟩
        · exact not_lt.mp hfits
        · simp [hslot]

theorem owned_neg (hc : c < 0) : Owned f key (some (u, c)) := owned_some.mpr fun h => absurd h (Int.not_le.mpr hc)

theorem forwardVrb_owned (ints : Option Nat) (ok : Bool) : Owned f key (s.forwardVrb b f n ints ok) := by
  unfold forwardVrb
  split
  · exact owned_none
  · intro u r h hr
    obtain ⟨_, -, h⟩ := Option.map_eq_some_iff.mp h
    cases h; cases hr
  · exact owned_neg (by decide)
  · split
    · exact owned_neg (by decide)
    · exact owned_neg (by cases ok <;> decide)

theorem rbufAdd_owned (hf : f.fragment b = some (key, n)) (hsize : Sized b f key) :
    Owned f key (s.rbufAdd b f env) ↔ s.KeepsIndex b f env := by
  unfold rbufAdd KeepsIndex got
  simp only [hf]
  cases hgc : Rb.gc b.toFragConfig env.gcTime (List.range b.rbufSize) s.toRb with
  | none => exact iff_of_true owned_none fun v key n i h => by cases h
  | some t =>
    simp only [Option.bind_some]
    generalize (if b.minfwd ∧ f.start > 0 ∧ f.isFragN then env.vrb else none) = vrb
    cases vrb with
    | some p => exact iff_of_true (forwardVrb_owned p.1 p.2) fun v key n i h => by cases h
    | none =>
      cases hget : rbufGet b { s with toRb := t } env key with
      | none => exact iff_of_true owned_none fun v key n i h => by cases h
      | some p =>
        obtain ⟨v, _ | i⟩ := p
        · exact iff_of_true (owned_neg (by decide)) fun v key n i h => by cases h
        · simp only [addTo_owned (rbufGet_told hsize hget)]
          refine ⟨fun h v' key' n' i' heq => ?_, fun h => h v key n i rfl⟩
          cases heq; exact h

theorem rbAdd_owned {x : Option (FwdRb × Int)} (hf : f.fragment b = some (key, n))
    (hx : s.rbAdd b f env env' = x.map fun r => (r.1, if r.2 < 0 then none else some r.2.toNat)) :
    s.ReturnsOwn b f env env' ↔ Owned f key x := by
  constructor
  · rintro h u r rfl hr
    obtain ⟨key', n', hf', htold⟩ := h u r.toNat (by simp [hx, Int.not_lt.mpr hr])
    cases hf.symm.trans hf'
    exact htold
  · intro h u i hadd
    obtain ⟨⟨v, r⟩, rfl, heq⟩ := Option.map_eq_some_iff.mp (hx.symm.trans hadd)
    simp only [Prod.mk.injEq, ite_eq_iff] at heq
    obtain ⟨rfl, ⟨-, hi⟩ | ⟨hr, hi⟩⟩ := heq
    · cases hi
    · cases hi
      exact ⟨key, n, hf, h v r rfl (Int.not_lt.mp hr)⟩

end
/-! ## Two entries -/

def twoEntries (minfwd sfr : Bool) : Build where
  word := 16
  rbufSize := 2
  intSize := 4
  timeout := 1000
  delTimer := 0
  doNotOverride := false
  iphc := true
  rbuf_pos := Nat.two_pos
  word_ge := by decide
  frag := true
  minfwd := minfwd
  sfr := sfr

def inUse : FwdRb where
  toRb := Rb.init.setEntry 0 ⟨none, ⟨[1], [2], 9, 64⟩, 8, 0, some []⟩
  offsetDiff _ := 0

def answers : Answers where
  gcTime := 0
  getTime := 0
  alloc := some fun _ => 0
  markOk := true
  iphcRecv := none
  vrb := none
  route := some true
  resize := some fun _ => 0
  diff := 0

def frame (data : List UInt8) : Frame := ⟨[1], [2], data, fun _ => 0⟩

def returned (minfwd sfr : Bool) (data : List UInt8) : Option (Option (Nat × Key)) :=
  (inUse.rbAdd (twoEntries minfwd sfr) (frame data) answers answers).map fun r => r.2.map fun i => (i, (r.1.rbuf i).key)

end FwdRb

end PipRiot.Sixlowpan
