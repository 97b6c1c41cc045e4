import PipRiot.Lib.System

/-!
# Reassembly of IPv6 fragments

An entry of the reassembly buffer keeps the packet put together so far and the limits
of the fragments that went into it, in units of eight bytes. Every copy into such a
packet is kept with the size that the packet had.
-/

namespace PipRiot.Ipv6.ExtFrag

open List

structure Limits where
  start : Nat
  stop : Nat
  deriving DecidableEq

/-- A fragment behind its fragment header; `ipv6Len` is the length in its IPv6 header. -/
structure Fragment (κ : Type) where
  key : κ
  offset : Nat
  more : Bool
  payload : List UInt8
  ipv6Len : Nat
  aligned : offset % 8 = 0
  offset_le : offset ≤ 0xfff8
  payload_le : payload.length ≤ 0xffff

/-- `gnrc_ipv6_ext_frag_rbuf_t`; `key` is the addresses and the identification, `none`
without an IPv6 header. -/
structure Entry (κ : Type) where
  key : Option κ := none
  pkt : Option (List UInt8) := none
  limits : List Limits := []
  pktLen : Nat := 0
  last : Nat := 0
  arrival : Nat := 0
  deriving DecidableEq

structure Copy where
  start : Nat
  length : Nat
  room : Nat
  deriving DecidableEq

structure Reass (κ : Type) where
  rbuf : List (Entry κ)
  freeLimits : Nat
  copies : List Copy := []
  up : List (List UInt8 × Nat) := []
  deriving DecidableEq

structure Env where
  mark : Bool := true
  space : Bool := true
  garbage : Nat → UInt8 := fun _ => 0
  now : Nat := 0
  override : Bool := true

variable (env : Env)

section
variable {κ : Type}

def Fragment.limits (f : Fragment κ) : Limits :=
  let start := f.offset / 8 % 2 ^ 16
  let stop := (f.offset + f.payload.length) / 8 % 2 ^ 16
  ⟨start, if start = stop then stop + 1 else stop⟩

def checkOverlap (limits cur : Limits) : Bool := cur.start < limits.stop && limits.start < cur.stop

/-- `clist_rpush`, then the stable `clist_sort` of a list that was sorted. -/
def insertSorted (l : Limits) : List Limits → List Limits
  | [] => [l]
  | c :: cs => if l.start < c.start then l :: c :: cs else c :: insertSorted l cs

inductive LimitsRes
  | new
  | duplicate
  | overlap
  | full

structure Slot (κ : Type) where
  entry : Entry κ
  freeLimits : Nat
  copies : List Copy
  up : List (List UInt8 × Nat)

variable (t : Slot κ)

def Slot.free : Slot κ :=
  { t with entry := { t.entry with key := none, limits := [] }, freeLimits := t.freeLimits + t.entry.limits.length }

def Slot.del : Slot κ := { t.free with entry := { t.free.entry with pkt := none } }

def overlaps (limits : Limits) : LimitsRes × Slot κ :=
  match t.entry.limits.find? (checkOverlap limits) with
  | none =>
    if 0 < t.freeLimits then
      (.new, { t with entry := { t.entry with limits := insertSorted limits t.entry.limits },
                      freeLimits := t.freeLimits - 1 })
    else (.full, t)
  | some cur => if cur = limits then (.duplicate, t) else (.new, t)

def noGap : List Limits → Bool
  | a :: b :: l => !decide (a.stop < b.start) && noGap (b :: l)
  | _ => true

def completed : Slot κ :=
  if t.entry.last ≠ 0 ∧ t.entry.limits.head?.map (·.start) = some 0 ∧ noGap t.entry.limits then
    { t with entry := { t.entry with pkt := none },
             up := t.up ++ t.entry.pkt.toList.map fun p => (p, t.entry.pktLen) }.free
  else t

/-- `memcpy` to an index of the packet; what would lie behind its end is not kept. -/
def copyTo (pkt : List UInt8) (start : Nat) (data : List UInt8) : Slot κ :=
  { t with
    entry := { t.entry with pkt := some ((pkt.take start ++ data ++ pkt.drop (start + data.length)).take pkt.length) }
    copies := t.copies ++ [⟨start, data.length, pkt.length⟩] }

def grow (pkt : List UInt8) (size : Nat) : List UInt8 :=
  pkt ++ (range (size - pkt.length)).map env.garbage

def subsequent (f : Fragment κ) : Slot κ :=
  let sizeUntil := f.offset + f.payload.length
  if f.more = true ∧ f.payload.length % 8 ≠ 0 then t.del
  else
    let t := if f.more then t else
      { t with entry := { t.entry with last := (t.entry.last + 1) % 256,
                                       pktLen := (t.entry.pktLen + sizeUntil) % 2 ^ 16 } }
    match t.entry.pkt with
    | none => if env.space then completed (copyTo t (grow env [] sizeUntil) f.offset f.payload) else t.del
    | some pkt =>
      if pkt.length < sizeUntil then
        if env.space then completed (copyTo t (grow env pkt sizeUntil) f.offset f.payload) else t.del
      else completed (copyTo t pkt f.offset f.payload)

def Slot.addHeaders (f : Fragment κ) : Slot κ :=
  { t with entry := { t.entry with pktLen := (t.entry.pktLen + f.ipv6Len + (2 ^ 17 - 8 - f.payload.length)) % 2 ^ 16 } }

def first (f : Fragment κ) : Slot κ :=
  if f.payload.length % 8 ≠ 0 then t.del
  else
    match t.entry.pkt with
    | some pkt => completed (copyTo (t.addHeaders f) pkt 0 f.payload)
    | none => { t.addHeaders f with entry := { (t.addHeaders f).entry with pkt := some f.payload } }

def reassEntry (f : Fragment κ) : Slot κ :=
  match overlaps t f.limits with
  | (.duplicate, t) => t
  | (.overlap, t) => t.del
  | (.full, t) => t.del
  | (.new, t) =>
    if 0 < f.offset then subsequent env t f
    else if f.more then first t f
    else { t.del with up := t.up ++ [(f.payload, (f.ipv6Len + 2 ^ 16 - 8) % 2 ^ 16)] }

def Entry.initRbuf (e : Entry κ) (k : κ) : Entry κ := { e with key := some k, pktLen := 0, last := 0 }

variable [DecidableEq κ]

structure Search (κ : Type) where
  rbuf : List (Entry κ)
  hit : Option Nat
  res : Option Nat
  oldest : Option (Nat × Nat)

-- an unused entry is taken before the entries behind it are looked at
def search (k : κ) (i : Nat) (res : Option Nat) (oldest : Option (Nat × Nat)) : List (Entry κ) → Search κ
  | [] => ⟨[], none, res, oldest⟩
  | e :: es =>
    if e.key = some k then ⟨e :: es, some i, res, oldest⟩
    else
      let taken := e.key = none ∧ res = none
      let older :=
        match oldest with
        | none => (i, e.arrival)
        | some (j, a) => if (e.arrival + 2 ^ 32 - a) % 2 ^ 32 < (2 ^ 32 - 1) / 2 then (i, e.arrival) else (j, a)
      let r := search k (i + 1) (if taken then some i else res) (some older) es
      { r with rbuf := (if taken then e.initRbuf k else e) :: r.rbuf }

variable (s : Reass κ)

def Reass.slot (e : Entry κ) : Slot κ := ⟨e, s.freeLimits, s.copies, s.up⟩

def Reass.put (i : Nat) (t : Slot κ) : Reass κ := ⟨s.rbuf.set i t.entry, t.freeLimits, t.copies, t.up⟩

def Reass.del (s : Reass κ) (i : Nat) : Reass κ :=
  match s.rbuf[i]? with
  | some e => s.put i (s.slot e).del
  | none => s

def rbufGet (override : Bool) (s : Reass κ) (k : κ) : Option Nat × Reass κ :=
  let r := search k 0 none none s.rbuf
  let s := { s with rbuf := r.rbuf }
  match r.hit, r.res, r.oldest with
  | some i, _, _ => (some i, s)
  | none, some i, _ => (some i, s)
  | none, none, some (i, _) =>
    if override then
      let s := s.del i
      (some i, { s with rbuf := s.rbuf.modify i (·.initRbuf k) })
    else (none, s)
  | none, none, none => (none, s)

def reass (f : Fragment κ) : Reass κ :=
  if env.mark then
    match rbufGet env.override s f.key with
    | (none, s) => s
    | (some i, s) =>
      match s.rbuf[i]? with
      | some e => s.put i (reassEntry env (s.slot { e with arrival := env.now }) f)
      | none => s
  else s

def rbufTimeoutUs : Nat := 10000000

def rbufGc (now : Nat) : Reass κ :=
  (range s.rbuf.length).foldl
    (fun s i => if rbufTimeoutUs < (now + 2 ^ 32 - (s.rbuf[i]?.elim 0 (·.arrival))) % 2 ^ 32 then s.del i else s) s

inductive Event (κ : Type)
  | fragment (env : Env) (f : Fragment κ)
  | gc (now : Nat)

def step : Event κ → Option (Reass κ)
  | .fragment env f => some (reass env s f)
  | .gc now => some (rbufGc s now)

def Copy.Inside (c : Copy) : Prop := c.start + c.length ≤ c.room

/-- A fragment that starts the packet has the limits of every recorded one it overlaps.
-/
def NoPartialOverlap : Event κ → Prop
  | .fragment _ f => f.offset = 0 → f.more = true → ∀ e ∈ s.rbuf, e.key = some f.key →
      ∀ cur ∈ e.limits, checkOverlap f.limits cur = true → cur = f.limits
  | .gc _ => True

structure Entry.Placed (e : Entry κ) : Prop where
  nonempty : ∀ l ∈ e.limits, l.start < l.stop
  reaches : ∀ p, e.pkt = some p → ∃ l ∈ e.limits, 8 * l.start ≤ p.length
  unused : e.key = none → e.limits = [] ∧ e.pkt = none

structure Slot.Ok (t : Slot κ) : Prop where
  placed : t.entry.Placed
  inside : ∀ c ∈ t.copies, c.Inside

structure Reass.Ok (s : Reass κ) : Prop where
  placed : ∀ e ∈ s.rbuf, e.Placed
  inside : ∀ c ∈ s.copies, c.Inside

end

section
variable {κ : Type} {t t' : Slot κ} {f : Fragment κ} {env : Env} {e : Entry κ} {k : κ}

theorem Fragment.limits_start : 8 * f.limits.start = f.offset := by
  have := f.aligned
  have := f.offset_le
  simp only [Fragment.limits]
  omega

theorem Fragment.limits_stop : f.limits.stop = (f.offset + f.payload.length) / 8 ∨
    f.limits.stop = f.limits.start + 1 ∧ f.payload.length < 8 := by
  have := f.offset_le
  have := f.payload_le
  simp only [Fragment.limits]
  split <;> omega

theorem Fragment.limits_nonempty : f.limits.start < f.limits.stop := by
  have := f.offset_le
  have := f.payload_le
  simp only [Fragment.limits]
  split <;> omega

@[simp] theorem mem_insertSorted {l c : Limits} : ∀ {cs : List Limits}, c ∈ insertSorted l cs ↔ c = l ∨ c ∈ cs
  | [] => by simp [insertSorted]
  | d :: cs => by
    simp only [insertSorted]
    split
    · simp
    · simp [@mem_insertSorted l c cs, or_left_comm]

theorem Entry.Placed.empty (hl : e.limits = []) (hp : e.pkt = none) : e.Placed :=
  ⟨by simp [hl], by simp [hp], fun _ => ⟨hl, hp⟩⟩

theorem Entry.Placed.initRbuf (h : e.Placed) :
    (e.initRbuf k).Placed := ⟨h.nonempty, h.reaches, by simp [Entry.initRbuf]⟩

theorem Slot.Ok.del (h : t.Ok) : t.del.Ok := ⟨.empty rfl rfl, h.inside⟩

theorem Slot.Ok.completed (h : t.Ok) : (completed t).Ok := by
  unfold ExtFrag.completed
  split
  · exact ⟨.empty rfl rfl, h.inside⟩
  · exact h

theorem Slot.Ok.copyTo {p data : List UInt8} {i : Nat} (h : t.Ok) (hk : t.entry.key ≠ none)
    (hin : i + data.length ≤ p.length) (hl : ∃ l ∈ t.entry.limits, 8 * l.start ≤ p.length) :
      (copyTo t p i data).Ok := by
  refine ⟨⟨h.placed.nonempty, ?_, fun h => absurd h hk⟩, ?_⟩
  · intro q hq
    have hlen : q.length = p.length := by
      cases hq
      simp only [length_take, length_append, length_drop]; omega
    rw [hlen]; exact hl
  · intro c hc
    rcases mem_append.1 hc with hc | hc
    · exact h.inside c hc
    · cases mem_singleton.1 hc
      exact hin

theorem length_grow {p : List UInt8} {n : Nat} (h : p.length ≤ n) : (grow env p n).length = n := by
  simp only [grow, length_append, length_map, length_range]
  omega

structure Recorded (t t' : Slot κ) (f : Fragment κ) : Prop where
  ok : t'.Ok
  key : t'.entry.key = t.entry.key
  pkt : t'.entry.pkt = t.entry.pkt
  limits : ∃ l ∈ t'.entry.limits, l.start < f.limits.stop

theorem overlaps_new (h : overlaps t f.limits = (.new, t')) (ht : t.Ok) (hk : t.entry.key ≠ none) :
    Recorded t t' f := by
  unfold overlaps at h
  split at h
  · split at h
    · cases h
      refine ⟨⟨⟨?_, ?_, fun h => absurd h hk⟩, ht.inside⟩, rfl, rfl, ⟨f.limits, by simp, Fragment.limits_nonempty⟩⟩
      · intro l hl
        rcases mem_insertSorted.1 hl with rfl | hl
        · exact Fragment.limits_nonempty
        · exact ht.placed.nonempty l hl
      · intro p hp
        obtain ⟨l, hl, hle⟩ := ht.placed.reaches p hp
        exact ⟨l, mem_insertSorted.2 (.inr hl), hle⟩
    · cases h
  · rename_i cur hcur
    split at h
    · cases h
    · cases h
      have hov := find?_some hcur
      simp only [checkOverlap, Bool.and_eq_true, decide_eq_true_eq] at hov
      exact ⟨ht, rfl, rfl, ⟨cur, mem_of_find?_eq_some hcur, hov.1⟩⟩

theorem first_fits {p : List UInt8} (h : overlaps t f.limits = (.new, t')) (ht : t.Ok) (h0 : f.offset = 0)
    (hgood : ∀ cur ∈ t.entry.limits, checkOverlap f.limits cur = true → cur = f.limits)
    (hsize : f.payload.length % 8 = 0) (hp : t.entry.pkt = some p) : f.payload.length ≤ p.length := by
  obtain ⟨l, hl, hle⟩ := ht.placed.reaches p hp
  have hne := ht.placed.nonempty l hl
  have hstart := @Fragment.limits_start κ f
  have hstop := @Fragment.limits_stop κ f
  have hfree : checkOverlap f.limits l = false := by
    unfold overlaps at h
    split at h
    · rename_i hnone
      simpa using find?_eq_none.1 hnone l hl
    · rename_i cur hcur
      have := hgood cur (mem_of_find?_eq_some hcur) (find?_some hcur)
      simp [this] at h
  have hbehind : f.limits.stop ≤ l.start := by
    simp only [checkOverlap, Bool.and_eq_false_iff, decide_eq_false_iff_not] at hfree
    omega
  omega

theorem subsequent_ok (hr : Recorded t t' f) (hk : t.entry.key ≠ none) : (subsequent env t' f).Ok := by
  have hstart := @Fragment.limits_start κ f
  have hstop := @Fragment.limits_stop κ f
  have hreach : ∀ n, f.offset + f.payload.length ≤ n → ∃ l ∈ t'.entry.limits, 8 * l.start ≤ n := by
    obtain ⟨l, hl, hlt⟩ := hr.limits
    exact fun n hn => ⟨l, hl, by omega⟩
  unfold subsequent
  simp only
  split
  · exact hr.ok.del
  · -- the marks of a last fragment change neither the packet nor the limits
    generalize hu : (if f.more = true then t' else _) = u
    have hu_ok : u.Ok := by
      subst hu
      split
      · exact hr.ok
      · exact ⟨⟨hr.ok.placed.nonempty, hr.ok.placed.reaches, hr.ok.placed.unused⟩, hr.ok.inside⟩
    have hu_key : u.entry.key ≠ none := by
      subst hu
      split <;> simpa [hr.key] using hk
    have hu_limits : u.entry.limits = t'.entry.limits := by
      subst hu
      split <;> rfl
    rw [← hu_limits] at hreach
    split
    · split
      · have hlen : (grow env [] (f.offset + f.payload.length)).length = f.offset + f.payload.length :=
          length_grow (by simp)
        exact (hu_ok.copyTo hu_key (by omega) (hreach _ (by omega))).completed
      · exact hu_ok.del
    · rename_i p hp
      split
      · have hlen : (grow env p (f.offset + f.payload.length)).length = f.offset + f.payload.length :=
          length_grow (by omega)
        split
        · exact (hu_ok.copyTo hu_key (by omega) (hreach _ (by omega))).completed
        · exact hu_ok.del
      · exact (hu_ok.copyTo hu_key (by omega) (hreach _ (by omega))).completed

theorem first_ok (hr : Recorded t t' f) (hk : t.entry.key ≠ none) (h0 : f.offset = 0)
    (hfits : f.payload.length % 8 = 0 → ∀ p, t.entry.pkt = some p → f.payload.length ≤ p.length) : (first t' f).Ok := by
  have hk' : t'.entry.key ≠ none := by rwa [hr.key]
  unfold first
  split
  · exact hr.ok.del
  · split
    · rename_i p hp
      have hle := hfits (by omega) p (hr.pkt ▸ hp)
      refine Slot.Ok.completed (Slot.Ok.copyTo ?_ hk' ?_ (hr.ok.placed.reaches p hp))
      · exact ⟨⟨hr.ok.placed.nonempty, hr.ok.placed.reaches, hr.ok.placed.unused⟩, hr.ok.inside⟩
      · omega
    · refine ⟨⟨hr.ok.placed.nonempty, ?_, fun h => absurd h hk'⟩, hr.ok.inside⟩
      intro p hp
      cases hp
      obtain ⟨l, hl, hlt⟩ := hr.limits
      have hstart := @Fragment.limits_start κ f
      have hstop := @Fragment.limits_stop κ f
      refine ⟨l, hl, ?_⟩
      omega

theorem reassEntry_ok (ht : t.Ok) (hk : t.entry.key ≠ none)
    (hgood : f.offset = 0 → f.more = true → ∀ cur ∈ t.entry.limits, checkOverlap f.limits cur = true → cur = f.limits) :
    (reassEntry env t f).Ok := by
  unfold reassEntry
  generalize ho : overlaps t f.limits = o
  obtain ⟨res, u⟩ := o
  have hsame : res ≠ .new → u = t := by
    intro hne
    unfold overlaps at ho
    split at ho <;> split at ho <;> cases ho <;> first | rfl | exact absurd rfl hne
  cases res with
  | duplicate => exact hsame (by simp) ▸ ht
  | overlap | full => exact (hsame (by simp) ▸ ht).del
  | new =>
    have hr := overlaps_new ho ht hk
    simp only
    split
    · exact subsequent_ok hr hk
    · split
      · rename_i h0 hm
        exact first_ok hr hk (by omega) fun hsize p hp => first_fits ho ht (by omega) (hgood (by omega) hm) hsize hp
      · exact ⟨.empty rfl rfl, hr.ok.inside⟩

end

section
variable {κ : Type} {s : Reass κ} {k : κ} {i : Nat} {e : Entry κ}

theorem Reass.Ok.put {t : Slot κ} (h : s.Ok) (ht : t.Ok) : (s.put i t).Ok := by
  refine ⟨fun e he => ?_, ht.inside⟩
  rcases mem_or_eq_of_mem_set he with he | rfl
  · exact h.placed e he
  · exact ht.placed

theorem Reass.Ok.slot (h : s.Ok) (he : e.Placed) : (s.slot e).Ok := ⟨he, h.inside⟩

theorem Reass.Ok.del (h : s.Ok) : (s.del i).Ok := by
  unfold Reass.del
  split
  · rename_i e he
    exact h.put (h.slot (h.placed e (mem_of_getElem? he))).del
  · exact h

theorem Reass.Ok.initRbuf (h : s.Ok) : ({ s with rbuf := s.rbuf.modify i (·.initRbuf k) } : Reass κ).Ok := by
  refine ⟨fun e he => ?_, h.inside⟩
  obtain ⟨j, hj⟩ := mem_iff_getElem?.1 he
  rw [getElem?_modify, Option.map_eq_map, Option.map_eq_some_iff] at hj
  obtain ⟨d, hd, rfl⟩ := hj
  have hplaced := h.placed d (mem_of_getElem? hd)
  split
  · exact hplaced.initRbuf
  · exact hplaced

theorem Reass.limits_of_del (he : (s.del i).rbuf[i]? = some e) : e.limits = [] := by
  unfold Reass.del at he
  split at he
  · rename_i d hd
    have hi : i < s.rbuf.length := (List.getElem?_eq_some_iff.1 hd).1
    rw [Reass.put, getElem?_set_self hi] at he
    cases he; rfl
  · simp_all

theorem rbufGc_ok {now : Nat} (h : s.Ok) : (rbufGc s now).Ok := by
  unfold rbufGc
  generalize range s.rbuf.length = l
  induction l generalizing s with
  | nil => exact h
  | cons i l ih =>
    apply ih
    dsimp only
    split
    · exact h.del
    · exact h

def Reass.initial (κ : Type) (size pool : Nat) : Reass κ := { rbuf := replicate size {}, freeLimits := pool }

theorem Reass.initial_ok (size pool : Nat) : (Reass.initial κ size pool).Ok := by
  refine ⟨fun e he => ?_, by simp [Reass.initial]⟩
  cases eq_of_mem_replicate he
  exact .empty rfl rfl

end

section
variable {κ : Type} [DecidableEq κ] {s s' : Reass κ} {k : κ} {i : Nat} {e : Entry κ}

theorem search_rbuf : ∀ (es : List (Entry κ)) (i : Nat) (res : Option Nat) (oldest : Option (Nat × Nat)),
    ∀ e ∈ (search k i res oldest es).rbuf, e ∈ es ∨ ∃ e0 ∈ es, e0.key = none ∧ e = e0.initRbuf k
  | [], _, _, _ => by simp [search]
  | d :: es, i, res, oldest => by
    intro e he
    simp only [search] at he
    split at he
    · exact .inl he
    · rcases mem_cons.1 he with rfl | he
      · split
        · rename_i htaken
          exact .inr ⟨d, mem_cons_self, htaken.1, rfl⟩
        · exact .inl mem_cons_self
      · rcases search_rbuf es _ _ _ e he with he | ⟨e0, he0, h⟩
        · exact .inl (mem_cons_of_mem _ he)
        · exact .inr ⟨e0, mem_cons_of_mem _ he0, h⟩

theorem search_key : ∀ (es : List (Entry κ)) (i : Nat) (res : Option Nat) (oldest : Option (Nat × Nat)) (n : Nat),
    (search k i res oldest es).hit = some n ∨ (search k i res oldest es).res = some n →
      res = some n ∨ ∃ j, n = i + j ∧ ∃ e, (search k i res oldest es).rbuf[j]? = some e ∧ e.key = some k
  | [], _, _, _, n => by
    intro h
    simpa [search] using h
  | d :: es, i, res, oldest, n => by
    intro hn
    by_cases hd : d.key = some k
    · simp only [search, if_pos hd] at hn ⊢
      rcases hn with hn | hn
      · exact .inr ⟨0, (Option.some.inj hn).symm, d, rfl, hd⟩
      · exact .inl hn
    · simp only [search, if_neg hd] at hn ⊢
      rcases search_key es _ _ _ n hn with h | ⟨j, rfl, e, he, hk⟩
      · split at h
        · rename_i htaken
          cases h
          refine .inr ⟨0, rfl, d.initRbuf k, ?_, rfl⟩
          simp [htaken]
        · exact .inl h
      · exact .inr ⟨j + 1, by omega, e, he, hk⟩

theorem Reass.Ok.search (h : s.Ok) : ({ s with rbuf := (search k 0 none none s.rbuf).rbuf } : Reass κ).Ok := by
  refine ⟨fun e he => ?_, h.inside⟩
  rcases search_rbuf _ _ _ _ e he with he | ⟨e0, he0, _, rfl⟩
  · exact h.placed e he
  · exact (h.placed e0 he0).initRbuf

theorem rbufGet_ok {override : Bool} {o : Option Nat} (h : s.Ok) (hget : rbufGet override s k = (o, s')) : s'.Ok := by
  unfold rbufGet at hget
  simp only at hget
  split at hget
  · cases hget; exact h.search
  · cases hget; exact h.search
  · split at hget
    · cases hget; exact h.search.del.initRbuf
    · cases hget; exact h.search
  · cases hget; exact h.search

theorem rbufGet_some {override : Bool} (h : s.Ok) (hget : rbufGet override s k = (some i, s'))
    (he : s'.rbuf[i]? = some e) : e.key = some k ∧ (e ∈ s.rbuf ∨ e.limits = []) := by
  have hfound : (search k 0 none none s.rbuf).hit = some i ∨ (search k 0 none none s.rbuf).res = some i →
      (search k 0 none none s.rbuf).rbuf[i]? = some e → e.key = some k ∧ (e ∈ s.rbuf ∨ e.limits = []) := by
    intro hi he
    rcases search_key _ _ _ _ _ hi with hi | ⟨j, hj, d, hd, hk⟩
    · cases hi
    · rw [zero_add] at hj
      subst hj
      cases hd.symm.trans he
      refine ⟨hk, ?_⟩
      rcases search_rbuf _ _ _ _ e (mem_of_getElem? he) with h' | ⟨e0, he0, hnone, rfl⟩
      · exact .inl h'
      · exact .inr ((h.placed e0 he0).unused hnone).1
  unfold rbufGet at hget
  simp only at hget
  split at hget
  · rename_i hhit
    cases hget; exact hfound (.inl hhit) he
  · rename_i hres
    cases hget; exact hfound (.inr hres) he
  · split at hget
    · cases hget
      simp only [getElem?_modify, Option.map_eq_map, Option.map_eq_some_iff, if_true] at he
      obtain ⟨d, hd, rfl⟩ := he
      have hempty : d.limits = [] := Reass.limits_of_del hd
      exact ⟨rfl, .inr hempty⟩
    · cases hget
  · cases hget

theorem reass_ok {env : Env} {f : Fragment κ} (h : s.Ok) (hgood : NoPartialOverlap s (.fragment env f)) :
    (reass env s f).Ok := by
  unfold reass
  split
  · split
    · rename_i s' hget
      exact rbufGet_ok h hget
    · rename_i i s' hget
      have hok := rbufGet_ok h hget
      split
      · rename_i e he
        obtain ⟨hk, hmem⟩ := rbufGet_some h hget he
        have hplaced := hok.placed e (mem_of_getElem? he)
        refine hok.put (reassEntry_ok (hok.slot ⟨hplaced.nonempty, hplaced.reaches, hplaced.unused⟩)
          (by simp [Reass.slot, hk]) ?_)
        intro h0 hm cur hcur
        rcases hmem with hmem | hmem
        · exact hgood h0 hm e hmem hk cur hcur
        · simp [Reass.slot, hmem] at hcur
      · exact hok
  · exact h

theorem copies_inside_without_partial_overlap (size pool : Nat)
    (h : ReachVia step NoPartialOverlap (Reass.initial κ size pool) s) :
    ∀ c ∈ s.copies, c.start + c.length ≤ c.room := by
  have hok : s.Ok := by
    refine h.inv Reass.Ok (Reass.initial_ok size pool) fun t u ev ht hgood hstep => ?_
    cases ev with
    | fragment env f =>
      cases hstep; exact reass_ok ht hgood
    | gc now =>
      cases hstep; exact rbufGc_ok ht
  exact hok.inside

end

def tailFragment : Fragment Nat := ⟨1, 8, false, replicate 8 0xbb, 16, rfl, by decide, by decide⟩

def headFragment (n : Nat) (h : n ≤ 0xffff) : Fragment Nat :=
  ⟨1, 0, true, replicate n 0xaa, n + 8, rfl, by decide, by simpa using h⟩

def tailThenHead (n : Nat) (h : n ≤ 0xffff) : List (Event Nat) :=
  [.fragment {} tailFragment, .fragment {} (headFragment n h)]

theorem copies_inside_tail_then_head :
    ∃ s, runAll step (Reass.initial Nat 1 2) (tailThenHead 8 (by decide)) = some s ∧
      s.copies = [⟨8, 8, 16⟩, ⟨0, 8, 16⟩] ∧ ∀ c ∈ s.copies, c.start + c.length ≤ c.room := by
  have htail : NoPartialOverlap (Reass.initial Nat 1 2) (.fragment {} tailFragment) := nofun
  have hhead : NoPartialOverlap (reass {} (Reass.initial Nat 1 2) tailFragment)
      (.fragment {} (headFragment 8 (by decide))) := by
    intro _ _
    decide +kernel
  exact ⟨_, rfl, by decide +kernel,
    copies_inside_without_partial_overlap 1 2 ((ReachVia.start.next htail rfl).next hhead rfl)⟩

/-- A first fragment of 24 bytes is copied into a packet of 16. -/
theorem overlapping_head_copied_outside :
    ∃ s, runAll step (Reass.initial Nat 1 2) (tailThenHead 24 (by decide)) = some s ∧
      s.copies = [⟨8, 8, 16⟩, ⟨0, 24, 16⟩] ∧ ¬ ∀ c ∈ s.copies, c.start + c.length ≤ c.room :=
  ⟨_, rfl, by decide +kernel, by decide +kernel⟩

end PipRiot.Ipv6.ExtFrag
