import PipRiot.Lib.Bytes
import PipRiot.Lib.System

/-!
# The DNS cache

`dns_cache_add` and `dns_cache_query` by a clock of milliseconds that wraps at 32 bits. A call of
`dns_cache_add` for a name that has a slot sets the time but not the address, and takes a free
slot instead if there is one in front.
-/

namespace PipRiot.Dns

open List Option

/-- `CONFIG_DNS_CACHE_A` and `CONFIG_DNS_CACHE_AAAA`. -/
structure Config where
  a : Bool
  aaaa : Bool

inductive Family
  | unspec
  | inet
  | inet6
  | other

structure Slot where
  hash : BitVec 32
  expires : Nat
  addr : List Byte
  isV6 : Bool

/-- What the loop of `dns_cache_add` works with. -/
structure Add where
  now : Nat
  hash : BitVec 32
  addr : List Byte
  ttl : Nat

inductive Place
  | write (i : Nat)
  | renew (i : Nat)

section
variable (cfg : Config)

def addrLen : Family → Nat
  | .inet => if cfg.a then 4 else 255
  | .inet6 => if cfg.aaaa then 16 else 255
  | .unspec => 0
  | .other => 255

namespace Slot

def getLen (x : Slot) : Nat := if cfg.a && cfg.aaaa then if x.isV6 then 16 else 4 else if cfg.a then 4 else 16

def address (x : Slot) : List Byte := x.addr.take (x.getLen cfg)

def isEmpty (x : Slot) : Bool := (x.address cfg).all (· == 0)

def setEmpty (x : Slot) : Slot := { x with addr := replicate (x.getLen cfg) 0 ++ x.addr.drop (x.getLen cfg) }

def Free (now : Nat) (x : Slot) : Prop := x.expires < now ∨ x.isEmpty cfg = true

instance (now : Nat) (x : Slot) : Decidable (x.Free cfg now) := inferInstanceAs (Decidable (_ ∨ _))

def Matches (c : Add) (x : Slot) : Prop := x.hash = c.hash ∧ x.getLen cfg = c.addr.length

instance (c : Add) (x : Slot) : Decidable (x.Matches cfg c) := inferInstanceAs (Decidable (_ ∧ _))

end Slot

def queryLoop (now : Nat) (hash : BitVec 32) (len : Nat) : List Slot → List Slot × Option (List Byte)
  | [] => ([], none)
  | x :: l =>
    if x.isEmpty cfg then (queryLoop now hash len l).map (x :: ·) id
    else if x.expires < now then (queryLoop now hash len l).map (x.setEmpty cfg :: ·) id
    else if x.hash = hash ∧ (len = 0 ∨ len = x.getLen cfg) then (x :: l, some (x.address cfg))
    else (queryLoop now hash len l).map (x :: ·) id

namespace Add
variable (c : Add)

/-- `_add_entry` with `_set_len`, whose bit counts where both families are built in. -/
def entry (x : Slot) : Slot where
  hash := c.hash
  expires := (c.now + c.ttl) % 2 ^ 32
  addr := c.addr ++ x.addr.drop c.addr.length
  isV6 := c.addr.length == 16

def renewed (x : Slot) : Slot :=
  { x with expires := if c.ttl ≠ 0 then (c.now + c.ttl) % 2 ^ 32 else (c.now + 2 ^ 32 - 1) % 2 ^ 32 }

def left (x : Slot) : Nat := (x.expires + 2 ^ 32 - c.now) % 2 ^ 32

def place : List Slot → Nat → Nat → Option Nat → Option Place
  | [], _, _, idx => if c.ttl ≠ 0 then idx.map .write else none
  | x :: l, i, oldest, idx =>
    if c.ttl ≠ 0 ∧ x.Free cfg c.now then some (.write i)
    else if x.Matches cfg c then some (.renew i)
    else if c.left x < oldest then place l (i + 1) (c.left x) (some i)
    else place l (i + 1) oldest idx

/-- `_add_entry` takes the index as a `uint8_t`. -/
def slots (l : List Slot) : List Slot :=
  match c.place cfg l 0 c.ttl none with
  | some (.write i) => l.modify (i % 256) c.entry
  | some (.renew i) => l.modify i c.renewed
  | none => l

def Fits : Prop := c.addr.length = 4 ∧ cfg.a = true ∨ c.addr.length = 16 ∧ cfg.aaaa = true

/-- In front of a slot in use is no other of the name and length and, for a `ttl`, no free one. -/
def InFront (y x : Slot) : Prop :=
  ¬x.Free cfg c.now → x.Matches cfg c → ¬y.Matches cfg c ∧ (c.ttl ≠ 0 → ¬y.Free cfg c.now)

/-- The address is of a built-in family and not zero, the times are below 2³². A slot in use for
the name and length has the address and is found first. Where no slot can be taken, none lives
just as long as the new entry. -/
structure Keeps (l : List Slot) : Prop where
  fits : c.Fits cfg
  nonzero : ∃ b ∈ c.addr, b ≠ 0
  time : c.now + c.ttl < 2 ^ 32
  past : c.ttl = 0 → 0 < c.now
  known : ∀ x ∈ l, ¬x.Free cfg c.now → x.Matches cfg c → c.ttl ≠ 0 → x.address cfg = c.addr
  first : l.Pairwise (c.InFront cfg)
  noTie : (∀ x ∈ l, ¬x.Free cfg c.now ∧ ¬x.Matches cfg c ∧ c.now + c.ttl ≤ x.expires) →
    ∀ x ∈ l, x.expires ≠ c.now + c.ttl

end Add
end

/-- With the last `dns_cache_add` for each name and length: its address, its `ttl` and
its time. -/
structure Cache (ν : Type) where
  slots : List Slot
  clock : Nat
  last : ν → Nat → Option (List Byte × Nat × Nat)

inductive Op (ν : Type)
  | advance (ms : Nat)
  | add (name : ν) (addr : List Byte) (ttl : BitVec 32)
  | query (name : ν) (family : Family)

namespace Cache
section
variable {ν : Type} (cfg : Config) (hash : ν → BitVec 32) (s : Cache ν)

/-- `ztimer_now(ZTIMER_MSEC) / MS_PER_SEC`. -/
def now : Nat := s.clock % 2 ^ 32 / 1000

def query (name : ν) (family : Family) : Cache ν × Option (List Byte) :=
  let r := queryLoop cfg s.now (hash name) (addrLen cfg family) s.slots
  ({ s with slots := r.1 }, r.2)

def call (name : ν) (addr : List Byte) (ttl : BitVec 32) : Add := ⟨s.now, hash name, addr, ttl.toNat⟩

structure Fresh : Prop where
  slots : ∀ x ∈ s.slots, ∀ b ∈ x.addr, b = 0
  clock : s.clock < 2 ^ 32
  last : ∀ name len, s.last name len = none

def Good : Op ν → Prop
  | .advance ms => s.clock + ms < 2 ^ 32
  | .add name addr ttl => (s.call hash name addr ttl).Keeps cfg s.slots
  | .query .. => True

/-- It is not the second in which the `ttl` of the last call ends, or not the part of it that
comes behind the end. -/
def InTime (name : ν) (len : Nat) : Prop := ∀ addr ttl t, s.last name len = some (addr, ttl, t) →
  s.clock / 1000 = t / 1000 + ttl → s.clock % 1000 ≤ t % 1000

/-- A query gives the address of the last call for the name and the length, in its time. -/
def AnswersLatest : Prop := ∀ name family addr, (s.query cfg hash name family).2 = some addr →
  ∃ ttl t, s.last name addr.length = some (addr, ttl, t) ∧ t ≤ s.clock ∧
    (s.InTime name addr.length → s.clock - t ≤ 1000 * ttl)

def Latest (x : Slot) : Prop := ∃ name ttl t, x.hash = hash name ∧ x.getLen cfg = (x.address cfg).length ∧
  s.last name (x.address cfg).length = some (x.address cfg, ttl, t) ∧ x.expires = t / 1000 + ttl ∧
    x.expires < 2 ^ 32 ∧ t ≤ s.clock

structure Sound : Prop where
  clock : s.clock < 2 ^ 32
  slot : ∀ x ∈ s.slots, ¬x.Free cfg s.now → s.Latest cfg hash x

end

section
variable {ν : Type} [DecidableEq ν] (cfg : Config) (hash : ν → BitVec 32) (s : Cache ν)

def add (name : ν) (addr : List Byte) (ttl : BitVec 32) : Cache ν :=
  { s with
    slots := (s.call hash name addr ttl).slots cfg s.slots
    last := fun n k => if n = name ∧ k = addr.length then some (addr, ttl.toNat, s.clock) else s.last n k }

def step : Op ν → Option (Cache ν)
  | .advance ms => some { s with clock := s.clock + ms }
  | .add name addr ttl => if addr.length = 4 ∨ addr.length = 16 then some (s.add cfg hash name addr ttl) else none
  | .query name family => some (s.query cfg hash name family).1

/-- A query right behind a call gives its address, unless all slots live longer. -/
def Retains : Prop := ∀ name addr ttl family, s.Good cfg hash (.add name addr ttl) → ttl ≠ 0 →
  addrLen cfg family = addr.length → ((s.add cfg hash name addr ttl).query cfg hash name family).2 = some addr ∨
    ∀ x ∈ s.slots, x.isEmpty cfg = false ∧ s.now + ttl.toNat < x.expires

end
end Cache

/-! ## One query -/

section
variable {cfg : Config} {now len : Nat} {hash : BitVec 32} {l : List Slot} {addr : List Byte} {x : Slot} {c : Add}

theorem Slot.not_free (h : ¬x.Free cfg now) : now ≤ x.expires ∧ x.isEmpty cfg = false := by
  simpa [Slot.Free] using h

theorem Slot.isEmpty_setEmpty (x : Slot) : (x.setEmpty cfg).isEmpty cfg = true := by
  have htake : (x.setEmpty cfg).address cfg = replicate (x.getLen cfg) 0 := take_left' length_replicate
  simp [Slot.isEmpty, htake]

theorem mem_queryLoop (h : x ∈ (queryLoop cfg now hash len l).1) : x ∈ l ∨ x.isEmpty cfg = true := by
  fun_induction queryLoop cfg now hash len l with
  | case1 => cases h
  | case2 y l hy ih | case5 y l hy hle hno ih =>
    rcases mem_cons.mp h with rfl | h
    · exact .inl mem_cons_self
    · exact (ih h).imp_left (mem_cons_of_mem y)
  | case3 y l hy hlt ih =>
    rcases mem_cons.mp h with rfl | h
    · exact .inr y.isEmpty_setEmpty
    · exact (ih h).imp_left (mem_cons_of_mem y)
  | case4 y l => exact .inl h

theorem queryLoop_snd : (queryLoop cfg now hash len l).2 =
    (l.find? fun x => ¬x.Free cfg now ∧ x.hash = hash ∧ (len = 0 ∨ len = x.getLen cfg)).map (Slot.address cfg) := by
  fun_induction queryLoop cfg now hash len l with
  | case1 => rfl
  | case2 y l hy ih | case3 y l hy hlt ih | case4 y l hy hle hhit | case5 y l hy hle hno ih => simp_all [Slot.Free]

theorem queryLoop_eq_some (h : (queryLoop cfg now hash len l).2 = some addr) :
    ∃ x ∈ l, ¬x.Free cfg now ∧ x.hash = hash ∧ (len = 0 ∨ len = x.getLen cfg) ∧ x.address cfg = addr := by
  rw [queryLoop_snd] at h
  obtain ⟨x, hx, rfl⟩ := map_eq_some_iff.mp h
  have hspec := find?_some hx
  rw [decide_eq_true_eq] at hspec
  exact ⟨x, mem_of_find?_eq_some hx, hspec.1, hspec.2.1, hspec.2.2, rfl⟩

/-! ## One call of `dns_cache_add` -/

theorem mem_replaced {w : Slot} {y z : List Slot} : w ∈ y ++ x :: z ↔ w = x ∨ w ∈ y ++ z := by
  simp only [mem_append, mem_cons, or_left_comm]

theorem modify_at (f : Slot → Slot) (y z : List Slot) : (y ++ x :: z).modify y.length f = y ++ f x :: z := by
  induction y with
  | nil => rfl
  | cons a y ih => exact congrArg (a :: ·) ih

namespace Add

def Unused (cfg : Config) (c : Add) (l : List Slot) : Prop := ∀ x ∈ l, ¬x.Free cfg c.now → ¬x.Matches cfg c

theorem Unused.cons (h : c.Unused cfg l) (hx : ¬x.Matches cfg c) :
    c.Unused cfg (x :: l) := forall_mem_cons.mpr ⟨fun _ => hx, h⟩

/-- The only slot in use for the name and length gets a new time, or there is none and some slot is written. -/
def Takes (cfg : Config) (c : Add) (l : List Slot) (i : Nat) (p : Option Place) : Prop :=
  (∃ y x z, l = y ++ x :: z ∧ p = some (.renew (i + y.length)) ∧ x.Matches cfg c ∧ (c.ttl ≠ 0 → ¬x.Free cfg c.now) ∧
    c.Unused cfg (y ++ z)) ∨
  c.Unused cfg l ∧ c.ttl ≠ 0 ∧ ∃ j < i + l.length, p = some (.write j)

theorem Takes.cons {i : Nat} {p : Option Place} (h : c.Takes cfg l (i + 1) p) (hx : ¬x.Matches cfg c) :
    c.Takes cfg (x :: l) i p := by
  rcases h with ⟨y, w, z, rfl, rfl, hw, hlive, hun⟩ | ⟨hun, httl, j, hj, hp⟩
  · refine .inl ⟨x :: y, w, z, rfl, ?_, hw, hlive, hun.cons hx⟩
    rw [length_cons, add_assoc, add_comm 1]
  · refine .inr ⟨hun.cons hx, httl, j, ?_, hp⟩
    rw [length_cons]; omega

theorem place_cases (hfirst : l.Pairwise (c.InFront cfg)) {i oldest : Nat} {idx : Option Nat}
    (hidx : ∀ j, idx = some j → j < i) :
    c.Takes cfg l i (c.place cfg l i oldest idx) ∨ c.Unused cfg l ∧ c.place cfg l i oldest idx = none ∧
      (c.ttl ≠ 0 → idx = none ∧ ∀ x ∈ l, ¬x.Free cfg c.now ∧ ¬x.Matches cfg c ∧ oldest ≤ c.left x) := by
  fun_induction place cfg c l i oldest idx with
  | case1 i oldest idx httl =>
    cases idx with
    | none => exact .inr ⟨forall_mem_nil _, rfl, fun _ => ⟨rfl, forall_mem_nil _⟩⟩
    | some j => exact .inl (.inr ⟨forall_mem_nil _, httl, j, hidx j rfl, rfl⟩)
  | case2 i oldest idx httl => exact .inr ⟨forall_mem_nil _, rfl, fun h => absurd h httl⟩
  | case3 x l i oldest idx hfree =>
    refine .inl (.inr ⟨forall_mem_cons.mpr ⟨fun hlive => absurd hfree.2 hlive, fun w hw hlive hm => ?_⟩, hfree.1,
      i, by simp, rfl⟩)
    exact (rel_of_pairwise_cons hfirst hw hlive hm).2 hfree.1 hfree.2
  | case4 x l i oldest idx hnot hm =>
    refine .inl (.inl ⟨[], x, l, rfl, rfl, hm, fun httl hfree => hnot ⟨httl, hfree⟩, fun w hw hlive hm' => ?_⟩)
    exact (rel_of_pairwise_cons hfirst hw hlive hm').1 hm
  | case5 x l i oldest idx hnot hm hlt ih =>
    rcases ih hfirst.of_cons (fun j hj => by cases hj; simp) with h | ⟨hun, hp, hnone⟩
    · exact .inl (h.cons hm)
    · exact .inr ⟨hun.cons hm, hp, fun httl => by cases (hnone httl).1⟩
  | case6 x l i oldest idx hnot hm hge ih =>
    rcases ih hfirst.of_cons (fun j hj => Nat.lt_succ_of_lt (hidx j hj)) with h | ⟨hun, hp, hnone⟩
    · exact .inl (h.cons hm)
    · refine .inr ⟨hun.cons hm, hp, fun httl => ?_⟩
      obtain ⟨hidx, hall⟩ := hnone httl
      exact ⟨hidx, forall_mem_cons.mpr ⟨⟨fun hfree => hnot ⟨httl, hfree⟩, hm, not_lt.mp hge⟩, hall⟩⟩

def Stored (cfg : Config) (c : Add) (x : Slot) : Prop :=
  x.Matches cfg c ∧ x.address cfg = c.addr ∧ x.expires = c.now + c.ttl

theorem entry_stored (hfits : c.Fits cfg) (htime : c.now + c.ttl < 2 ^ 32) (x : Slot) : c.Stored cfg (c.entry x) := by
  have hlen : (c.entry x).getLen cfg = c.addr.length := by
    rcases hfits with ⟨hl, hc⟩ | ⟨hl, hc⟩
    · simp [Slot.getLen, entry, hl, hc]
    · simp +contextual [Slot.getLen, entry, hl, hc]
  refine ⟨⟨rfl, hlen⟩, ?_, Nat.mod_eq_of_lt htime⟩
  rw [Slot.address, hlen]
  exact take_left

namespace Keeps
variable (h : c.Keeps cfg l)
include h

theorem live (hx : c.Stored cfg x) : ¬x.Free cfg c.now := by
  obtain ⟨b, hb, hne⟩ := h.nonzero
  have hempty : x.isEmpty cfg = false := by
    rw [Slot.isEmpty, hx.2.1, List.all_eq_false]
    exact ⟨b, hb, by simpa using hne⟩
  rintro (hlt | hem)
  · rw [hx.2.2] at hlt; omega
  · cases hempty.symm.trans hem

theorem slots_cases : (∃ y x z e, l = y ++ x :: z ∧ c.slots cfg l = y ++ e :: z ∧ c.Unused cfg (y ++ z) ∧
      (c.ttl ≠ 0 → c.Stored cfg e) ∧ (c.ttl = 0 → e.Free cfg c.now)) ∨
    c.slots cfg l = l ∧ c.Unused cfg l ∧
      (c.ttl ≠ 0 → ∀ x ∈ l, ¬x.Free cfg c.now ∧ ¬x.Matches cfg c ∧ c.ttl ≤ c.left x) := by
  have hcases : c.Takes cfg l 0 (c.place cfg l 0 c.ttl none) ∨ _ := place_cases h.first (by simp)
  rcases hcases with (⟨y, x, z, hl, hp, hm, hlive, hun⟩ | ⟨hun, httl, j, hj, hp⟩) | ⟨hun, hp, hnone⟩
  · refine .inl ⟨y, x, z, c.renewed x, hl, ?_, hun,
      fun httl => ⟨hm, h.known x (by simp [hl]) (hlive httl) hm httl, ?_⟩, fun hzero => .inl ?_⟩
    · rw [zero_add] at hp
      simp only [slots, hp]
      rw [hl, modify_at]
    · rw [renewed, if_pos httl, Nat.mod_eq_of_lt h.time]
    · have hpast := h.past hzero
      show (if c.ttl ≠ 0 then _ else _) < c.now
      rw [if_neg (not_not.mpr hzero)]; omega
  · have hj' : j % 256 < l.length := by omega
    obtain ⟨y, x, z, hl, -, hmod⟩ := exists_of_modify c.entry hj'
    refine .inl ⟨y, x, z, c.entry x, hl, ?_, fun w hw => hun w ?_, fun _ => entry_stored h.fits h.time x,
      fun hzero => absurd hzero httl⟩
    · simp only [slots, hp, hmod]
    · rw [hl, mem_replaced]; exact .inr hw
  · exact .inr ⟨by simp only [slots, hp], hun, fun httl => (hnone httl).2⟩

theorem in_use (hx : x ∈ c.slots cfg l) (hlive : ¬x.Free cfg c.now) : x ∈ l ∧ ¬x.Matches cfg c ∨ c.Stored cfg x := by
  rcases h.slots_cases with ⟨y, w, z, e, rfl, hadd, hun, hstored, hfree⟩ | ⟨hadd, hun, -⟩
  · rw [hadd, mem_replaced] at hx
    rcases hx with rfl | hx
    · by_cases httl : c.ttl = 0
      · exact absurd (hfree httl) hlive
      · exact .inr (hstored httl)
    · exact .inl ⟨mem_replaced.mpr (.inr hx), hun x hx hlive⟩
  · rw [hadd] at hx; exact .inl ⟨hx, hun x hx hlive⟩

theorem retained (httl : c.ttl ≠ 0) :
    (queryLoop cfg c.now c.hash c.addr.length (c.slots cfg l)).2 = some c.addr ∨
      ∀ x ∈ l, x.isEmpty cfg = false ∧ c.now + c.ttl < x.expires := by
  rcases h.slots_cases with ⟨y, w, z, e, -, hadd, -, hstored, -⟩ | ⟨-, -, hnone⟩
  · left
    have hin : e ∈ c.slots cfg l := by simp [hadd]
    obtain ⟨hhash, hlen⟩ := (hstored httl).1
    have hhit : (queryLoop cfg c.now c.hash c.addr.length (c.slots cfg l)).2 ≠ none := by
      rw [queryLoop_snd, ne_eq, map_eq_none_iff, find?_eq_none]
      exact fun hall => hall e hin (decide_eq_true ⟨h.live (hstored httl), hhash, .inr hlen.symm⟩)
    obtain ⟨a, ha⟩ := ne_none_iff_exists'.mp hhit
    obtain ⟨x, hx, hlive, hhash, hx', rfl⟩ := queryLoop_eq_some ha
    rw [ha]
    rcases h.in_use hx hlive with ⟨-, hother⟩ | ⟨-, haddr, -⟩
    · refine absurd ⟨hhash, ?_⟩ hother
      rcases h.fits with hfits | hfits <;> omega
    · rw [haddr]
  · right
    have hstays : ∀ x ∈ l, ¬x.Free cfg c.now ∧ ¬x.Matches cfg c ∧ c.now + c.ttl ≤ x.expires := by
      intro x hx
      obtain ⟨hlive, hother, hle⟩ := hnone httl x hx
      have hnow := (Slot.not_free hlive).1
      rw [left] at hle; exact ⟨hlive, hother, by omega⟩
    intro x hx
    obtain ⟨hlive, -, hle⟩ := hstays x hx
    exact ⟨(Slot.not_free hlive).2, lt_of_le_of_ne hle (h.noTie hstays x hx).symm⟩

end Keeps
end Add
end

/-! ## Runs -/

namespace Cache
section
variable {ν : Type} {cfg : Config} {hash : ν → BitVec 32} {s u : Cache ν}

theorem Fresh.sound (h : s.Fresh) : s.Sound cfg hash := by
  refine ⟨h.clock, fun x hx hlive => absurd (.inr ?_) hlive⟩
  rw [Slot.isEmpty, List.all_eq_true]
  intro b hb
  simp [h.slots x hx b (mem_of_mem_take hb)]

theorem Sound.latest (hs : s.Sound cfg hash) (hinj : Function.Injective hash) : s.AnswersLatest cfg hash := by
  intro name family addr h
  obtain ⟨x, hx, hlive, hhash, -, rfl⟩ := queryLoop_eq_some h
  obtain ⟨n, ttl, t, hn, -, hlast, hexp, -, ht⟩ := hs.slot x hx hlive
  cases hinj (hhash.symm.trans hn)
  refine ⟨ttl, t, hlast, ht, fun hin => ?_⟩
  have hle := (Slot.not_free hlive).1
  have hsecond := hin _ _ _ hlast
  rw [hexp, now, Nat.mod_eq_of_lt hs.clock] at hle
  omega

variable [DecidableEq ν]

theorem Sound.add {name : ν} {addr : List Byte} {ttl : BitVec 32} (hs : s.Sound cfg hash)
    (hk : (s.call hash name addr ttl).Keeps cfg s.slots) : (s.add cfg hash name addr ttl).Sound cfg hash := by
  refine ⟨hs.clock, fun x hx hlive => ?_⟩
  rcases hk.in_use hx hlive with ⟨hin, hother⟩ | ⟨⟨hhash, hlen⟩, haddr, hexp⟩
  · obtain ⟨n, k, t, hn, hlen, hlast, hspec⟩ := hs.slot x hin hlive
    refine ⟨n, k, t, hn, hlen, ?_, hspec⟩
    rw [← hlast]
    refine if_neg ?_
    rintro ⟨rfl, heq⟩
    exact hother ⟨hn, hlen.trans heq⟩
  · cases haddr
    have hnow : s.now = s.clock / 1000 := by rw [now, Nat.mod_eq_of_lt hs.clock]
    exact ⟨name, ttl.toNat, s.clock, hhash, hlen, if_pos ⟨rfl, rfl⟩, hexp.trans (congrArg (· + ttl.toNat) hnow),
      hexp ▸ hk.time, le_rfl⟩

theorem step_sound {op : Op ν} (hs : s.Sound cfg hash) (hg : s.Good cfg hash op) (hu : s.step cfg hash op = some u) :
    u.Sound cfg hash := by
  cases op with
  | advance ms =>
    cases hu
    have hle : s.now ≤ now { s with clock := s.clock + ms } := by
      simp only [now, Nat.mod_eq_of_lt hs.clock, Nat.mod_eq_of_lt hg]; omega
    refine ⟨hg, fun x hx hlive => ?_⟩
    obtain ⟨n, ttl, t, hn, hlen, hlast, hexp, hlt, ht⟩ :=
      hs.slot x hx fun hfree => hlive (hfree.imp_left fun h => lt_of_lt_of_le h hle)
    exact ⟨n, ttl, t, hn, hlen, hlast, hexp, hlt, Nat.le_add_right_of_le ht⟩
  | add name addr ttl =>
    simp only [step, ite_none_right_eq_some, some.injEq] at hu
    obtain ⟨-, rfl⟩ := hu
    exact hs.add hg
  | query name family =>
    cases hu
    refine ⟨hs.clock, fun x hx hlive => ?_⟩
    rcases mem_queryLoop hx with hx | hempty
    · exact hs.slot x hx hlive
    · exact absurd (.inr hempty) hlive

/-- Runs whose calls all meet `Good` answer with the latest address, and keep what was just added. -/
theorem answers_latest_of_good (hinj : Function.Injective hash) {s0 : Cache ν} (hfresh : s0.Fresh)
    (h : ReachVia (step cfg hash) (Good cfg hash) s0 s) : s.AnswersLatest cfg hash ∧ s.Retains cfg hash := by
  have hs : s.Sound cfg hash := h.inv _ hfresh.sound fun _ _ _ hs hg hstep => step_sound hs hg hstep
  refine ⟨hs.latest hinj, fun name addr ttl family hg httl hlen => ?_⟩
  unfold query
  rw [hlen]
  exact Add.Keeps.retained hg fun hzero => httl (BitVec.eq_of_toNat_eq hzero)

end

def oneSlot : Cache Unit := ⟨[⟨0, 0, replicate 16 0, false⟩], 2000, fun _ _ => none⟩

def both : Config := ⟨true, true⟩

def sampleHash (_ : Unit) : BitVec 32 := 7

theorem good_add_oneSlot {ttl : BitVec 32} (h : ttl = 1 ∨ ttl = 5) :
    oneSlot.Good both sampleHash (.add () [1, 2, 3, 4] ttl) := by
  rcases h with rfl | rfl <;>
    exact ⟨.inl ⟨rfl, rfl⟩, by decide, by decide, by decide, by decide, pairwise_singleton .., by decide⟩

theorem good_advance_oneSlot {ttl : BitVec 32} (ms : Nat) (h : 2000 + ms < 2 ^ 32) :
    Good both sampleHash (oneSlot.add both sampleHash () [1, 2, 3, 4] ttl) (.advance ms) := h

theorem answers_latest_oneSlot : ∃ s, ReachVia (step both sampleHash) (Good both sampleHash) oneSlot s ∧
    (s.query both sampleHash () .inet).2 = some [1, 2, 3, 4] ∧ s.InTime () 4 ∧
    s.AnswersLatest both sampleHash ∧ s.Retains both sampleHash := by
  have hadd : ReachVia (step both sampleHash) (Good both sampleHash) oneSlot _ :=
    .next .start (good_add_oneSlot (.inr rfl)) rfl
  have hreach := hadd.next (good_advance_oneSlot 5000 (by decide)) rfl
  refine ⟨_, hreach, by decide, ?_,
    answers_latest_of_good (fun _ _ _ => rfl) ⟨by decide, by decide, fun _ _ => rfl⟩ hreach⟩
  intro addr ttl t hlast _
  cases hlast
  decide

/-- The second call leaves the first address in the slot. An address of one second is given for
almost two. -/
theorem answers_first :
    (∃ s, ReachVia (step both sampleHash) (fun _ _ => True) oneSlot s ∧
      s.last () 4 = some ([5, 6, 7, 8], 60, 2000) ∧ (s.query both sampleHash () .inet).2 = some [1, 2, 3, 4]) ∧
    ∃ s, ReachVia (step both sampleHash) (Good both sampleHash) oneSlot s ∧ s.clock = 3999 ∧
      s.last () 4 = some ([1, 2, 3, 4], 1, 2000) ∧ (s.query both sampleHash () .inet).2 = some [1, 2, 3, 4] := by
  constructor
  · have hadd : ReachVia (step both sampleHash) (fun _ _ => True) oneSlot _ :=
      .next .start (a := .add () [1, 2, 3, 4] 60) trivial rfl
    exact ⟨_, hadd.next (a := .add () [5, 6, 7, 8] 60) trivial rfl, by decide, by decide⟩
  · have hadd : ReachVia (step both sampleHash) (Good both sampleHash) oneSlot _ :=
      .next .start (good_add_oneSlot (.inl rfl)) rfl
    exact ⟨_, hadd.next (good_advance_oneSlot 1999 (by decide)) rfl, rfl, by decide, by decide⟩

end Cache
end PipRiot.Dns
