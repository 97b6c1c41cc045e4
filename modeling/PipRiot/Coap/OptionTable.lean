import PipRiot.Coap.Wire

/-!
# The table of options

`coap_parse` keeps an entry for each option number, `coap_find_option` searches the
entries, and `coap_opt_get_next` decodes the options once more. Both are compared with
the options of the message under their true numbers, the sums of the deltas.
-/

namespace PipRiot.Coap

open Reading List

def findOption (pkt : Pkt) (optNum : Nat) : Option Nat := (pkt.options.find? (·.optNum = optNum)).map (·.offset)

structure Placed where
  number : Nat
  offset : Nat
  value : Nat
  length : Nat

def placed (n pos : Nat) : List (Nat × List UInt8) → List Placed
  | [] => []
  | (d, val) :: opts =>
    ⟨n + d, pos, pos + 1 + (ext d).length + (ext val.length).length, val.length⟩ ::
      placed (n + d) (pos + (optBytes d val).length) opts

def Msg.placed (x : Msg) : List Placed := Coap.placed 0 (4 + x.token.length) x.opts

/-- Calls of `coap_opt_get_next` return these options one after the other, and then
`-ENOENT`. -/
def Enumerates (pkt : Pkt) : OptPos → Bool → List Placed → Prop
  | opt, initOpt, [] => (optGetNext pkt opt initOpt).1 = -enoent
  | opt, initOpt, q :: qs =>
    let r := optGetNext pkt opt initOpt
    r.1 = q.length ∧ r.2.2 = q.value ∧ r.2.1.optNum = q.number ∧ Enumerates pkt r.2.1 false qs

structure Bookkept (nopts : Nat) (m : Nat → UInt8) (x : Msg) (p : Pkt) : Prop where
  unread : ∀ m' : Nat → UInt8, (∀ i < x.bytes.length, m' i = m i) →
    parse nopts m' x.bytes.length = .ok { p with hdr := m' }
  increasing : p.options.Pairwise (·.optNum < ·.optNum)
  recorded : ∀ o ∈ p.options, (x.placed.find? (·.number = o.optNum)).map (·.offset) = some o.offset
  found : ∀ n, findOption p n = (x.placed.find? (·.number = n)).map (·.offset)
  enumerated : ∀ opt, Enumerates p opt true x.placed
  inside : ∀ q ∈ x.placed, 4 + x.token.length ≤ q.value ∧ q.value + q.length ≤ p.payload

def Msg.Plain (x : Msg) : Prop := (∀ o ∈ x.opts.head?, o.1 ≠ 0) ∧ (x.opts.map (·.1)).sum < 2 ^ 16 ∧ x.optsEnd < 2 ^ 16

section
variable {nopts len : Nat} {m : Nat → UInt8} {pkt p : Pkt} {x : Msg}

/-! ## The entries -/

theorem recorded_increasing : ∀ (opts : List (Nat × List UInt8)) (n pos : Nat), n + (opts.map (·.1)).sum < 2 ^ 16 →
    (recorded n pos opts).Pairwise (·.optNum < ·.optNum) ∧ ∀ o ∈ recorded n pos opts, n < o.optNum
  | [], _, _, _ => by simp [recorded]
  | (d, val) :: opts, n, pos, hn => by
    rw [map_cons, sum_cons] at hn
    obtain ⟨hinc, hlt⟩ := recorded_increasing opts (n + d) (pos + (optBytes d val).length) (by omega)
    rw [recorded, Nat.mod_eq_of_lt (by omega : n + d < 2 ^ 32)]
    by_cases hd : d = 0
    · subst hd; exact ⟨hinc, hlt⟩
    · rw [if_neg hd, Nat.mod_eq_of_lt (by omega), pairwise_cons, forall_mem_cons]
      exact ⟨⟨hlt, hinc⟩, by simp only; omega, fun o ho => lt_of_le_of_lt (Nat.le_add_right n d) (hlt o ho)⟩

theorem find_recorded (k : Nat) : ∀ (opts : List (Nat × List UInt8)) (n pos : Nat), n + (opts.map (·.1)).sum < 2 ^ 16 →
    pos + (optsBytes opts).length < 2 ^ 16 → (k = n → ∀ o ∈ opts.head?, o.1 ≠ 0) →
    ((recorded n pos opts).find? (·.optNum = k)).map (·.offset) =
      ((placed n pos opts).find? (·.number = k)).map (·.offset)
  | [], _, _, _, _, _ => rfl
  | (d, val) :: opts, n, pos, hn, hpos, hk => by
    rw [map_cons, sum_cons] at hn
    rw [optsBytes_cons, length_append] at hpos
    have ih := find_recorded k opts (n + d) (pos + (optBytes d val).length) (by omega) (by omega)
    rw [recorded, placed, Nat.mod_eq_of_lt (by omega : n + d < 2 ^ 32)]
    by_cases hd : d = 0
    · have hne : n + d ≠ k := fun h => hk (by omega) _ rfl hd
      rw [if_pos hd, find?_cons_of_neg (by simpa using hne)]
      exact ih fun h => absurd h.symm hne
    · rw [if_neg hd, Nat.mod_eq_of_lt (by omega), Nat.mod_eq_of_lt (by omega)]
      by_cases heq : n + d = k
      · rw [find?_cons_of_pos (by simpa using heq), find?_cons_of_pos (by simpa using heq)]
        rfl
      · rw [find?_cons_of_neg (by simpa using heq), find?_cons_of_neg (by simpa using heq)]
        exact ih fun h => absurd h.symm heq

theorem find_mem : ∀ {options : List OptPos}, options.Pairwise (·.optNum < ·.optNum) → ∀ o ∈ options,
    options.find? (·.optNum = o.optNum) = some o
  | o' :: options, hinc, o, ho => by
    rw [pairwise_cons] at hinc
    rcases mem_cons.1 ho with rfl | ho
    · exact find?_cons_of_pos (by simp)
    · rw [find?_cons_of_neg (by simpa using Nat.ne_of_lt (hinc.1 o ho))]
      exact find_mem hinc.2 o ho

/-! ## From option to option -/

theorem placed_inside : ∀ (opts : List (Nat × List UInt8)) (n pos : Nat), ∀ q ∈ placed n pos opts,
    pos ≤ q.value ∧ q.value + q.length ≤ pos + (optsBytes opts).length
  | [], _, _, _, hq => absurd hq not_mem_nil
  | (d, val) :: opts, n, pos, q, hq => by
    have hsize := @length_optBytes d val
    rw [optsBytes_cons, length_append]
    rcases mem_cons.1 hq with rfl | hq
    · simp only
      omega
    · have := placed_inside opts _ _ q hq; omega

theorem decodeValue_snd_le {n pos stop : Nat} : (decodeValue m n pos stop).2 ≤ pos + 2 := by
  fun_cases decodeValue m n pos stop <;> simp

theorem optGetNext_value_le {opt : OptPos} : (optGetNext pkt opt false).2.2 ≤ opt.offset + 5 := by
  simp only [optGetNext, Bool.false_eq_true, if_false, parseOption]
  split
  · simp
  · rename_i hsome
    rw [Option.ite_none_left_eq_some] at hsome
    cases hsome.2
    have h1 := @decodeValue_snd_le pkt.hdr ((pkt.hdr opt.offset).toNat / 16) (opt.offset + 1) pkt.payload
    exact le_trans decodeValue_snd_le (by omega)

theorem enumerates_placed_iff : ∀ (opts : List (Nat × List UInt8)) (n pos : Nat), Holds pkt.hdr pos (optsBytes opts) →
    (∀ o ∈ opts, Fits o) → n < 2 ^ 16 → pos < 2 ^ 16 → pos + (optsBytes opts).length ≤ pkt.payload →
    (pkt.payload ≤ pos + (optsBytes opts).length ∨ pos + (optsBytes opts).length + 1 = pkt.payload ∧
      pkt.hdr (pos + (optsBytes opts).length) = 0xff) →
    (Enumerates pkt ⟨n, pos⟩ false (placed n pos opts) ↔ n + (opts.map (·.1)).sum < 2 ^ 16 ∧
      pos + (optsBytes opts).length < 2 ^ 16)
  | [], n, pos, _, _, hn, hpos, _, hend => by
    rw [optsBytes_nil, length_nil, add_zero] at hend
    exact iff_of_true (by simp [placed, Enumerates, optGetNext, parseOption, hend]) ⟨hn, hpos⟩
  | (d, val) :: opts, n, pos, h, hfits, hn, hpos, hle, hend => by
    rw [optsBytes_cons, holds_append] at h
    rw [optsBytes_cons, length_append, ← add_assoc] at hle hend ⊢
    rw [forall_mem_cons] at hfits
    rw [placed, Enumerates, optGetNext_opt h.1 hfits.1 (by omega), map_cons, sum_cons, ← add_assoc]
    have ih := fun hlt hnext => enumerates_placed_iff opts (n + d) _ h.2 hfits.2 hlt hnext hle hend
    constructor
    · rintro ⟨-, -, hnum, hrest⟩
      simp only at hnum hrest
      have hlt : n + d < 2 ^ 16 := by omega
      by_cases hnext : pos + (optBytes d val).length < 2 ^ 16
      · rw [hnum, Nat.mod_eq_of_lt hnext] at hrest; exact (ih hlt hnext).1 hrest
      · -- the next call starts again from the beginning of the message
        cases opts with
        | nil =>
          exact absurd hrest (optGetNext_before (by simp only; omega)).1
        | cons o opts =>
          have hvalue := @optGetNext_value_le pkt ⟨(n + d) % 2 ^ 16, (pos + (optBytes d val).length) % 2 ^ 16⟩
          rw [hrest.2.1] at hvalue
          simp only at hvalue
          omega
    · rintro ⟨hsum, hlen⟩
      rw [Nat.mod_eq_of_lt (by omega), Nat.mod_eq_of_lt (by omega)]
      exact ⟨rfl, rfl, rfl, (ih (by omega) (by omega)).2 ⟨hsum, hlen⟩⟩

theorem enumerates_init (opt : OptPos) (qs : List Placed) :
    Enumerates pkt opt true qs ↔ Enumerates pkt ⟨0, 4 + tokenLen pkt.hdr⟩ false qs := by
  cases qs <;> rfl

/-! ## The table and the message -/

theorem bookkept_iff (hx : x.Ok nopts) (h : Holds m 0 x.bytes) : Bookkept nopts m x (x.parsed m) ↔ x.Plain := by
  have hp := x.parsed_spec m
  have htoken := hx.token_le
  have hle : x.optsEnd ≤ (x.parsed m).payload := hp.payload_eq ▸ Nat.le_add_right ..
  have henum : ∀ opt, Enumerates (x.parsed m) opt true x.placed ↔ 0 + (x.opts.map (·.1)).sum < 2 ^ 16 ∧
      x.optsEnd < 2 ^ 16 := by
    intro opt
    rw [enumerates_init, hp.tokenLen_eq hx h]
    exact enumerates_placed_iff x.opts 0 _ (Msg.holds_bytes.1 h).2.2.1 hx.fits (by decide) (by omega) hle (hp.at_end h)
  constructor
  · intro hb
    obtain ⟨hsum, hend⟩ := (henum ⟨0, 0⟩).1 (hb.enumerated _)
    refine ⟨fun o ho hzero => ?_, by omega, hend⟩
    -- an entry for number 0 is never made
    have hnone : findOption (x.parsed m) 0 = none := by
      rw [findOption, Option.map_eq_none_iff, find?_eq_none]
      intro o ho
      simpa using Nat.ne_of_gt ((recorded_increasing x.opts 0 _ hsum).2 o ho)
    obtain ⟨opts, hcons⟩ := head?_eq_some_iff.1 ho
    rw [hb.found 0, Msg.placed, hcons, placed, find?_cons_of_pos (by simpa using hzero)] at hnone
    exact Option.some_ne_none _ hnone
  · rintro ⟨hfirst, hsum, hend⟩
    have hinc := (recorded_increasing x.opts 0 (4 + x.token.length) (by omega)).1
    have hfound := fun n => find_recorded n x.opts 0 (4 + x.token.length) (by omega) hend fun _ => hfirst
    refine ⟨fun m' heq => ?_, hinc, fun o ho => ?_, hfound, fun opt => (henum opt).2 ⟨by omega, hend⟩, fun q hq => ?_⟩
    · exact parse_bytes hx (h.congr fun i _ hi => heq i (by omega))
    · rw [Msg.placed, ← hfound, find_mem hinc o ho]; rfl
    · have := placed_inside x.opts 0 _ q hq
      exact ⟨this.1, le_trans this.2 hle⟩

theorem options_bookkept_iff (h : parse nopts m len = .ok p) :
    ∃ x : Msg, x.Ok nopts ∧ Holds m 0 x.bytes ∧ x.bytes.length = len ∧ (Bookkept nopts m x p ↔ x.Plain) := by
  obtain ⟨x, hx, hholds, rfl⟩ := of_parse h
  rw [parse_bytes hx hholds] at h
  cases h
  exact ⟨x, hx, hholds, rfl, bookkept_iff hx hholds⟩

end

def messageOf (bytes : List UInt8) : Nat → UInt8 := (bytes.getD · 0)

def getA : Nat → UInt8 := messageOf [0x40, 1, 0, 0, 0xb1, 97]

theorem eq_of_nibble {v k : Nat} (h : nibble v = k) (hk : k < 13) : v = k := by
  unfold nibble at h
  split at h
  · exact h
  · split at h <;> omega

theorem plain_getA {x : Msg} (hx : x.Ok 16) (h : Holds getA 0 x.bytes) (hlen : x.bytes.length = 6) : x.Plain := by
  obtain ⟨⟨hver, -⟩, -, hopts, -⟩ := Msg.holds_bytes.1 h
  have htoken : x.token.length = 0 := by
    rw [← hx.tokenLen, ← hver]; rfl
  have hle : x.optsEnd ≤ 6 := by
    rw [← hlen, x.length_bytes]; exact Nat.le_add_right _ _
  have hbytes : (optsBytes x.opts).length ≤ 2 := by
    unfold Msg.optsEnd at hle; omega
  rw [htoken] at hopts
  cases ho : x.opts with
  | nil => exact ⟨by simp [ho], by simp [ho], lt_of_le_of_lt hle (by decide)⟩
  | cons o rest =>
    obtain ⟨delta, val⟩ := o
    rw [ho] at hopts hbytes
    rw [optsBytes_cons, length_append, length_optBytes] at hbytes
    have hcodes : getA 4 = UInt8.ofNat (16 * nibble delta + nibble val.length) :=
      (holds_cons.1 (holds_append.1 hopts).1).1
    have hdelta : delta = 11 := by
      refine eq_of_nibble ?_ (by decide)
      rw [← @codes_div val.length delta, ← hcodes]; rfl
    have hval : val.length = 1 := by
      refine eq_of_nibble ?_ (by decide)
      rw [← @codes_mod val.length delta, ← hcodes]; rfl
    have hrest : rest = [] := eq_nil_of_length_eq_zero (by have := length_le_optsBytes rest; omega)
    exact ⟨by simp [ho, hdelta], by simp [ho, hdelta, hrest], lt_of_le_of_lt hle (by decide)⟩

theorem options_of_get_a : ∃ p, parse 16 getA 6 = .ok p ∧
    ∃ x : Msg, x.Ok 16 ∧ Holds getA 0 x.bytes ∧ x.bytes.length = 6 ∧ x.Plain ∧ Bookkept 16 getA x p := by
  refine ⟨_, rfl, ?_⟩
  obtain ⟨x, hx, hholds, hlen, hiff⟩ := @options_bookkept_iff 16 6 getA _ rfl
  have hplain := plain_getA hx hholds hlen
  exact ⟨x, hx, hholds, hlen, hplain, hiff.mpr hplain⟩

/-- An option numbered 0 that comes first has no entry, and number 65536 gets the entry
of number 0. -/
theorem option_zero_confused :
    (∃ p, parse 16 (messageOf [0x40, 1, 0, 0, 0]) 5 = .ok p ∧ findOption p 0 = none ∧
      (Msg.mk 0x40 1 (0, 0) [] [(0, [])] none).bytes = [0x40, 1, 0, 0, 0]) ∧
    ∃ p, parse 16 (messageOf [0x40, 1, 0, 0, 0xe0, 0xfe, 0xf3]) 7 = .ok p ∧ findOption p 0 = some 4 ∧
      findOption p 65536 = none ∧
      (Msg.mk 0x40 1 (0, 0) [] [(65536, [])] none).bytes = [0x40, 1, 0, 0, 0xe0, 0xfe, 0xf3] :=
  ⟨⟨_, rfl, rfl, by decide⟩, _, rfl, rfl, rfl, by decide⟩

end PipRiot.Coap
