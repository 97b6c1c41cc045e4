import PipRiot.Coap.Wire

/-!
# Cache keys

`cache.c`: the key of a request is the hash of the values of its options. Which bytes
are hashed depends on how many options `coap_parse` counted, and nothing separates the
values, so that requests with the same bytes need not be the same requests.
-/

namespace PipRiot.Coap

open Reading List

def noCacheKey (optNum : Nat) : Bool := optNum &&& 0x1E == 0x1C

/-- The two `continue`s; the flag is `MODULE_GCOAP_FORWARD_PROXY`, and 4 is `COAP_OPT_ETAG`. -/
def skipped (proxy : Bool) (optNum : Nat) : Bool := proxy && optNum == 4 || noCacheKey optNum

def keyLoop (proxy : Bool) (req : Pkt) : Nat → OptPos → Bool → List UInt8
  | 0, _, _ => []
  | n + 1, opt, initOpt =>
    match optGetNext req opt initOpt with
    | (optlen, opt', value) =>
      (if 0 ≤ optlen then if skipped proxy opt'.optNum then [] else bytesAt req.hdr value optlen.toNat else []) ++
        keyLoop proxy req n opt' false

/-- What `nanocoap_cache_key_generate` feeds to the hash; 5 is `COAP_METHOD_FETCH`. -/
def keyInput (proxy : Bool) (req : Pkt) : List UInt8 :=
  keyLoop proxy req req.options.length ⟨0, 0⟩ true ++
    if req.hdr 1 = 5 then bytesAt req.hdr req.payload req.payloadLen else []

variable (nopts : Nat) (proxy : Bool)

def Accepted (p : Pkt) : Prop := ∃ m len, parse nopts m len = .ok p

def optionsOf (p : Pkt) : List (Nat × List UInt8) := (optEnum p (p.payload + 1) ⟨0, 0⟩ true).getD []

def cacheable (opts : List (Nat × List UInt8)) : List (Nat × List UInt8) := opts.filter fun o => !noCacheKey o.1

/-- The options that belong to the key and that the loop passes over or does not reach. -/
def unfed (p : Pkt) : List (Nat × List UInt8) :=
  cacheable (((optionsOf p).take p.options.length).filter fun o => skipped proxy o.1) ++
    cacheable ((optionsOf p).drop p.options.length)

def shapes (opts : List (Nat × List UInt8)) : List (Nat × Nat) := opts.map fun o => (o.1, o.2.length)

/-- The lengths of the options that the loop visits and does not pass over, and of the payload of a FETCH. -/
def fedLength (p : Pkt) : Nat :=
  ((((shapes (optionsOf p)).take p.options.length).filter fun o => !skipped proxy o.1).map (·.2)).sum +
    if p.hdr 1 = 5 then p.payloadLen else 0

structure SameShape (q p : Pkt) : Prop where
  code : q.hdr 1 = p.hdr 1
  payload : q.payload = p.payload
  payloadLen : q.payloadLen = p.payloadLen
  count : q.options.length = p.options.length
  options : shapes (optionsOf q) = shapes (optionsOf p)

section
variable {nopts proxy} {p q : Pkt} {l l' : List (Nat × List UInt8)}

/-! ## What is fed -/

theorem keyLoop_eq : ∀ (k n : Nat) (opt : OptPos) (initOpt : Bool) (l : List (Nat × List UInt8)),
    optEnum p k opt initOpt = some l → n ≤ l.length →
    keyLoop proxy p n opt initOpt = ((l.take n).filter fun o => !skipped proxy o.1).flatMap (·.2)
  | _, 0, _, _, _, _, _ => rfl
  | 0, n + 1, _, _, _, h, _ => by cases h
  | k + 1, n + 1, opt, initOpt, l, h, hn => by
    rw [optEnum] at h
    rw [keyLoop]
    generalize optGetNext p opt initOpt = r at h ⊢
    obtain ⟨optlen, opt', value⟩ := r
    dsimp only at h ⊢
    split at h
    · cases h; cases hn
    · split at h
      · cases h
      · obtain ⟨rest, hrest, rfl⟩ := Option.map_eq_some_iff.1 h
        rw [if_pos (by omega), keyLoop_eq k n opt' false rest hrest (Nat.le_of_succ_le_succ hn), take_succ_cons,
          filter_cons]
        cases skipped proxy opt'.optNum <;> simp

theorem Parsed.optionsOf {m : Nat → UInt8} {x : Msg} (hx : x.Ok nopts) (h : Holds m 0 x.bytes) (hp : Parsed m x p)
    (hl : p.payload < 2 ^ 16) : optionsOf p = numbered 0 x.opts := by
  have hend : x.optsEnd ≤ p.payload := by
    have := hp.payload
    rw [x.length_bytes, x.length_tailBytes] at this; omega
  have hcount : x.opts.length ≤ p.payload := by
    have := length_le_optsBytes x.opts
    unfold Msg.optsEnd at hend; omega
  have henum := (optEnum_msg hx h hp ⟨0, 0⟩ (p.payload - x.opts.length)).1 (by omega)
  rw [show x.opts.length + (p.payload - x.opts.length + 1) = p.payload + 1 by omega] at henum
  rw [Coap.optionsOf, henum, Option.getD_some]

theorem Accepted.msg (h : Accepted nopts p) : ∃ x : Msg, x.Ok nopts ∧ Holds p.hdr 0 x.bytes ∧ Parsed p.hdr x p := by
  obtain ⟨m, len, hparse⟩ := h
  obtain ⟨x, hx, hholds, rfl⟩ := of_parse hparse
  obtain ⟨p', hparse', hp⟩ := parse_msg hx hholds
  rw [hparse] at hparse'
  cases hparse'
  obtain rfl := hp.hdr
  exact ⟨x, hx, hholds, hp⟩

theorem length_numbered : ∀ (n : Nat) (opts : List (Nat × List UInt8)), (numbered n opts).length = opts.length
  | _, [] => rfl
  | n, (d, _) :: opts => congrArg (· + 1) (length_numbered ((n + d) % 2 ^ 16) opts)

theorem Accepted.count_le (h : Accepted nopts p) (hl : p.payload < 2 ^ 16) :
    p.options.length ≤ (optionsOf p).length := by
  obtain ⟨x, hx, hholds, hp⟩ := h.msg
  rw [hp.options, hp.optionsOf hx hholds hl, length_numbered]
  exact countP_le_length

theorem keyInput_eq (h : Accepted nopts p) (hl : p.payload < 2 ^ 16) : keyInput proxy p =
    (((optionsOf p).take p.options.length).filter fun o => !skipped proxy o.1).flatMap (·.2) ++
      if p.hdr 1 = 5 then bytesAt p.hdr p.payload p.payloadLen else [] := by
  have hcount := h.count_le hl
  rw [keyInput]
  congr 1
  cases henum : optEnum p (p.payload + 1) ⟨0, 0⟩ true with
  | none =>
    rw [optionsOf, henum, Option.getD_none] at hcount ⊢
    rw [Nat.le_zero.1 hcount, keyLoop]; rfl
  | some l =>
    rw [optionsOf, henum, Option.getD_some] at hcount ⊢
    exact keyLoop_eq _ _ _ _ l henum hcount

/-! ## Requests of one shape -/

theorem shapes_append : shapes (l ++ l') = shapes l ++ shapes l' := map_append

theorem shapes_filter (f : Nat → Bool) : shapes (l.filter fun o => f o.1) = (shapes l).filter fun o => f o.1 := by
  rw [shapes, shapes, filter_map]
  rfl

theorem shapes_take (n : Nat) : shapes (l.take n) = (shapes l).take n := map_take

theorem length_values : (l.flatMap (·.2)).length = ((shapes l).map (·.2)).sum := by
  rw [length_flatMap, shapes, map_map]
  rfl

theorem values_inj : ∀ (l l' : List (Nat × List UInt8)) (s s' : List UInt8), shapes l = shapes l' →
    l.flatMap (·.2) ++ s = l'.flatMap (·.2) ++ s' → l = l'
  | [], [], _, _, _, _ => rfl
  | [], _ :: _, _, _, hsh, _ => by cases hsh
  | _ :: _, [], _, _, hsh, _ => by cases hsh
  | (num, v) :: l, (num', v') :: l', s, s', hsh, h => by
    simp only [shapes, map_cons, List.cons.injEq, Prod.mk.injEq] at hsh
    obtain ⟨⟨rfl, hlen⟩, hrest⟩ := hsh
    rw [flatMap_cons, flatMap_cons, append_assoc, append_assoc] at h
    obtain ⟨hv, htl⟩ := append_inj h hlen
    dsimp only at hv
    rw [hv, values_inj l l' s s' hrest htl]

theorem optsBytes_shapes :
    ∀ (l l' : List (Nat × List UInt8)), shapes l = shapes l' → (optsBytes l).length = (optsBytes l').length ∧
    newCount l = newCount l' ∧ ((∀ o ∈ l, Fits o) → ∀ o ∈ l', Fits o)
  | [], [], _ => ⟨rfl, rfl, id⟩
  | [], _ :: _, hsh => by cases hsh
  | _ :: _, [], hsh => by cases hsh
  | (d, v) :: l, (d', v') :: l', hsh => by
    simp only [shapes, map_cons, List.cons.injEq, Prod.mk.injEq] at hsh
    obtain ⟨⟨rfl, hlen⟩, hrest⟩ := hsh
    obtain ⟨hbytes, hcount, hfits⟩ := optsBytes_shapes l l' hrest
    refine ⟨?_, ?_, fun h => forall_mem_cons.2 ⟨⟨(h _ (.head _)).1, ?_⟩, hfits fun o ho => h o (.tail _ ho)⟩⟩
    · rw [optsBytes_cons, optsBytes_cons, length_append, length_append, length_optBytes, length_optBytes, hlen, hbytes]
    · rw [newCount, newCount, countP_cons, countP_cons]
      exact congrArg (· + _) hcount
    · exact hlen ▸ (h _ (.head _)).2

theorem exists_numbered : ∀ (opts : List (Nat × List UInt8)) (n : Nat) (l : List (Nat × List UInt8)),
    shapes l = shapes (numbered n opts) → ∃ opts', numbered n opts' = l ∧ shapes opts = shapes opts'
  | [], _, [], _ => ⟨[], rfl, rfl⟩
  | [], _, _ :: _, h => by cases h
  | (_, _) :: _, _, [], h => by cases h
  | (d, v) :: opts, n, (num, v') :: l, h => by
    simp only [numbered, shapes, map_cons, List.cons.injEq, Prod.mk.injEq] at h
    obtain ⟨⟨rfl, hlen⟩, hrest⟩ := h
    obtain ⟨opts', rfl, hsh⟩ := exists_numbered opts _ l hrest
    refine ⟨(d, v') :: opts', rfl, ?_⟩
    rw [shapes, shapes, map_cons, map_cons, hlen]; exact congrArg _ hsh

theorem Accepted.revalue (h : Accepted nopts p) (hl : p.payload < 2 ^ 16) (hsh : shapes l = shapes (optionsOf p)) :
    ∃ q, Accepted nopts q ∧ SameShape q p ∧ optionsOf q = l ∧
      bytesAt q.hdr q.payload q.payloadLen = replicate q.payloadLen 0 := by
  obtain ⟨x, hx, hholds, hp⟩ := h.msg
  have hopts := hp.optionsOf hx hholds hl
  rw [hopts] at hsh
  obtain ⟨opts', rfl, hsh'⟩ := exists_numbered _ _ _ hsh
  obtain ⟨hbytes, hcount, hfits⟩ := optsBytes_shapes _ _ hsh'
  let y : Msg := { x with opts := opts', tail := x.tail.map fun t => replicate t.length 0 }
  have hpl : y.payload = replicate x.payload.length 0 := by
    simp only [y, Msg.payload]
    cases x.tail <;> rfl
  have hlen : y.bytes.length = x.bytes.length := by
    rw [y.length_bytes, x.length_bytes, y.length_tailBytes, x.length_tailBytes, hpl, length_replicate, Msg.optsEnd,
      Msg.optsEnd, Option.isSome_map, ← hbytes]
  have hy : y.Ok nopts :=
    ⟨hx.tokenLen, hx.token_le, hfits hx.fits, hcount ▸ hx.count, fun h0 => hlen.trans (hx.empty h0)⟩
  have hput : Holds (put (fun _ => 0) 0 y.bytes) 0 y.bytes := holds_put
  obtain ⟨q, hparse, hq⟩ := parse_msg hy hput
  have hplen : y.payload.length = x.payload.length := by rw [hpl, length_replicate]
  have hpayload : q.payload = p.payload := by
    have := hq.payload
    have := hp.payload; omega
  have hoptsq := hq.optionsOf hy hput (hpayload ▸ hl)
  refine ⟨q, ⟨_, _, hparse⟩, ⟨?_, hpayload, ?_, ?_, ?_⟩, hoptsq, ?_⟩
  · rw [hq.hdr, (Msg.holds_bytes.1 hput).1.2.1, (Msg.holds_bytes.1 hholds).1.2.1]
  · rw [hq.payloadLen, hp.payloadLen, hplen]
  · rw [hq.options, hp.options]; exact hcount.symm
  · rw [hoptsq, hopts]; exact hsh
  · have hzeros := hq.holds_payload hput
    rw [holds_iff, hpl] at hzeros
    apply eq_replicate_iff.2
    refine ⟨length_bytesAt _ _ _, fun b hb => ?_⟩
    obtain ⟨k, hk, rfl⟩ := mem_map.1 hb
    have hlt : k < (replicate x.payload.length (0 : UInt8)).length := by
      have := mem_range.1 hk
      rw [hq.payloadLen, hplen] at this
      rw [length_replicate]
      exact lt_of_lt_of_le this (Nat.mod_le _ _)
    rw [hzeros k hlt, getElem_replicate]

theorem shapes_drop (n : Nat) : shapes (l.drop n) = (shapes l).drop n := map_drop

theorem shapes_cacheable : shapes (cacheable l) = (shapes l).filter fun o => !noCacheKey o.1 :=
  shapes_filter fun num => !noCacheKey num

theorem SameShape.unfed (h : SameShape q p) : shapes (unfed proxy q) = shapes (unfed proxy p) := by
  rw [Coap.unfed, Coap.unfed, shapes_append, shapes_append]
  simp only [shapes_cacheable, shapes_filter, shapes_take, shapes_drop, h.options, h.count]

theorem Accepted.length_keyInput (h : Accepted nopts p) (hl : p.payload < 2 ^ 16) :
    (keyInput proxy p).length = fedLength proxy p := by
  rw [keyInput_eq h hl, length_append, length_values, shapes_filter fun num => !skipped proxy num,
    shapes_take, fedLength]
  congr 1
  split
  · exact length_bytesAt ..
  · rfl

theorem SameShape.fedLength (h : SameShape q p) : fedLength proxy q = fedLength proxy p := by
  rw [Coap.fedLength, Coap.fedLength, h.options, h.count, h.code, h.payloadLen]

theorem shapes_empty (h : shapes l = shapes l') (hl : ∀ o ∈ l', o.2 = []) : ∀ o ∈ l, o.2 = [] := by
  intro o ho
  have hmem : (o.1, o.2.length) ∈ shapes l' := h ▸ mem_map_of_mem ho
  obtain ⟨o', ho', heq⟩ := mem_map.1 hmem
  have hlen := (Prod.mk.inj heq).2
  rw [hl o' ho'] at hlen
  exact eq_nil_of_length_eq_zero hlen.symm

/-! ## Equal keys -/

theorem values_skipped :
    ∀ l : List (Nat × List UInt8), (∀ o ∈ cacheable (l.filter fun o => skipped proxy o.1), o.2 = []) →
    (l.filter fun o => !skipped proxy o.1).flatMap (·.2) = (cacheable l).flatMap (·.2)
  | [], _ => rfl
  | (num, v) :: l, h => by
    have hrest := values_skipped l fun o ho => h o (by
      simp only [cacheable, filter_cons] at ho ⊢
      split
      · simp only [filter_cons]
        split
        · exact .tail _ ho
        · exact ho
      · exact ho)
    simp only [cacheable] at hrest h ⊢
    cases hs : skipped proxy num with
    | false =>
      have hc : noCacheKey num = false := by
        simp only [skipped, Bool.or_eq_false_iff] at hs; exact hs.2
      simp [hs, hc, hrest]
    | true =>
      cases hc : noCacheKey num with
      | true => simp [hs, hc, hrest]
      | false =>
        have hv := h (num, v) (by simp [hs, hc])
        simpa [filter_cons, hs, hc, hrest] using hv

theorem values_fed (h : ∀ o ∈ unfed proxy p, o.2 = []) :
    (((optionsOf p).take p.options.length).filter fun o => !skipped proxy o.1).flatMap (·.2) =
      (cacheable (optionsOf p)).flatMap (·.2) := by
  obtain ⟨htake, hdrop⟩ := forall_mem_append.1 h
  rw [values_skipped _ htake]
  conv => rhs; rw [← take_append_drop p.options.length (optionsOf p)]
  simp only [cacheable, filter_append, flatMap_append] at hdrop ⊢
  rw [flatMap_eq_nil_iff.2 hdrop, append_nil]

def filled (proxy : Bool) (b : UInt8) (p : Pkt) : List (Nat × List UInt8) :=
  ((optionsOf p).take p.options.length).map
    (fun o => (o.1, replicate o.2.length (if skipped proxy o.1 then b else 0))) ++
    ((optionsOf p).drop p.options.length).map fun o => (o.1, replicate o.2.length b)

theorem shapes_replicate (f : Nat × List UInt8 → UInt8) :
    shapes (l.map fun o => (o.1, replicate o.2.length (f o))) = shapes l := by
  rw [shapes, shapes, map_map]
  apply map_congr_left
  simp

theorem shapes_filled (proxy : Bool) (b : UInt8) : shapes (filled proxy b p) = shapes (optionsOf p) := by
  rw [filled, shapes_append, shapes_replicate, shapes_replicate, ← shapes_append, take_append_drop]

theorem filled_zero {o : Nat × List UInt8} (h : o ∈ filled proxy 0 p) : ∀ c ∈ o.2, c = 0 := by
  simp only [filled, ite_self, ← map_append, mem_map] at h
  obtain ⟨o', -, rfl⟩ := h
  exact fun c hc => eq_of_mem_replicate hc

theorem mem_filled {o : Nat × List UInt8} (b : UInt8) (h : o ∈ unfed proxy p) :
    (o.1, replicate o.2.length b) ∈ cacheable (filled proxy b p) := by
  simp only [unfed, cacheable, filled, mem_append, mem_filter, mem_map] at h ⊢
  obtain ⟨⟨hmem, hskip⟩, hc⟩ | ⟨hmem, hc⟩ := h
  · exact ⟨.inl ⟨o, hmem, by rw [if_pos hskip]⟩, hc⟩
  · exact ⟨.inr ⟨o, hmem, rfl⟩, hc⟩

theorem unfed_empty {o : Nat × List UInt8} (h : cacheable (filled proxy 1 p) = cacheable (filled proxy 0 q))
    (ho : o ∈ unfed proxy p) : o.2 = [] := by
  have hmem := mem_filled 1 ho
  rw [h] at hmem
  have hzero := filled_zero (mem_filter.1 hmem).1
  cases hv : o.2 with
  | nil => rfl
  | cons c v =>
    rw [hv] at hzero
    exact absurd (hzero 1 (by simp)) (by decide)

theorem Accepted.zeroKey (h : Accepted nopts p) (hl : p.payload < 2 ^ 16) (proxy : Bool) (b : UInt8) :
    ∃ q, Accepted nopts q ∧ SameShape q p ∧ optionsOf q = filled proxy b p ∧
      keyInput proxy q = replicate (fedLength proxy p) 0 := by
  obtain ⟨q, hq, hsame, hopts, hpl⟩ := h.revalue hl (shapes_filled proxy b)
  have hlen : (keyInput proxy q).length = _ := (hq.length_keyInput (hsame.payload ▸ hl)).trans hsame.fedLength
  refine ⟨q, hq, hsame, hopts, eq_replicate_iff.2 ⟨hlen, fun c hc => ?_⟩⟩
  rw [keyInput_eq hq (hsame.payload ▸ hl), mem_append] at hc
  obtain hc | hc := hc
  · have hcount := h.count_le hl
    rw [hopts, hsame.count, filled, take_left' (by rw [length_map, length_take, min_eq_left hcount])] at hc
    obtain ⟨o, ho, hc⟩ := mem_flatMap.1 hc
    obtain ⟨ho, hskip⟩ := mem_filter.1 ho
    obtain ⟨o', -, rfl⟩ := mem_map.1 ho
    simp only [Bool.not_eq_true'] at hskip
    simp only [hskip, Bool.false_eq_true, if_false] at hc
    exact eq_of_mem_replicate hc
  · split at hc
    · rw [hpl] at hc; exact eq_of_mem_replicate hc
    · cases hc

/-- Equal keys mean equal requests, for all requests of two shapes, exactly if the keys
differ in length or the shapes agree and everything that belongs to the key is fed. -/
theorem key_separates_iff (h1 : Accepted nopts p) (h2 : Accepted nopts q) (hl1 : p.payload < 2 ^ 16)
    (hl2 : q.payload < 2 ^ 16) :
    (∀ p' q', Accepted nopts p' → Accepted nopts q' → SameShape p' p → SameShape q' q →
      keyInput proxy p' = keyInput proxy q' →
      p'.hdr 1 = q'.hdr 1 ∧ cacheable (optionsOf p') = cacheable (optionsOf q')) ↔
    fedLength proxy p ≠ fedLength proxy q ∨
      p.hdr 1 = q.hdr 1 ∧ shapes (cacheable (optionsOf p)) = shapes (cacheable (optionsOf q)) ∧
        (∀ o ∈ unfed proxy p, o.2 = []) ∧ ∀ o ∈ unfed proxy q, o.2 = [] := by
  constructor
  · intro hall
    by_cases hlen : fedLength proxy p = fedLength proxy q
    · have key : ∀ b b', p.hdr 1 = q.hdr 1 ∧ cacheable (filled proxy b p) = cacheable (filled proxy b' q) := by
        intro b b'
        obtain ⟨p', hp', hsame, hopts, hkey⟩ := h1.zeroKey hl1 proxy b
        obtain ⟨q', hq', hsame', hopts', hkey'⟩ := h2.zeroKey hl2 proxy b'
        have := hall p' q' hp' hq' hsame hsame' (by rw [hkey, hkey', hlen])
        rwa [hopts, hopts', hsame.code, hsame'.code] at this
      refine .inr ⟨(key 0 0).1, ?_, fun o ho => unfed_empty (key 1 0).2 ho, fun o ho => unfed_empty (key 0 1).2.symm ho⟩
      have := congrArg shapes (key 0 0).2
      rwa [shapes_cacheable, shapes_cacheable, shapes_filled, shapes_filled, ← shapes_cacheable,
        ← shapes_cacheable] at this
    · exact .inl hlen
  · intro hsep p' q' hp' hq' hsame hsame' hkey
    have hlen := congrArg List.length hkey
    rw [hp'.length_keyInput (hsame.payload ▸ hl1), hq'.length_keyInput (hsame'.payload ▸ hl2), hsame.fedLength,
      hsame'.fedLength] at hlen
    obtain hne | ⟨hcode, hsh, hfed1, hfed2⟩ := hsep
    · exact absurd hlen hne
    · refine ⟨by rw [hsame.code, hsame'.code, hcode], ?_⟩
      rw [keyInput_eq hp' (hsame.payload ▸ hl1), keyInput_eq hq' (hsame'.payload ▸ hl2),
        values_fed (shapes_empty hsame.unfed hfed1), values_fed (shapes_empty hsame'.unfed hfed2)] at hkey
      refine values_inj _ _ _ _ ?_ hkey
      rw [shapes_cacheable, shapes_cacheable, hsame.options, hsame'.options, ← shapes_cacheable,
        ← shapes_cacheable, hsh]

def getOne (a : UInt8) : Pkt := ⟨put (fun _ => 0) 0 [0x40, 1, 0, 0, 0xb1, a], 6, 0, [⟨11, 4⟩]⟩

theorem key_separates_one_segment : Accepted 16 (getOne 97) ∧ Accepted 16 (getOne 98) ∧ ∀ p q,
    Accepted 16 p → Accepted 16 q → SameShape p (getOne 97) → SameShape q (getOne 98) →
    keyInput false p = keyInput false q → p.hdr 1 = q.hdr 1 ∧ cacheable (optionsOf p) = cacheable (optionsOf q) :=
  have ha : Accepted 16 (getOne 97) := ⟨(getOne 97).hdr, 6, rfl⟩
  have hb : Accepted 16 (getOne 98) := ⟨(getOne 98).hdr, 6, rfl⟩
  ⟨ha, hb, (key_separates_iff ha hb (by decide) (by decide)).2 (.inr (by decide))⟩

def getTwo (a b : UInt8) : Pkt := ⟨put (fun _ => 0) 0 [0x40, 1, 0, 0, 0xb1, a, 0x01, b], 8, 0, [⟨11, 4⟩]⟩

theorem key_collides_second_segment :
    parse 16 (getTwo 97 98).hdr 8 = .ok (getTwo 97 98) ∧ parse 16 (getTwo 97 99).hdr 8 = .ok (getTwo 97 99) ∧
    keyInput false (getTwo 97 98) = keyInput false (getTwo 97 99) ∧
      cacheable (optionsOf (getTwo 97 98)) ≠ cacheable (optionsOf (getTwo 97 99)) :=
  ⟨rfl, rfl, by decide, by decide⟩

end

end PipRiot.Coap
