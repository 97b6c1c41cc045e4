import PipRiot.Coap.Wire

/-!
# Messages that are built

What the build functions leave in the buffer is a message on the wire, which the
parser takes apart again.
-/

namespace PipRiot.Coap

open Reading List Option

variable (nopts : Nat)

def addAll : Pkt → List (Nat × List UInt8) → Option Pkt
  | pkt, [] => some pkt
  | pkt, (optnum, val) :: opts =>
    match optAddOpaque nopts pkt optnum val with
    | some (r, pkt') => if 0 ≤ r then addAll pkt' opts else none
    | none => none

def build (m : Nat → UInt8) (len type : Nat) (token : List UInt8) (code id : Nat) (opts : List (Nat × List UInt8))
    (finishPayload : Bool) (payload : List UInt8) : Option Pkt := do
  let (m, headerLen) ← buildHdr m type token code id
  let pkt ← addAll nopts (pktInit m len headerLen) opts
  let (r, pkt) := optFinish pkt finishPayload
  let (r', pkt) := payloadPutBytes pkt payload
  if 0 ≤ r ∧ 0 ≤ r' then some pkt else none

def deltas (last : Nat) : List (Nat × List UInt8) → List (Nat × List UInt8)
  | [] => []
  | (num, val) :: opts => (num - last, val) :: deltas num opts

section
variable {nopts} {m : Nat → UInt8} {base : Nat} {val : List UInt8} {pkt pkt' : Pkt}

theorem put_nil (m : Nat → UInt8) (i : Nat) : put m i [] = m := by
  funext x
  exact put_frame (by simp; omega)

theorem putDeltaOptlen_eq (m : Nat → UInt8) (base offset shift v : Nat) : putDeltaOptlen m base offset shift v =
    (put (put m base [m base ||| UInt8.ofNat (nibble v <<< shift)]) (base + offset) (ext v),
      offset + (ext v).length) := by
  unfold putDeltaOptlen nibble ext
  by_cases h13 : v < 13
  · simp only [h13, if_true, put_nil, length_nil, add_zero]
  · by_cases h269 : v < 269
    · simp only [h13, h269, if_true, if_false, length_singleton]
    · simp only [h13, h269, if_false, length_cons, length_nil]

theorem codes_or : ∀ a < 15, ∀ b < 15,
    ((0 : UInt8) ||| UInt8.ofNat (a <<< 4)) ||| UInt8.ofNat (b <<< 0) = UInt8.ofNat (16 * a + b) := by
  decide +kernel

theorem put_self {b : UInt8} : put m base [b] base = b := by simp [put]

theorem putOption_some {last num : Nat} {r : (Nat → UInt8) × Nat} (h : putOption m base last num val = some r) :
    last ≤ num ∧ Holds r.1 base (optBytes (num - last) val) ∧ ∀ x < base, r.1 x = m x := by
  unfold putOption at h
  split at h
  · rename_i hle
    simp only [putDeltaOptlen_eq, put_self] at h
    cases h
    dsimp only
    have hfirst : ∀ x < base + 1,
      put (put (put m base [0]) base [(0 : UInt8) ||| UInt8.ofNat (nibble (num - last) <<< 4)]) (base + 1)
      (ext (num - last)) x =
        put (put m base [0]) base [(0 : UInt8) ||| UInt8.ofNat (nibble (num - last) <<< 4)] x :=
          fun x hx => put_frame (.inl hx)
    refine ⟨hle, ?_, fun x hx => ?_⟩
    · rw [optBytes, holds_cons, holds_append, holds_append, length_append]
      refine ⟨?_, ⟨?_, ?_⟩, ?_⟩
      · rw [put_frame (.inl (by omega)), put_frame (.inl (by omega)), put_self, hfirst base (by omega), put_self]
        exact codes_or _ (nibble_lt _) _ (nibble_lt _)
      · exact ((holds_put.put (.inr (by simp))).put (.inl (by omega))).put (.inl (by omega))
      · rw [add_assoc base 1]; exact holds_put.put (.inl (by omega))
      · rw [show base + 1 + ((ext (num - last)).length + (ext val.length).length) =
          base + (1 + (ext (num - last)).length + (ext val.length).length) by omega]
        exact holds_put
    · have hbelow : ∀ {m' : Nat → UInt8} {b : UInt8}, put m' base [b] x = m' x := put_frame (.inl hx)
      rw [put_frame (.inl (by omega)), put_frame (.inl (by omega)), hbelow, hfirst x (by omega), hbelow, hbelow]
  · cases h

def lastNum (pkt : Pkt) : Nat := pkt.options.getLast?.elim 0 (·.optNum)

structure Added (pkt : Pkt) (num : Nat) (val : List UInt8) (pkt' : Pkt) : Prop where
  ordered : lastNum pkt ≤ num
  room : (optBytes (num - lastNum pkt) val).length ≤ pkt.payloadLen
  payload : pkt'.payload = pkt.payload + (optBytes (num - lastNum pkt) val).length
  payloadLen : pkt'.payloadLen = pkt.payloadLen - (optBytes (num - lastNum pkt) val).length
  count : pkt'.options.length = pkt.options.length + 1
  last : lastNum pkt' = num
  written : Holds pkt'.hdr pkt.payload (optBytes (num - lastNum pkt) val)
  frame : ∀ x < pkt.payload, pkt'.hdr x = pkt.hdr x

theorem addOptPkt_eq (num : Nat) : addOptPkt nopts pkt num val =
    if nopts ≤ pkt.options.length then some (-enospc, pkt)
    else if lastNum pkt ≤ num then
      if pkt.payloadLen < (optBytes (num - lastNum pkt) val).length then some (-enospc, pkt)
      else (putOption pkt.hdr pkt.payload (lastNum pkt) num val).bind fun r =>
        some (((optBytes (num - lastNum pkt) val).length : Int),
          ⟨r.1, pkt.payload + (optBytes (num - lastNum pkt) val).length,
          pkt.payloadLen - (optBytes (num - lastNum pkt) val).length, pkt.options ++ [⟨num, pkt.payload % 2 ^ 16⟩]⟩)
    else none := by
  unfold addOptPkt
  simp only [putDeltaOptlen_eq]
  rw [zero_add, length_optBytes]
  rfl

theorem addOptPkt_cases {num : Nat} {r : Int} (h : addOptPkt nopts pkt num val = some (r, pkt')) :
    r = -enospc ∧ pkt' = pkt ∨ 0 ≤ r ∧ pkt.options.length < nopts ∧ Added pkt num val pkt' := by
  rw [addOptPkt_eq] at h
  split at h
  · cases h; exact .inl ⟨rfl, rfl⟩
  · split at h
    · rename_i hle
      split at h
      · cases h; exact .inl ⟨rfl, rfl⟩
      · rename_i hlen
        obtain ⟨m', hput, h⟩ := bind_eq_some_iff.1 h
        cases h
        obtain ⟨-, hwritten, hframe⟩ := putOption_some hput
        refine .inr ⟨Int.natCast_nonneg _, by omega, hle, not_lt.1 hlen, rfl, rfl, ?_, ?_, hwritten, hframe⟩
        · rw [length_append, length_singleton]
        · simp [lastNum]
    · cases h

theorem addOptPkt_room {num : Nat} (hcount : pkt.options.length < nopts) (hle : lastNum pkt ≤ num)
    (hlen : (optBytes (num - lastNum pkt) val).length ≤ pkt.payloadLen) :
    ∃ pkt', addOptPkt nopts pkt num val = some (((optBytes (num - lastNum pkt) val).length : Int), pkt') := by
  rw [addOptPkt_eq, if_neg (by omega), if_pos hle, if_neg (by omega), putOption, if_pos hle]
  exact ⟨_, rfl⟩

theorem addAll_some : ∀ (opts : List (Nat × List UInt8)) (pkt pkt' : Pkt), addAll nopts pkt opts = some pkt' →
    pkt.options.length ≤ nopts → (∀ o ∈ opts, o.1 < 2 ^ 16) →
    Holds pkt'.hdr pkt.payload (optsBytes (deltas (lastNum pkt) opts)) ∧ (∀ x < pkt.payload, pkt'.hdr x = pkt.hdr x) ∧
      pkt'.payload = pkt.payload + (optsBytes (deltas (lastNum pkt) opts)).length ∧
      pkt'.payloadLen + (optsBytes (deltas (lastNum pkt) opts)).length = pkt.payloadLen ∧
      pkt.options.length + opts.length ≤ nopts ∧ numbered (lastNum pkt) (deltas (lastNum pkt) opts) = opts
  | [], pkt, pkt', h, hcount, _ => by
    cases h
    simpa [deltas, numbered, optsBytes] using hcount
  | (num, val) :: opts, pkt, pkt', h, hcount, hnum => by
    rw [addAll, optAddOpaque] at h
    split at h
    · rename_i r pkt1 hadd
      split at h
      · rename_i hr
        obtain ⟨rfl, -⟩ | ⟨-, hlt, hadded⟩ := addOptPkt_cases hadd
        · exact absurd hr (by decide)
        · have hc1 := hadded.count
          obtain ⟨hholds, hframe, hpl, hlen, hopts, hnumbered⟩ := addAll_some opts pkt1 pkt' h (by omega) fun o ho =>
            hnum o (.tail _ ho)
          rw [hadded.last] at hholds hpl hlen hnumbered
          have hroom := hadded.room
          rw [hadded.payload] at hholds hframe hpl
          rw [hadded.payloadLen] at hlen
          rw [deltas, optsBytes_cons, length_append]
          have hkept := hadded.written.congr fun x _ hx => hframe x hx
          refine ⟨holds_append.2 ⟨hkept, hholds⟩, fun x hx => ?_, by omega, by omega, by rw [length_cons]; omega, ?_⟩
          · rw [hframe x (by omega), hadded.frame x hx]
          · have hlt := hnum _ (.head _)
            have hordered := hadded.ordered
            rw [numbered, Nat.add_sub_cancel' hordered, Nat.mod_eq_of_lt hlt, hnumbered]
      · cases h
    · cases h

def built (type : Nat) (token : List UInt8) (code id : Nat) (opts : List (Nat × List UInt8)) (finishPayload : Bool)
    (payload : List UInt8) : Msg where
  verTTkl := UInt8.ofNat (1 <<< 6 ||| type <<< 4 ||| token.length)
  code := UInt8.ofNat code
  id := (UInt8.ofNat (id / 256), UInt8.ofNat id)
  token := token
  opts := deltas 0 opts
  tail := if finishPayload then some payload else none

theorem verTTkl_mod : ∀ type < 4, ∀ n ≤ 8, (UInt8.ofNat (1 <<< 6 ||| type <<< 4 ||| n)).toNat % 16 = n := by
  decide +kernel

theorem deltas_fits : ∀ (last : Nat) (opts : List (Nat × List UInt8)), (∀ o ∈ opts, o.1 < 2 ^ 16) →
    (optsBytes (deltas last opts)).length < 2 ^ 16 → ∀ o ∈ deltas last opts, Fits o
  | _, [], _, _ => by simp [deltas]
  | last, (num, val) :: opts, hnum, hlen => by
    rw [deltas, optsBytes_cons, length_append, length_optBytes] at hlen
    have hfirst := hnum _ (.head _)
    intro o ho
    obtain rfl | ho := mem_cons.1 ho
    · exact ⟨by simp only [limit]; omega, by simp only [limit]; omega⟩
    · exact deltas_fits num opts (fun o ho => hnum o (.tail _ ho)) (by omega) o ho

theorem length_deltas : ∀ (last : Nat) (opts : List (Nat × List UInt8)), (deltas last opts).length = opts.length
  | _, [] => rfl
  | _, (num, _) :: opts => congrArg (· + 1) (length_deltas num opts)

variable {type code id len : Nat} {token payload : List UInt8} {opts : List (Nat × List UInt8)} {finishPayload : Bool}

theorem optFinish_nonneg (h : 0 ≤ (optFinish pkt finishPayload).1) : (finishPayload = true → 0 < pkt.payloadLen) ∧
    (optFinish pkt finishPayload).2 = if finishPayload then
      { pkt with hdr := put pkt.hdr pkt.payload [0xff], payload := pkt.payload + 1, payloadLen := pkt.payloadLen - 1 }
    else { pkt with payloadLen := 0 } := by
  cases finishPayload with
  | false => exact ⟨by simp, rfl⟩
  | true =>
    simp only [optFinish, if_true] at h ⊢
    split at h
    · exact absurd h (by simp [enospc])
    · rename_i hpos
      rw [if_neg hpos]
      exact ⟨fun _ => pos_of_ne_zero hpos, rfl⟩

theorem payloadPutBytes_nonneg (h : 0 ≤ (payloadPutBytes pkt payload).1) : payload.length ≤ pkt.payloadLen ∧
    (payloadPutBytes pkt payload).2 =
      { pkt with hdr := put pkt.hdr pkt.payload payload, payload := pkt.payload + payload.length,
                 payloadLen := pkt.payloadLen - payload.length } := by
  unfold payloadPutBytes at h ⊢
  split at h
  · exact absurd h (by simp [enospc])
  · rename_i hle
    rw [if_neg hle]; exact ⟨not_lt.1 hle, rfl⟩

theorem finish_tail (hfinish : 0 ≤ (optFinish pkt finishPayload).1)
    (hput : 0 ≤ (payloadPutBytes (optFinish pkt finishPayload).2 payload).1) :
    Holds (payloadPutBytes (optFinish pkt finishPayload).2 payload).2.hdr pkt.payload
      (built type token code id opts finishPayload payload).tailBytes ∧
      (∀ x < pkt.payload, (payloadPutBytes (optFinish pkt finishPayload).2 payload).2.hdr x = pkt.hdr x) ∧
      (payloadPutBytes (optFinish pkt finishPayload).2 payload).2.payload =
        pkt.payload + (built type token code id opts finishPayload payload).tailBytes.length ∧
      (built type token code id opts finishPayload payload).payload = payload ∧ payload.length ≤ pkt.payloadLen := by
  obtain ⟨hmarker, hfinished⟩ := optFinish_nonneg hfinish
  obtain ⟨hfit, hdone⟩ := payloadPutBytes_nonneg hput
  rw [hdone]
  rw [hfinished] at hfit ⊢
  cases finishPayload with
  | true =>
    simp only [if_true, built, Msg.tailBytes, Msg.payload, elim_some, getD_some, holds_cons, length_cons] at hfit ⊢
    refine ⟨⟨?_, holds_put⟩, fun x hx => ?_, by omega, trivial, by omega⟩
    · rw [put_frame (.inl (Nat.lt_succ_self _)), put_self]
    · rw [put_frame (.inl (by omega)), put_frame (.inl hx)]
  | false =>
    simp only [Bool.false_eq_true, if_false, Nat.le_zero, length_eq_zero_iff] at hfit
    subst hfit
    simp [built, Msg.tailBytes, Msg.payload, put_nil]

def withHdr (m : Nat → UInt8) (type : Nat) (token : List UInt8) (code id : Nat) : Nat → UInt8 :=
  put (put m 0 [UInt8.ofNat (1 <<< 6 ||| type <<< 4 ||| token.length), UInt8.ofNat code, UInt8.ofNat (id / 256),
    UInt8.ofNat id]) 4 token

theorem build_eq_some : build nopts m len type token code id opts finishPayload payload = some pkt ↔
    (type < 4 ∧ token.length < 32) ∧ ∃ pkt1,
      addAll nopts (pktInit (withHdr m type token code id) len (4 + token.length)) opts = some pkt1 ∧
      (0 ≤ (optFinish pkt1 finishPayload).1 ∧ 0 ≤ (payloadPutBytes (optFinish pkt1 finishPayload).2 payload).1) ∧
      (payloadPutBytes (optFinish pkt1 finishPayload).2 payload).2 = pkt := by
  unfold build buildHdr
  by_cases hpre : type < 4 ∧ token.length < 32
  · simp only [hpre, and_self, if_true, true_and]
    simp only [bind_eq_bind, bind_some, bind_eq_some_iff, ite_none_right_eq_some, some.injEq]
    rfl
  · simp [hpre]

theorem build_some (hcode : 0 < code ∧ code < 256) (htoken : token.length ≤ 8) (hnum : ∀ o ∈ opts, o.1 < 2 ^ 16)
    (h : build nopts m len type token code id opts finishPayload payload = some pkt) :
    (built type token code id opts finishPayload payload).Ok nopts ∧
      Holds pkt.hdr 0 (built type token code id opts finishPayload payload).bytes ∧
      (built type token code id opts finishPayload payload).bytes.length = pkt.payload ∧
      (built type token code id opts finishPayload payload).payload = payload ∧ payload.length < 2 ^ 16 ∧
      numbered 0 (deltas 0 opts) = opts := by
  obtain ⟨⟨htype, -⟩, pkt1, hadd, ⟨hfinish, hput⟩, rfl⟩ := build_eq_some.1 h
  obtain ⟨hopts, hframe, hpl, hroom, hcount, hnumbered⟩ := addAll_some _ _ _ hadd zero_le hnum
  obtain ⟨htail, hbelow, hpl', hpayload, hfit⟩ := @finish_tail pkt1 type code id token payload opts _ hfinish hput
  have hsize : (optsBytes (deltas 0 opts)).length + pkt1.payloadLen < 2 ^ 16 := by
    have : pkt1.payloadLen + (optsBytes (deltas 0 opts)).length = (2 ^ 32 + len - (4 + token.length)) % 2 ^ 16 := hroom
    omega
  have hend : (built type token code id opts finishPayload payload).optsEnd = pkt1.payload := hpl.symm
  rw [Msg.length_bytes, hend]
  refine ⟨⟨verTTkl_mod _ htype _ htoken, htoken, deltas_fits _ _ hnum (by omega), ?_, fun hzero => ?_⟩, ?_, hpl'.symm,
    hpayload, by omega, hnumbered⟩
  · have := countP_le_length (p := fun o => decide (o.1 ≠ 0)) (l := deltas 0 opts)
    rw [length_deltas] at this
    exact le_trans this (le_trans (Nat.le_add_left _ _) hcount)
  · have := congrArg UInt8.toNat hzero
    simp only [built, UInt8.toNat_ofNat', UInt8.toNat_zero] at this; omega
  · have hhdr : ∀ x < 4 + token.length,
      (payloadPutBytes (optFinish pkt1 finishPayload).2 payload).2.hdr x = withHdr m type token code id x :=
      fun x hx => (hbelow x (by rw [hpl]; exact Nat.lt_add_right _ hx)).trans (hframe x hx)
    have hopts' : Holds (payloadPutBytes (optFinish pkt1 finishPayload).2 payload).2.hdr (4 + token.length)
      (optsBytes (deltas 0 opts)) :=
      hopts.congr fun x _ hx => hbelow x (by rw [hpl]; exact hx)
    have hfirst : Holds (withHdr m type token code id) 0 _ := holds_put.put (.inl le_rfl)
    have htok : Holds (withHdr m type token code id) 4 token := holds_put
    rw [Msg.holds_bytes, hend]
    refine ⟨?_, htok.congr fun x _ hx => hhdr x hx, hopts', htail⟩
    simpa [built] using hfirst.congr fun x _ hx => hhdr x (lt_of_lt_of_le hx (Nat.le_add_right 4 _))

theorem enospc_unchanged (pkt pkt' : Pkt) :
    (∀ num val, optAddOpaque nopts pkt num val = some (-enospc, pkt') → pkt' = pkt) ∧
    (∀ finishPayload, optFinish pkt finishPayload = (-enospc, pkt') → pkt' = pkt) ∧
    ∀ data, payloadPutBytes pkt data = (-enospc, pkt') → pkt' = pkt := by
  refine ⟨fun num val h => ?_, fun finishPayload h => ?_, fun data h => ?_⟩
  · obtain ⟨-, rfl⟩ | ⟨hr, -⟩ := addOptPkt_cases h
    · rfl
    · exact absurd hr (by decide)
  · have hr : ∀ n : Nat, (n : Int) ≠ -enospc := fun n hn => by simp only [enospc] at hn; omega
    unfold optFinish at h
    split at h
    · split at h
      · exact (Prod.mk.inj h).2.symm
      · exact absurd (Prod.mk.inj h).1 (hr _)
    · exact absurd (Prod.mk.inj h).1 (hr _)
  · unfold payloadPutBytes at h
    split at h
    · exact (Prod.mk.inj h).2.symm
    · have := (Prod.mk.inj h).1
      simp only [enospc] at this; omega

def Recovered (nopts : Nat) (pkt : Pkt) (token : List UInt8) (opts : List (Nat × List UInt8))
    (payload : List UInt8) : Prop :=
  ∃ p, parse nopts pkt.hdr pkt.payload = .ok p ∧ (∀ opt, optEnum p (opts.length + 1) opt true = some opts) ∧
    bytesAt p.hdr p.payload p.payloadLen = payload ∧ bytesAt p.hdr 4 (tokenLen p.hdr) = token

theorem recovered_iff (hcode : 0 < code ∧ code < 256) (htoken : token.length ≤ 8) (hnum : ∀ o ∈ opts, o.1 < 2 ^ 16)
    (h : build nopts m len type token code id opts finishPayload payload = some pkt) :
    Recovered nopts pkt token opts payload ↔ 4 + token.length + (optsBytes (deltas 0 opts)).length < 2 ^ 16 := by
  obtain ⟨hok, hholds, hlength, hpayload, hsize, hnumbered⟩ := build_some hcode htoken hnum h
  obtain ⟨p, hparse, hp⟩ := parse_msg hok hholds
  have hfound := fun opt => (optEnum_msg hok hholds hp opt 0).1
  have hlost := (optEnum_msg hok hholds hp ⟨0, 0⟩ 0).2
  have hcount : (built type token code id opts finishPayload payload).opts.length = opts.length := length_deltas 0 opts
  rw [hcount] at hfound hlost
  constructor
  · rintro ⟨p', hparse', henum, -⟩
    rw [← hlength, hparse] at hparse'
    cases hparse'
    apply not_le.mp
    intro hge
    have := henum ⟨0, 0⟩
    rw [hlost hge] at this; cases this
  · intro hlt
    refine ⟨p, hlength ▸ hparse, fun opt => (hfound opt hlt).trans (congrArg some hnumbered), ?_, ?_⟩
    · have hpl := hp.holds_payload hholds
      rw [hpayload] at hpl
      rw [hp.payloadLen, hpayload, Nat.mod_eq_of_lt hsize]; exact hpl
    · exact hp.token hok hholds

/-- A message that was built is recovered exactly if its options end in the first 2¹⁶
bytes; a call without space changes nothing. -/
theorem build_parse_iff (hcode : 0 < code ∧ code < 256) (htoken : token.length ≤ 8) (hnum : ∀ o ∈ opts, o.1 < 2 ^ 16)
    (h : build nopts m len type token code id opts finishPayload payload = some pkt) :
    (Recovered nopts pkt token opts payload ↔ 4 + token.length + (optsBytes (deltas 0 opts)).length < 2 ^ 16) ∧
      ∀ pkt pkt' : Pkt, (∀ num val, optAddOpaque nopts pkt num val = some (-enospc, pkt') → pkt' = pkt) ∧
        (∀ finishPayload, optFinish pkt finishPayload = (-enospc, pkt') → pkt' = pkt) ∧
        ∀ data, payloadPutBytes pkt data = (-enospc, pkt') → pkt' = pkt :=
  ⟨recovered_iff hcode htoken hnum h, enospc_unchanged⟩

theorem build_parse_small :
    ∃ pkt, build 16 (fun _ => 0) 64 0 [7] 1 258 [(11, [97, 98]), (11, [99]), (60, [5])] true [1, 2, 3] = some pkt ∧
    Recovered 16 pkt [7] [(11, [97, 98]), (11, [99]), (60, [5])] [1, 2, 3] := by
  obtain ⟨pkt, h⟩ : ∃ pkt,
    build 16 (fun _ => 0) 64 0 [7] 1 258 [(11, [97, 98]), (11, [99]), (60, [5])] true [1, 2, 3] = some pkt := ⟨_, rfl⟩
  exact ⟨pkt, h, (build_parse_iff (by decide) (by decide) (by decide) h).1.2 (by decide)⟩

theorem length_optBytes_long {val : List UInt8} (hval : val.length = 65532) : (optBytes 11 val).length = 65535 := by
  rw [length_optBytes, hval]
  decide

theorem not_recovered_long {val : List UInt8} (hval : val.length = 65532) : ∃ pkt,
    build 16 (fun _ => 0) 65547 0 (replicate 8 0) 1 0 [(11, val)] false [] = some pkt ∧
      ¬ Recovered 16 pkt (replicate 8 0) [(11, val)] [] := by
  obtain ⟨pkt1, hadd⟩ := @addOptPkt_room 16 val (pktInit (withHdr (fun _ => 0) 0 (replicate 8 0) 1 0) 65547 12) 11
    (by decide) (by decide) (le_of_eq (length_optBytes_long hval))
  have hall : addAll 16 (pktInit (withHdr (fun _ => 0) 0 (replicate 8 0) 1 0) 65547 12) [(11, val)] =
      some pkt1 := by
    rw [addAll, optAddOpaque, hadd]
    simp [addAll]
  have hbuild : build 16 (fun _ => 0) 65547 0 (replicate 8 0) 1 0 [(11, val)] false [] = some _ :=
    build_eq_some.2 ⟨by decide, pkt1, hall, ⟨Int.natCast_nonneg _, Int.le_refl _⟩, rfl⟩
  refine ⟨_, hbuild, fun h => ?_⟩
  have := (recovered_iff (by decide) (by decide) (by simp) hbuild).1 h
  rw [deltas, deltas, optsBytes_cons, length_append, length_optBytes_long hval, length_replicate] at this
  omega

theorem build_not_recovered :
    ∃ pkt, build 16 (fun _ => 0) 65547 0 (replicate 8 0) 1 0 [(11, replicate 65532 0)] false [] = some pkt ∧
    ¬ Recovered 16 pkt (replicate 8 0) [(11, replicate 65532 0)] [] :=
  not_recovered_long length_replicate

end

end PipRiot.Coap
