import PipRiot.Coap.Nanocoap

/-!
# The wire format of options

An option on the wire is a byte with two codes, the extensions of both, and the value.
The parser accepts exactly the sequences of such options, and going from option to
option finds them again as long as the offsets fit in 16 bits.
-/

namespace PipRiot.Coap

open Reading List Option Int

def nibble (v : Nat) : Nat := if v < 13 then v else if v < 269 then 13 else 14

def ext (v : Nat) : List UInt8 :=
  if v < 13 then [] else if v < 269 then [UInt8.ofNat (v - 13)]
  else [UInt8.ofNat ((v - 269) / 256), UInt8.ofNat (v - 269)]

def optBytes (delta : Nat) (val : List UInt8) : List UInt8 :=
  UInt8.ofNat (16 * nibble delta + nibble val.length) :: (ext delta ++ ext val.length ++ val)

def optsBytes (opts : List (Nat × List UInt8)) : List UInt8 := opts.flatMap fun o => optBytes o.1 o.2

def limit : Nat := 65536 + 269

def Fits (o : Nat × List UInt8) : Prop := o.1 < limit ∧ o.2.length < limit

def newCount (opts : List (Nat × List UInt8)) : Nat := opts.countP fun o => o.1 ≠ 0

def numbered (n : Nat) : List (Nat × List UInt8) → List (Nat × List UInt8)
  | [] => []
  | (d, v) :: opts => ((n + d) % 2 ^ 16, v) :: numbered ((n + d) % 2 ^ 16) opts

section
variable {m : Nat → UInt8} {pos stop v : Nat} {delta : Nat} {val : List UInt8} {opts : List (Nat × List UInt8)}

theorem nibble_lt (v : Nat) : nibble v < 15 := by
  unfold nibble
  split
  · omega
  · split <;> omega

@[simp] theorem optsBytes_nil : optsBytes [] = [] := rfl

@[simp] theorem optsBytes_cons : optsBytes ((delta, val) :: opts) = optBytes delta val ++ optsBytes opts := rfl

@[simp] theorem length_bytesAt (m : Nat → UInt8) (i n : Nat) : (bytesAt m i n).length = n := by simp [bytesAt]

theorem holds_bytesAt (m : Nat → UInt8) (i n : Nat) : Holds m i (bytesAt m i n) := by
  rw [Holds, length_bytesAt]
  rfl

theorem bytesAt_of_holds {i : Nat} (h : Holds m i val) : bytesAt m i val.length = val := h

theorem length_optBytes :
    (optBytes delta val).length = 1 + (ext delta).length + (ext val.length).length + val.length := by
  simp only [optBytes, length_cons, length_append]
  omega

theorem length_le_optsBytes : ∀ opts : List (Nat × List UInt8), opts.length ≤ (optsBytes opts).length
  | [] => by simp
  | (_, _) :: opts => by
    have := length_le_optsBytes opts
    rw [optsBytes_cons, length_append, length_optBytes, length_cons]; omega

theorem toNat_codes : (UInt8.ofNat (16 * nibble delta + nibble v)).toNat = 16 * nibble delta + nibble v := by
  have := nibble_lt delta
  have := nibble_lt v
  rw [UInt8.toNat_ofNat']
  omega

/-! ## Values -/

theorem decodeValue_ext (h : Holds m pos (ext v)) (hv : v < limit) (hstop : pos + (ext v).length ≤ stop) :
    decodeValue m (nibble v) pos stop = ((v : Int), pos + (ext v).length) := by
  unfold limit at hv
  unfold ext at h hstop ⊢
  unfold nibble decodeValue
  by_cases h13 : v < 13
  · simp only [h13, if_true, length_nil, add_zero]
    rw [if_neg (by omega), if_neg (by omega), if_neg (by omega)]
  · by_cases h269 : v < 269
    · simp only [h13, h269, if_true, if_false, length_singleton, holds_cons, holds_nil, and_true] at h hstop ⊢
      rw [if_neg (by omega), h, UInt8.toNat_ofNat', Nat.mod_eq_of_lt (by omega)]
      simp only [Prod.mk.injEq, and_true]; omega
    · simp only [h13, h269, if_false, length_cons, length_nil, holds_cons, holds_nil, and_true] at h hstop ⊢
      rw [if_neg (by decide), if_pos trivial, if_neg (by omega), h.1, h.2, UInt8.toNat_ofNat', UInt8.toNat_ofNat']
      simp only [Prod.mk.injEq, and_true]; omega

theorem of_decodeValue {n : Nat} {r : Int × Nat} (h : decodeValue m n pos stop = r) (hr : 0 ≤ r.1) (hn : n < 16)
    (hpos : pos ≤ stop) :
    ∃ v : Nat, r = ((v : Int), pos + (ext v).length) ∧ v < limit ∧ nibble v = n ∧ Holds m pos (ext v) ∧
      pos + (ext v).length ≤ stop := by
  subst h
  revert hr
  fun_cases decodeValue m n pos stop with
  | case1 | case3 => simp [enospc]
  | case5 => simp [ebadmsg]
  | case2 hval hroom =>
    intro
    have hlt := (m pos).toNat_lt
    have hext : ext ((m pos).toNat + 13) = [m pos] := by
      rw [ext, if_neg (by omega), if_pos (by omega), Nat.add_sub_cancel, UInt8.ofNat_toNat]
    refine ⟨(m pos).toNat + 13, by rw [hext]; rfl, by unfold limit; omega,
      ?_, by simp [hext], by rw [hext]; simp; omega⟩
    rw [nibble, if_neg (by omega), if_pos (by omega), hval]
  | case4 _ hval hroom =>
    intro
    have hlt := (m pos).toNat_lt
    have hlt' := (m (pos + 1)).toNat_lt
    have hext : ext (256 * (m pos).toNat + (m (pos + 1)).toNat + 269) = [m pos, m (pos + 1)] := by
      rw [ext, if_neg (by omega), if_neg (by omega), Nat.add_sub_cancel]
      congr 1
      · rw [Nat.mul_add_div (by decide), Nat.div_eq_of_lt (by omega), add_zero, UInt8.ofNat_toNat]
      · congr 1
        apply UInt8.toNat_inj.1
        rw [UInt8.toNat_ofNat']; omega
    refine ⟨256 * (m pos).toNat + (m (pos + 1)).toNat + 269, by rw [hext]; rfl, by unfold limit; omega,
      ?_, by simp [hext], by rw [hext]; simp; omega⟩
    rw [nibble, if_neg (by omega), if_neg (by omega), hval]
  | case6 h1 h2 h3 =>
    intro
    have hsmall : n < 13 := by omega
    have hext : ext n = [] := if_pos hsmall
    exact ⟨n, by rw [hext]; rfl, by unfold limit; omega, if_pos hsmall, by simp [hext], by simpa [hext] using hpos⟩

/-! ## The parser -/

theorem codes_ne_marker : UInt8.ofNat (16 * nibble delta + nibble v) ≠ 0xff := by
  intro h
  have h' := congrArg UInt8.toNat h
  rw [toNat_codes] at h'
  have := nibble_lt v
  simp only [UInt8.reduceToNat] at h'
  omega

theorem codes_div : (UInt8.ofNat (16 * nibble delta + nibble v)).toNat / 16 = nibble delta := by
  have := nibble_lt v
  rw [toNat_codes]
  omega

theorem codes_mod : (UInt8.ofNat (16 * nibble delta + nibble v)).toNat % 16 = nibble v := by
  have := nibble_lt v
  rw [toNat_codes]
  omega

theorem decode_option (h : Holds m pos (optBytes delta val)) (hfits : Fits (delta, val))
    (hstop : pos + (optBytes delta val).length ≤ stop) :
    decodeValue m ((m pos).toNat / 16) (pos + 1) stop = ((delta : Int), pos + 1 + (ext delta).length) ∧
      decodeValue m ((m pos).toNat % 16) (pos + 1 + (ext delta).length) stop =
        ((val.length : Int), pos + 1 + (ext delta).length + (ext val.length).length) ∧
      m pos ≠ 0xff ∧ Holds m (pos + 1 + (ext delta).length + (ext val.length).length) val := by
  rw [length_optBytes] at hstop
  simp only [optBytes, holds_cons, holds_append, length_append] at h
  obtain ⟨hcode, ⟨hdelta, hlen⟩, hval⟩ := h
  rw [hcode, codes_div, codes_mod]
  refine ⟨decodeValue_ext hdelta hfits.1 (by omega), decodeValue_ext hlen hfits.2 (by omega), codes_ne_marker, ?_⟩
  rwa [← add_assoc] at hval

variable {nopts len : Nat} {options : List OptPos}

def recorded (nr pos : Nat) : List (Nat × List UInt8) → List OptPos
  | [] => []
  | (d, val) :: opts =>
    let rest := recorded ((nr + d) % 2 ^ 32) (pos + (optBytes d val).length) opts
    if d = 0 then rest else ⟨(nr + d) % 2 ^ 32 % 2 ^ 16, pos % 2 ^ 16⟩ :: rest

theorem length_recorded (nr pos : Nat) (opts : List (Nat × List UInt8)) :
    (recorded nr pos opts).length = newCount opts := by
  fun_induction recorded nr pos opts with
  | case1 => rfl
  | case2 nr pos val opts rest ih => simpa [newCount, rest] using ih
  | case3 nr pos d val opts rest hd ih => simpa [newCount, hd, rest] using ih

theorem parseLoop_opts : ∀ (opts : List (Nat × List UInt8)) (pos nr : Nat) (options : List OptPos) (k : Nat),
    Holds m pos (optsBytes opts) →
    (∀ o ∈ opts, Fits o) → options.length + newCount opts ≤ nopts → pos + (optsBytes opts).length ≤ len →
    ∃ nr', parseLoop nopts m len (opts.length + k) pos nr options =
      parseLoop nopts m len k (pos + (optsBytes opts).length) nr' (options ++ recorded nr pos opts)
  | [], pos, nr, options, k, _, _, _, _ => ⟨nr, by rw [length_nil, zero_add, recorded, append_nil]; rfl⟩
  | (d, val) :: opts, pos, nr, options, k, h, hfits, hcount, hlen => by
    rw [optsBytes_cons, holds_append] at h
    rw [optsBytes_cons, length_append] at hlen
    obtain ⟨hdelta, hval, hmarker, -⟩ := decode_option h.1 (hfits _ mem_cons_self) (by omega : _ ≤ len)
    have hsize := @length_optBytes d val
    have hend : pos + 1 + (ext d).length + (ext val.length).length + val.length =
      pos + (optBytes d val).length := by omega
    have hround : parseLoop nopts m len (opts.length + k + 1) pos nr options =
        if d = 0 then parseLoop nopts m len (opts.length + k) (pos + (optBytes d val).length)
          ((nr + d) % 2 ^ 32) options
        else if nopts ≤ options.length then .error (-enomem)
        else parseLoop nopts m len (opts.length + k) (pos + (optBytes d val).length) ((nr + d) % 2 ^ 32)
          (options ++ [⟨(nr + d) % 2 ^ 32 % 2 ^ 16, pos % 2 ^ 16⟩]) := by
      rw [parseLoop, if_pos (by omega), if_neg hmarker]
      simp only [hdelta, hval, toNat_natCast, hend, natCast_eq_zero]
      rw [if_neg (by omega), if_neg (by omega)]
    have hrest := fun options' hc =>
      parseLoop_opts opts (pos + (optBytes d val).length) ((nr + d) % 2 ^ 32) options' k h.2
      (fun o ho => hfits o (mem_cons_of_mem _ ho)) hc (by omega)
    rw [length_cons, add_right_comm, hround, optsBytes_cons, length_append, ← add_assoc, recorded]
    by_cases hd : d = 0
    · have hnew : newCount ((d, val) :: opts) = newCount opts := by simp [newCount, hd]
      rw [if_pos hd, if_pos hd]; exact hrest options (by omega)
    · have hnew : newCount ((d, val) :: opts) = newCount opts + 1 := by simp [newCount, hd]
      rw [if_neg hd, if_neg hd, if_neg (by omega)]
      obtain ⟨nr', heq⟩ :=
        hrest (options ++ [⟨(nr + d) % 2 ^ 32 % 2 ^ 16, pos % 2 ^ 16⟩]) (by rw [length_append, length_singleton]; omega)
      exact ⟨nr', by rw [heq, append_assoc, singleton_append]⟩

def Tail (m : Nat → UInt8) (e len : Nat) (s : Scan) : Prop :=
  s.pktPos = e ∧ s.payload = none ∧ e = len ∨
    s.pktPos = e + 1 ∧ s.payload = some (e + 1, (len - (e + 1)) % 2 ^ 16) ∧ e < len ∧ m e = 0xff

def Scanned (nopts : Nat) (m : Nat → UInt8) (len pos : Nat) (options : List OptPos) (s : Scan) : Prop :=
  ∃ opts, (∀ o ∈ opts, Fits o) ∧ Holds m pos (optsBytes opts) ∧ Tail m (pos + (optsBytes opts).length) len s ∧
    s.options.length = options.length + newCount opts ∧ s.options.length ≤ nopts

section
variable {options options' : List OptPos} {s : Scan}

theorem Scanned.cons {val : List UInt8} (hfits : Fits (delta, val)) (hopt : Holds m pos (optBytes delta val))
    (hnew : options'.length = options.length + newCount [(delta, val)])
    (h : Scanned nopts m len (pos + (optBytes delta val).length) options' s) : Scanned nopts m len pos options s := by
  obtain ⟨opts, hall, hholds, htail, hcount, hle⟩ := h
  refine ⟨(delta, val) :: opts, forall_mem_cons.2 ⟨hfits, hall⟩, ?_, ?_, ?_, hle⟩
  · rw [optsBytes_cons, holds_append]; exact ⟨hopt, hholds⟩
  · rw [optsBytes_cons, length_append, ← add_assoc]; exact htail
  · have hsplit : newCount ((delta, val) :: opts) = newCount [(delta, val)] + newCount opts :=
      @countP_append _ _ [(delta, val)] opts
    omega

theorem of_option {d l : Int × Nat} (hlt : pos < len) (hd : decodeValue m ((m pos).toNat / 16) (pos + 1) len = d)
    (hl : decodeValue m ((m pos).toNat % 16) d.2 len = l) (hd0 : ¬ d.1 < 0) (hl0 : ¬ l.1 < 0) :
    ∃ delta val, Fits (delta, val) ∧ Holds m pos (optBytes delta val) ∧ d.1 = delta ∧
      l.2 + l.1.toNat = pos + (optBytes delta val).length := by
  have hbyte := (m pos).toNat_lt
  obtain ⟨delta, rfl, hdlt, hdcode, hdext, hdstop⟩ := of_decodeValue hd (Int.not_lt.1 hd0) (by omega) hlt
  obtain ⟨n, rfl, hllt, hlcode, hlext, -⟩ := of_decodeValue hl (Int.not_lt.1 hl0) (by omega) hdstop
  have hval : (bytesAt m (pos + 1 + (ext delta).length + (ext n).length) n).length = n := length_bytesAt ..
  refine ⟨delta, bytesAt m (pos + 1 + (ext delta).length + (ext n).length) n, ⟨hdlt, hval.symm ▸ hllt⟩, ?_, rfl, ?_⟩
  · simp only [optBytes, length_bytesAt, holds_cons, holds_append, length_append]
    refine ⟨?_, ⟨hdext, hlext⟩, ?_⟩
    · apply UInt8.toNat_inj.1
      rw [toNat_codes]; omega
    · rw [← add_assoc]; exact holds_bytesAt ..
  · rw [length_optBytes, hval, toNat_natCast]; omega

theorem of_parseLoop {n nr : Nat} (h : parseLoop nopts m len n pos nr options = .ok s) (hn : len ≤ pos + n)
    (hs : s.pktPos ≤ len) (ho : options.length ≤ nopts) : Scanned nopts m len pos options s := by
  fun_induction parseLoop nopts m len n pos nr options with
  | case1 | case8 =>
    cases h
    exact ⟨[], by simp, rfl, .inl ⟨rfl, rfl, le_antisymm hs (by omega)⟩, rfl, ho⟩
  | case2 n pos nr options hlt hmarker =>
    cases h
    exact ⟨[], by simp, rfl, .inr ⟨rfl, rfl, hlt, hmarker⟩, rfl, ho⟩
  | case3 | case4 | case6 => cases h
  | case5 n pos nr options hlt _ d hd0 l hl0 nr' hzero ih =>
    obtain ⟨delta, val, hfits, hopt, hd, hend⟩ := of_option hlt rfl rfl hd0 hl0
    rw [hend] at ih h
    have hsize := @length_optBytes delta val
    have hnew : delta = 0 := natCast_eq_zero.1 (hd.symm.trans hzero)
    exact .cons hfits hopt (by simp [newCount, hnew]) (ih h (by omega) ho)
  | case7 n pos nr options hlt _ d hd0 l hl0 nr' hzero hroom ih =>
    obtain ⟨delta, val, hfits, hopt, hd, hend⟩ := of_option hlt rfl rfl hd0 hl0
    rw [hend] at ih h
    have hsize := @length_optBytes delta val
    have hnew : delta ≠ 0 := fun h0 => hzero (hd.trans (natCast_eq_zero.2 h0))
    exact .cons hfits hopt (by simp [newCount, hnew]) (ih h (by omega) (by simp; omega))

end

/-! ## From option to option -/

variable {pkt : Pkt}

theorem toNat_emod (x : Nat) : ((x : Int) % 2 ^ 16).toNat = x % 2 ^ 16 := by
  rw [show (2 : Int) ^ 16 = ((2 ^ 16 : Nat) : Int) from rfl, ← natCast_emod, toNat_natCast]

theorem optGetNext_opt {n : Nat} (h : Holds pkt.hdr pos (optBytes delta val)) (hfits : Fits (delta, val))
    (hend : pos + (optBytes delta val).length ≤ pkt.payload) :
    optGetNext pkt ⟨n, pos⟩ false =
      ((val.length : Int), ⟨(n + delta) % 2 ^ 16, (pos + (optBytes delta val).length) % 2 ^ 16⟩,
      pos + 1 + (ext delta).length + (ext val.length).length) := by
  obtain ⟨hdelta, hlen, hmarker, -⟩ := decode_option h hfits hend
  have hsize := @length_optBytes delta val
  have hparse : parseOption pkt pos = some (pos + 1 + (ext delta).length + (ext val.length).length, delta % 2 ^ 16,
      (val.length : Int)) := by
    rw [parseOption, if_neg (by rintro (h | h); omega; exact hmarker h.2)]
    simp only [hdelta, hlen, toNat_emod]
  have hnext : ((pos + 1 + (ext delta).length + (ext val.length).length : Nat) : Int) + (val.length : Int) =
      ((pos + (optBytes delta val).length : Nat) : Int) := by
    omega
  simp only [optGetNext, Bool.false_eq_true, if_false, hparse, hnext, toNat_emod, Nat.add_mod_mod]

theorem optEnum_opts : ∀ (opts : List (Nat × List UInt8)) (n pos k : Nat), Holds pkt.hdr pos (optsBytes opts) →
    (∀ o ∈ opts, Fits o) →
    pos + (optsBytes opts).length ≤ pkt.payload → pos < 2 ^ 16 → pos + (optsBytes opts).length ≤ 2 ^ 16 →
    ∃ n', optEnum pkt (opts.length + k) ⟨n, pos⟩ false =
      (optEnum pkt k ⟨n', (pos + (optsBytes opts).length) % 2 ^ 16⟩ false).map (numbered n opts ++ ·)
  | [], n, pos, k, _, _, _, hpos, _ => by
    refine ⟨n, ?_⟩
    simp only [length_nil, zero_add, optsBytes_nil, add_zero, Nat.mod_eq_of_lt hpos, numbered, nil_append]
    exact (Option.map_id' ..).symm
  | (d, val) :: opts, n, pos, k, h, hfits, hend, hpos, hlen => by
    rw [optsBytes_cons, holds_append] at h
    rw [optsBytes_cons, length_append] at hend hlen ⊢
    have hfits' := forall_mem_cons.1 hfits
    have hnext := @optGetNext_opt pos d val pkt n h.1 hfits'.1 (by omega)
    have hval := bytesAt_of_holds (decode_option h.1 hfits'.1 (by omega : _ ≤ pkt.payload)).2.2.2
    have hstep : optEnum pkt (opts.length + k + 1) ⟨n, pos⟩ false =
        (optEnum pkt (opts.length + k) ⟨(n + d) % 2 ^ 16, (pos + (optBytes d val).length) % 2 ^ 16⟩ false).map
          (((n + d) % 2 ^ 16, val) :: ·) := by
      rw [optEnum, hnext]
      simp only [toNat_natCast, hval]
      rw [if_neg (by unfold enoent; omega), if_neg (by omega)]
    rw [length_cons, add_right_comm, hstep, ← add_assoc]
    by_cases hlast : pos + (optBytes d val).length < 2 ^ 16
    · obtain ⟨n', hrest⟩ :=
        optEnum_opts opts ((n + d) % 2 ^ 16) (pos + (optBytes d val).length) k h.2 hfits'.2 (by omega) hlast (by omega)
      refine ⟨n', ?_⟩
      rw [Nat.mod_eq_of_lt hlast, hrest, Option.map_map]; rfl
    · -- only the last option can end behind the offsets
      have hnil : opts = [] := by
        have := length_le_optsBytes opts
        exact eq_nil_of_length_eq_zero (by omega)
      subst hnil
      exact ⟨(n + d) % 2 ^ 16, by simp [numbered]⟩

theorem optEnum_end {n k : Nat} (h : pkt.payload ≤ pos ∨ pos + 1 = pkt.payload ∧ pkt.hdr pos = 0xff) :
    optEnum pkt (k + 1) ⟨n, pos⟩ false = some [] := by
  rw [optEnum, optGetNext]
  simp [parseOption, h]

theorem decodeValue_ne_enoent {n : Nat} : (decodeValue m n pos stop).1 ≠ -enoent := by
  unfold decodeValue enoent enospc ebadmsg
  split
  · split
    · simp
    · simp
      omega
  · split
    · split
      · simp
      · simp
        omega
    · split <;> simp

theorem optGetNext_before {opt : OptPos} (h : opt.offset + 1 < pkt.payload) :
    (optGetNext pkt opt false).1 ≠ -enoent ∧ (optGetNext pkt opt false).2.1.offset < 2 ^ 16 := by
  have hne : ¬ (pkt.payload ≤ opt.offset ∨ opt.offset + 1 = pkt.payload ∧ pkt.hdr opt.offset = 0xff) := by omega
  simp only [optGetNext, Bool.false_eq_true, if_false, parseOption, if_neg hne]
  refine ⟨decodeValue_ne_enoent, ?_⟩
  omega

theorem optEnum_not_end {opt : OptPos} (h : opt.offset + 1 < pkt.payload) : optEnum pkt 1 opt false = none := by
  simp only [(optGetNext_before h).1, if_false, optEnum, map_none, ite_self]

theorem optEnum_none (h : 2 ^ 16 < pkt.payload) :
    ∀ (k : Nat) (opt : OptPos), opt.offset < 2 ^ 16 → optEnum pkt k opt false = none
  | 0, _, _ => rfl
  | k + 1, opt, hopt => by
    obtain ⟨hne, hlt⟩ := @optGetNext_before pkt opt (by omega)
    rw [optEnum]
    simp only [hne, if_false, optEnum_none h k _ hlt, map_none, ite_self]

theorem optEnum_init (k : Nat) (opt : OptPos) :
    optEnum pkt k opt true = optEnum pkt k ⟨0, 4 + tokenLen pkt.hdr⟩ false := by
  cases k <;> rfl

end

/-! ## Messages -/

structure Msg where
  verTTkl : UInt8
  code : UInt8
  id : UInt8 × UInt8
  token : List UInt8
  opts : List (Nat × List UInt8)
  tail : Option (List UInt8)

namespace Msg

def tailBytes (x : Msg) : List UInt8 := x.tail.elim [] (0xff :: ·)

def bytes (x : Msg) : List UInt8 :=
  [x.verTTkl, x.code, x.id.1, x.id.2] ++ (x.token ++ (optsBytes x.opts ++ x.tailBytes))

def optsEnd (x : Msg) : Nat := 4 + x.token.length + (optsBytes x.opts).length

def payload (x : Msg) : List UInt8 := x.tail.getD []

structure Ok (nopts : Nat) (x : Msg) : Prop where
  tokenLen : x.verTTkl.toNat % 16 = x.token.length
  token_le : x.token.length ≤ 8
  fits : ∀ o ∈ x.opts, Fits o
  count : newCount x.opts ≤ nopts
  empty : x.code = 0 → x.bytes.length = 4

end Msg

section
variable {nopts len : Nat} {m : Nat → UInt8} {x : Msg} {p : Pkt}

theorem Msg.length_bytes (x : Msg) : x.bytes.length = x.optsEnd + x.tailBytes.length := by
  simp only [Msg.bytes, Msg.optsEnd, length_append, length_cons, length_nil]
  omega

theorem Msg.length_tailBytes (x : Msg) : x.tailBytes.length = x.payload.length + if x.tail.isSome then 1 else 0 := by
  cases h : x.tail <;> simp [Msg.tailBytes, Msg.payload, h]

theorem Msg.holds_bytes : Holds m 0 x.bytes ↔ (m 0 = x.verTTkl ∧ m 1 = x.code ∧ m 2 = x.id.1 ∧ m 3 = x.id.2) ∧
    Holds m 4 x.token ∧ Holds m (4 + x.token.length) (optsBytes x.opts) ∧ Holds m x.optsEnd x.tailBytes := by
  simp [Msg.bytes, Msg.optsEnd, add_assoc, and_assoc]

structure Parsed (m : Nat → UInt8) (x : Msg) (p : Pkt) : Prop where
  hdr : p.hdr = m
  payload : p.payload + x.payload.length = x.bytes.length
  payloadLen : p.payloadLen = x.payload.length % 2 ^ 16
  options : p.options.length = newCount x.opts

theorem parseLoop_tail {k nr : Nat} {options : List OptPos} (h : Holds m x.optsEnd x.tailBytes) (hk : 0 < k) :
    ∃ s, parseLoop nopts m x.bytes.length k x.optsEnd nr options = .ok s ∧ s.options = options ∧
      s.pktPos ≤ x.bytes.length ∧
      s.payload.getD (s.pktPos, 0) = (x.bytes.length - x.payload.length, x.payload.length % 2 ^ 16) := by
  obtain ⟨n, rfl⟩ : ∃ n, k = n + 1 := ⟨k - 1, by omega⟩
  have hlen := x.length_bytes
  have htail := x.length_tailBytes
  rw [parseLoop]
  cases hx : x.tail with
  | none =>
    have hpl : x.payload = [] := by rw [Msg.payload, hx]; rfl
    rw [hx, hpl] at htail
    simp only [length_nil, isSome_none, Bool.false_eq_true, if_false] at htail
    refine ⟨⟨x.optsEnd, none, options⟩, if_neg (by omega), rfl, by rw [hlen]; exact Nat.le_add_right _ _, ?_⟩
    rw [hpl]
    simp only [getD_none, length_nil, Nat.sub_zero, Nat.zero_mod]
    rw [hlen, htail, Nat.add_zero]
  | some pl =>
    have hpl : x.payload = pl := by rw [Msg.payload, hx]; rfl
    rw [hx, hpl] at htail
    simp only [isSome_some, if_true] at htail
    have hmarker : m x.optsEnd = 0xff := by
      rw [Msg.tailBytes, hx] at h; exact (holds_cons.1 h).1
    rw [if_pos (by omega), if_pos hmarker]
    refine ⟨_, rfl, rfl, by simp only; omega, ?_⟩
    rw [hpl]
    simp only [getD_some, Prod.mk.injEq]
    constructor
    · omega
    · congr 1
      omega

def Msg.parsed (x : Msg) (m : Nat → UInt8) : Pkt :=
  ⟨m, x.bytes.length - x.payload.length, x.payload.length % 2 ^ 16, recorded 0 (4 + x.token.length) x.opts⟩

theorem Msg.parsed_spec (x : Msg) (m : Nat → UInt8) : Parsed m x (x.parsed m) := by
  refine ⟨rfl, Nat.sub_add_cancel ?_, rfl, length_recorded ..⟩
  rw [x.length_bytes, x.length_tailBytes]
  omega

theorem parse_bytes (hx : x.Ok nopts) (h : Holds m 0 x.bytes) : parse nopts m x.bytes.length = .ok (x.parsed m) := by
  obtain ⟨⟨hver, hcode, -⟩, -, hopts, htail⟩ := Msg.holds_bytes.1 h
  have hlen := x.length_bytes
  have htkl : tokenLen m = x.token.length := by rw [tokenLen, hver, hx.tokenLen]
  have htoken := hx.token_le
  have hle := length_le_optsBytes x.opts
  have hend : x.optsEnd = 4 + x.token.length + (optsBytes x.opts).length := rfl
  obtain ⟨nr, hloop⟩ :=
    @parseLoop_opts m nopts x.bytes.length x.opts (4 + x.token.length) 0 [] (x.bytes.length - x.opts.length)
    hopts hx.fits (by simpa using hx.count) (by omega)
  rw [show x.opts.length + (x.bytes.length - x.opts.length) = x.bytes.length by omega, ← hend, nil_append] at hloop
  obtain ⟨s, hs, hsopts, hpos, hspl⟩ :=
    @parseLoop_tail nopts m x (x.bytes.length - x.opts.length) nr (recorded 0 (4 + x.token.length) x.opts)
    htail (by omega)
  have hempty : ¬ (m 1 = 0 ∧ 4 < x.bytes.length) := by
    rintro ⟨h0, hlt⟩
    have := hx.empty (hcode ▸ h0); omega
  rw [parse, if_neg (by omega), if_neg hempty, if_neg (by omega), htkl, hloop, hs]
  simp only [bind, Except.bind, hspl, hsopts]
  rw [if_neg (by omega)]
  rfl

theorem parse_msg (hx : x.Ok nopts) (h : Holds m 0 x.bytes) :
    ∃ p, parse nopts m x.bytes.length = .ok p ∧ Parsed m x p :=
  ⟨x.parsed m, parse_bytes hx h, x.parsed_spec m⟩

theorem of_parse (h : parse nopts m len = .ok p) : ∃ x, Msg.Ok nopts x ∧ Holds m 0 x.bytes ∧ x.bytes.length = len := by
  revert h
  fun_cases parse nopts m len with
  | case1 | case2 | case3 => nofun
  | case4 hlen hempty htoken =>
    intro h
    cases hloop : parseLoop nopts m len len (4 + tokenLen m) 0 [] with
    | error e => simp [hloop, bind, Except.bind] at h
    | ok s =>
      simp only [hloop, bind, Except.bind] at h
      split at h
      · cases h
      · obtain ⟨opts, hfits, hopts, htail, hcount, hle⟩ := of_parseLoop hloop (by omega) (by omega) zero_le
        obtain ⟨tail, htail'⟩ : ∃ tail : Option (List UInt8),
          Holds m (4 + tokenLen m + (optsBytes opts).length) (tail.elim [] (0xff :: ·)) ∧
            4 + tokenLen m + (optsBytes opts).length + (tail.elim [] (0xff :: ·)).length = len := by
          rcases htail with ⟨-, -, he⟩ | ⟨-, -, hlt, hmarker⟩
          · exact ⟨none, rfl, he⟩
          · refine ⟨some (bytesAt m (4 + tokenLen m + (optsBytes opts).length + 1)
              (len - (4 + tokenLen m + (optsBytes opts).length + 1))), ?_, ?_⟩
            · exact holds_cons.2 ⟨hmarker, holds_bytesAt ..⟩
            · simp only [elim_some, length_cons, length_bytesAt]; omega
        have htkl : (bytesAt m 4 (tokenLen m)).length = tokenLen m := length_bytesAt ..
        have hlen' : (Msg.mk (m 0) (m 1) (m 2, m 3) (bytesAt m 4 (tokenLen m)) opts tail).bytes.length = len := by
          rw [Msg.length_bytes, Msg.optsEnd, htkl]; exact htail'.2
        refine ⟨⟨m 0, m 1, (m 2, m 3), bytesAt m 4 (tokenLen m), opts, tail⟩, ⟨htkl.symm, ?_, hfits, ?_, ?_⟩, ?_, hlen'⟩
        · exact le_trans htkl.le (by omega)
        · exact le_trans (le_of_eq (hcount.trans (zero_add _)).symm) hle
        · intro h0
          have : ¬ 4 < len := fun hlt => hempty ⟨h0, hlt⟩
          omega
        · rw [Msg.holds_bytes]
          refine ⟨⟨rfl, rfl, rfl, rfl⟩, holds_bytesAt .., ?_, ?_⟩
          · simpa only [htkl] using hopts
          · simpa only [Msg.optsEnd, Msg.tailBytes, htkl] using htail'.1

theorem parse_ok_iff : parse nopts m len = .ok p ↔
    ∃ x, Msg.Ok nopts x ∧ Holds m 0 x.bytes ∧ x.bytes.length = len ∧ p = x.parsed m := by
  constructor
  · intro h
    obtain ⟨x, hx, hm, rfl⟩ := of_parse h
    rw [parse_bytes hx hm] at h
    cases h; exact ⟨x, hx, hm, rfl, rfl⟩
  · rintro ⟨x, hx, hm, rfl, rfl⟩
    exact parse_bytes hx hm

theorem Parsed.holds_payload (h : Holds m 0 x.bytes) (hp : Parsed m x p) : Holds p.hdr p.payload x.payload := by
  have htail := (Msg.holds_bytes.1 h).2.2.2
  have hpl := hp.payload
  rw [x.length_bytes, x.length_tailBytes] at hpl
  rw [hp.hdr]
  cases ht : x.tail with
  | none => simp [Msg.payload, ht]
  | some pl =>
    rw [Msg.tailBytes, ht] at htail
    rw [ht, isSome_some, if_pos rfl] at hpl
    rw [show p.payload = x.optsEnd + 1 by omega, Msg.payload, ht]
    exact (holds_cons.1 htail).2

theorem Parsed.tokenLen_eq (hx : x.Ok nopts) (h : Holds m 0 x.bytes) (hp : Parsed m x p) :
    tokenLen p.hdr = x.token.length := by
  rw [tokenLen, hp.hdr, (Msg.holds_bytes.1 h).1.1, hx.tokenLen]

theorem Parsed.token (hx : x.Ok nopts) (h : Holds m 0 x.bytes) (hp : Parsed m x p) :
    bytesAt p.hdr 4 (tokenLen p.hdr) = x.token := by
  rw [hp.tokenLen_eq hx h, hp.hdr]
  exact (Msg.holds_bytes.1 h).2.1

theorem Parsed.payload_eq (hp : Parsed m x p) : p.payload = x.optsEnd + if x.tail.isSome then 1 else 0 := by
  have := hp.payload
  have := x.length_bytes
  have := x.length_tailBytes
  omega

theorem Parsed.at_end (h : Holds m 0 x.bytes) (hp : Parsed m x p) :
    p.payload ≤ x.optsEnd ∨ x.optsEnd + 1 = p.payload ∧ p.hdr x.optsEnd = 0xff := by
  have htail := (Msg.holds_bytes.1 h).2.2.2
  rw [hp.payload_eq]
  cases htl : x.tail with
  | none => simp
  | some pl =>
    rw [Msg.tailBytes, htl] at htail
    refine .inr ⟨rfl, ?_⟩
    rw [hp.hdr]; exact (holds_cons.1 htail).1

theorem optEnum_msg (hx : x.Ok nopts) (h : Holds m 0 x.bytes) (hp : Parsed m x p) (opt : OptPos) (k : Nat) :
    (x.optsEnd < 2 ^ 16 → optEnum p (x.opts.length + (k + 1)) opt true = some (numbered 0 x.opts)) ∧
      (2 ^ 16 ≤ x.optsEnd → optEnum p (x.opts.length + 1) opt true = none) := by
  obtain ⟨-, -, hopts, -⟩ := Msg.holds_bytes.1 h
  have htoken := hx.token_le
  have hend : x.optsEnd = 4 + x.token.length + (optsBytes x.opts).length := rfl
  have hpl := hp.payload_eq
  have hfound := fun k hle => @optEnum_opts p x.opts 0 (4 + x.token.length) k (hp.hdr ▸ hopts) hx.fits (by omega)
    (by omega) hle
  rw [optEnum_init, optEnum_init, hp.tokenLen_eq hx h]
  constructor
  · intro hlt
    obtain ⟨n', hfound⟩ := hfound (k + 1) (by omega)
    rw [hfound, ← hend, Nat.mod_eq_of_lt hlt, optEnum_end]
    · simp
    · exact hp.at_end h
  · intro hge
    by_cases hmore : 2 ^ 16 < p.payload
    · exact optEnum_none hmore _ _ (by simp only; omega)
    · have heq : x.optsEnd = 2 ^ 16 := by omega
      obtain ⟨n', hfound⟩ := hfound 1 (by omega)
      rw [hfound, ← hend, heq, optEnum_not_end (by simp only; omega)]
      rfl

end

end PipRiot.Coap
