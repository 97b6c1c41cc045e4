import PipRiot.Can.IsotpFrames
import PipRiot.Lib.System

/-!
# Transfers

A message goes from one node to another, whatever the order in which the nodes and the
bus take their turns. How far a transfer is, is told by a few counters; the states of
both nodes and what is in flight follow from them.
-/

namespace PipRiot.Isotp

open Reading List Option Int

/-! ## Cutting a message -/

def last (o : Options) (len : Nat) : Nat := if len ≤ 7 - o.ae then 0 else len / (7 - o.ae)

def off (o : Options) (len c : Nat) : Nat :=
  if c = 0 then 0 else if len ≤ 7 - o.ae then len else min len (6 - o.ae + (c - 1) * (7 - o.ae))

section
variable {o : Options} {len c : Nat}

theorem Options.ae_cases (o : Options) : o.ae = 0 ∨ o.ae = 1 := by
  have := o.ae_le
  omega

theorem off_one : off o len 1 = if len ≤ 7 - o.ae then len else 6 - o.ae := by
  rw [off, if_neg (by omega)]
  split
  · rfl
  · omega

theorem off_long (hlong : 7 - o.ae < len) (k : Nat) : off o len (k + 1) = min len (6 - o.ae + k * (7 - o.ae)) := by
  rw [off, if_neg (by omega), if_neg (by omega), Nat.add_sub_cancel]

theorem off_lt (hpos : 0 < len) (hc : c ≤ last o len) : off o len c < len := by
  cases c with
  | zero => exact hpos
  | succ k =>
    unfold last at hc
    split at hc
    · omega
    · rw [off_long (by omega)]
      have hae := o.ae_cases
      generalize o.ae = e at *
      obtain rfl | rfl := hae <;> omega

theorem off_last : off o len (last o len + 1) = len := by
  by_cases hshort : len ≤ 7 - o.ae
  · rw [last, if_pos hshort, off_one, if_pos hshort]
  · rw [off_long (by omega), last, if_neg hshort]
    have hae := o.ae_cases
    generalize o.ae = e at *
    obtain rfl | rfl := hae <;> omega

theorem off_succ (hc : 1 ≤ c) (hlong : 7 - o.ae < len) :
    off o len (c + 1) = off o len c + numBytes o len (off o len c) := by
  obtain ⟨k, rfl⟩ : ∃ k, c = k + 1 := ⟨c - 1, by omega⟩
  rw [off_long hlong, off_long hlong, numBytes]
  have hae := o.ae_cases
  generalize o.ae = e at *
  obtain rfl | rfl := hae <;> omega

theorem last_pos_iff : 0 < last o len ↔ 7 - o.ae < len := by
  unfold last
  split
  · omega
  · have hae := o.ae_cases
    generalize o.ae = e at *
    obtain rfl | rfl := hae <;> omega

theorem last_le : last o len ≤ len := by
  unfold last
  split
  · omega
  · exact Nat.div_le_self _ _

end

/-! ## Flow control -/

def need (bs : UInt8) (c : Nat) : Nat := if c = 0 then 0 else 1 + (c - 1) / bs.toNat

section
variable {bs : UInt8} {c i j : Nat}

theorem need_mono (h : i ≤ j) : need bs i ≤ need bs j := by
  unfold need
  split
  · omega
  · rw [if_neg (by omega)]
    exact Nat.add_le_add_left (Nat.div_le_div_right (by omega)) 1

theorem need_succ (hc : 1 ≤ c) : need bs (c + 1) = need bs c + if bs.toNat ∣ c then 1 else 0 := by
  obtain ⟨k, rfl⟩ : ∃ k, c = k + 1 := ⟨c - 1, by omega⟩
  rw [need, need, if_neg (by omega), if_neg (by omega), Nat.add_sub_cancel, Nat.add_sub_cancel, Nat.succ_div,
    add_assoc]

theorem need_le (bs : UInt8) (c : Nat) : need bs c ≤ c := by
  unfold need
  split
  · omega
  · have := Nat.div_le_self (c - 1) bs.toNat; omega

theorem block_full {k : Nat} (hbs : bs ≠ 0) (hc : 1 ≤ c) (h : k + (need bs c - 1) * bs.toNat = c) :
    k ≤ bs.toNat ∧ (bs.toNat ≤ k ↔ bs.toNat ∣ c) := by
  have hpos : 0 < bs.toNat := pos_of_ne_zero fun h0 => hbs (UInt8.toNat_inj.1 h0)
  rw [need, if_neg (by omega), Nat.add_sub_cancel_left] at h
  have hdiv := Nat.div_add_mod (c - 1) bs.toNat
  have hlt := Nat.mod_lt (c - 1) hpos
  rw [mul_comm] at hdiv
  generalize hq : (c - 1) / bs.toNat * bs.toNat = q at h hdiv
  refine ⟨by omega, fun hle => ?_, fun hdvd => ?_⟩
  · have : c = bs.toNat * ((c - 1) / bs.toNat + 1) := by
      rw [mul_add, mul_one, mul_comm, hq]; omega
    exact ⟨_, this⟩
  · have hq' : bs.toNat ∣ q := hq ▸ Nat.dvd_mul_left _ _
    have : bs.toNat ∣ k := by
      rw [← h] at hdvd; exact (Nat.dvd_add_left hq').1 hdvd
    exact Nat.le_of_dvd (by omega) this

theorem block_start (hc : 1 ≤ c) (h : need bs (c - 1) < need bs c) : (need bs c - 1) * bs.toNat + 1 = c := by
  obtain rfl | hc' : c = 1 ∨ 2 ≤ c := by omega
  · simp [need]
  · have hsucc := @need_succ bs (c - 1) (by omega)
    rw [Nat.sub_add_cancel hc] at hsucc
    have hdvd : bs.toNat ∣ c - 1 := by
      apply Decidable.byContradiction
      intro hn
      rw [if_neg hn] at hsucc; omega
    rw [need, if_neg (by omega), Nat.add_sub_cancel_left, Nat.div_mul_cancel hdvd]
    omega

theorem lt_of_need_lt (h : need bs i < need bs j) : i < j := by
  apply not_le.mp
  intro hle
  exact absurd (need_mono hle) (not_le.2 h)

end

/-! ## Transfers -/

structure Transfer where
  sender : Options
  receiver : Options
  rxfc : FcOptions
  msg : List UInt8
  junk : Frame
  sent : List UserMsg
  received : List UserMsg
  pos : 0 < msg.length
  max : msg.length ≤ 4095
  linked : Linked sender receiver
  back : Linked receiver sender
  listen : receiver.listenMode = false

variable (τ : Transfer)

namespace Transfer

def last (τ : Transfer) : Nat := Isotp.last τ.sender τ.msg.length

def off (τ : Transfer) (c : Nat) : Nat := Isotp.off τ.sender τ.msg.length c

def need (τ : Transfer) (c : Nat) : Nat := Isotp.need τ.rxfc.bs c

def flow : Frame := fcFrame τ.junk τ.receiver τ.rxfc 0

def frame (i : Nat) : Frame :=
  if i = 0 then
    if τ.msg.length ≤ 7 - τ.sender.ae then setPci τ.sender (dataframe τ.sender τ.msg 0 τ.junk)
      (UInt8.ofNat τ.msg.length)
    else ffFrame τ.sender τ.msg 0 τ.junk
  else setPci τ.sender (dataframe τ.sender τ.msg (τ.off i) τ.junk) (0x20 ||| UInt8.ofNat (i % 16))

end Transfer

/-- Of the message's frames `c` are made, `t` went over the bus, `d` are confirmed, `r`
received; of the flow control frames `u` went over the bus, `v` are confirmed, `h`
received; `z` if the gap before the next frame is over. -/
structure Progress where
  c : Nat
  t : Nat
  d : Nat
  r : Nat
  u : Nat
  v : Nat
  h : Nat
  z : Bool

namespace Progress

def given (x : Progress) : Nat := τ.need (min x.r τ.last)

structure Ok (τ : Transfer) (x : Progress) : Prop where
  t_le : x.t ≤ x.c
  d_le : x.d ≤ x.t
  c_le : x.c ≤ x.d + 1
  c_last : x.c ≤ τ.last + 1
  r_le : x.r ≤ x.t
  u_le : x.u ≤ x.given τ
  v_le : x.v ≤ x.u
  given_le : x.given τ ≤ x.v + 1
  h_le : x.h ≤ x.u
  need_le : τ.need (x.c - 1) ≤ x.h
  need_eq : x.d < x.c → x.h = τ.need (x.c - 1)
  gap : x.z = true → x.d = x.c ∧ 1 ≤ x.c ∧ x.c ≤ τ.last ∧ x.h = τ.need x.c

def total (x : Progress) : Nat := 2 * x.c + x.t + x.d + x.r + x.u + x.v + x.h + if x.z then 1 else 0

end Progress

def senderState (x : Progress) : State :=
  if x.c = 0 then .idle
  else if x.d < x.c then if x.c = 1 then if τ.last = 0 then .sendingSf else .sendingFf else .sendingCf
  else if x.c = τ.last + 1 then .idle
  else if x.h < τ.need x.c then .waitFc else .sendingNextCf

structure Sender (τ : Transfer) (x : Progress) (a : Node) : Prop where
  opt : a.opt = τ.sender
  idx : a.tx.idx = τ.off x.c
  snip : x.d ≤ τ.last → a.tx.snip = some τ.msg
  sn : 1 ≤ x.c → 1 ≤ τ.last → a.tx.sn = x.c % 16
  block : 1 ≤ x.h → a.txfc.bs = τ.rxfc.bs ∧ (τ.rxfc.bs ≠ 0 → a.tx.bs + (x.h - 1) * τ.rxfc.bs.toNat + 1 = x.c)
  state : a.tx.state = senderState τ x
  rx : a.rx.state = .idle
  timer : a.tx.state = .sendingNextCf → x.z = false → a.txTimer.isSome
  expired : x.z = true → a.txTimer = none
  handle : x.d < x.c → 0 ≤ a.tx.txHandle
  pending : a.pending = if x.t < x.c then [(a.tx.txHandle.toNat, τ.frame x.t)] else []
  inbox : a.inbox = (if x.c = 0 then [.sendFrame] else []) ++
    (if x.d < x.t then [.txConfirmation a.tx.txHandle] else []) ++
    (if x.h < x.u then [.rxIndication τ.flow] else []) ++ if x.z then [.txTimeout] else []
  user : a.user = τ.sent ++ if x.d = τ.last + 1 then [.txConfirmation] else []

def receiverState (x : Progress) : State :=
  if x.r = 0 ∨ x.r = τ.last + 1 then .idle else if x.v = 0 then .sendingFc else .waitCf

structure Buffer (τ : Transfer) (x : Progress) (rx : Tpcon) : Prop where
  idx : rx.idx = τ.off x.r
  sn : rx.sn = x.r % 16
  snip : rx.snip = some (filled τ.msg (τ.off x.r))
  block : τ.rxfc.bs ≠ 0 → rx.bs + (x.given τ - 1) * τ.rxfc.bs.toNat + 1 = x.r

structure Receiver (τ : Transfer) (x : Progress) (b : Node) : Prop where
  opt : b.opt = τ.receiver
  rxfc : b.rxfc = τ.rxfc
  tx : b.tx.state = .idle
  txHandle : b.tx.txHandle = 0
  next : 0 < b.handle
  state : b.rx.state = receiverState τ x
  buffer : 1 ≤ x.r → x.r ≤ τ.last → Buffer τ x b.rx
  handle : x.v < x.given τ → 0 < b.rx.txHandle
  pending : b.pending = if x.u < x.given τ then [(b.rx.txHandle.toNat, τ.flow)] else []
  inbox : b.inbox = (if x.v < x.u then [.txConfirmation b.rx.txHandle] else []) ++
    (List.range' x.r (x.t - x.r)).map fun i => .rxIndication (τ.frame i)
  user : b.user = τ.received ++ if x.r = τ.last + 1 then [.rxIndication τ.msg] else []

structure Inv (τ : Transfer) (x : Progress) (s : System) : Prop where
  ok : x.Ok τ
  sender : Sender τ x s.a
  receiver : Receiver τ x s.b

section
variable {τ : Transfer} {x : Progress} {s : System} {a b : Node} {rest : List Msg} {junk : Frame} {n peer : Node}

/-! ## Counters -/

theorem Transfer.off_lt {c : Nat} (h : c ≤ τ.last) : τ.off c < τ.msg.length := Isotp.off_lt τ.pos h

theorem Transfer.off_last : τ.off (τ.last + 1) = τ.msg.length := Isotp.off_last

theorem Transfer.need_pos {c : Nat} (h : 1 ≤ c) : 1 ≤ τ.need c := by
  rw [Transfer.need, Isotp.need, if_neg (by omega)]
  exact Nat.le_add_right 1 _

theorem Transfer.need_mono {i j : Nat} (h : i ≤ j) : τ.need i ≤ τ.need j := Isotp.need_mono h

theorem Transfer.lt_of_need_lt {i j : Nat} (h : τ.need i < τ.need j) : i < j := Isotp.lt_of_need_lt h

theorem Transfer.need_pred_le (c : Nat) : τ.need c ≤ τ.need (c - 1) + 1 := by
  cases c with
  | zero => exact zero_le
  | succ c =>
    cases c with
    | zero => simp [Transfer.need, Isotp.need]
    | succ c =>
      rw [Nat.add_sub_cancel, Transfer.need, Transfer.need, need_succ (by omega)]
      split <;> omega

namespace Progress.Ok

theorem given_le_need (h : x.Ok τ) : x.given τ ≤ τ.need x.t :=
  Transfer.need_mono (le_trans (min_le_left _ _) h.r_le)

theorem h_le_need (h : x.Ok τ) : x.h ≤ τ.need x.t := le_trans h.h_le (le_trans h.u_le h.given_le_need)

theorem settled (h : x.Ok τ) (hg : x.u < x.given τ) : x.r = x.c := by
  have hlt : τ.need (x.c - 1) < τ.need (min x.r τ.last) := lt_of_le_of_lt (le_trans h.need_le h.h_le) hg
  have := Transfer.lt_of_need_lt hlt
  have := h.r_le
  have := h.t_le
  omega

theorem no_gap (h : x.Ok τ) (hne : x.d ≠ x.c ∨ x.c = 0) : x.z = false := by
  cases hz : x.z with
  | false => rfl
  | true =>
    have := h.gap hz; omega

theorem flow_waited (h : x.Ok τ) (hu : x.h < x.u) : x.t = x.c ∧ x.h < τ.need x.c ∧ x.z = false ∧ x.c ≤ τ.last := by
  have hlt : x.h < τ.need (min x.r τ.last) := lt_of_lt_of_le hu h.u_le
  have hc := Transfer.lt_of_need_lt (lt_of_le_of_lt h.need_le hlt)
  have hr := h.r_le
  have ht := h.t_le
  have hmin : min x.r τ.last = x.c := by omega
  rw [hmin] at hlt
  refine ⟨by omega, hlt, ?_, by omega⟩
  cases hz : x.z with
  | false => rfl
  | true => exact absurd (h.gap hz).2.2.2 (by omega)

end Progress.Ok

/-! ## The sender -/

theorem Receiver.congr {y : Progress} (h : Receiver τ x b) (ht : y.t = x.t) (hr : y.r = x.r) (hu : y.u = x.u)
    (hv : y.v = x.v) : Receiver τ y b := by
  obtain ⟨c, t, d, r, u, v, hh, z⟩ := x
  subst ht hr hu hv
  exact ⟨h.opt, h.rxfc, h.tx, h.txHandle, h.next, h.state, fun h1 h2 => { h.buffer h1 h2 with },
    h.handle, h.pending, h.inbox, h.user⟩

theorem Sender.start (hx : x.Ok τ) (h : Sender τ x a) (hc : x.c = 0) :
    Sender τ { x with c := 1 } (isotpThread plenty τ.junk { a with inbox := [] } .sendFrame) := by
  have ht := hx.t_le
  have hd := hx.d_le
  have hsnip := h.snip (by omega)
  have hidx : a.tx.idx = 0 := by rw [h.idx, hc]; rfl
  have hpend : a.pending = [] := by rw [h.pending, if_neg (by omega)]
  have hu : x.h = 0 ∧ x.u = 0 := by
    have := hx.given_le_need
    rw [show x.t = 0 by omega] at this
    have := hx.u_le
    have := hx.h_le
    have : τ.need 0 = 0 := rfl
    omega
  have hz := hx.no_gap (by omega)
  have hlast : τ.last = 0 ↔ τ.msg.length ≤ 7 - τ.sender.ae := by
    have := @last_pos_iff τ.sender τ.msg.length
    unfold Transfer.last; omega
  simp only [isotpThread, sendSfFf, hsnip, getD_some, h.opt]
  split
  · rename_i hshort
    simp only [fillDataframe, txSend_plenty, hsnip, getD_some, hidx]
    exact { h with
      opt := rfl
      idx := by
        show 0 + numBytes τ.sender τ.msg.length 0 = Isotp.off τ.sender τ.msg.length 1
        rw [off_one, if_pos hshort, numBytes]; omega
      snip := fun _ => rfl
      sn := fun _ hl => by have := hlast.2 hshort; omega
      block := fun hh => by have : 1 ≤ x.h := hh; omega
      state := by
        simp [senderState, hlast.2 hshort, show x.d = 0 by omega]
      timer := fun hs => by cases hs
      expired := fun hz' => by cases hz.symm.trans hz'
      handle := fun _ => natCast_nonneg _
      pending := by
        rw [hpend, if_pos (show x.t < 1 by omega)]
        simp [Transfer.frame, hshort, show x.t = 0 by omega]
      inbox := by
        simp [hz, hu, show x.d = 0 by omega, show x.t = 0 by omega] }
  · rename_i hlong
    simp only [createFf, txSend_plenty, getD_some, hidx]
    exact { h with
      opt := rfl
      idx := by
        show 0 + (6 - τ.sender.ae) = Isotp.off τ.sender τ.msg.length 1
        rw [off_one, if_neg hlong, zero_add]
      snip := fun _ => rfl
      sn := fun _ _ => rfl
      block := fun hh => by have : 1 ≤ x.h := hh; omega
      state := by
        simp [senderState, show ¬ τ.last = 0 from fun h0 => hlong (hlast.1 h0), show x.d = 0 by omega]
      timer := fun hs => by cases hs
      expired := fun hz' => by cases hz.symm.trans hz'
      handle := fun _ => natCast_nonneg _
      pending := by
        rw [hpend, if_pos (show x.t < 1 by omega)]
        simp [Transfer.frame, hlong, show x.t = 0 by omega]
      inbox := by
        simp [hz, hu, show x.d = 0 by omega, show x.t = 0 by omega] }

theorem full_iff (hc : 2 ≤ x.c) (hh : x.h = τ.need (x.c - 1)) {k : Nat}
    (h : τ.rxfc.bs ≠ 0 → k + (x.h - 1) * τ.rxfc.bs.toNat + 1 = x.c) :
    τ.rxfc.bs ≠ 0 ∧ τ.rxfc.bs.toNat ≤ k ↔ x.h < τ.need x.c := by
  have hsucc := @need_succ τ.rxfc.bs (x.c - 1) (by omega)
  rw [Nat.sub_add_cancel (by omega)] at hsucc
  have hlt : x.h < τ.need x.c ↔ τ.rxfc.bs.toNat ∣ x.c - 1 := by
    rw [hh, Transfer.need, Transfer.need, hsucc]
    split
    · rename_i hd
      simp [hd]
    · rename_i hd
      simp [hd]
  rw [hlt]
  by_cases hbs : τ.rxfc.bs = 0
  · rw [hbs]
    simp
    omega
  · have h' := h hbs
    rw [hh] at h'
    have := (block_full hbs (show 1 ≤ x.c - 1 by omega)
      (show k + (Isotp.need τ.rxfc.bs (x.c - 1) - 1) * τ.rxfc.bs.toNat = x.c - 1 from by
      show k + (τ.need (x.c - 1) - 1) * τ.rxfc.bs.toNat = x.c - 1
      omega)).2
    simp [hbs, this]

theorem Sender.confirm (hx : x.Ok τ) (h : Sender τ x a) (hd : x.d < x.t)
    (hrest : rest = if x.h < x.u then [.rxIndication τ.flow] else []) :
    Sender τ { x with d := x.d + 1 }
      (isotpThread plenty τ.junk { a with inbox := rest } (.txConfirmation a.tx.txHandle)) := by
  have ht := hx.t_le
  have hc := hx.c_le
  have hhn := hx.need_eq (by omega)
  have hz := hx.no_gap (by omega)
  have hpend : a.pending = [] := by rw [h.pending, if_neg (by omega)]
  have hlast := hx.c_last
  have hsnip := h.snip (by omega)
  have hidx : a.tx.idx = τ.off x.c := h.idx
  -- every branch leaves a node of this form
  have key : ∀ (state : State) (timer : Option Nat) (snip : Option (List UInt8)) (user : List UserMsg),
    state = senderState τ { x with d := x.d + 1 } →
      (state = .sendingNextCf → timer.isSome) → (x.c ≤ τ.last → snip = some τ.msg) →
        user = τ.sent ++ (if x.c = τ.last + 1 then [.txConfirmation] else []) →
      Sender τ { x with d := x.d + 1 }
        { a with inbox := rest, txTimer := timer, tx.txHandle := 0, tx.state := state, tx.snip := snip,
                 user := user } := by
    intro state timer snip user hstate htimer hsnip' huser
    exact { h with
      snip := fun hle => hsnip' (by have : x.d + 1 ≤ τ.last := hle; omega)
      state := hstate
      timer := fun hs _ => htimer hs
      expired := fun hz' => by cases hz.symm.trans hz'
      handle := fun hlt => by have : x.d + 1 < x.c := hlt; omega
      pending := by
        rw [hpend, if_neg (show ¬ x.t < x.c by omega)]
      inbox := by
        simp [hrest, hz, show ¬ x.c = 0 by omega, show ¬ x.d + 1 < x.t by omega]
      user := by
        rw [show x.c = x.d + 1 by omega] at huser; exact huser }
  have hstate := h.state
  rw [senderState, if_neg (by omega), if_pos (by omega)] at hstate
  have huser : a.user = τ.sent := by
    rw [h.user, if_neg (by omega), append_nil]
  have hnext : senderState τ { x with d := x.d + 1 } =
      if x.c = τ.last + 1 then .idle else if x.h < τ.need x.c then .waitFc else .sendingNextCf := by
    simp only [senderState]
    rw [if_neg (by omega), if_neg (by omega)]
  have hdone : x.c = τ.last + 1 → Sender τ { x with d := x.d + 1 } (dispatchTx plenty
      { a with inbox := rest, txTimer := none, tx.txHandle := 0, tx.state := .idle } false) := by
    intro heq
    refine key .idle none none _ (by rw [hnext, if_pos heq]) (fun hs => by cases hs) (fun hle => by omega) ?_
    rw [if_pos heq]; exact congrArg (· ++ _) huser
  simp only [isotpThread, if_true, txTxConf, hstate]
  by_cases hone : x.c = 1
  · rw [if_pos hone]
    by_cases hl : τ.last = 0
    · rw [if_pos hl]; exact hdone (by omega)
    · rw [if_neg hl]
      refine key .waitFc (some timeout) _ _ ?_ (fun hs => by cases hs) (fun _ => hsnip) ?_
      · rw [hnext, if_neg (by omega), if_pos]
        rw [hhn, hone]
        simp [Transfer.need, need]
      · rw [if_neg (by omega), append_nil]; exact huser
  · rw [if_neg hone]
    obtain ⟨hbs, hblock⟩ := h.block (by
      rw [hhn]; exact Transfer.need_pos (by omega))
    have hfull : a.txfc.bs ≠ 0 ∧ a.txfc.bs.toNat ≤ a.tx.bs ↔ x.h < τ.need x.c := by
      rw [hbs]; exact full_iff (by omega) hhn hblock
    have hend : (a.tx.snip.getD []).length ≤ a.tx.idx ↔ x.c = τ.last + 1 := by
      rw [hsnip, getD_some, hidx]
      refine ⟨fun hle => ?_, fun heq => ?_⟩
      · apply Decidable.byContradiction
        intro hne
        exact absurd hle (not_le.2 (Transfer.off_lt (by omega)))
      · exact le_of_eq (by rw [heq, Transfer.off_last])
    dsimp only
    by_cases heq : x.c = τ.last + 1
    · rw [if_pos (hend.2 heq)]; exact hdone heq
    · have huser' : a.user = τ.sent ++ (if x.c = τ.last + 1 then [.txConfirmation] else []) := by
        rw [huser, if_neg heq, append_nil]
      rw [if_neg fun hle => heq (hend.1 hle)]
      split
      · rename_i hb
        exact key .waitFc (some timeout) _ _ (by rw [hnext, if_neg heq, if_pos (hfull.1 hb)]) (fun hs => by cases hs)
          (fun _ => hsnip) huser'
      · rename_i hb
        exact key .sendingNextCf (some a.txGap) _ _ (by rw [hnext, if_neg heq, if_neg fun hlt => hb (hfull.2 hlt)])
          (fun _ => rfl) (fun _ => hsnip) huser'

theorem Sender.flow (hx : x.Ok τ) (h : Sender τ x a) (hd : ¬ x.d < x.t) (hu : x.h < x.u) :
    Sender τ { x with h := x.h + 1 } (isotpThread plenty τ.junk { a with inbox := [] } (.rxIndication τ.flow)) := by
  obtain ⟨ht, hneed, hz, hlast⟩ := hx.flow_waited hu
  have hc : 1 ≤ x.c := by
    apply Nat.pos_of_ne_zero
    intro h0
    rw [h0] at hneed; exact absurd hneed (Nat.not_lt_zero _)
  have hlt : τ.need (x.c - 1) < τ.need x.c := lt_of_le_of_lt hx.need_le hneed
  have hsucc : x.h + 1 = τ.need x.c := by
    have := @Transfer.need_pred_le τ x.c
    have := hx.need_le; omega
  have hu' : x.u = x.h + 1 := by
    have := hx.u_le
    have := hx.given_le_need
    rw [ht] at this; omega
  have hwait : a.tx.state = .waitFc := by
    rw [h.state, senderState, if_neg (by omega), if_neg (by omega), if_neg (by omega), if_pos hneed]
  obtain ⟨stmin, gap, hrcv⟩ :=
    @rcv_flow τ.junk τ.receiver { a with inbox := [] } τ.junk τ.rxfc (by rw [h.opt]; exact τ.back) hwait
  rw [isotpThread, Transfer.flow, hrcv]
  exact { h with
    block := fun _ => by
      refine ⟨rfl, fun hbs => ?_⟩
      have hstart : (τ.need x.c - 1) * τ.rxfc.bs.toNat + 1 = x.c := block_start hc hlt
      rw [← hsucc] at hstart
      rw [zero_add, hstart]
    state := by
      simp only [senderState]
      rw [if_neg (by omega), if_neg (by omega), if_neg (by omega), if_neg (by omega)]
    timer := fun _ _ => rfl
    expired := fun hz' => by cases hz.symm.trans hz'
    handle := fun hlt' => by have : x.d < x.c := hlt'; omega
    pending := by
      rw [h.pending, if_neg (by omega)]
    inbox := by simp [hz, hu', show ¬ x.c = 0 by omega, hd] }

theorem Sender.next (hx : x.Ok τ) (h : Sender τ x a) (hz : x.z = true) :
    Sender τ { x with c := x.c + 1, z := false } (isotpThread plenty τ.junk { a with inbox := [] } .txTimeout) := by
  obtain ⟨hd, hc, hlast, hh⟩ := hx.gap hz
  have ht : x.t = x.c := by
    have := hx.t_le
    have := hx.d_le; omega
  have hlong : 7 - τ.sender.ae < τ.msg.length := last_pos_iff.1 (lt_of_lt_of_le hc hlast)
  have hu : x.u = x.h := by
    have := hx.u_le
    have := hx.given_le_need
    have := hx.h_le
    rw [ht] at *
    omega
  have hstate : a.tx.state = .sendingNextCf := by
    rw [h.state, senderState, if_neg (by omega), if_neg (by omega), if_neg (by omega), if_neg (by omega)]
  have hsnip := h.snip (by omega)
  have hsn := h.sn hc (by omega)
  obtain ⟨hbs, hblock⟩ := h.block (by
    rw [hh]; exact Transfer.need_pos hc)
  have hpend : a.pending = [] := by rw [h.pending, if_neg (by omega)]
  simp only [isotpThread, txTimeoutTask, hstate, fillDataframe, txSend_plenty, hsnip, getD_some, h.opt, h.idx, hsn]
  exact { h with
    opt := rfl
    idx := (off_succ hc hlong).symm
    snip := fun _ => rfl
    sn := fun _ _ => by
      show (x.c % 16 + 1) % 16 = (x.c + 1) % 16
      omega
    block := fun _ => by
      refine ⟨hbs, fun hne => ?_⟩
      have hb := hblock hne
      have hle := (@block_full τ.rxfc.bs x.c (a.tx.bs + 1) hne hc (by
        have : x.h = Isotp.need τ.rxfc.bs x.c := hh
        rw [← this]
        omega)).1
      have := UInt8.toNat_lt τ.rxfc.bs
      show (a.tx.bs + 1) % 2 ^ 8 + (x.h - 1) * τ.rxfc.bs.toNat + 1 = x.c + 1
      omega
    state := by
      simp only [senderState]
      rw [if_neg (by omega), if_pos (by omega), if_neg (by omega)]
    timer := fun hs => by cases hs
    expired := fun hz' => by cases hz'
    handle := fun _ => natCast_nonneg _
    pending := by
      rw [hpend, if_pos (show x.t < x.c + 1 by omega)]
      simp [Transfer.frame, ht, show ¬ x.c = 0 by omega, setPci]
    inbox := by simp [hu, show ¬ x.d < x.t by omega] }

theorem senderState_next (hx : x.Ok τ) (hs : senderState τ x = .sendingNextCf) :
    1 ≤ x.c ∧ x.d = x.c ∧ x.c ≤ τ.last ∧ x.h = τ.need x.c := by
  have ht := hx.t_le
  have hd := hx.d_le
  have hle := hx.c_last
  have hh := le_trans hx.h_le_need (Transfer.need_mono ht)
  unfold senderState at hs
  -- the other branches end in another state
  split_ifs at hs
  omega

theorem Sender.gap (h : Sender τ x a) (ha : a.txTimer.isSome) :
    x.z = false ∧ Sender τ { x with z := true } { a with txTimer := none, inbox := a.inbox ++ [.txTimeout] } := by
  have hz : x.z = false := by
    cases hz : x.z with
    | false => rfl
    | true =>
      rw [h.expired hz] at ha; cases ha
  refine ⟨hz, ?_⟩
  exact { h with
    timer := fun _ hz' => by cases hz'
    expired := fun _ => rfl
    inbox := by
      rw [h.inbox, hz]
      simp }

theorem Sender.transmitted (hx : x.Ok τ) (h : Sender τ x a) (ht : x.t < x.c) :
    Sender τ { x with t := x.t + 1 }
      { a with pending := [], inbox := a.inbox ++ [.txConfirmation a.tx.txHandle.toNat] } := by
  have hd := hx.d_le
  have hc := hx.c_le
  have hu : ¬ x.h < x.u := fun hu => by
    have := (hx.flow_waited hu).1; omega
  have hz := hx.no_gap (by omega)
  exact { h with
    pending := by rw [if_neg (show ¬ x.t + 1 < x.c by omega)]
    inbox := by
      have hnn := h.handle (by omega)
      rw [h.inbox, hz, toNat_of_nonneg hnn]
      simp [show ¬ x.c = 0 by omega, show ¬ x.d < x.t by omega, hu, show x.d < x.t + 1 by omega] }

theorem Sender.announced (hx : x.Ok τ) (h : Sender τ x a) (hu : x.u < x.given τ) :
    Sender τ { x with u := x.u + 1 } { a with inbox := a.inbox ++ [.rxIndication τ.flow] } := by
  have hle := hx.h_le
  have hz : x.z = false := by
    cases hz : x.z with
    | false => rfl
    | true =>
      have hgap := (hx.gap hz).2.2.2
      have := le_trans hx.given_le_need (Transfer.need_mono hx.t_le); omega
  have hh : x.u = x.h := by
    have := @Transfer.need_pred_le τ x.c
    have := hx.need_le
    have := le_trans hx.given_le_need (Transfer.need_mono hx.t_le); omega
  exact { h with
    inbox := by
      rw [h.inbox, hz, hh]
      simp }

/-! ## The receiver -/

section
variable (hx : x.Ok τ)
include hx

theorem Receiver.arrived (h : Receiver τ x b) :
    Receiver τ { x with t := x.t + 1 } { b with inbox := b.inbox ++ [.rxIndication (τ.frame x.t)] } := by
  have hr := hx.r_le
  exact { h with
    buffer := fun h1 h2 => { h.buffer h1 h2 with }
    inbox := by
      rw [h.inbox, append_assoc]
      rw [show x.t + 1 - x.r = x.t - x.r + 1 by omega, range'_concat, map_append, one_mul, Nat.add_sub_cancel' hr]
      rfl }

theorem Receiver.transmitted (h : Receiver τ x b) (hu : x.u < x.given τ) :
    Receiver τ { x with u := x.u + 1 }
      { b with pending := [], inbox := b.inbox ++ [.txConfirmation b.rx.txHandle.toNat] } := by
  have hv := hx.v_le
  have hg := hx.given_le
  have hpos := h.handle (by omega)
  have hr : x.t - x.r = 0 := by
    have := hx.settled hu
    have := hx.t_le; omega
  exact { h with
    buffer := fun h1 h2 => { h.buffer h1 h2 with }
    pending := (if_neg (show ¬ x.u + 1 < x.given τ by omega)).symm
    inbox := by
      rw [h.inbox, toNat_of_nonneg (Int.le_of_lt hpos)]
      rw [hr, if_neg (show ¬ x.v < x.u by omega), if_pos (show x.v < x.u + 1 by omega)]
      rfl }

theorem Receiver.confirm (h : Receiver τ x b) (hv : x.v < x.u)
    (hrest : rest = (List.range' x.r (x.t - x.r)).map fun i => .rxIndication (τ.frame i)) :
    Receiver τ { x with v := x.v + 1 }
      (isotpThread plenty τ.junk { b with inbox := rest } (.txConfirmation b.rx.txHandle)) := by
  have hu := hx.u_le
  have hg := hx.given_le
  have hpos := h.handle (by omega)
  have key : ∀ (state : State) (timer : Option Nat), state = receiverState τ { x with v := x.v + 1 } →
      Receiver τ { x with v := x.v + 1 }
        { b with inbox := rest, rxTimer := timer, rx.txHandle := 0, rx.state := state } := by
    intro state timer hstate
    exact { h with
      state := hstate
      buffer := fun h1 h2 => { h.buffer h1 h2 with }
      handle := fun hlt => by have : x.v + 1 < x.given τ := hlt; omega
      pending := by
        rw [h.pending, if_neg (by omega)]
        exact (if_neg (show ¬ x.u < x.given τ by omega)).symm
      inbox := by
        show rest = (if x.v + 1 < x.u then _ else _) ++ (List.range' x.r (x.t - x.r)).map _
        rw [if_neg (by omega), hrest]
        rfl }
  have hstate := h.state
  simp only [isotpThread, h.txHandle, if_neg (show ¬ (0 : Int) = b.rx.txHandle by omega), if_true, rxTxConf]
  unfold receiverState at hstate key
  split_ifs at hstate with hr hv0
  · rw [hstate]; exact key _ _ (by simp [hr])
  · rw [hstate]; exact key _ _ (by simp [hr])
  · rw [hstate]; exact key _ _ (by simp [hr])

theorem Progress.Ok.quiet (hv : ¬ x.v < x.u) (hr : x.r < x.t) : x.given τ = x.u ∧ x.v = x.u ∧ x.r ≤ τ.last := by
  have ht := hx.t_le
  have hc := hx.c_last
  have hu := hx.u_le
  have hle := hx.v_le
  have hnot : ¬ x.u < x.given τ := fun hu => by
    have := hx.settled hu; omega
  omega

end

def behind (τ : Transfer) (x : Progress) : List Msg :=
  (List.range' (x.r + 1) (x.t - (x.r + 1))).map fun i => .rxIndication (τ.frame i)

theorem behind_eq (hv : ¬ x.v < x.u) (l : List Msg) : behind τ x = (if x.v < x.u then l else []) ++ behind τ x := by
  rw [if_neg hv, nil_append]

section
variable (hx : x.Ok τ) (h : Receiver τ x b) (hv : ¬ x.v < x.u) (hr : x.r < x.t)
include hx h hv hr

theorem Receiver.quiet : b.pending = [] ∧ b.user = τ.received := by
  obtain ⟨hg, -, hlast⟩ := hx.quiet hv hr
  refine ⟨?_, ?_⟩
  · rw [h.pending, if_neg (by omega)]
  · rw [h.user, if_neg (by omega), append_nil]

theorem Receiver.user_open (hl : x.r ≠ τ.last) :
    b.user = τ.received ++ if x.r + 1 = τ.last + 1 then [.rxIndication τ.msg] else [] := by
  rw [(h.quiet hx hv hr).2, if_neg (by omega), append_nil]

theorem Receiver.complete (hl : x.r = τ.last) (timer : Option Nat) (rx : Tpcon) (hstate : rx.state = .idle) :
    Receiver τ { x with r := x.r + 1 }
      { b with inbox := behind τ x, rxTimer := timer, rx := { rx with txHandle := b.rx.txHandle },
               user := b.user ++ [.rxIndication τ.msg] } := by
  obtain ⟨hg, hvu, -⟩ := hx.quiet hv hr
  obtain ⟨hpend, huser⟩ := h.quiet hx hv hr
  have hgiven : Progress.given τ { x with r := x.r + 1 } = x.given τ := by
    simp only [Progress.given, hl, Nat.min_self, min_eq_right (Nat.le_succ τ.last)]
  exact { h with
    state := by
      simp [receiverState, hl, hstate]
    buffer := fun _ hle => by have : x.r + 1 ≤ τ.last := hle; omega
    handle := fun hlt => by
      rw [hgiven] at hlt
      exact absurd hlt (by show ¬ x.v < x.given τ; omega)
    pending := by
      rw [hpend, hgiven]
      exact (if_neg (show ¬ x.u < x.given τ by omega)).symm
    inbox := behind_eq hv _
    user := by
      show b.user ++ _ = τ.received ++ if x.r + 1 = τ.last + 1 then _ else _
      rw [huser, if_pos (by omega)] }

theorem Receiver.single (hr0 : x.r = 0) (hl0 : τ.last = 0) :
    Receiver τ { x with r := x.r + 1 }
      (isotpThread plenty τ.junk { b with inbox := behind τ x } (.rxIndication (τ.frame x.r))) := by
  have hshort : τ.msg.length ≤ 7 - τ.sender.ae := by
    have := @last_pos_iff τ.sender τ.msg.length
    unfold Transfer.last at hl0; omega
  rw [isotpThread, Transfer.frame, if_pos hr0, if_pos hshort,
    @rcv_single τ.junk τ.junk τ.sender { b with inbox := behind τ x } τ.msg (by rw [h.opt]; exact τ.linked) hshort]
  exact h.complete hx hv hr (hr0.trans hl0.symm) none
    { b.rx with state := .idle, idx := τ.msg.length, snip := none } rfl

theorem Receiver.first (hr0 : x.r = 0) (hl : 1 ≤ τ.last) :
    Receiver τ { x with r := x.r + 1 }
      (isotpThread plenty τ.junk { b with inbox := behind τ x } (.rxIndication (τ.frame x.r))) := by
  obtain ⟨hg, hvu, -⟩ := hx.quiet hv hr
  have hpend := (h.quiet hx hv hr).1
  have huser := h.user_open hx hv hr (by omega)
  have hlong : 7 - τ.sender.ae < τ.msg.length := last_pos_iff.1 hl
  have hgiven : Progress.given τ { x with r := x.r + 1 } = 1 := by
    simp only [Progress.given, hr0, zero_add, min_eq_left hl]
    simp [Transfer.need, need]
  have hu : x.u = 0 := by
    rw [← hg, Progress.given, hr0, Nat.zero_min]; rfl
  rw [isotpThread, Transfer.frame, if_pos hr0, if_neg (by omega),
    @rcv_first τ.junk τ.junk τ.sender { b with inbox := behind τ x } τ.msg
    (by rw [h.opt]; exact τ.linked) (by rw [h.opt]; exact τ.listen) hlong τ.max]
  exact { h with
    next := by
      show 0 < if b.handle + 1 = 2147483647 then 1 else b.handle + 1
      split <;> omega
    state := by
      simp [receiverState, hr0, show ¬ τ.last = 0 by omega, show x.v = 0 by omega]
    buffer := fun _ _ => {
      idx := by
        show 6 - τ.sender.ae = Isotp.off τ.sender τ.msg.length (x.r + 1)
        rw [hr0, off_one, if_neg (by omega)]
      sn := by
        show 1 = (x.r + 1) % 16
        rw [hr0]
      snip := by
        show some (filled τ.msg (6 - τ.sender.ae)) = some (filled τ.msg (Isotp.off τ.sender τ.msg.length (x.r + 1)))
        rw [hr0, off_one, if_neg (by omega)]
      block := fun _ => by
        rw [hgiven, hr0]
        simp }
    handle := fun _ => by
      have := h.next
      show (0 : Int) < b.handle
      omega
    pending := by
      show b.pending ++ _ = _
      rw [hpend, hgiven]
      show _ = if x.u < 1 then _ else _
      rw [if_pos (by omega), h.opt, h.rxfc]; rfl
    inbox := behind_eq hv _
    user := huser }

theorem Receiver.consecutive (hr1 : 1 ≤ x.r) :
    Receiver τ { x with r := x.r + 1 }
      (isotpThread plenty τ.junk { b with inbox := behind τ x } (.rxIndication (τ.frame x.r))) := by
  obtain ⟨hg, hvu, hle⟩ := hx.quiet hv hr
  have hpend := (h.quiet hx hv hr).1
  have hlong : 7 - τ.sender.ae < τ.msg.length := last_pos_iff.1 (lt_of_lt_of_le hr1 hle)
  have hgr : x.given τ = τ.need x.r := by rw [Progress.given, min_eq_left hle]
  have hneed : 1 ≤ τ.need x.r := Transfer.need_pos hr1
  have hbuf := h.buffer hr1 hle
  have hstate : b.rx.state = .waitCf := by
    rw [h.state, receiverState, if_neg (by omega), if_neg (by omega)]
  have hidx : τ.off x.r + numBytes τ.sender τ.msg.length (τ.off x.r) = τ.off (x.r + 1) := (off_succ hr1 hlong).symm
  rw [isotpThread, Transfer.frame, if_neg (by omega),
    @rcv_consecutive τ.junk τ.junk τ.sender { b with inbox := behind τ x } τ.msg (τ.off x.r) (x.r % 16)
    (by rw [h.opt]; exact τ.linked) (by rw [h.opt]; exact τ.listen) hstate hbuf.sn
      (Nat.mod_lt _ (by decide)) hbuf.idx hbuf.snip (Transfer.off_lt hle), hidx]
  by_cases hl : x.r = τ.last
  · rw [if_pos (le_of_eq (by rw [hl, Transfer.off_last]))]
    exact h.complete hx hv hr hl none
      { b.rx with sn := (x.r % 16 + 1) % 16, idx := τ.msg.length, snip := none, state := .idle } rfl
  · rw [if_neg (not_le.2 (Transfer.off_lt (show x.r + 1 ≤ τ.last by omega)))]
    have huser := h.user_open hx hv hr hl
    have hgiven : Progress.given τ { x with r := x.r + 1 } = τ.need (x.r + 1) := by
      simp only [Progress.given, min_eq_left (show x.r + 1 ≤ τ.last by omega)]
    have hsucc : τ.need (x.r + 1) = τ.need x.r + if τ.rxfc.bs.toNat ∣ x.r then 1 else 0 := need_succ hr1
    have hsn : (x.r % 16 + 1) % 16 = (x.r + 1) % 16 := by omega
    have key : ∀ (bs handle : Nat) (timer : Option Nat) (txHandle : Int) (pending : List (Nat × Frame)), 0 < handle →
        (τ.rxfc.bs ≠ 0 → bs + (τ.need (x.r + 1) - 1) * τ.rxfc.bs.toNat = x.r) →
          (x.u < τ.need (x.r + 1) → 0 < txHandle) →
        pending = (if x.u < τ.need (x.r + 1) then [(txHandle.toNat, τ.flow)] else []) →
        Receiver τ { x with r := x.r + 1 } { b with
          inbox := behind τ x, rxTimer := timer, handle := handle, pending := pending,
          rx.sn := (x.r % 16 + 1) % 16, rx.idx := τ.off (x.r + 1), rx.snip := some (filled τ.msg (τ.off (x.r + 1))),
          rx.bs := bs, rx.txHandle := txHandle } := by
      intro bs handle timer txHandle pending hhandle hblock htx hpending
      exact { h with
        next := hhandle
        state := by
          simp only [receiverState, hstate]
          rw [if_neg (by omega), if_neg (by omega)]
        buffer := fun _ _ => {
          idx := rfl
          sn := hsn
          snip := rfl
          block := fun hbs => by
            rw [hgiven]; exact congrArg (· + 1) (hblock hbs) }
        handle := fun hlt => by
          rw [hgiven] at hlt; exact htx (by rw [← hvu]; exact hlt)
        pending := by
          rw [hgiven]; exact hpending
        inbox := behind_eq hv _
        user := huser }
    have hsame : ¬ τ.rxfc.bs.toNat ∣ x.r →
        b.pending = (if x.u < τ.need (x.r + 1) then [(b.rx.txHandle.toNat, τ.flow)] else []) ∧
        x.u = τ.need (x.r + 1) := by
      intro hn
      rw [if_neg hn, add_zero] at hsucc
      rw [hpend, hsucc, if_neg (by omega)]; exact ⟨rfl, by omega⟩
    by_cases hbs : τ.rxfc.bs = 0
    · rw [if_pos (show b.rxfc.bs = 0 by rw [h.rxfc]; exact hbs)]
      have hn : ¬ τ.rxfc.bs.toNat ∣ x.r := by
        rw [hbs]
        simp
        omega
      obtain ⟨hp, hu⟩ := hsame hn
      exact key b.rx.bs b.handle (some timeout) b.rx.txHandle b.pending h.next (fun hne => absurd hbs hne)
        (fun hlt => by omega) hp
    · rw [if_neg (show ¬ b.rxfc.bs = 0 by rw [h.rxfc]; exact hbs)]
      have hk : b.rx.bs + 1 + (τ.need x.r - 1) * τ.rxfc.bs.toNat = x.r := by
        have := hbuf.block hbs
        rw [hgr] at this; omega
      obtain ⟨hkle, hfull⟩ := block_full hbs hr1 hk
      have := UInt8.toNat_lt τ.rxfc.bs
      rw [Nat.mod_eq_of_lt (show b.rx.bs + 1 < 2 ^ 8 by omega)]
      by_cases hlt : b.rx.bs + 1 < τ.rxfc.bs.toNat
      · rw [if_pos (show b.rx.bs + 1 < b.rxfc.bs.toNat by rw [h.rxfc]; exact hlt)]
        have hn : ¬ τ.rxfc.bs.toNat ∣ x.r := fun hd => not_le.2 hlt (hfull.2 hd)
        obtain ⟨hp, hu⟩ := hsame hn
        rw [if_neg hn, add_zero] at hsucc
        exact key (b.rx.bs + 1) b.handle (some timeout) b.rx.txHandle b.pending h.next
          (fun _ => by rw [hsucc]; exact hk) (fun hlt => by omega) hp
      · rw [if_neg (show ¬ b.rx.bs + 1 < b.rxfc.bs.toNat by rw [h.rxfc]; exact hlt)]
        rw [if_pos (hfull.1 (by omega))] at hsucc
        rw [sendFc_plenty]
        refine key 0 _ (some timeout) b.handle _ (by dsimp only; split <;> omega) (fun _ => ?_) (fun _ => ?_) ?_
        · have hmul : (τ.need x.r - 1 + 1) * τ.rxfc.bs.toNat = (τ.need x.r - 1) * τ.rxfc.bs.toNat + τ.rxfc.bs.toNat :=
            Nat.succ_mul _ _
          rw [hsucc, zero_add, Nat.add_sub_cancel]
          rw [Nat.sub_add_cancel hneed] at hmul; omega
        · have := h.next; omega
        · rw [hpend, if_pos (by omega), h.opt, h.rxfc]; rfl

end

/-! ## Steps -/

namespace Progress.Ok

section
variable (h : x.Ok τ)
include h

theorem start (hc : x.c = 0) : Ok τ { x with c := 1 } := { h with
  t_le := by have := h.t_le; show x.t ≤ 1; omega
  c_le := by show 1 ≤ x.d + 1; omega
  c_last := by show 1 ≤ τ.last + 1; omega
  need_le := zero_le
  need_eq := fun _ => by
    have := h.h_le_need
    rw [show x.t = 0 by have := h.t_le; omega] at this
    exact Nat.le_zero.1 this
  gap := fun hz => by have := h.gap hz; omega }

theorem confirm (hd : x.d < x.t) : Ok τ { x with d := x.d + 1 } := { h with
  d_le := hd
  c_le := by have := h.c_le; show x.c ≤ x.d + 1 + 1; omega
  need_eq := fun hlt => by
    have : x.d + 1 < x.c := hlt
    exact h.need_eq (by omega)
  gap := fun hz => by have := h.gap hz; have := h.t_le; omega }

theorem flow (hd : ¬ x.d < x.t) (hu : x.h < x.u) : Ok τ { x with h := x.h + 1 } := { h with
  h_le := hu
  need_le := Nat.le_succ_of_le h.need_le
  need_eq := fun hlt => by
    have := (h.flow_waited hu).1
    have : x.d < x.c := hlt
    omega
  gap := fun hz => by cases (h.flow_waited hu).2.2.1.symm.trans hz }

theorem next (hz : x.z = true) : Ok τ { x with c := x.c + 1, z := false } := { h with
  t_le := Nat.le_succ_of_le h.t_le
  c_le := by have := h.gap hz; show x.c + 1 ≤ x.d + 1; omega
  c_last := by have := h.gap hz; show x.c + 1 ≤ τ.last + 1; omega
  need_le := le_of_eq (h.gap hz).2.2.2.symm
  need_eq := fun _ => (h.gap hz).2.2.2
  gap := fun hz' => by cases hz' }

theorem wait (hs : senderState τ x = .sendingNextCf) : Ok τ { x with z := true } := { h with
  gap := fun _ => by
    obtain ⟨h1, h2, h3, h4⟩ := senderState_next h hs
    exact ⟨h2, h1, h3, h4⟩ }

theorem transmit (ht : x.t < x.c) : Ok τ { x with t := x.t + 1 } := { h with
  t_le := ht
  d_le := Nat.le_succ_of_le h.d_le
  r_le := Nat.le_succ_of_le h.r_le }

theorem announce (hu : x.u < x.given τ) : Ok τ { x with u := x.u + 1 } := { h with
  u_le := hu
  v_le := Nat.le_succ_of_le h.v_le
  h_le := Nat.le_succ_of_le h.h_le }

theorem announced (hv : x.v < x.u) : Ok τ { x with v := x.v + 1 } := { h with
  v_le := hv
  given_le := Nat.le_succ_of_le h.given_le }

theorem receive (hv : ¬ x.v < x.u) (hr : x.r < x.t) : Ok τ { x with r := x.r + 1 } := { h with
  r_le := hr
  u_le := le_trans h.u_le (Transfer.need_mono (show min x.r τ.last ≤ min (x.r + 1) τ.last by omega))
  given_le := by
    obtain ⟨hg, hvu, -⟩ := h.quiet hv hr
    have h1 : τ.need (min (x.r + 1) τ.last) ≤ τ.need (min x.r τ.last + 1) := Transfer.need_mono (by omega)
    have h2 := @Transfer.need_pred_le τ (min x.r τ.last + 1)
    rw [Nat.add_sub_cancel] at h2
    unfold Progress.given at hg ⊢
    show τ.need (min (x.r + 1) τ.last) ≤ x.v + 1
    omega }

end

end Progress.Ok

theorem run_cons {m : Msg} (h : n.inbox = m :: rest) :
    run plenty junk n = some (isotpThread plenty junk { n with inbox := rest } m) := by
  rw [run, h]

theorem run_nil (h : n.inbox = []) : run plenty junk n = none := by
  rw [run, h]

theorem Inv.run_sender (h : Inv τ x s) (ha : run plenty τ.junk s.a = some a) :
    ∃ y, Inv τ y ⟨a, s.b⟩ ∧ x.total < y.total := by
  have hx := h.ok
  have ht := hx.t_le
  have hin := h.sender.inbox
  by_cases hc : x.c = 0
  · have hu : ¬ x.h < x.u := fun hu => by
      have := (hx.flow_waited hu).2.1
      rw [hc] at this; exact absurd this (Nat.not_lt_zero _)
    have hz := hx.no_gap (by omega)
    rw [if_pos hc, if_neg (by omega), if_neg hu, hz] at hin
    rw [run_cons hin] at ha
    cases ha
    exact ⟨_, ⟨hx.start hc, h.sender.start hx hc, h.receiver.congr rfl rfl rfl rfl⟩, by simp [Progress.total, hc]⟩
  · rw [if_neg hc, nil_append] at hin
    by_cases hdt : x.d < x.t
    · have hz := hx.no_gap (by omega)
      rw [if_pos hdt, hz] at hin
      rw [run_cons hin] at ha
      cases ha
      refine ⟨_, ⟨hx.confirm hdt, h.sender.confirm hx hdt ?_, h.receiver.congr rfl rfl rfl rfl⟩, ?_⟩
      · simp
      · simp only [Progress.total]; omega
    · rw [if_neg hdt, nil_append] at hin
      by_cases hu : x.h < x.u
      · have hz := (hx.flow_waited hu).2.2.1
        rw [if_pos hu, hz] at hin
        rw [run_cons hin] at ha
        cases ha
        refine ⟨_, ⟨hx.flow hdt hu, h.sender.flow hx hdt hu, h.receiver.congr rfl rfl rfl rfl⟩, ?_⟩
        simp only [Progress.total]; omega
      · rw [if_neg hu, nil_append] at hin
        cases hz : x.z with
        | false =>
          rw [hz] at hin
          rw [run_nil hin] at ha; cases ha
        | true =>
          rw [hz] at hin
          rw [run_cons hin] at ha
          cases ha
          refine ⟨_, ⟨hx.next hz, h.sender.next hx hz, h.receiver.congr rfl rfl rfl rfl⟩, ?_⟩
          simp only [Progress.total, hz]
          simp
          omega

theorem Sender.congr {y : Progress} (h : Sender τ x a) (hc : y.c = x.c) (ht : y.t = x.t) (hd : y.d = x.d)
    (hu : y.u = x.u) (hh : y.h = x.h) (hz : y.z = x.z) : Sender τ y a := by
  obtain ⟨c, t, d, r, u, v, hh, z⟩ := x
  subst hc ht hd hu hh hz
  exact ⟨h.opt, h.idx, h.snip, h.sn, h.block, h.state, h.rx, h.timer, h.expired, h.handle, h.pending, h.inbox, h.user⟩

theorem Inv.run_receiver (h : Inv τ x s) (hb : run plenty τ.junk s.b = some b) :
    ∃ y, Inv τ y ⟨s.a, b⟩ ∧ x.total < y.total := by
  have hx := h.ok
  have hin := h.receiver.inbox
  by_cases hv : x.v < x.u
  · rw [if_pos hv] at hin
    rw [run_cons hin] at hb
    cases hb
    refine ⟨_, ⟨hx.announced hv, h.sender.congr rfl rfl rfl rfl rfl rfl, h.receiver.confirm hx hv rfl⟩, ?_⟩
    simp only [Progress.total]; omega
  · rw [if_neg hv, nil_append] at hin
    by_cases hr : x.r < x.t
    · rw [show x.t - x.r = x.t - (x.r + 1) + 1 by omega, range'_succ, map_cons] at hin
      rw [run_cons hin] at hb
      cases hb
      refine ⟨_, ⟨hx.receive hv hr, h.sender.congr rfl rfl rfl rfl rfl rfl, ?_⟩, ?_⟩
      · by_cases hr0 : x.r = 0
        · by_cases hl : τ.last = 0
          · exact h.receiver.single hx hv hr hr0 hl
          · exact h.receiver.first hx hv hr hr0 (by omega)
        · exact h.receiver.consecutive hx hv hr (by omega)
      · simp only [Progress.total]; omega
    · rw [show x.t - x.r = 0 by omega] at hin
      rw [run_nil hin] at hb; cases hb

theorem frame_canId (i : Nat) : (τ.frame i).canId = τ.sender.txId := by
  unfold Transfer.frame
  split
  · split <;> rfl
  · rfl

theorem transmit_cons {handle : Nat} {frame : Frame} (h : n.pending = [(handle, frame)])
    (hid : frame.canId = peer.opt.rxId) :
    transmit n peer = some ({ n with pending := [], inbox := n.inbox ++ [.txConfirmation handle] },
      { peer with inbox := peer.inbox ++ [.rxIndication frame] }) := by
  rw [transmit, h]
  dsimp only
  rw [if_pos hid]

theorem transmit_nil (h : n.pending = []) : transmit n peer = none := by
  rw [transmit, h]

theorem Inv.transmit_sender (h : Inv τ x s) (hs : transmit s.a s.b = some (a, b)) :
    ∃ y, Inv τ y ⟨a, b⟩ ∧ x.total < y.total := by
  have hx := h.ok
  have hp := h.sender.pending
  by_cases ht : x.t < x.c
  · rw [if_pos ht] at hp
    rw [transmit_cons hp (by rw [frame_canId, h.receiver.opt]; exact τ.linked.id)] at hs
    cases hs
    refine ⟨_, ⟨hx.transmit ht, h.sender.transmitted hx ht, h.receiver.arrived hx⟩, ?_⟩
    simp only [Progress.total]; omega
  · rw [if_neg ht] at hp
    rw [transmit_nil hp] at hs; cases hs

theorem Inv.transmit_receiver (h : Inv τ x s) (hs : transmit s.b s.a = some (b, a)) :
    ∃ y, Inv τ y ⟨a, b⟩ ∧ x.total < y.total := by
  have hx := h.ok
  have hp := h.receiver.pending
  by_cases hu : x.u < x.given τ
  · rw [if_pos hu] at hp
    rw [transmit_cons hp (by rw [h.sender.opt]; exact τ.back.id)] at hs
    cases hs
    refine ⟨_, ⟨hx.announce hu, h.sender.announced hx hu, h.receiver.transmitted hx hu⟩, ?_⟩
    simp only [Progress.total]; omega
  · rw [if_neg hu] at hp
    rw [transmit_nil hp] at hs; cases hs

theorem Inv.gap_sender (h : Inv τ x s) (hs : gap s.a = some a) : ∃ y, Inv τ y ⟨a, s.b⟩ ∧ x.total < y.total := by
  unfold gap at hs
  split at hs
  · rename_i hready
    cases hs
    obtain ⟨hz, hsender⟩ := h.sender.gap hready.1
    refine ⟨_, ⟨h.ok.wait (h.sender.state ▸ hready.2), hsender, h.receiver.congr rfl rfl rfl rfl⟩, ?_⟩
    simp [Progress.total, hz]
  · cases hs

theorem Inv.step {act : Action} {s' : System} (h : Inv τ x s) (hs : step plenty τ.junk s act = some s') :
    ∃ y, Inv τ y s' ∧ x.total < y.total := by
  cases act with
  | run side =>
    cases side with
    | a =>
      obtain ⟨a, ha, rfl⟩ := map_eq_some_iff.1 hs
      exact h.run_sender ha
    | b =>
      obtain ⟨b, hb, rfl⟩ := map_eq_some_iff.1 hs
      exact h.run_receiver hb
  | transmit side =>
    cases side with
    | a =>
      obtain ⟨⟨a, b⟩, hab, rfl⟩ := map_eq_some_iff.1 hs
      exact h.transmit_sender hab
    | b =>
      obtain ⟨⟨b, a⟩, hab, rfl⟩ := map_eq_some_iff.1 hs
      exact h.transmit_receiver hab
  | gap side =>
    cases side with
    | a =>
      obtain ⟨a, ha, rfl⟩ := map_eq_some_iff.1 hs
      exact h.gap_sender ha
    | b =>
      obtain ⟨b, hb, -⟩ := map_eq_some_iff.1 hs
      rw [gap, if_neg (by rw [h.receiver.tx]; simp)] at hb
      cases hb

theorem Inv.runAll : ∀ (acts : List Action) {x : Progress} {s t : System},
    Inv τ x s → runAll (Isotp.step plenty τ.junk) s acts = some t → ∃ y, Inv τ y t ∧ x.total + acts.length ≤ y.total
  | [], x, s, t, h, hrun => by
    cases hrun; exact ⟨x, h, le_rfl⟩
  | act :: acts, x, s, t, h, hrun => by
    rw [PipRiot.runAll] at hrun
    split at hrun
    · rename_i u hu
      obtain ⟨y, hy, hlt⟩ := h.step hu
      obtain ⟨z, hz, hle⟩ := Inv.runAll acts hy hrun
      refine ⟨z, hz, ?_⟩
      rw [length_cons]; omega
    · cases hrun

theorem Progress.Ok.total_le (h : x.Ok τ) : x.total ≤ 8 * (τ.msg.length + 1) + 1 := by
  have hlast : τ.last ≤ τ.msg.length := last_le
  have hneed : x.given τ ≤ τ.last := le_trans (Isotp.need_le _ _) (min_le_right _ _)
  have := h.t_le
  have := h.d_le
  have := h.c_last
  have := h.r_le
  have := h.u_le
  have := h.v_le
  have := h.h_le
  unfold Progress.total
  split <;> omega

theorem run_eq_none (h : run plenty junk n = none) : n.inbox = [] := by
  cases hin : n.inbox with
  | nil => rfl
  | cons m rest =>
    rw [run_cons hin] at h; cases h

theorem transmit_eq_none (h : transmit n peer = none) : n.pending = [] := by
  cases hp : n.pending with
  | nil => rfl
  | cons p rest =>
    rw [transmit, hp] at h; cases h

theorem Inv.stuck (h : Inv τ x s) (hstuck : ∀ act, Isotp.step plenty τ.junk s act = none) :
    x.d = τ.last + 1 ∧ x.c = τ.last + 1 ∧ x.r = τ.last + 1 := by
  have hx := h.ok
  have hpa := transmit_eq_none (map_eq_none_iff.1 (hstuck (.transmit .a)))
  have hpb := transmit_eq_none (map_eq_none_iff.1 (hstuck (.transmit .b)))
  have hia := run_eq_none (map_eq_none_iff.1 (hstuck (.run .a)))
  have hib := run_eq_none (map_eq_none_iff.1 (hstuck (.run .b)))
  have hgap := map_eq_none_iff.1 (hstuck (.gap .a))
  rw [h.sender.pending] at hpa
  rw [h.receiver.pending] at hpb
  rw [h.sender.inbox] at hia
  rw [h.receiver.inbox] at hib
  simp only [ite_eq_right_iff, cons_ne_nil, imp_false, append_eq_nil_iff, map_eq_nil_iff, range'_eq_nil_iff,
    Bool.not_eq_true] at hpa hpb hia hib
  obtain ⟨⟨⟨hc, hd⟩, hu⟩, hz⟩ := hia
  have ht := hx.t_le
  have hdt := hx.d_le
  have hrt := hx.r_le
  have hend : x.c = τ.last + 1 := by
    apply Decidable.byContradiction
    intro hne
    have hle := hx.c_last
    have hgiven : x.given τ = τ.need x.c := by rw [Progress.given, show min x.r τ.last = x.c by omega]
    have hstate : s.a.tx.state = .sendingNextCf := by
      rw [h.sender.state, senderState, if_neg hc, if_neg (by omega), if_neg hne, if_neg (by omega)]
    rw [gap, if_pos ⟨h.sender.timer hstate hz, hstate⟩] at hgap; cases hgap
  omega

end

/-! ## The result -/

structure Idle (n : Node) : Prop where
  tx : n.tx.state = .idle
  rx : n.rx.state = .idle
  txHandle : n.tx.txHandle = 0
  next : 0 < n.handle
  pending : n.pending = []
  inbox : n.inbox = []

structure Peers (a b : Node) : Prop where
  there : Linked a.opt b.opt
  back : Linked b.opt a.opt
  listen : b.opt.listenMode = false

def Transfer.of (a b : Node) (msg : List UInt8) (junk : Frame) (hpeers : Peers a b) (hpos : 1 ≤ msg.length)
    (hmax : msg.length ≤ 4095) : Transfer :=
  ⟨a.opt, b.opt, b.rxfc, msg, junk, a.user, b.user, hpos, hmax, hpeers.there, hpeers.back, hpeers.listen⟩

def Progress.zero : Progress := ⟨0, 0, 0, 0, 0, 0, 0, false⟩

section
variable {junk : Frame} {a b a' : Node} {msg : List UInt8}

theorem isotpSend_plenty (ha : Idle a) :
    isotpSend plenty a msg =
      some { a with tx.snip := some msg, tx.idx := 0, txWft := 0, inbox := a.inbox ++ [.sendFrame] } := by
  rw [isotpSend, if_neg (not_not_intro ha.tx)]
  rfl

theorem Progress.Ok.zero {τ : Transfer} : Progress.zero.Ok τ := by
  constructor <;> simp [Progress.zero, Progress.given, Transfer.need, need]

theorem Sender.zero (ha : Idle a) (hpeers : Peers a b) (hpos : 1 ≤ msg.length) (hmax : msg.length ≤ 4095) :
    Sender (Transfer.of a b msg junk hpeers hpos hmax) Progress.zero
      { a with tx.snip := some msg, tx.idx := 0, txWft := 0, inbox := a.inbox ++ [.sendFrame] } where
  opt := rfl
  idx := rfl
  snip _ := rfl
  sn h := absurd h (by decide)
  block h := absurd h (by decide)
  state := ha.tx
  rx := ha.rx
  timer h := absurd (ha.tx.symm.trans h) (by decide)
  expired h := absurd h (by decide)
  handle h := absurd h (by decide)
  pending := ha.pending
  inbox := congrArg (· ++ [.sendFrame]) ha.inbox
  user := (append_nil _).symm

theorem Receiver.zero (hb : Idle b) (hpeers : Peers a b) (hpos : 1 ≤ msg.length) (hmax : msg.length ≤ 4095) :
    Receiver (Transfer.of a b msg junk hpeers hpos hmax) Progress.zero b where
  opt := rfl
  rxfc := rfl
  tx := hb.tx
  txHandle := hb.txHandle
  next := hb.next
  state := hb.rx
  buffer h := absurd h (by decide)
  handle h := absurd h (by simp [Progress.zero, Progress.given, Transfer.need, need])
  pending := by
    exact hb.pending
  inbox := hb.inbox
  user := (append_nil _).symm

/-- Every run after `isotp_send` is bounded, and where it ends the peer has got the
message once and both nodes are idle. -/
theorem transfer_complete (ha : Idle a) (hb : Idle b) (hpeers : Peers a b) (hpos : 1 ≤ msg.length)
    (hmax : msg.length ≤ 4095) :
    ∃ a', isotpSend plenty a msg = some a' ∧ ∀ acts s, runAll (step plenty junk) ⟨a', b⟩ acts = some s →
      acts.length ≤ 8 * (msg.length + 1) + 1 ∧ (s.b.user = b.user ∨ s.b.user = b.user ++ [.rxIndication msg]) ∧
        ((∀ act, step plenty junk s act = none) →
          s.b.user = b.user ++ [.rxIndication msg] ∧ s.a.user = a.user ++ [.txConfirmation] ∧
            s.a.tx.state = .idle ∧ s.a.rx.state = .idle ∧ s.b.tx.state = .idle ∧ s.b.rx.state = .idle) := by
  refine ⟨_, isotpSend_plenty ha, fun acts s hrun => ?_⟩
  have hstart : Inv (Transfer.of a b msg junk hpeers hpos hmax) Progress.zero ⟨_, b⟩ :=
    ⟨.zero, .zero ha hpeers hpos hmax, .zero hb hpeers hpos hmax⟩
  obtain ⟨y, hy, hle⟩ := hstart.runAll acts hrun
  refine ⟨?_, ?_, fun hstuck => ?_⟩
  · exact le_trans (Nat.le_add_left _ _) (le_trans hle hy.ok.total_le)
  · rw [hy.receiver.user]
    by_cases hr : y.r = (Transfer.of a b msg junk hpeers hpos hmax).last + 1
    · rw [if_pos hr]; exact .inr rfl
    · rw [if_neg hr, append_nil]; exact .inl rfl
  · obtain ⟨hd, hc, hr⟩ := hy.stuck hstuck
    refine ⟨?_, ?_, ?_, hy.sender.rx, hy.receiver.tx, ?_⟩
    · rw [hy.receiver.user, if_pos hr]; rfl
    · rw [hy.sender.user, if_pos hd]; rfl
    · rw [hy.sender.state, senderState, if_neg (by omega), if_neg (by omega), if_pos hc]
    · rw [hy.receiver.state, receiverState, if_pos (.inr hr)]

end

def sample (txId rxId : Nat) (extAddress rxExtAddress : UInt8) : Node where
  opt := ⟨txId, rxId, false, true, false, extAddress, 0, rxExtAddress⟩
  rxfc := ⟨2, 5, 0⟩
  txfc := ⟨0, 0, 0⟩
  tx := ⟨0, .idle, 0, 0, 0, none⟩
  rx := ⟨0, .idle, 0, 0, 0, none⟩
  txTimer := none
  rxTimer := none
  txGap := 0
  txWft := 0
  handle := 1
  pending := []
  user := []
  inbox := []

theorem transfer_complete_sample : ∃ a', isotpSend plenty (sample 1 2 3 4) (replicate 40 7) = some a' ∧
    ∀ acts s, runAll (step plenty ⟨0, 0, fun _ => 0⟩) ⟨a', sample 2 1 4 3⟩ acts = some s →
      (∀ act, step plenty ⟨0, 0, fun _ => 0⟩ s act = none) → s.b.user = [.rxIndication (replicate 40 7)] := by
  obtain ⟨a', hsend, h⟩ := @transfer_complete ⟨0, 0, fun _ => 0⟩ (sample 1 2 3 4) (sample 2 1 4 3) (replicate 40 7)
    ⟨rfl, rfl, rfl, by decide, rfl, rfl⟩ ⟨rfl, rfl, rfl, by decide, rfl, rfl⟩
      ⟨⟨rfl, rfl, by decide⟩, ⟨rfl, rfl, by decide⟩, rfl⟩ (by decide) (by decide)
  exact ⟨a', hsend, fun acts s hrun hstuck => ((h acts s hrun).2.2 hstuck).1⟩

end PipRiot.Isotp
