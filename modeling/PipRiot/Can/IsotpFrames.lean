import PipRiot.Can.Isotp
import Mathlib.Data.List.GetD

/-!
# Frames of a message

The frames a message is cut into, and what a node that receives them does.
-/

namespace PipRiot.Isotp

open Reading List

def plenty : Supply := ⟨fun _ => true, true, true⟩

theorem plenty_snip (k : Nat) : plenty.snip k = true := rfl

def part (msg : List UInt8) (idx k : Nat) : List UInt8 := (range k).map fun i => msg.getD (idx + i) 0

section
variable {msg : List UInt8} {idx k : Nat}

@[simp] theorem length_part : (part msg idx k).length = k := by simp [part]

theorem part_eq (h : idx + k ≤ msg.length) : part msg idx k = (msg.drop idx).take k := by
  apply ext_getElem
  · simp only [length_part, length_take, length_drop]; omega
  · intro i hi _
    rw [length_part] at hi
    simp only [part, getElem_map, getElem_range, getElem_take, getElem_drop]
    exact getD_eq_getElem _ _ (by omega)

theorem take_part (h : idx + k ≤ msg.length) : msg.take idx ++ part msg idx k = msg.take (idx + k) := by
  rw [part_eq h, take_add]

/-! ## Buffers -/

theorem writeBytes_append : ∀ (bytes done rest : List UInt8), bytes.length ≤ rest.length →
    writeBytes (done ++ rest) done.length bytes = done ++ bytes ++ rest.drop bytes.length
  | [], done, rest, _ => by simp [writeBytes]
  | b :: bytes, done, [], h => by simp at h
  | b :: bytes, done, r :: rest, h => by
    have := writeBytes_append bytes (done ++ [b]) rest (by simpa using h)
    simp only [length_append, length_singleton, append_assoc, singleton_append] at this
    rw [writeBytes, set_append_right _ _ le_rfl, Nat.sub_self, set_cons_zero, this]
    simp

theorem copyCf_append : ∀ (bytes done rest : List UInt8), rest ≠ [] →
    copyCf (done.length + rest.length) bytes done.length (done ++ rest) =
      (done.length + min bytes.length rest.length, done ++ bytes.take rest.length ++ rest.drop bytes.length)
  | [], done, rest, _ => by simp [copyCf]
  | b :: bytes, done, [], h => absurd rfl h
  | b :: bytes, done, [r], _ => by simp [copyCf]
  | b :: bytes, done, r :: r' :: rest, _ => by
    have := copyCf_append bytes (done ++ [b]) (r' :: rest) (by simp)
    simp only [length_append, append_assoc, singleton_append, length_cons, length_nil, zero_add] at this
    rw [copyCf, if_neg (by simp), set_append_right _ _ le_rfl, Nat.sub_self, set_cons_zero]
    simp only [length_cons]
    rw [show done.length + (rest.length + 1 + 1) = done.length + 1 + (rest.length + 1) by omega, this]
    simp only [take_succ_cons, drop_succ_cons, append_assoc, cons_append]
    rw [show done.length + 1 + min bytes.length (rest.length + 1) = done.length + min (bytes.length + 1)
      (rest.length + 1 + 1) by omega]

end

/-! ## What frames hold -/

section
variable {opt : Options} {snip : List UInt8} {idx : Nat} {frame : Frame} {b : UInt8}

theorem Options.ae_le (opt : Options) : opt.ae ≤ 1 := by
  unfold Options.ae
  split <;> omega

theorem Options.ae_pos (h : opt.extendAddr = true) : opt.ae = 1 := if_pos h

theorem put_self (m : Nat → UInt8) (i : Nat) (b : UInt8) : put m i [b] i = b := by simp [put]

theorem setPci_pci : (setPci opt frame b).data opt.ae = b := put_self _ _ _

theorem setPci_addr (h : opt.extendAddr = true) :
    (setPci opt (dataframe opt snip idx frame) b).data 0 = opt.extAddress := by
  rw [setPci, Options.ae_pos h]
  dsimp only
  rw [put_frame (.inl (by decide)), dataframe]
  simp only [h, if_true]
  exact put_self _ _ _

theorem setPci_part :
    Holds (setPci opt (dataframe opt snip idx frame) b).data (1 + opt.ae)
      (part snip idx (numBytes opt snip.length idx)) := by
  have hpart : ∀ m : Nat → UInt8,
    Holds (put m (1 + opt.ae) (part snip idx (numBytes opt snip.length idx))) (1 + opt.ae) _ := fun m => holds_put
  rw [setPci, dataframe]
  dsimp only
  refine Holds.put ?_ (.inr (le_of_eq (add_comm _ _)))
  split
  · exact (hpart _).put (.inr (by simp))
  · exact hpart _

theorem setPci_canDlc : (setPci opt (dataframe opt snip idx frame) b).canDlc =
    if numBytes opt snip.length idx < 7 - opt.ae ∧ opt.txPadding then 8
    else numBytes opt snip.length idx + (1 + opt.ae) := by
  rw [setPci, dataframe]
  simp only [Bool.and_eq_true, decide_eq_true_eq]

theorem ffFrame_addr (h : opt.extendAddr = true) : (ffFrame opt snip idx frame).data 0 = opt.extAddress := by
  rw [ffFrame, Options.ae_pos h]
  simp only [h, if_true]
  rw [put_frame (.inl (by decide)), put_frame (.inl (by decide)), put_self]

theorem ffFrame_pci :
    Holds (ffFrame opt snip idx frame).data opt.ae
      [UInt8.ofNat (snip.length / 256) ||| 0x10, UInt8.ofNat snip.length] := by
  exact holds_put.put (.inl le_rfl)

theorem ffFrame_part : Holds (ffFrame opt snip idx frame).data (opt.ae + 2) (part snip idx (6 - opt.ae)) := holds_put

variable {junk : Frame} {rxfc : FcOptions} {status : UInt8}

theorem fcFrame_addr (h : opt.extendAddr = true) : (fcFrame junk opt rxfc status).data 0 = opt.extAddress := by
  rw [fcFrame]
  simp only [h, if_true]
  exact put_self _ _ _

theorem fcFrame_content : Holds (fcFrame junk opt rxfc status).data opt.ae [0x30 ||| status, rxfc.bs, rxfc.stmin] := by
  rw [fcFrame]
  dsimp only
  split
  · rename_i h
    exact holds_put.put (.inr (by simp [Options.ae_pos h]))
  · exact holds_put

theorem fcFrame_canDlc : opt.ae + 3 ≤ (fcFrame junk opt rxfc status).canDlc := by
  have := opt.ae_le
  rw [fcFrame]
  dsimp only
  split <;> omega

end

/-! ## What a node does with them -/

structure Linked (o o' : Options) : Prop where
  ext : o.extendAddr = o'.extendAddr
  addr : o.extAddress = o'.rxExtAddress
  id : o.txId = o'.rxId

theorem codes_sf : ∀ len < 8, UInt8.ofNat len &&& 0xF0 = 0 ∧ (UInt8.ofNat len &&& 0x0F).toNat = len := by decide +kernel

theorem codes_ff : ∀ k < 16, (UInt8.ofNat k ||| 0x10) &&& 0xF0 = 0x10 ∧
    ((UInt8.ofNat k ||| 0x10) &&& 0x0F).toNat = k := by decide +kernel

theorem codes_cf : ∀ sn < 16, (0x20 ||| UInt8.ofNat sn) &&& 0xF0 = 0x20 ∧
    ((0x20 ||| UInt8.ofNat sn) &&& 0x0F).toNat = sn := by decide +kernel

section
variable {junk frame : Frame} {o : Options} {n : Node} {msg : List UInt8}

theorem Linked.ae (h : Linked o n.opt) : n.opt.ae = o.ae := by rw [Options.ae, Options.ae, h.ext]

theorem sendFc_plenty (status : UInt8) : sendFc plenty junk n status =
    { n with rx.bs := 0, rxTimer := some timeout, handle := if n.handle + 1 = 2147483647 then 1 else n.handle + 1,
             pending := n.pending ++ [(n.handle, fcFrame junk n.opt n.rxfc status)], rx.txHandle := n.handle } := by
  simp [sendFc, rawCanSend, plenty]

theorem txSend_plenty (f : Frame) : txSend plenty n f =
    { n with txTimer := some timeout, handle := if n.handle + 1 = 2147483647 then 1 else n.handle + 1,
             pending := n.pending ++ [(n.handle, f)], tx.txHandle := n.handle } := by
  have : ¬ (n.handle : Int) < 0 := by omega
  simp [txSend, rawCanSend, plenty, this]

theorem dispatchRx_plenty :
    dispatchRx plenty n = { n with user := n.user ++ [.rxIndication (n.rx.snip.getD [])], rx.snip := none } := rfl

theorem rcv_eq (hl : Linked o n.opt) (haddr : o.extendAddr = true → frame.data 0 = o.extAddress) :
    rcv plenty junk n frame =
    if frame.data n.opt.ae &&& 0xF0 = 0x30 then rcvFc plenty n frame
    else if frame.data n.opt.ae &&& 0xF0 = 0x00 then rcvSf plenty n frame
    else if frame.data n.opt.ae &&& 0xF0 = 0x10 then rcvFf plenty junk n frame
    else if frame.data n.opt.ae &&& 0xF0 = 0x20 then rcvCf plenty junk n frame
    else n := by
  unfold rcv
  rw [if_neg]
  rintro ⟨hext, hne⟩
  rw [← hl.ext] at hext
  exact hne ((haddr hext).trans hl.addr)

theorem rcv_single (hl : Linked o n.opt) (hsize : msg.length ≤ 7 - o.ae) :
    rcv plenty junk n (setPci o (dataframe o msg 0 frame) (UInt8.ofNat msg.length)) =
      { n with rxTimer := none, rx.state := .idle, rx.idx := msg.length, rx.snip := none,
               user := n.user ++ [.rxIndication msg] } := by
  obtain ⟨hpci, hlen⟩ := codes_sf msg.length (by omega)
  have hk : numBytes o msg.length 0 = msg.length := by unfold numBytes; omega
  have hpart := @setPci_part o msg 0 frame (UInt8.ofNat msg.length)
  have hdlc := @setPci_canDlc o msg 0 frame (UInt8.ofNat msg.length)
  rw [hk] at hpart hdlc
  rw [rcv_eq hl setPci_addr, hl.ae, setPci_pci, hpci, if_neg (by decide), if_pos rfl, rcvSf]
  rw [hl.ae, setPci_pci, hlen, if_neg (by rw [hdlc]; split <;> omega), plenty_snip, if_pos rfl, dispatchRx_plenty]
  have hmsg : (range msg.length).map
      (fun i => (setPci o (dataframe o msg 0 frame) (UInt8.ofNat msg.length)).data (1 + o.ae + i)) = msg := by
    have hwhole : part msg 0 msg.length = msg := by rw [part_eq (by omega)]; simp
    rw [hwhole] at hpart; exact hpart
  rw [hmsg]
  rfl

theorem rcv_first (hl : Linked o n.opt) (hlisten : n.opt.listenMode = false) (hsize : 7 - o.ae < msg.length)
    (hmax : msg.length ≤ 4095) :
    rcv plenty junk n (ffFrame o msg 0 frame) =
      { n with rx.state := .sendingFc, rx.idx := 6 - o.ae, rx.sn := 1, rx.bs := 0, rx.txHandle := n.handle,
               rx.snip := some (msg.take (6 - o.ae) ++ replicate (msg.length - (6 - o.ae)) 0),
               rxTimer := some timeout,
               handle := if n.handle + 1 = 2147483647 then 1 else n.handle + 1, pending :=
                 n.pending ++ [(n.handle, fcFrame junk n.opt n.rxfc 0)] } := by
  obtain ⟨hpci, hhigh⟩ := codes_ff (msg.length / 256) (by omega)
  obtain ⟨hb0, hb1⟩ := holds_cons.1 (@ffFrame_pci o msg 0 frame)
  rw [holds_cons] at hb1
  have hlow : (UInt8.ofNat msg.length).toNat = msg.length % 256 := by rw [UInt8.toNat_ofNat']
  have hbytes : (range ((ffFrame o msg 0 frame).canDlc - (o.ae + 2))).map
    (fun i => (ffFrame o msg 0 frame).data (o.ae + 2 + i)) =
      msg.take (6 - o.ae) := by
    have hpart := @ffFrame_part o msg 0 frame
    rw [part_eq (by omega), drop_zero, Holds, length_take, min_eq_left (by omega)] at hpart
    rw [show (ffFrame o msg 0 frame).canDlc - (o.ae + 2) = 6 - o.ae from by show 8 - (o.ae + 2) = _; omega]
    exact hpart
  have hwrite : writeBytes (replicate msg.length 0) 0 (msg.take (6 - o.ae)) = msg.take (6 - o.ae) ++
      replicate (msg.length - (6 - o.ae)) 0 := by
    have := writeBytes_append (msg.take (6 - o.ae)) [] (replicate msg.length 0)
      (by simp only [length_take, length_replicate]; omega)
    rw [nil_append, nil_append, length_nil, drop_replicate, length_take, min_eq_left (by omega)] at this
    exact this
  rw [rcv_eq hl ffFrame_addr, hl.ae, hb0, hpci, if_neg (by decide), if_neg (by decide), if_pos rfl, rcvFf]
  dsimp only
  rw [hl.ae, hb0, hb1.1, hhigh, hlow, show msg.length / 256 * 256 + msg.length % 256 = msg.length by omega, plenty_snip]
  rw [if_neg (by simp; omega), hbytes, hwrite, hlisten, if_neg (by decide), sendFc_plenty]
  simp [min_eq_left (show 6 - o.ae ≤ msg.length by omega)]

def filled (msg : List UInt8) (idx : Nat) : List UInt8 := msg.take idx ++ replicate (msg.length - idx) 0

theorem filled_all : filled msg msg.length = msg := by simp [filled]

theorem length_filled {idx : Nat} (h : idx ≤ msg.length) : (filled msg idx).length = msg.length := by
  simp only [filled, length_append, length_take, length_replicate]
  omega

theorem copyCf_dataframe {idx : Nat} (b : UInt8) (h : idx < msg.length) :
    copyCf msg.length ((range ((setPci o (dataframe o msg idx frame) b).canDlc - (o.ae + 1))).map
      fun i => (setPci o (dataframe o msg idx frame) b).data (o.ae + 1 + i)) idx (filled msg idx) =
      (idx + numBytes o msg.length idx, filled msg (idx + numBytes o msg.length idx)) := by
  have hk : numBytes o msg.length idx = min (7 - o.ae) (msg.length - idx) := rfl
  have hpart : part msg idx (numBytes o msg.length idx) = (range (numBytes o msg.length idx)).map
      fun i => (setPci o (dataframe o msg idx frame) b).data (o.ae + 1 + i) := by
    have := @setPci_part o msg idx frame b
    rw [Holds, length_part, add_comm 1] at this; exact this.symm
  generalize hrest : replicate (msg.length - idx) (0 : UInt8) = rest
  have hlen : rest.length = msg.length - idx := by rw [← hrest, length_replicate]
  have hdone : (msg.take idx).length = idx := by rw [length_take]; omega
  have hcopy := fun bytes =>
    copyCf_append bytes (msg.take idx) rest (by intro hnil; rw [hnil, length_nil] at hlen; omega)
  rw [hdone, hlen, Nat.add_sub_cancel' (h.le)] at hcopy
  rw [filled, hrest, hcopy, length_map, length_range, filled, ← take_part (by omega), hpart]
  have hdlc := @setPci_canDlc o msg idx frame b
  generalize (setPci o (dataframe o msg idx frame) b).canDlc = dlc at hdlc ⊢
  have hcount : min (dlc - (o.ae + 1)) (msg.length - idx) = numBytes o msg.length idx := by
    split at hdlc <;> omega
  have hleft : msg.length - idx - (dlc - (o.ae + 1)) = msg.length - (idx + numBytes o msg.length idx) := by
    split at hdlc <;> omega
  rw [hcount, ← map_take, take_range, Nat.min_comm, hcount, ← hrest, drop_replicate, hleft]

theorem rcv_consecutive {idx sn : Nat} (hl : Linked o n.opt) (hlisten : n.opt.listenMode = false)
    (hstate : n.rx.state = .waitCf) (hsn : n.rx.sn = sn)
    (hsn16 : sn < 16) (hidx : n.rx.idx = idx) (hsnip : n.rx.snip = some (filled msg idx)) (hlt : idx < msg.length) :
    rcv plenty junk n (setPci o (dataframe o msg idx frame) (0x20 ||| UInt8.ofNat sn)) =
      if msg.length ≤ idx + numBytes o msg.length idx then
        { n with rxTimer := none, rx.sn := (sn + 1) % 16, rx.idx := msg.length, rx.snip := none, rx.state := .idle,
                 user := n.user ++ [.rxIndication msg] }
      else
        let n' := { n with rxTimer := none, rx.sn := (sn + 1) % 16, rx.idx := idx + numBytes o msg.length idx,
                           rx.snip := some (filled msg (idx + numBytes o msg.length idx)) }
        if n.rxfc.bs = 0 then { n' with rxTimer := some timeout }
        else
          let n'' := { n' with rx.bs := (n.rx.bs + 1) % 2 ^ 8 }
          if (n.rx.bs + 1) % 2 ^ 8 < n.rxfc.bs.toNat then { n'' with rxTimer := some timeout }
          else sendFc plenty junk n'' 0 := by
  obtain ⟨hpci, hcode⟩ := codes_cf sn hsn16
  have hsize : ((some (filled msg idx)).getD []).length = msg.length := length_filled (hlt.le)
  rw [rcv_eq hl setPci_addr, hl.ae, setPci_pci, hpci, if_neg (by decide), if_neg (by decide), if_neg (by decide),
    if_pos rfl, rcvCf]
  dsimp only
  rw [hl.ae, setPci_pci, hcode, if_neg (not_not_intro hstate), if_neg (not_not_intro hsn.symm), hsnip, hsize, hidx,
    Option.getD_some, copyCf_dataframe _ hlt, hsn, hlisten]
  split
  · rename_i hge
    have hend : idx + numBytes o msg.length idx = msg.length := by
      unfold numBytes at hge ⊢; omega
    rw [dispatchRx_plenty, hend, Option.getD_some, filled_all]
  · rw [if_neg (by decide)]

theorem rcv_flow {junk' : Frame} (rxfc : FcOptions) (hl : Linked o n.opt) (hstate : n.tx.state = .waitFc) :
    ∃ stmin gap, rcv plenty junk n (fcFrame junk' o rxfc 0) =
    { n with txfc.bs := rxfc.bs, txfc.stmin := stmin, txGap := gap, txWft := 0, tx.bs := 0,
             tx.state := .sendingNextCf, txTimer := some gap } := by
  obtain ⟨hb0, hb1⟩ := holds_cons.1 (@fcFrame_content o junk' rxfc 0)
  rw [holds_cons] at hb1
  rw [rcv_eq hl fcFrame_addr, hl.ae, hb0, if_pos (by decide), rcvFc]
  rw [hl.ae, hb0, hb1.1, if_neg (not_not_intro hstate), if_neg (not_lt.2 fcFrame_canDlc), if_pos (by decide)]
  exact ⟨_, _, rfl⟩

end

end PipRiot.Isotp
