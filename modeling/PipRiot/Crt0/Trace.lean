import PipRiot.Crt0.Start

/-!
# The states `_start` passes through

Each pass of a loop stores right behind the passes before it, so the RAM at a
loop head is a closed expression in the loop index. The lemmas here give the
step at each such state; a run never leaves these states while no loop index
wraps, and reaches each of them as long as the entries before it are valid.
-/

namespace PipRiot.Crt0

open List

def wordCount (size : Nat) : Nat := (size + 3) / 4

namespace Env

variable (E : Env) {k i : Nat} {s : State}

/-! ## The RAM at a loop head -/

def copied (k : Nat) : Addr → Option Byte :=
  overlay (fun _ => none) E.relRomRamSecAddr (readBytes E.flash E.romRamSecAddr k)

def zeroed (i : Nat) : Addr → Option Byte :=
  overlay (E.copied E.romRamLen) E.relRamSecAddr (replicate (4 * i) 0)

def gotWord (i : Nat) : Addr := readWord E.flash (E.gotSecAddr + BitVec.ofNat 32 (4 * i))

def GotValid (i : Nat) : Prop := ∃ addr, E.gotEntryAddr (E.gotWord i) = .ok addr

def gotStored (i : Nat) : Addr :=
  match E.gotEntryAddr (E.gotWord i) with
  | .ok addr => addr
  | .error _ => 0

def gotBytes (i : Nat) : List Byte := (range i).flatMap fun j => leBytes 4 (E.gotStored j).toNat

def relocatedGot (i : Nat) : Addr → Option Byte :=
  overlay (E.zeroed (wordCount E.ramLen)) E.relGotSecAddr (E.gotBytes i)

def PatchValid (i : Nat) : Prop := ∃ p, E.patch (BitVec.ofNat 32 i) = .ok p

def patched : Nat → Addr → Option Byte
  | 0 => E.relocatedGot (wordCount E.gotLen)
  | i + 1 =>
    match E.patch (BitVec.ofNat 32 i) with
    | .ok (ptr, addr) => overlay (patched i) ptr (leBytes 4 addr.toNat)
    | .error _ => patched i

@[simp] theorem gotBytes_length (i : Nat) : (E.gotBytes i).length = 4 * i := by
  induction i with
  | zero => rfl
  | succ i ih =>
    unfold gotBytes at *
    simp
    omega

theorem gotBytes_succ (i : Nat) : E.gotBytes (i + 1) = E.gotBytes i ++ leBytes 4 (E.gotStored i).toNat := by
  simp [gotBytes, range_succ, flatMap_append]

theorem copied_add {n : Nat} (h : k + n ≤ 2 ^ 32) :
    overlay (E.copied k) (E.relRomRamSecAddr + BitVec.ofNat 32 k)
      (readBytes E.flash (E.romRamSecAddr + BitVec.ofNat 32 k) n) = E.copied (k + n) := by
  have hjoin := overlay_append (fun _ => none) E.relRomRamSecAddr (readBytes E.flash E.romRamSecAddr k)
    (readBytes E.flash (E.romRamSecAddr + BitVec.ofNat 32 k) n) (by simpa using h)
  rw [readBytes_length] at hjoin
  rw [copied, hjoin, ← readBytes_add, copied]

theorem zeroed_succ (h : 4 * i + 4 ≤ 2 ^ 32) :
    overlay (E.zeroed i) (E.relRamSecAddr + BitVec.ofNat 32 (4 * i)) (leBytes 4 0) = E.zeroed (i + 1) := by
  have hjoin := overlay_append (E.copied E.romRamLen) E.relRamSecAddr (replicate (4 * i) 0) (leBytes 4 0)
    (by simpa using h)
  rw [length_replicate] at hjoin
  rw [zeroed, hjoin, zeroed, Nat.mul_succ, replicate_add]
  rfl

theorem relocatedGot_succ (h : 4 * i + 4 ≤ 2 ^ 32) :
    overlay (E.relocatedGot i) (E.relGotSecAddr + BitVec.ofNat 32 (4 * i)) (leBytes 4 (E.gotStored i).toNat) =
      E.relocatedGot (i + 1) := by
  have hjoin := overlay_append (E.zeroed (wordCount E.ramLen)) E.relGotSecAddr (E.gotBytes i)
    (leBytes 4 (E.gotStored i).toNat) (by simpa using h)
  rw [gotBytes_length] at hjoin
  rw [relocatedGot, hjoin, relocatedGot, gotBytes_succ]

theorem patched_succ {ptr addr : Addr} (h : E.patch (BitVec.ofNat 32 i) = .ok (ptr, addr)) :
    E.patched (i + 1) = overlay (E.patched i) ptr (leBytes 4 addr.toNat) := by
  rw [patched, h]

/-! ## The states -/

def copyAt (b : Block) (k : Nat) : State where
  point := .copy b (E.relRomRamSecAddr + BitVec.ofNat 32 k) (E.romRamSecAddr + BitVec.ofNat 32 k) (E.romRamLen - k)
  itf := E.updatedItf
  ram := E.copied k

def zeroAt (i : Nat) : State where
  point := .zero (BitVec.ofNat 32 i)
  itf := E.updatedItf
  ram := E.zeroed i

def gotAt (i : Nat) : State where
  point := .got (BitVec.ofNat 32 i)
  itf := E.updatedItf
  ram := E.relocatedGot i

def patchAt (i : Nat) : State where
  point := .patch (BitVec.ofNat 32 i)
  itf := E.updatedItf
  ram := E.patched i

@[simp] theorem zeroAt_ram (i : Nat) : (E.zeroAt i).ram = E.zeroed i := rfl

@[simp] theorem gotAt_ram (i : Nat) : (E.gotAt i).ram = E.relocatedGot i := rfl

@[simp] theorem patchAt_ram (i : Nat) : (E.patchAt i).ram = E.patched i := rfl

theorem index_succ (i : Nat) : (BitVec.ofNat 32 i : Addr) + 1 = BitVec.ofNat 32 (i + 1) := by
  rw [BitVec.ofNat_add]
  rfl

theorem word_index_lt {size : Addr} (hi : 4 * i < 2 ^ 32) :
    (BitVec.ofNat 32 i : Addr) <<< 2 < size ↔ 4 * i < size.toNat := by
  rw [shl_two, index_lt hi]

theorem romRamLen_lt : E.romRamLen < 2 ^ 32 := E.romRamSecSize.isLt

theorem gotLen_lt : E.gotLen < 2 ^ 32 := E.gotSecSize.isLt

theorem ramLen_lt : E.ramLen < 2 ^ 32 := E.ramSecSize.isLt

variable {E}

theorem step_check (h : ¬ E.NotEnoughRam) : step E (init E) = .inl (E.copyAt .ldm 0) := by
  have hram : E.copied 0 = fun _ => none := by simp [copied, readBytes]
  simp [step, init, h, copyAt, hram, romRamLen]

theorem step_check_die (h : E.NotEnoughRam) : step E (init E) = .inr (.die .notEnoughRam) := by
  simp [step, init, h]

theorem step_copy {b : Block} (h : k + b.size ≤ E.romRamLen) :
    step E (E.copyAt b k) = .inl (E.copyAt b (k + b.size)) := by
  have hlt := E.romRamLen_lt
  simp only [step, copyAt]
  rw [if_pos (by omega), copied_add E (by omega), BitVec.add_assoc, BitVec.add_assoc, ← BitVec.ofNat_add, Nat.sub_sub]

theorem step_copy_next {b : Block} (h : E.romRamLen < k + b.size) :
    step E (E.copyAt b k) = .inl { E.copyAt b k with
      point := b.next (E.relRomRamSecAddr + BitVec.ofNat 32 k) (E.romRamSecAddr + BitVec.ofNat 32 k)
        (E.romRamLen - k) } := by
  have hpos : 0 < b.size := by cases b <;> decide
  simp only [step, copyAt]
  rw [if_neg (by omega)]

theorem step_copy_done : step E (E.copyAt .ldrb E.romRamLen) = .inl (E.zeroAt 0) := by
  rw [step_copy_next (by simp [Block.size])]
  simp [copyAt, zeroAt, zeroed, Block.next]

theorem step_zero (h : 4 * i < E.ramLen) : step E (E.zeroAt i) = .inl (E.zeroAt (i + 1)) := by
  have hlt := E.ramLen_lt
  simp only [step, zeroAt]
  rw [if_pos ((word_index_lt (by omega)).mpr h), shl_two, zeroed_succ E (by omega), index_succ]

theorem step_zero_done (h : E.ramLen ≤ 2 ^ 32 - 4) : step E (E.zeroAt (wordCount E.ramLen)) = .inl (E.gotAt 0) := by
  have hw : E.ramLen ≤ 4 * wordCount E.ramLen ∧ 4 * wordCount E.ramLen < 2 ^ 32 := by
    unfold wordCount; omega
  simp only [step, zeroAt]
  rw [if_neg (by rw [word_index_lt hw.2]; exact not_lt.mpr hw.1)]
  simp [gotAt, relocatedGot, gotBytes]

theorem step_got (h : 4 * i < E.gotLen) (hv : E.GotValid i) : step E (E.gotAt i) = .inl (E.gotAt (i + 1)) := by
  have hlt := E.gotLen_lt
  obtain ⟨addr, ha⟩ := hv
  have hs : E.gotStored i = addr := by rw [gotStored, ha]
  simp only [step, gotAt]
  rw [if_pos ((word_index_lt (by omega)).mpr h), shl_two]
  unfold gotWord at ha
  rw [ha]
  simp only [← hs, relocatedGot_succ E (show 4 * i + 4 ≤ 2 ^ 32 by omega), index_succ]

theorem step_got_die (h : 4 * i < E.gotLen) (hv : ¬ E.GotValid i) : ∃ d, step E (E.gotAt i) = .inr (.die d) := by
  have hlt := E.gotLen_lt
  cases ha : E.gotEntryAddr (E.gotWord i) with
  | ok addr => exact absurd ⟨addr, ha⟩ hv
  | error d =>
    refine ⟨d, ?_⟩
    simp only [step, gotAt]
    rw [if_pos ((word_index_lt (by omega)).mpr h), shl_two]
    unfold gotWord at ha
    rw [ha]

theorem step_got_done (h : E.gotLen ≤ 2 ^ 32 - 4) : step E (E.gotAt (wordCount E.gotLen)) = .inl (E.patchAt 0) := by
  have hw : E.gotLen ≤ 4 * wordCount E.gotLen ∧ 4 * wordCount E.gotLen < 2 ^ 32 := by
    unfold wordCount; omega
  simp only [step, gotAt]
  rw [if_neg (by rw [word_index_lt hw.2]; exact not_lt.mpr hw.1)]
  simp [patchAt, patched]

theorem step_patch (h : i < E.entryNumber.toNat) (hv : E.PatchValid i) :
    step E (E.patchAt i) = .inl (E.patchAt (i + 1)) := by
  obtain ⟨⟨ptr, addr⟩, hp⟩ := hv
  simp only [step, patchAt]
  rw [if_pos ((index_lt (by omega)).mpr h), hp]
  simp only [index_succ, patched_succ E hp]

theorem step_patch_die (h : i < E.entryNumber.toNat) (hv : ¬ E.PatchValid i) :
    ∃ d, step E (E.patchAt i) = .inr (.die d) := by
  cases hp : E.patch (BitVec.ofNat 32 i) with
  | ok p => exact absurd ⟨p, hp⟩ hv
  | error d =>
    refine ⟨d, ?_⟩
    simp only [step, patchAt]
    rw [if_pos ((index_lt (by omega)).mpr h), hp]

theorem step_patch_done :
    step E (E.patchAt E.entryNumber.toNat) =
      .inr (.entry E.entryPointAddr E.relGotSecAddr (E.patchAt E.entryNumber.toNat)) := by
  have hlt := E.entryNumber.isLt
  have h : ¬ BitVec.ofNat 32 E.entryNumber.toNat < E.entryNumber := by
    rw [index_lt hlt]; exact lt_irrefl _
  simp only [step, patchAt]
  rw [if_neg h]

/-! ## Every state of a run -/

variable (E)

structure NoWrap : Prop where
  zero : E.ramLen ≤ 2 ^ 32 - 4
  got : (∀ i, 4 * i < E.gotLen → E.GotValid i) → E.gotLen ≤ 2 ^ 32 - 4

inductive OnTrack : State → Prop
  | check : OnTrack (init E)
  | copy (b : Block) {k : Nat} (hk : k ≤ E.romRamLen) (henough : ¬ E.NotEnoughRam) : OnTrack (E.copyAt b k)
  | zero {i : Nat} (hi : i ≤ wordCount E.ramLen) (henough : ¬ E.NotEnoughRam) : OnTrack (E.zeroAt i)
  | got {i : Nat} (hi : i ≤ wordCount E.gotLen) (henough : ¬ E.NotEnoughRam)
      (hv : ∀ j < i, E.GotValid j) : OnTrack (E.gotAt i)
  | patch {i : Nat} (hi : i ≤ E.entryNumber.toNat) (henough : ¬ E.NotEnoughRam)
      (hg : ∀ j, 4 * j < E.gotLen → E.GotValid j) (hv : ∀ j < i, E.PatchValid j) : OnTrack (E.patchAt i)

variable {E}

theorem lt_wordCount {size : Nat} : i < wordCount size ↔ 4 * i < size := by
  unfold wordCount; omega

theorem forall_lt_succ {P : Nat → Prop} (h : ∀ j < i, P j) (hi : P i) : ∀ j < i + 1, P j := by
  intro j hj
  rcases Nat.lt_succ_iff_lt_or_eq.mp hj with hlt | rfl
  · exact h j hlt
  · exact hi

theorem OnTrack.next (hw : E.NoWrap) (h : E.OnTrack s) :
    (∃ t, step E s = .inl t ∧ E.OnTrack t) ∨ (∃ d, step E s = .inr (.die d)) ∨
      ((∀ j, 4 * j < E.gotLen → E.GotValid j) ∧ (∀ j < E.entryNumber.toNat, E.PatchValid j) ∧
        step E s = .inr (.entry E.entryPointAddr E.relGotSecAddr (E.patchAt E.entryNumber.toNat))) := by
  cases h with
  | check =>
    by_cases hn : E.NotEnoughRam
    · exact .inr (.inl ⟨_, step_check_die hn⟩)
    · exact .inl ⟨_, step_check hn, .copy .ldm zero_le hn⟩
  | @copy b k hk he =>
    by_cases hb : k + b.size ≤ E.romRamLen
    · exact .inl ⟨_, step_copy hb, .copy b hb he⟩
    · have hnext := step_copy_next (not_le.mp hb)
      cases b with
      | ldm => exact .inl ⟨_, hnext, .copy .ldrd hk he⟩
      | ldrd => exact .inl ⟨_, hnext, .copy .ldrb hk he⟩
      | ldrb =>
        have hk' : k = E.romRamLen := le_antisymm hk (not_lt.mp hb)
        exact .inl ⟨_, hk' ▸ step_copy_done, .zero zero_le he⟩
  | @zero i hi he =>
    by_cases hz : 4 * i < E.ramLen
    · exact .inl ⟨_, step_zero hz, .zero (lt_wordCount.mpr hz) he⟩
    · have hi' : i = wordCount E.ramLen := le_antisymm hi (not_lt.mp (mt lt_wordCount.mp hz))
      exact .inl ⟨_, hi' ▸ step_zero_done hw.zero, .got zero_le he fun j hj => absurd hj (Nat.not_lt_zero j)⟩
  | @got i hi he hv =>
    by_cases hg : 4 * i < E.gotLen
    · by_cases hvi : E.GotValid i
      · exact .inl ⟨_, step_got hg hvi, .got (lt_wordCount.mpr hg) he (forall_lt_succ hv hvi)⟩
      · exact .inr (.inl (step_got_die hg hvi))
    · have hi' : i = wordCount E.gotLen := le_antisymm hi (not_lt.mp (mt lt_wordCount.mp hg))
      have hall : ∀ j, 4 * j < E.gotLen → E.GotValid j := fun j hj => hv j (hi' ▸ lt_wordCount.mpr hj)
      exact .inl ⟨_, hi' ▸ step_got_done (hw.got hall),
        .patch zero_le he hall fun j hj => absurd hj (Nat.not_lt_zero j)⟩
  | @patch i hi he hg hv =>
    by_cases hp : i < E.entryNumber.toNat
    · by_cases hvi : E.PatchValid i
      · exact .inl ⟨_, step_patch hp hvi, .patch hp he hg (forall_lt_succ hv hvi)⟩
      · exact .inr (.inl (step_patch_die hp hvi))
    · have hi' : i = E.entryNumber.toNat := le_antisymm hi (not_lt.mp hp)
      subst hi'
      exact .inr (.inr ⟨hg, hv, step_patch_done⟩)

theorem onTrack_of_reach (hw : E.NoWrap) (h : Reach E (init E) s) : E.OnTrack s := by
  refine ReachBy.inv E.OnTrack .check (fun t u ht _ hs => ?_) h
  rcases ht.next hw with ⟨v, hv, hon⟩ | ⟨d, hd⟩ | ⟨_, _, he⟩
  · rw [hv] at hs
    cases hs; exact hon
  · rw [hd] at hs; cases hs
  · rw [he] at hs; cases hs

theorem entry_of_run (hw : E.NoWrap) {n : Nat} {pc sl : Addr}
    (h : runLoop (step E) n (init E) = some (.entry pc sl s)) :
    s = E.patchAt E.entryNumber.toNat ∧ (∀ j, 4 * j < E.gotLen → E.GotValid j) ∧
      ∀ j < E.entryNumber.toNat, E.PatchValid j := by
  obtain ⟨t, ht, hs⟩ := runLoop_last n (init E) h
  have hreach : Reach E (init E) t := heads_reach n (init E) (fun _ _ => trivial) t ht
  rcases (onTrack_of_reach hw hreach).next hw with ⟨v, hv, -⟩ | ⟨d, hd⟩ | ⟨hg, hp, he⟩
  · rw [hv] at hs; cases hs
  · rw [hd] at hs; cases hs
  · rw [he] at hs
    cases hs; exact ⟨rfl, hg, hp⟩

/-! ## Reaching each state -/

theorem reach_block (b : Block) : ∀ (n k : Nat), E.romRamLen - k ≤ n → k ≤ E.romRamLen →
    ∃ k', k' ≤ E.romRamLen ∧ E.romRamLen < k' + b.size ∧ Reach E (E.copyAt b k) (E.copyAt b k') := by
  have hpos : 0 < b.size := by cases b <;> decide
  intro n
  induction n with
  | zero =>
    intro k hn hk; exact ⟨k, hk, by omega, .start⟩
  | succ n ih =>
    intro k hn hk
    by_cases hb : k + b.size ≤ E.romRamLen
    · obtain ⟨k', hk', hlt, hr⟩ := ih (k + b.size) (by omega) hb
      have hone : Reach E (E.copyAt b k) (E.copyAt b (k + b.size)) := Reach.one .start (step_copy hb)
      exact ⟨k', hk', hlt, ReachBy.trans hone hr⟩
    · exact ⟨k, hk, not_le.mp hb, .start⟩

section
variable (he : ¬ E.NotEnoughRam)
include he

theorem reach_zeroAt_zero : Reach E (init E) (E.zeroAt 0) := by
  obtain ⟨k1, hk1, hl1, hr1⟩ := reach_block (E := E) .ldm _ 0 le_rfl zero_le
  obtain ⟨k2, hk2, hl2, hr2⟩ := reach_block (E := E) .ldrd _ k1 le_rfl hk1
  obtain ⟨k3, hk3, hl3, hr3⟩ := reach_block (E := E) .ldrb _ k2 le_rfl hk2
  have h0 : Reach E (init E) (E.copyAt .ldm k1) := ReachBy.trans (Reach.one .start (step_check he)) hr1
  have h1 : Reach E (init E) (E.copyAt .ldrd k2) := ReachBy.trans (h0.one (step_copy_next hl1)) hr2
  have h2 : Reach E (init E) (E.copyAt .ldrb k3) := ReachBy.trans (h1.one (step_copy_next hl2)) hr3
  have h3 : k3 = E.romRamLen := le_antisymm hk3 (Nat.le_of_lt_succ hl3)
  rw [h3] at h2
  exact h2.one step_copy_done

theorem reach_zeroAt (i : Nat) (hi : i ≤ wordCount E.ramLen) : Reach E (init E) (E.zeroAt i) := by
  induction i with
  | zero => exact reach_zeroAt_zero he
  | succ i ih => exact (ih (Nat.le_of_succ_le hi)).one (step_zero (lt_wordCount.mp hi))

theorem reach_gotAt (hz : E.ramLen ≤ 2 ^ 32 - 4) (i : Nat)
    (hi : i ≤ wordCount E.gotLen) (hv : ∀ j < i, E.GotValid j) : Reach E (init E) (E.gotAt i) := by
  induction i with
  | zero => exact (reach_zeroAt he _ le_rfl).one (step_zero_done hz)
  | succ i ih =>
    have hr := ih (Nat.le_of_succ_le hi) fun j hj => hv j (Nat.lt_succ_of_lt hj)
    exact hr.one (step_got (lt_wordCount.mp hi) (hv i (Nat.lt_succ_self i)))

theorem reach_patchAt (hz : E.ramLen ≤ 2 ^ 32 - 4) (hg : E.gotLen ≤ 2 ^ 32 - 4)
    (hgv : ∀ j, 4 * j < E.gotLen → E.GotValid j) (i : Nat) (hi : i ≤ E.entryNumber.toNat)
    (hv : ∀ j < i, E.PatchValid j) : Reach E (init E) (E.patchAt i) := by
  induction i with
  | zero =>
    have hr := reach_gotAt he hz _ le_rfl fun j hj => hgv j (lt_wordCount.mp hj)
    exact hr.one (step_got_done hg)
  | succ i ih =>
    have hr := ih (Nat.le_of_succ_le hi) fun j hj => hv j (Nat.lt_succ_of_lt hj)
    exact hr.one (step_patch hi (hv i (Nat.lt_succ_self i)))

end

end Env

end PipRiot.Crt0
