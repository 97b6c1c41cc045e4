import PipRiot.Crt0.Trace

/-!
# The RAM window of `_start`

The three checks of `_start` compare sums of 32-bit sizes that may wrap, and
compare byte sizes while `.ram`, `.got` and the patched pointers are stored in
whole words. The theorem below says for which images and windows every store
lies in the window all the same.
-/

namespace PipRiot.Crt0

open BitVec

namespace Env

variable (E : Env)

def InWindow (a : Addr) : Prop := E.itf.unusedRamStart ≤ a ∧ a < E.itf.ramEnd

instance (a : Addr) : Decidable (E.InWindow a) := inferInstanceAs (Decidable (_ ∧ _))

def windowLen : Nat := E.itf.ramEnd.toNat - E.itf.unusedRamStart.toNat

theorem windowLen_lt : E.windowLen < 2 ^ 32 := by
  unfold windowLen
  omega

variable {E}

theorem inWindow_iff (a : Addr) : E.InWindow a ↔ dist E.itf.unusedRamStart a < E.windowLen := by
  rw [InWindow, le_def, lt_def, dist, toNat_sub, windowLen]
  omega

theorem range_inWindow_iff {q n : Nat} (hq : q < 2 ^ 32) (hn : 0 < n) :
    (∀ x, dist (E.itf.unusedRamStart + BitVec.ofNat 32 q) x < n → E.InWindow x) ↔ q + n ≤ E.windowLen := by
  have hlt := E.windowLen_lt
  constructor
  · intro h
    apply not_lt.mp
    intro hbig
    -- the first stored byte that is not before the end of the window
    have hm : max q E.windowLen < 2 ^ 32 := Nat.max_lt.mpr ⟨hq, hlt⟩
    have hd := dist_add E.itf.unusedRamStart hm
    have hin := h (E.itf.unusedRamStart + BitVec.ofNat 32 (max q E.windowLen)) (by
      rw [dist_shift _ _ (by rw [hd]; exact le_max_left _ _), hd]
      omega)
    rw [inWindow_iff, hd] at hin; omega
  · intro h x hx
    rw [inWindow_iff]
    have hxe := add_dist (E.itf.unusedRamStart + BitVec.ofNat 32 q) x
    rw [BitVec.add_assoc, ← ofNat_add] at hxe
    rw [← hxe, dist_add _ (by omega)]; omega

/-! ## Where each stage stores -/

theorem copied_isSome (k : Nat) (x : Addr) : (E.copied k x).isSome = true ↔ dist E.relRomRamSecAddr x < k := by
  simp [copied, overlay_isSome]

theorem zeroed_isSome (i : Nat) (x : Addr) :
    (E.zeroed i x).isSome = true ↔ dist E.relRamSecAddr x < 4 * i ∨ dist E.relRomRamSecAddr x < E.romRamLen := by
  simp [zeroed, overlay_isSome, copied_isSome]

theorem relocatedGot_isSome (i : Nat) (x : Addr) :
    (E.relocatedGot i x).isSome = true ↔
      dist E.itf.unusedRamStart x < 4 * i ∨ (E.zeroed (wordCount E.ramLen) x).isSome = true := by
  simp [relocatedGot, overlay_isSome, relGotSecAddr]

theorem patched_succ_isSome {i : Nat} (hv : E.PatchValid i) (x : Addr) :
    (E.patched (i + 1) x).isSome = true ↔
      dist (E.itf.unusedRamStart + BitVec.ofNat 32 ((E.ptrOff (BitVec.ofNat 32 i)).toNat - E.romLen)) x < 4 ∨
        (E.patched i x).isSome = true := by
  obtain ⟨⟨ptr, addr⟩, hp⟩ := hv
  rw [patched, hp]
  simp only [overlay_isSome, leBytes_length]
  rw [(ptrAddr_ok (patch_ok hp).1).1]

/-! ## The condition -/

variable (E)

structure StoresFit : Prop where
  romRam : E.romRamLen = 0 ∨ E.gotLen + E.romRamLen ≤ E.windowLen
  ram : E.ramLen = 0 ∨ E.gotLen + E.romRamLen + 4 * wordCount E.ramLen ≤ E.windowLen
  got : ∀ i, 4 * i < E.gotLen → (∀ j ≤ i, E.GotValid j) → 4 * i + 4 ≤ E.windowLen
  patch : (∀ i, 4 * i < E.gotLen → E.GotValid i) → ∀ i < E.entryNumber.toNat, (∀ j ≤ i, E.PatchValid j) →
    (E.ptrOff (BitVec.ofNat 32 i)).toNat - E.romLen + 4 ≤ E.windowLen

def StoresInWindow : Prop := ∀ s, Reach E (init E) s → ∀ a, (s.ram a).isSome = true → E.InWindow a

variable {E}

section
variable (h : E.StoresFit)
include h

theorem StoresFit.noWrap : E.NoWrap := by
  have hlt := E.windowLen_lt
  constructor
  · rcases h.ram with h0 | hfit
    · omega
    · unfold wordCount at hfit; omega
  · intro hall
    apply not_lt.mp
    intro hbig
    have hlast := h.got (2 ^ 30 - 1) (by omega) fun j hj => hall j (by omega)
    omega

theorem StoresFit.copied_in {k : Nat} (hk : k ≤ E.romRamLen) (x : Addr)
    (hx : (E.copied k x).isSome = true) : E.InWindow x := by
  rw [copied_isSome, relRomRamSecAddr_eq] at hx
  rcases h.romRam with h0 | hfit
  · omega
  · exact (range_inWindow_iff E.gotLen_lt (by omega)).mpr hfit x (lt_of_lt_of_le hx hk)

theorem StoresFit.zeroed_in {i : Nat} (hi : i ≤ wordCount E.ramLen) (x : Addr)
    (hx : (E.zeroed i x).isSome = true) : E.InWindow x := by
  rw [zeroed_isSome, ← copied_isSome] at hx
  rcases hx with hz | hc
  · rw [relRamSecAddr_eq] at hz
    have hlt := E.windowLen_lt
    rcases h.ram with h0 | hfit
    · simp only [h0, wordCount] at hi; omega
    · exact (range_inWindow_iff (by omega) (by omega)).mpr hfit x (by omega)
  · exact h.copied_in le_rfl x hc

theorem StoresFit.relocatedGot_in {i : Nat} (hi : i ≤ wordCount E.gotLen)
    (hv : ∀ j < i, E.GotValid j) (x : Addr) (hx : (E.relocatedGot i x).isSome = true) : E.InWindow x := by
  rw [relocatedGot_isSome] at hx
  rcases hx with hg | hz
  · cases i with
    | zero => omega
    | succ i =>
      have hfit := h.got i (lt_wordCount.mp hi) fun j hj => hv j (Nat.lt_succ_of_le hj)
      exact (inWindow_iff x).mpr (by omega)
  · exact h.zeroed_in le_rfl x hz

theorem StoresFit.patched_in (hg : ∀ j, 4 * j < E.gotLen → E.GotValid j) {i : Nat}
    (hi : i ≤ E.entryNumber.toNat) (hv : ∀ j < i, E.PatchValid j) (x : Addr)
    (hx : (E.patched i x).isSome = true) : E.InWindow x := by
  induction i with
  | zero => exact h.relocatedGot_in le_rfl (fun j hj => hg j (lt_wordCount.mp hj)) x hx
  | succ i ih =>
    rw [patched_succ_isSome (hv i (Nat.lt_succ_self i))] at hx
    rcases hx with hp | hx
    · have hfit := h.patch hg i hi fun j hj => hv j (Nat.lt_succ_of_le hj)
      exact (range_inWindow_iff (by omega) (by decide)).mpr hfit x hp
    · exact ih (Nat.le_of_succ_le hi) (fun j hj => hv j (Nat.lt_succ_of_lt hj)) hx

end

theorem StoresFit.storesInWindow (h : ¬ E.NotEnoughRam → E.StoresFit) : E.StoresInWindow := by
  intro s hs a ha
  by_cases he : E.NotEnoughRam
  · -- the run is over at the check, before the first store
    cases hs with
    | start => cases ha
    | next hr _ hstep =>
      have hinit := ReachBy.inv (· = init E) rfl
        (fun t u ht _ hu => by rw [ht, step_check_die he] at hu; cases hu) hr
      rw [hinit, step_check_die he] at hstep; cases hstep
  · cases onTrack_of_reach (h he).noWrap hs with
    | check => cases ha
    | copy b hk _ => exact (h he).copied_in hk a ha
    | zero hi _ => exact (h he).zeroed_in hi a ha
    | got hi _ hv => exact (h he).relocatedGot_in hi hv a ha
    | patch hi _ hg hv => exact (h he).patched_in hg hi hv a ha

/-! ## The condition is needed -/

section
variable (h : E.StoresInWindow)
include h

section
variable (he : ¬ E.NotEnoughRam)
include he

theorem StoresInWindow.romRam : E.romRamLen = 0 ∨ E.gotLen + E.romRamLen ≤ E.windowLen := by
  rcases Nat.eq_zero_or_pos E.romRamLen with h0 | hpos
  · exact .inl h0
  · refine .inr ((range_inWindow_iff E.gotLen_lt hpos).mp fun x hx => ?_)
    rw [← relRomRamSecAddr_eq] at hx
    have hin := h (E.zeroAt 0) (reach_zeroAt he 0 zero_le) x
    rw [zeroAt_ram, zeroed_isSome] at hin; exact hin (.inr hx)

theorem StoresInWindow.ram : E.ramLen = 0 ∨ E.gotLen + E.romRamLen + 4 * wordCount E.ramLen ≤ E.windowLen := by
  rcases Nat.eq_zero_or_pos E.ramLen with h0 | hpos
  · exact .inl h0
  · have hlt := E.windowLen_lt
    have hq : E.gotLen + E.romRamLen < 2 ^ 32 := by
      have := E.gotLen_lt
      have := h.romRam he; omega
    refine .inr ((range_inWindow_iff hq (by unfold wordCount; omega)).mp fun x hx => ?_)
    rw [← relRamSecAddr_eq] at hx
    have hin := h _ (reach_zeroAt he _ le_rfl) x
    rw [zeroAt_ram, zeroed_isSome] at hin; exact hin (.inl hx)

theorem StoresInWindow.ramLen_le : E.ramLen ≤ 2 ^ 32 - 4 := by
  have hlt := E.windowLen_lt
  rcases h.ram he with h0 | hfit
  · omega
  · unfold wordCount at hfit; omega

theorem StoresInWindow.got (i : Nat) (hi : 4 * i < E.gotLen)
    (hv : ∀ j ≤ i, E.GotValid j) : 4 * i + 4 ≤ E.windowLen := by
  have hr := reach_gotAt he (h.ramLen_le he) (i + 1) (lt_wordCount.mpr hi)
    fun j hj => hv j (Nat.le_of_lt_succ hj)
  have hrange := (range_inWindow_iff (q := 0) (n := 4 * (i + 1)) (by decide) (by omega)).mp fun x hx => by
    rw [BitVec.add_zero] at hx
    have hin := h _ hr x
    rw [gotAt_ram, relocatedGot_isSome] at hin; exact hin (.inl hx)
  omega

theorem StoresInWindow.patch (hg : ∀ i, 4 * i < E.gotLen → E.GotValid i) (i : Nat) (hi : i < E.entryNumber.toNat)
    (hv : ∀ j ≤ i, E.PatchValid j) : (E.ptrOff (BitVec.ofNat 32 i)).toNat - E.romLen + 4 ≤ E.windowLen := by
  have hgot : E.gotLen ≤ 2 ^ 32 - 4 := by
    apply not_lt.mp
    intro hbig
    have hlt := E.windowLen_lt
    have hlast := h.got he (2 ^ 30 - 1) (by omega) fun j hj => hg j (by omega)
    omega
  have hr := reach_patchAt he (h.ramLen_le he) hgot hg (i + 1) hi fun j hj => hv j (Nat.le_of_lt_succ hj)
  refine (range_inWindow_iff (by omega) (by decide)).mp fun x hx => ?_
  have hin := h _ hr x
  rw [patchAt_ram, patched_succ_isSome (hv i (Nat.le_refl i))] at hin
  exact hin (.inl hx)

theorem StoresInWindow.storesFit : E.StoresFit :=
  ⟨h.romRam he, h.ram he, h.got he, h.patch he⟩

end

end

end Env

def sampleEnv (words : List Nat) (ramEnd : Addr) : Env where
  flash := writeBytes (fun _ => 0xff) 0x10000 (words.flatMap (leBytes 4))
  metadataOff := 0
  itf := { root := 0x10000, unusedRomStart := 0x11000, unusedRamStart := 0x20000000, ramEnd := ramEnd }

def sampleWords : List Nat := [0, 4, 8, 4, 4, 16, 1, 8, 0xbf00bf00, 12, 16, 42]

end PipRiot.Crt0
