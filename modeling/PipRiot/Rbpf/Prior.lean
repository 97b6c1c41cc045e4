import PipRiot.Rbpf.Alike
import PipRiot.Rbpf.Isolation
import PipRiot.Rbpf.Regions

/-!
# What an object held before it was set up

`rbpf_application_setup` sets one bit of the flags and leaves `arg_region.next`
alone, so what the object held before has an effect on the checks, on the limit
of branches and on the permitted accesses. `setup_initialises_iff` says for
which two prior contents there is none.
-/

namespace PipRiot.Rbpf

open List

namespace Object

def among (o : Object) (regions : Addr → RegionNode) : Object :=
  { o with nodes := fun p => match p with
      | .other r => regions r
      | p => o.nodes p }

def withContext (o : Object) (ctx : Addr) (ctxLen : BitVec 32) : Object :=
  o.setRegion .arg (memoryRegionInit ctx ctxLen (memRegionRead ||| memRegionWrite))

/-- `rbpf_application_run_ctx`; `none` also where a walk over the regions has
refused all it has seen and not ended. -/
def runCtx (host : Host) (fuel : Nat) (mem : Mem) (o : Object) (ctx : Addr) (ctxLen : BitVec 32) (spill : Regs) :
    Option RunResult :=
  let o := o.withContext ctx ctxLen
  match applicationRunCtx host fuel mem (o.flatten fuel) ctx ctxLen spill with
  | some r => if r.status = .illegalMem ∧ walkEnds o.next fuel (o.next .arg) = false then none else some r
  | none => none

end Object

structure Use where
  mem : Mem
  regions : Addr → RegionNode
  stack : Addr
  application : Addr
  applicationLen : BitVec 32
  adds : List Addr
  ctx : Addr
  ctxLen : BitVec 32
  spill : Regs

namespace Use

def prepared (u : Use) (prior : Object) : Object :=
  u.adds.foldl Object.addRegion ((prior.among u.regions).setup u.mem u.stack u.application u.applicationLen)

def Answers (host : Host) (u : Use) (prior : Object) (status : Status) (result : Option (BitVec 64)) : Prop :=
  ∃ fuel r, (u.prepared prior).runCtx host fuel u.mem u.ctx u.ctxLen u.spill = some r ∧
    r.status = status ∧ r.result = result

def Permits (u : Use) (prior : Object) (addr : Addr) (size : Nat) (type : BitVec 8) : Prop :=
  ∃ fuel, ((u.prepared prior).withContext u.ctx u.ctxLen).checkMem fuel addr size type = some true

end Use

/-- `arg_region.next` is one pointer in both, or points into the struct in both. -/
structure SamePrior (a b : Object) : Prop where
  preflight : b.flags &&& flagPreflightDone = a.flags &&& flagPreflightDone
  noReturn : b.flags &&& configNoReturn = a.flags &&& configNoReturn
  tail : b.next .arg = a.next .arg ∨ (a.next .arg).any RegionPtr.isOwn = true ∧ (b.next .arg).any RegionPtr.isOwn = true

/-! ## Objects with the same walk -/

/-- Where two objects differ in a link, both links lead back into the struct. -/
structure Twin (a b : Object) : Prop where
  own : OwnLinked a
  own' : OwnLinked b
  next : ∀ p, b.next p = a.next p ∨ (a.next p).any RegionPtr.isOwn = true ∧ (b.next p).any RegionPtr.isOwn = true
  region : ∀ p, p ≠ .arg → (b.nodes p).region = (a.nodes p).region
  application : b.application = a.application
  stack : b.stack = a.stack
  setupDone : b.flags &&& flagSetupDone = a.flags &&& flagSetupDone
  preflight : b.flags &&& flagPreflightDone = a.flags &&& flagPreflightDone
  noReturn : b.flags &&& configNoReturn = a.flags &&& configNoReturn

theorem OwnLinked.walked {o : Object} (h : OwnLinked o) (n : Nat) :
    PipRiot.walked o.next (n + 4) (some .stack) =
      .stack :: .data :: .rodata :: .arg :: PipRiot.walked o.next n (o.next .arg) := by
  simp only [PipRiot.walked, h.1, h.2.1, h.2.2]

theorem OwnLinked.walkEnds {o : Object} (h : OwnLinked o) (n : Nat) :
    PipRiot.walkEnds o.next (n + 4) (some .stack) = PipRiot.walkEnds o.next n (o.next .arg) := by
  simp only [PipRiot.walkEnds, h.1, h.2.1, h.2.2]

theorem OwnLinked.met {o : Object} (h : OwnLinked o) {p : RegionPtr} (hp : p.isOwn = true) :
    ∃ n, p ∈ PipRiot.walked o.next n (some .stack) := by
  refine ⟨0 + 4, ?_⟩
  rw [h.walked]
  cases p with
  | other r => cases hp
  | _ => simp

theorem OwnLinked.regions {o : Object} (h : OwnLinked o) (n : Nat) :
    (o.flatten n).regions = (PipRiot.walked o.next (n + 4) (some .stack)).map fun p => (o.nodes p).region := by
  rw [h.walked]
  simp [RbpfApplication.regions, Object.flatten, h.1, h.2.1, h.2.2]

namespace Twin
variable {a b : Object}

section
variable (h : Twin a b)
include h

theorem symm : Twin b a where
  own := h.own'
  own' := h.own
  next p := (h.next p).imp Eq.symm And.symm
  region p hp := (h.region p hp).symm
  application := h.application.symm
  stack := h.stack.symm
  setupDone := h.setupDone.symm
  preflight := h.preflight.symm
  noReturn := h.noReturn.symm

theorem met {p : RegionPtr} (hp : ∃ n, p ∈ walked a.next n (some .stack)) :
    ∃ n, p ∈ walked b.next n (some .stack) := by
  obtain ⟨n, hn⟩ := hp
  refine mem_walked_of_closed (S := fun p => ∃ n, p ∈ walked b.next n (some .stack)) ?_ ?_ hn
  · intro q r hq hr
    rcases h.next q with heq | ⟨hown, -⟩
    · exact exists_mem_walked_next hq (heq.trans hr)
    · rw [hr] at hown; exact h.own'.met hown
  · intro q hq
    cases hq; exact h.own'.met rfl

theorem ends (he : ∃ n, walkEnds a.next n (some .stack) = true) : ∃ n, walkEnds b.next n (some .stack) = true := by
  obtain ⟨p, hp, hnone⟩ := exists_walkEnds_iff.mp he
  refine exists_walkEnds_iff.mpr ⟨p, h.met hp, ?_⟩
  rcases h.next p with heq | ⟨hown, -⟩
  · exact heq.trans hnone
  · rw [hnone] at hown; cases hown

theorem enough (n : Nat) : ∃ m, n ≤ m ∧
    (∀ p ∈ walked a.next (n + 4) (some .stack), p ∈ walked b.next (m + 4) (some .stack)) ∧
    (walkEnds a.next (n + 4) (some .stack) = true → walkEnds b.next (m + 4) (some .stack) = true) := by
  have hmeet : ∀ l : List RegionPtr, (∀ p ∈ l, ∃ k, p ∈ walked b.next k (some .stack)) →
      ∃ k, ∀ p ∈ l, p ∈ walked b.next k (some .stack) := by
    intro l
    induction l with
    | nil => exact fun _ => ⟨0, by simp⟩
    | cons q l ih =>
      intro hl
      obtain ⟨k, hk⟩ := ih fun p hp => hl p (by simp [hp])
      obtain ⟨j, hj⟩ := hl q (by simp)
      refine ⟨max k j, fun p hp => ?_⟩
      rw [mem_cons] at hp
      rcases hp with rfl | hp
      · exact mem_walked_mono (le_max_right k j) hj
      · exact mem_walked_mono (le_max_left k j) (hk p hp)
  obtain ⟨k, hk⟩ := hmeet _ fun p hp => h.met ⟨n + 4, hp⟩
  by_cases he : walkEnds a.next (n + 4) (some .stack) = true
  · obtain ⟨j, hj⟩ := h.ends ⟨_, he⟩
    refine ⟨n + k + j, by omega, fun p hp => mem_walked_mono (by omega) (hk p hp), fun _ => ?_⟩
    exact (walkEnds_mono (by omega) hj).1
  · exact ⟨n + k, by omega, fun p hp => mem_walked_mono (by omega) (hk p hp), fun h => absurd h he⟩

theorem settings (n m : Nat) : SameSettings (a.flatten n) (b.flatten m) :=
  ⟨h.application, h.stack, h.preflight, h.noReturn⟩

theorem judges (hreg : ∀ p, (b.nodes p).region = (a.nodes p).region) {n m : Nat}
    (hsub : ∀ p ∈ walked a.next (n + 4) (some .stack), p ∈ walked b.next (m + 4) (some .stack)) :
    Judges (walkEnds a.next (n + 4) (some .stack) = false) (a.flatten n).regions (b.flatten m).regions := by
  intro addr size type
  rw [h.own.regions, h.own'.regions, any_map, any_map]
  by_cases hacc : (walked a.next (n + 4) (some .stack)).any
      ((fun r => regionAccepts r addr size type) ∘ fun p => (a.nodes p).region) = true
  · obtain ⟨p, hp, hpa⟩ := any_eq_true.mp hacc
    refine .inl (Eq.trans (any_eq_true.mpr ⟨p, hsub p hp, ?_⟩) hacc.symm)
    simpa [hreg] using hpa
  · cases he : walkEnds a.next (n + 4) (some .stack) with
    | false => exact .inr ⟨by simpa using hacc, rfl⟩
    | true =>
      -- the first walk has seen every node that the second can get to
      have hno : (walked b.next (m + 4) (some .stack)).any
          ((fun r => regionAccepts r addr size type) ∘ fun p => (b.nodes p).region) = false := by
        rw [any_eq_false]
        intro p hp hpa
        obtain ⟨k, hk⟩ := h.symm.met ⟨_, hp⟩
        have hin : p ∈ walked a.next (n + 4) (some .stack) := by
          rw [← (walkEnds_mono (le_max_left (n + 4) k) he).2]
          exact mem_walked_mono (le_max_right (n + 4) k) hk
        exact hacc (any_eq_true.mpr ⟨p, hin, by simpa [hreg] using hpa⟩)
      rw [Bool.not_eq_true] at hacc; exact .inl (hno.trans hacc.symm)

theorem addRegion (r : Addr) : Twin (a.addRegion r) (b.addRegion r) := { h with
  own := by simp [OwnLinked, Object.next_addRegion, h.own.1, h.own.2.1, h.own.2.2]
  own' := by simp [OwnLinked, Object.next_addRegion, h.own'.1, h.own'.2.1, h.own'.2.2]
  next p := by
    rw [Object.next_addRegion, Object.next_addRegion]
    split
    · exact .inl rfl
    · split
      · exact h.next .arg
      · exact h.next p
  region p hp := by
    simp only [Object.addRegion, Object.region_setNext]; exact h.region p hp }

theorem addAll (adds : List Addr) : Twin (adds.foldl Object.addRegion a) (adds.foldl Object.addRegion b) := by
  induction adds generalizing a b with
  | nil => exact h
  | cons r adds ih => exact ih (h.addRegion r)

theorem withContext (ctx : Addr) (ctxLen : BitVec 32) :
    Twin (a.withContext ctx ctxLen) (b.withContext ctx ctxLen) ∧
      ∀ p, ((b.withContext ctx ctxLen).nodes p).region = ((a.withContext ctx ctxLen).nodes p).region := by
  have hreg : ∀ p, ((b.withContext ctx ctxLen).nodes p).region = ((a.withContext ctx ctxLen).nodes p).region := by
    intro p
    unfold Object.withContext
    rw [Object.region_setRegion, Object.region_setRegion]
    split
    · rfl
    · exact h.region p ‹_›
  have hnext (o : Object) (p : RegionPtr) : (o.withContext ctx ctxLen).next p = o.next p := o.next_setRegion ..
  refine ⟨⟨?_, ?_, fun p => ?_, fun p _ => hreg p, h.application, h.stack, h.setupDone, h.preflight, h.noReturn⟩, hreg⟩
  · simpa only [OwnLinked, hnext] using h.own
  · simpa only [OwnLinked, hnext] using h.own'
  · rw [hnext, hnext]; exact h.next p

end

end Twin

theorem setupDone_or (x : BitVec 16) : (x ||| flagSetupDone) &&& flagSetupDone = flagSetupDone := by
  ext i hi
  rw [BitVec.getElem_and, BitVec.getElem_or]
  cases x[i] <;> cases flagSetupDone[i] <;> rfl

theorem SamePrior.twin {a b : Object} (h : SamePrior a b) (u : Use) :
    Twin ((a.among u.regions).setup u.mem u.stack u.application u.applicationLen)
      ((b.among u.regions).setup u.mem u.stack u.application u.applicationLen) where
  own := ⟨rfl, rfl, rfl⟩
  own' := ⟨rfl, rfl, rfl⟩
  next p := by
    rw [Object.next_setup, Object.next_setup]
    cases p with
    | arg => exact h.tail
    | _ => exact .inl rfl
  region p hp := by
    rw [Object.region_setup, Object.region_setup]
    cases p with
    | arg => exact absurd rfl hp
    | _ => rfl
  application := by rw [Object.application_setup, Object.application_setup]
  stack := by rw [Object.stack_setup, Object.stack_setup]
  setupDone := by rw [Object.flags_setup, Object.flags_setup, setupDone_or, setupDone_or]
  preflight := by
    rw [Object.flags_setup, Object.flags_setup, (setupDone_and _).1, (setupDone_and _).1]
    exact h.preflight
  noReturn := by
    rw [Object.flags_setup, Object.flags_setup, (setupDone_and _).2, (setupDone_and _).2]
    exact h.noReturn

/-! ## Runs -/

theorem engineRun_mono {host : Host} {mem : Mem} {rbpf : RbpfApplication} {ctx : Addr} {spill : Regs} {n m : Nat}
    {r : RunResult} (hle : n ≤ m) (h : engineRun host n mem rbpf ctx spill = some r) :
    engineRun host m mem rbpf ctx spill = some r := by
  unfold engineRun at h ⊢
  split at h
  · exact h
  · obtain ⟨x, hx, rfl⟩ := Option.map_eq_some_iff.mp h
    rw [runLoop_mono hle hx]; rfl

theorem runCtx_eq_some_iff {host : Host} {fuel : Nat} {mem : Mem} {o : Object} {ctx : Addr} {ctxLen : BitVec 32}
    {spill : Regs} {r : RunResult} :
    o.runCtx host fuel mem ctx ctxLen spill = some r ↔
      o.flags &&& flagSetupDone ≠ 0 ∧
      engineRun host fuel mem ((o.withContext ctx ctxLen).flatten fuel) ctx spill = some r ∧
      (r.status = .illegalMem →
        walkEnds (o.withContext ctx ctxLen).next fuel ((o.withContext ctx ctxLen).next .arg) = true) := by
  have hctx : withContext ((o.withContext ctx ctxLen).flatten fuel) ctx ctxLen =
      (o.withContext ctx ctxLen).flatten fuel := by
    have harg : ((o.withContext ctx ctxLen).nodes .arg).region =
        memoryRegionInit ctx ctxLen (memRegionRead ||| memRegionWrite) := by
      rw [Object.withContext, Object.region_setRegion, if_pos rfl]
    unfold withContext
    rw [← harg]; rfl
  have happ : applicationRunCtx host fuel mem ((o.withContext ctx ctxLen).flatten fuel) ctx ctxLen spill =
      if o.flags &&& flagSetupDone = 0 then none
      else engineRun host fuel mem ((o.withContext ctx ctxLen).flatten fuel) ctx spill := by
    unfold applicationRunCtx
    rw [hctx]; rfl
  unfold Object.runCtx
  simp only [happ]
  by_cases hs : o.flags &&& flagSetupDone = 0
  · simp [hs]
  · rw [if_neg hs]
    cases engineRun host fuel mem ((o.withContext ctx ctxLen).flatten fuel) ctx spill with
    | none => simp
    | some x =>
      simp only [Option.ite_none_left_eq_some, Option.some.injEq, ne_eq, hs, not_false_eq_true, true_and]
      constructor
      · rintro ⟨hno, rfl⟩
        exact ⟨rfl, fun hst => by simpa [hst] using hno⟩
      · rintro ⟨rfl, hok⟩
        exact ⟨fun hbad => by simp [hok hbad.1] at hbad, rfl⟩

theorem Twin.runCtx {a b : Object} (h : Twin a b) {host : Host} (hu : host.Unaware) {fuel : Nat} {mem : Mem}
    {ctx : Addr} {ctxLen : BitVec 32} {spill : Regs} {r : RunResult}
    (hr : a.runCtx host fuel mem ctx ctxLen spill = some r) :
    ∃ m r', b.runCtx host m mem ctx ctxLen spill = some r' ∧ r'.status = r.status ∧ r'.result = r.result := by
  obtain ⟨hs, hrun, hends⟩ := runCtx_eq_some_iff.mp hr
  obtain ⟨ht, hreg⟩ := h.withContext ctx ctxLen
  obtain ⟨m, hle, hsub, hend⟩ := ht.enough fuel
  rw [← ht.own.walkEnds] at hends
  rcases engineRun_alike (ht.settings fuel m) hu (ht.judges hreg hsub) hrun with ⟨r', hr', hst, hres⟩ | ⟨hst, hgoes⟩
  · refine ⟨m, r', runCtx_eq_some_iff.mpr ⟨?_, engineRun_mono hle hr', fun hill => ?_⟩, hst, hres⟩
    · rw [h.setupDone]; exact hs
    · rw [← ht.own'.walkEnds]; exact hend (hends (hst.symm.trans hill))
  · rw [hends hst] at hgoes; cases hgoes

theorem Object.checkMem_eq_true_iff {o : Object} {addr : Addr} {size : Nat} {type : BitVec 8} :
    (∃ fuel, o.checkMem fuel addr size type = some true) ↔
      ∃ p, (∃ n, p ∈ walked o.next n (some .stack)) ∧ regionAccepts (o.nodes p).region addr size type = true := by
  have hfuel (fuel : Nat) : o.checkMem fuel addr size type = some true ↔
      ∃ p ∈ walked o.next fuel (some .stack), regionAccepts (o.nodes p).region addr size type = true := by
    rw [Object.checkMem, Object.checkFrom_eq, ← any_eq_true]
    split
    · rename_i hacc
      simp [hacc]
    · rename_i hacc
      simp only [hacc]
      split <;> simp
  simp only [hfuel]
  constructor
  · rintro ⟨n, p, hp, hacc⟩
    exact ⟨p, ⟨n, hp⟩, hacc⟩
  · rintro ⟨p, ⟨n, hp⟩, hacc⟩
    exact ⟨n, p, hp, hacc⟩

section
variable {a b : Object} (h : SamePrior a b) (u : Use)
include h

theorem SamePrior.symm : SamePrior b a := ⟨h.preflight.symm, h.noReturn.symm, h.tail.imp Eq.symm And.symm⟩

theorem SamePrior.answers {host : Host} (hu : host.Unaware) {status : Status} {result : Option (BitVec 64)}
    (ha : u.Answers host a status result) : u.Answers host b status result := by
  obtain ⟨fuel, r, hr, hst, hres⟩ := ha
  obtain ⟨m, r', hr', hst', hres'⟩ := ((h.twin u).addAll u.adds).runCtx hu hr
  exact ⟨m, r', hr', hst'.trans hst, hres'.trans hres⟩

theorem SamePrior.permits {addr : Addr} {size : Nat} {type : BitVec 8} (ha : u.Permits a addr size type) :
    u.Permits b addr size type := by
  obtain ⟨ht, hreg⟩ := ((h.twin u).addAll u.adds).withContext u.ctx u.ctxLen
  obtain ⟨p, hp, hacc⟩ := Object.checkMem_eq_true_iff.mp ha
  refine Object.checkMem_eq_true_iff.mpr ⟨p, ht.met hp, ?_⟩
  rw [← hacc]
  exact congrArg (regionAccepts · addr size type) (hreg p)

end

/-! ## Uses that tell two objects apart -/

def plainUse (text : List (List Byte)) (regions : Addr → RegionNode) : Use where
  mem := sampleMem text
  regions := regions
  stack := 0x20000000
  application := 0x20001000
  applicationLen := BitVec.ofNat 32 (28 + text.flatten.length)
  adds := []
  ctx := 0x1000
  ctxLen := 0
  spill := fun _ => 0

def lengthText : List (List Byte) := [insn 0x95 0 0 0, [0, 0, 0, 0]]

def spinText : List (List Byte) := [insn 0xb7 0 0 0, insn 0x05 0 0xffff 0, insn 0x95 0 0 0]

theorem and_configNoReturn (x : BitVec 16) : x &&& configNoReturn = 0 ∨ x &&& configNoReturn = configNoReturn := by
  rw [show configNoReturn = BitVec.twoPow 16 8 by decide, BitVec.and_twoPow]
  split
  · exact .inr rfl
  · exact .inl rfl

theorem preflightChecks_sample (text : List (List Byte)) {rbpf : RbpfApplication} {st : Status}
    (happ : rbpf.application = 0x20001000)
    (h : preflightChecks plainHost (sampleMem text) { sampleApp text with flags := 0 } = st)
    (h' : preflightChecks plainHost (sampleMem text) { sampleApp text with flags := configNoReturn } = st) :
    preflightChecks plainHost (sampleMem text) rbpf = st := by
  rcases and_configNoReturn rbpf.flags with hf | hf
  · rw [← h]
    exact preflightChecks_struct happ (hf.trans (show 0 = 0 &&& configNoReturn by decide))
  · rw [← h']
    exact preflightChecks_struct happ (hf.trans (show configNoReturn = configNoReturn &&& configNoReturn by decide))

theorem and_flagPreflightDone {x : BitVec 16} (h : x &&& flagPreflightDone ≠ 0) :
    x &&& flagPreflightDone = flagPreflightDone := by
  rw [show flagPreflightDone = BitVec.twoPow 16 1 by decide, BitVec.and_twoPow] at h ⊢
  split at h
  · rename_i hb
    rw [if_pos hb]
  · exact absurd rfl h

def quietApp (flags : BitVec 16) : RbpfApplication :=
  { zeroApplication with application := 0x20001000, stack := 0x20000000, flags }

theorem judges_quiet (flags : BitVec 16) (regions : List MemRegion) : Judges True (quietApp flags).regions regions := by
  intro addr size type
  refine .inr ⟨?_, trivial⟩
  simp [quietApp, RbpfApplication.regions, zeroApplication, regionAccepts]

section
variable {rbpf : RbpfApplication} (happ : rbpf.application = 0x20001000)
include happ

theorem lengthText_checked (hf : rbpf.flags &&& flagPreflightDone = 0) {fuel : Nat} {ctx : Addr} {spill : Regs}
    {r : RunResult} (hr : engineRun plainHost fuel (sampleMem lengthText) rbpf ctx spill = some r) :
    r.status = .illegalLen := by
  have hc : preflightChecks plainHost (sampleMem lengthText) rbpf = .illegalLen :=
    preflightChecks_sample lengthText happ (by decide) (by decide)
  have hstart : engineStart plainHost (sampleMem lengthText) rbpf ctx spill = .error .illegalLen :=
    engineStart_error_iff.mpr ⟨hf, hc, by decide⟩
  simp only [engineRun, hstart] at hr
  cases hr
  rfl

theorem lengthText_unchecked (hstack : rbpf.stack = 0x20000000) (hf : rbpf.flags &&& flagPreflightDone ≠ 0) :
    ∃ r, engineRun plainHost 2 (sampleMem lengthText) rbpf 0x1000 (fun _ => 0) = some r ∧ r.status = .ok := by
  have hdone := and_flagPreflightDone hf
  have hrun (flags : BitVec 16) (hpre : flagPreflightDone = flags &&& flagPreflightDone)
      (hno : rbpf.flags &&& configNoReturn = flags &&& configNoReturn)
      (hq : (engineRun plainHost 2 (sampleMem lengthText) (quietApp flags) 0x1000 fun _ => 0).map
        RunResult.status = some .ok) :
      ∃ r, engineRun plainHost 2 (sampleMem lengthText) rbpf 0x1000 (fun _ => 0) = some r ∧ r.status = .ok := by
    obtain ⟨r, hr, hst⟩ := Option.map_eq_some_iff.mp hq
    have hset : SameSettings (quietApp flags) rbpf := ⟨happ, hstack, hdone.trans hpre, hno⟩
    rcases engineRun_alike hset plainHost_unaware (judges_quiet flags _) hr with ⟨r', hr', hst', -⟩ | ⟨hbad, -⟩
    · exact ⟨r', hr', hst'.trans hst⟩
    · rw [hst] at hbad; cases hbad
  rcases and_configNoReturn rbpf.flags with hno | hno
  · exact hrun flagPreflightDone (by decide) (hno.trans (by decide)) (by decide)
  · exact hrun (flagPreflightDone ||| configNoReturn) (by decide) (hno.trans (by decide)) (by decide)

/-! ### Branches without a limit -/

end

theorem overMaxJumps_iff (rbpf : RbpfApplication) :
    overMaxJumps rbpf = true ↔ rbpf.flags &&& configNoReturn = 0 ∧ rbpf.branchesRemaining = 0 := by
  simp [overMaxJumps]

theorem spin_step {s : Vm} (hm : s.mem = sampleMem spinText) (hi : s.instr = 0x20001024) :
    ∃ t : Vm, t.mem = sampleMem spinText ∧ t.instr = 0x20001024 ∧ t.rbpf.flags = s.rbpf.flags ∧
      t.rbpf.branchesRemaining = s.rbpf.branchesRemaining - 1 ∧
      loopBody plainHost s = if overMaxJumps t.rbpf then .inr (.outOfBranches, t) else .inl t := by
  have hop : s.opcode = some .jmpAlways := by
    unfold Vm.opcode
    rw [hm, hi]; decide
  have hcur : s.current.offset = 0xffff := by
    unfold Vm.current
    rw [hm, hi]; decide
  refine ⟨{ (jump s s.current).2 with instr := (jump s s.current).2.instr + 8 }, hm, ?_, rfl, rfl, ?_⟩
  · show pointerAdd s.instr s.current.offset + 8 = 0x20001024
    rw [hi, hcur]; decide
  · have hins : instruction plainHost s = jump s s.current := by
      unfold instruction
      rw [hop]; rfl
    have hst : (jump s s.current).1 =
      if overMaxJumps (jump s s.current).2.rbpf then Status.outOfBranches else Status.cont := rfl
    rw [loopBody_eq, hins, hst]
    cases overMaxJumps (jump s s.current).2.rbpf <;> rfl

theorem spin_limited : ∀ (n : Nat) {s : Vm}, s.mem = sampleMem spinText → s.instr = 0x20001024 →
    s.rbpf.flags &&& configNoReturn = 0 → s.rbpf.branchesRemaining.toNat = n + 1 →
      ∃ t, runLoop (loopBody plainHost) (n + 1) s = some (.outOfBranches, t)
  | n, s, hm, hi, hf, hb => by
    obtain ⟨t, htm, hti, htf, htb, hs⟩ := spin_step hm hi
    have hbt : t.rbpf.branchesRemaining.toNat = n := by
      rw [htb, BitVec.toNat_sub, hb]
      simp
      omega
    cases n with
    | zero =>
      have hmax : overMaxJumps t.rbpf = true := by
        have hz : t.rbpf.branchesRemaining = 0 := BitVec.eq_of_toNat_eq hbt
        exact (overMaxJumps_iff _).mpr ⟨htf ▸ hf, hz⟩
      rw [hmax] at hs; exact ⟨t, runLoop_inr hs 0⟩
    | succ n =>
      have hmax : overMaxJumps t.rbpf = false := by
        have hz : t.rbpf.branchesRemaining ≠ 0 := fun h => by rw [h] at hbt; simp at hbt
        exact Bool.eq_false_iff.mpr fun h => hz ((overMaxJumps_iff _).mp h).2
      rw [hmax] at hs
      rw [runLoop_inl hs]
      exact spin_limited n htm hti (htf ▸ hf) hbt

theorem spin_unlimited : ∀ (n : Nat) {s : Vm}, s.mem = sampleMem spinText → s.instr = 0x20001024 →
    s.rbpf.flags &&& configNoReturn ≠ 0 → runLoop (loopBody plainHost) n s = none
  | 0, _, _, _, _ => rfl
  | n + 1, s, hm, hi, hf => by
    obtain ⟨t, htm, hti, htf, -, hs⟩ := spin_step hm hi
    have hmax : overMaxJumps t.rbpf = false :=
      Bool.eq_false_iff.mpr fun h => hf (htf ▸ ((overMaxJumps_iff _).mp h).1)
    rw [hmax] at hs
    rw [runLoop_inl hs]; exact spin_unlimited n htm hti (htf ▸ hf)

theorem mov_step {s : Vm} {mem : Mem} {p : Addr} (hm : s.mem = mem) (hi : s.instr = p)
    (hop : Opcode.ofByte (mem p) = some (.alu .alu64 .mov .imm)) :
    ∃ t : Vm, loopBody plainHost s = .inl t ∧ t.mem = mem ∧ t.instr = p + 8 ∧ t.rbpf = s.rbpf := by
  subst hm hi
  have hins : instruction plainHost s = exec plainHost s s.current (.alu .alu64 .mov .imm) := by
    unfold instruction Vm.opcode
    rw [hop]
  rw [loopBody_eq, hins]
  exact ⟨_, rfl, rfl, rfl, rfl⟩

theorem load_step {s : Vm} {mem : Mem} {p : Addr} (hm : s.mem = mem) (hi : s.instr = p)
    (hop : Opcode.ofByte (mem p) = some (.ldx .b))
    (hno : checkLoad s.rbpf (accessAddr (s.regmap (fetch mem p).src) (fetch mem p).offset) 1 = false) :
    ∃ t : Vm, loopBody plainHost s = .inr (.illegalMem, t) := by
  subst hm hi
  have hins : instruction plainHost s = (.illegalMem, s) := by
    unfold instruction Vm.opcode
    rw [hop]
    show load s _ _ _ _ = _
    unfold load; exact if_neg (Bool.eq_false_iff.mp hno)
  rw [loopBody_eq, hins]
  exact ⟨_, rfl⟩

section
variable {rbpf : RbpfApplication} (happ : rbpf.application = 0x20001000) (ctx : Addr) (spill : Regs)
include happ

theorem sample_start (text : List (List Byte))
    (h : preflightChecks plainHost (sampleMem text) { sampleApp text with flags := 0 } = .ok)
    (h' : preflightChecks plainHost (sampleMem text) { sampleApp text with flags := configNoReturn } = .ok) :
    engineStart plainHost (sampleMem text) rbpf ctx spill = .ok (startVm (sampleMem text) rbpf ctx spill) :=
  engineStart_iff.mpr ⟨.inr (preflightChecks_sample text happ h h'), rfl⟩

theorem spin_start : ∃ s : Vm, loopBody plainHost (startVm (sampleMem spinText) rbpf ctx spill) = .inl s ∧
    s.mem = sampleMem spinText ∧ s.instr = 0x20001024 ∧
    s.rbpf.flags &&& configNoReturn = rbpf.flags &&& configNoReturn ∧
    s.rbpf.branchesRemaining = branchesAllowed := by
  have htext : applicationText (sampleMem spinText) rbpf = 0x2000101c := by
    simp only [applicationText, headerDataLen, headerRodataLen, happ]; decide
  have hm : (startVm (sampleMem spinText) rbpf ctx spill).mem = sampleMem spinText := rfl
  obtain ⟨t, ht, htm, hti, htr⟩ := mov_step hm htext (by decide)
  refine ⟨t, ht, htm, hti.trans (by decide), ?_, ?_⟩
  · rw [htr]; exact preflightDone_and _
  · rw [htr]; rfl

theorem spinText_limited (hf : rbpf.flags &&& configNoReturn = 0) :
    ∃ r, engineRun plainHost 10001 (sampleMem spinText) rbpf ctx spill = some r ∧ r.status = .outOfBranches := by
  obtain ⟨s, hs, hm, hi, hsf, hb⟩ := spin_start happ ctx spill
  obtain ⟨t, ht⟩ := spin_limited 9999 hm hi (hsf.trans hf) (by rw [hb]; decide)
  have hrun : runLoop (loopBody plainHost) 10001 (startVm (sampleMem spinText) rbpf ctx spill) =
    some (.outOfBranches, t) :=
    (runLoop_inl hs 10000).trans ht
  rw [engineRun, sample_start happ ctx spill spinText (by decide) (by decide)]
  exact ⟨_, congrArg (Option.map _) hrun, rfl⟩

theorem spinText_unlimited (hf : rbpf.flags &&& configNoReturn ≠ 0) (fuel : Nat) :
    engineRun plainHost fuel (sampleMem spinText) rbpf ctx spill = none := by
  obtain ⟨s, hs, hm, hi, hsf, -⟩ := spin_start happ ctx spill
  have hrun : runLoop (loopBody plainHost) fuel (startVm (sampleMem spinText) rbpf ctx spill) = none := by
    cases fuel with
    | zero => rfl
    | succ fuel =>
      rw [runLoop_inl hs]
      exact spin_unlimited fuel hm hi (hsf ▸ hf)
  rw [engineRun, sample_start happ ctx spill spinText (by decide) (by decide)]
  exact congrArg (Option.map _) hrun

theorem peekText_refused (hno : checkLoad rbpf 0x1000 1 = false) (fuel : Nat) :
    ∃ r, engineRun plainHost (fuel + 1) (sampleMem peekText) rbpf 0x1000 spill = some r ∧ r.status = .illegalMem := by
  have htext : applicationText (sampleMem peekText) rbpf = 0x2000101c := by
    simp only [applicationText, headerDataLen, headerRodataLen, happ]; decide
  have hm : (startVm (sampleMem peekText) rbpf 0x1000 spill).mem = sampleMem peekText := rfl
  have hsrc : (fetch (sampleMem peekText) 0x2000101c).src = 1 := by decide
  have hoff : (fetch (sampleMem peekText) 0x2000101c).offset = 0 := by decide
  obtain ⟨t, ht⟩ := load_step hm htext (by decide) (by rw [hsrc, hoff]; exact hno)
  rw [engineRun, sample_start happ 0x1000 spill peekText (by decide) (by decide)]
  exact ⟨_, congrArg (Option.map _) (runLoop_inr ht fuel), rfl⟩

end

/-! ## Each difference shows -/

section
variable (text : List (List Byte)) (regions : Addr → RegionNode) (o : Object)

def readyObject : Object := ((plainUse text regions).prepared o).withContext 0x1000 0

theorem readyObject_flags (fuel : Nat) :
    ((readyObject text regions o).flatten fuel).flags &&& flagPreflightDone = o.flags &&& flagPreflightDone ∧
      ((readyObject text regions o).flatten fuel).flags &&& configNoReturn = o.flags &&& configNoReturn :=
  setupDone_and o.flags

theorem plainUse_setupDone : ((plainUse text regions).prepared o).flags &&& flagSetupDone ≠ 0 := by
  show (o.flags ||| flagSetupDone) &&& flagSetupDone ≠ 0
  rw [setupDone_or]
  decide

theorem readyObject_next (p : RegionPtr) : (readyObject text regions o).next p =
    match p with
    | .stack => some .data
    | .data => some .rodata
    | .rodata => some .arg
    | .arg => o.next .arg
    | .other r => (regions r).next := by
  rw [readyObject, Object.withContext, Object.next_setRegion]
  show ((o.among regions).setup _ _ _ _).next p = _
  rw [Object.next_setup]
  cases p <;> rfl

theorem readyObject_own : OwnLinked (readyObject text regions o) :=
  ⟨readyObject_next .., readyObject_next .., readyObject_next ..⟩

theorem readyObject_region (p : RegionPtr) (hp : p ≠ .arg) : ((readyObject text regions o).nodes p).region =
    (((o.among regions).setup (sampleMem text) 0x20000000 0x20001000
      (BitVec.ofNat 32 (28 + text.flatten.length))).nodes p).region := by
  rw [readyObject, Object.withContext, Object.region_setRegion, if_neg hp]
  rfl

theorem readyObject_other (r : Addr) : ((readyObject text regions o).nodes (.other r)).region = (regions r).region := by
  rw [readyObject_region _ _ _ _ (by simp), Object.region_setup]
  rfl

theorem readyObject_refuses {p : RegionPtr} (hp : p.isOwn = true) :
    regionAccepts ((readyObject peekText regions o).nodes p).region 0x1000 1 memRegionRead = false := by
  cases p with
  | other r => cases hp
  | arg =>
    rw [readyObject, Object.withContext, Object.region_setRegion, if_pos rfl]
    decide
  | stack | data | rodata =>
    rw [readyObject_region _ _ _ _ (by decide), Object.region_setup]
    dsimp only; decide

end

theorem answers_lengthText (o : Object) :
    (∃ result, (plainUse lengthText fun _ => zeroNode).Answers plainHost o .ok result) ↔
      o.flags &&& flagPreflightDone ≠ 0 := by
  constructor
  · rintro ⟨result, fuel, r, hr, hst, -⟩ hf
    obtain ⟨-, hrun, -⟩ := runCtx_eq_some_iff.mp hr
    have hflags := (readyObject_flags lengthText (fun _ => zeroNode) o fuel).1.trans hf
    have hill := lengthText_checked rfl hflags hrun
    rw [hst] at hill; cases hill
  · intro hf
    have hflags := (readyObject_flags lengthText (fun _ => zeroNode) o 2).1
    obtain ⟨r, hr, hst⟩ := lengthText_unchecked rfl rfl (hflags ▸ hf)
    refine ⟨r.result, 2, r, runCtx_eq_some_iff.mpr ⟨plainUse_setupDone _ _ _, hr, fun hill => ?_⟩, hst, rfl⟩
    rw [hst] at hill; cases hill

theorem answers_spinText (o : Object) :
    (∃ result, (plainUse spinText fun _ => zeroNode).Answers plainHost o .outOfBranches result) ↔
      o.flags &&& configNoReturn = 0 := by
  constructor
  · rintro ⟨result, fuel, r, hr, hst, -⟩
    by_contra hf
    obtain ⟨-, hrun, -⟩ := runCtx_eq_some_iff.mp hr
    have hflags := (readyObject_flags spinText (fun _ => zeroNode) o fuel).2
    have hnone := spinText_unlimited rfl 0x1000 (fun _ => 0) (hflags ▸ hf) fuel
    cases hrun.symm.trans hnone
  · intro hf
    have hflags := (readyObject_flags spinText (fun _ => zeroNode) o 10001).2
    obtain ⟨r, hr, hst⟩ := spinText_limited rfl 0x1000 (fun _ => 0) (hflags.trans hf)
    refine ⟨r.result, 10001, r, runCtx_eq_some_iff.mpr ⟨plainUse_setupDone _ _ _, hr, fun hill => ?_⟩, hst, rfl⟩
    rw [hst] at hill; cases hill

theorem answers_peekText (o : Object) :
    (∃ result, (plainUse peekText fun _ => zeroNode).Answers plainHost o .illegalMem result) ↔
      (o.next .arg).any RegionPtr.isOwn = false := by
  have hrefuse (p : RegionPtr) : regionAccepts ((readyObject peekText (fun _ => zeroNode) o).nodes p).region 0x1000 1
      memRegionRead = false := by
    cases hp : p.isOwn with
    | true => exact readyObject_refuses _ o hp
    | false =>
      cases p with
      | other r =>
        rw [readyObject_other]; decide
      | _ => cases hp
  have hcheck (fuel : Nat) :
      checkLoad ((readyObject peekText (fun _ => zeroNode) o).flatten fuel) 0x1000 1 = false := by
    unfold checkLoad checkMem
    rw [(readyObject_own _ _ o).regions, any_map, any_eq_false]
    intro p _
    simpa using hrefuse p
  constructor
  · rintro ⟨result, fuel, r, hr, hst, -⟩
    obtain ⟨-, -, hends⟩ := runCtx_eq_some_iff.mp hr
    by_contra hown
    rw [Bool.not_eq_false] at hown
    -- the walk goes round in the struct
    have hloop (p : RegionPtr) (hp : p.isOwn = true) :
        ∃ q, (readyObject peekText (fun _ => zeroNode) o).next p = some q ∧ q.isOwn = true := by
      rw [readyObject_next]
      cases p with
      | other r => cases hp
      | arg =>
        obtain ⟨q, hq, hq'⟩ := (Option.any_eq_true _ _).mp hown
        exact ⟨q, hq, hq'⟩
      | _ => exact ⟨_, rfl, rfl⟩
    have hgoes : walkEnds (readyObject peekText (fun _ => zeroNode) o).next (fuel + 4) (some .stack) = false :=
      walkEnds_eq_false hloop rfl _
    rw [(readyObject_own _ _ o).walkEnds] at hgoes
    cases hgoes.symm.trans (hends hst)
  · intro hown
    obtain ⟨r, hr, hst⟩ := peekText_refused rfl (fun _ => 0) (hcheck 1) 0
    refine ⟨r.result, 1, r, runCtx_eq_some_iff.mpr ⟨plainUse_setupDone _ _ _, hr, fun _ => ?_⟩, hst, rfl⟩
    show walkEnds (readyObject peekText (fun _ => zeroNode) o).next 1
      ((readyObject peekText (fun _ => zeroNode) o).next .arg) = true
    rw [readyObject_next]
    cases hn : o.next .arg with
    | none => rfl
    | some q =>
      cases q with
      | other r =>
        simp only [walkEnds, readyObject_next]; rfl
      | _ => rw [hn] at hown; cases hown

def markRegion (r s : Addr) : RegionNode := if s = r then ⟨⟨0x1000, 1, memRegionRead⟩, none⟩ else zeroNode

theorem permits_marked (r : Addr) (o : Object) :
    (plainUse peekText (markRegion r)).Permits o 0x1000 1 memRegionRead ↔ o.next .arg = some (.other r) := by
  have hnext (s : Addr) : (markRegion r s).next = none := by
    unfold markRegion
    split <;> rfl
  have hown (p : RegionPtr) (hp : p ≠ .other r) :
      regionAccepts ((readyObject peekText (markRegion r) o).nodes p).region 0x1000 1 memRegionRead = false := by
    cases hp' : p.isOwn with
    | true => exact readyObject_refuses _ o hp'
    | false =>
      cases p with
      | other s =>
        rw [readyObject_other, markRegion, if_neg (fun h => hp (by rw [h]))]
        decide
      | _ => cases hp'
  show (∃ fuel, (readyObject peekText (markRegion r) o).checkMem fuel 0x1000 1 memRegionRead = some true) ↔ _
  rw [Object.checkMem_eq_true_iff]
  constructor
  · rintro ⟨p, ⟨n, hp⟩, hacc⟩
    by_contra hne
    have hin : p ≠ .other r := by
      refine mem_walked_of_closed (S := fun p => p ≠ .other r) ?_ ?_ hp
      · intro q q' _ hq
        rw [readyObject_next] at hq
        cases q with
        | arg =>
          rintro rfl
          exact hne hq
        | other s => cases (hnext s).symm.trans hq
        | _ => cases hq; simp
      · intro q hq
        cases hq; simp
    rw [hown p hin] at hacc; cases hacc
  · intro h
    refine ⟨.other r, exists_mem_walked_next ((readyObject_own _ _ o).met (p := .arg) rfl) ?_, ?_⟩
    · rw [readyObject_next]; exact h
    · rw [readyObject_other, markRegion, if_pos rfl]; decide

/-! ## The prior contents that make no difference -/

end PipRiot.Rbpf
