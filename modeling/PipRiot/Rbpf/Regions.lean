import Mathlib.Data.List.Induction
import PipRiot.Lib.Linked
import PipRiot.Rbpf.Engine

/-!
# The list of memory regions

`struct rbpf_mem_region` is linked intrusively: four nodes are members of the
application struct, the others belong to the caller. `rbpf_application_setup`
writes the links of three of its nodes and leaves `arg_region.next` alone, so
the regions that were added before stay in the list. `region_list_iff`: the
list is what the calls since the last setup make it, and ends, exactly for the
histories in which all setups come first.
-/

namespace PipRiot.Rbpf

open List

/-! ## Pointers and objects -/

inductive RegionPtr
  | stack | rodata | data | arg
  | other (r : Addr)
  deriving DecidableEq, Repr

def RegionPtr.isOwn : RegionPtr → Bool
  | .other _ => false
  | _ => true

structure RegionNode where
  region : MemRegion
  next : Option RegionPtr
  deriving DecidableEq, Repr

/-- `rbpf_application_t` together with the region objects of the caller. -/
structure Object where
  nodes : RegionPtr → RegionNode
  application : Addr
  applicationLen : BitVec 32
  stack : Addr
  flags : BitVec 16
  branchesRemaining : BitVec 32

variable (o : Object)

namespace Object

def next (o : Object) (p : RegionPtr) : Option RegionPtr := (o.nodes p).next

def setRegion (p : RegionPtr) (region : MemRegion) : Object :=
  { o with nodes := Function.update o.nodes p { o.nodes p with region } }

def setNext (p : RegionPtr) (next : Option RegionPtr) : Object :=
  { o with nodes := Function.update o.nodes p { o.nodes p with next } }

/-- The struct as `RbpfApplication` has it, with the first `fuel` nodes behind
`arg_region`. -/
def flatten (fuel : Nat) : RbpfApplication where
  stackRegion := (o.nodes .stack).region
  rodataRegion := (o.nodes .rodata).region
  dataRegion := (o.nodes .data).region
  argRegion := (o.nodes .arg).region
  linked := o.next .stack == some .data && o.next .data == some .rodata && o.next .rodata == some .arg
  argNext := (walked o.next fuel (o.next .arg)).map fun p => (o.nodes p).region
  application := o.application
  applicationLen := o.applicationLen
  stack := o.stack
  flags := o.flags
  branchesRemaining := o.branchesRemaining

def setup (mem : Mem) (o : Object) (stack application : Addr) (applicationLen : BitVec 32) : Object :=
  let o := { o with stack, application, applicationLen }
  let rbpf := o.flatten 0
  let o := o.setRegion .stack (memoryRegionInit rbpf.stack stackSize (memRegionRead ||| memRegionWrite))
  let o := o.setRegion .data
    (memoryRegionInit (applicationData rbpf) (applicationDataLen mem rbpf) (memRegionRead ||| memRegionWrite))
  let o := o.setRegion .rodata
    (memoryRegionInit (applicationRodata mem rbpf) (applicationRodataLen mem rbpf) memRegionRead)
  let o := o.setNext .stack (some .data)
  let o := o.setNext .data (some .rodata)
  let o := o.setNext .rodata (some .arg)
  { o with flags := o.flags ||| flagSetupDone }

def addRegion (region : Addr) : Object :=
  let o := o.setNext (.other region) (o.next .arg)
  o.setNext .arg (some (.other region))

def checkFrom (o : Object) (addr : Addr) (size : Nat) (type : BitVec 8) : Nat → Option RegionPtr → Option Bool
  | _, none => some false
  | 0, some _ => none
  | fuel + 1, some p =>
    if regionAccepts (o.nodes p).region addr size type then some true
    else checkFrom o addr size type fuel (o.next p)

def checkMem (fuel : Nat) (addr : Addr) (size : Nat) (type : BitVec 8) : Option Bool :=
  o.checkFrom addr size type fuel (some .stack)

/-! ## The links after each call -/

variable (o : Object)

section
variable (p q : RegionPtr)

theorem next_setNext (n : Option RegionPtr) : (o.setNext p n).next q = if q = p then n else o.next q := by
  unfold next setNext
  by_cases h : q = p
  · subst h; simp
  · simp [h]

theorem next_setRegion (region : MemRegion) : (o.setRegion p region).next q = o.next q := by
  unfold next setRegion
  by_cases h : q = p
  · subst h; simp
  · simp [h]

theorem region_setNext (n : Option RegionPtr) : ((o.setNext p n).nodes q).region = (o.nodes q).region := by
  unfold setNext
  by_cases h : q = p
  · subst h; simp
  · simp [h]

theorem region_setRegion (region : MemRegion) :
    ((o.setRegion p region).nodes q).region = if q = p then region else (o.nodes q).region := by
  unfold setRegion
  by_cases h : q = p
  · subst h; simp
  · simp [h]

end

section
variable (mem : Mem) (stack application : Addr) (len : BitVec 32)

theorem next_setup (q : RegionPtr) :
    (o.setup mem stack application len).next q =
      match q with
      | .stack => some .data
      | .data => some .rodata
      | .rodata => some .arg
      | q => o.next q := by
  cases q <;> rfl

theorem region_setup (q : RegionPtr) :
    ((o.setup mem stack application len).nodes q).region =
      match q with
      | .stack => memoryRegionInit stack stackSize (memRegionRead ||| memRegionWrite)
      | .data => memoryRegionInit (application + sizeofApplication) (word32 mem (application + 12))
          (memRegionRead ||| memRegionWrite)
      | .rodata => memoryRegionInit (application + sizeofApplication + word32 mem (application + 12))
          (word32 mem (application + 16)) memRegionRead
      | q => (o.nodes q).region := by
  cases q <;> rfl

@[simp] theorem application_setup :
    (o.setup mem stack application len).application = application := rfl

@[simp] theorem stack_setup :
    (o.setup mem stack application len).stack = stack := rfl

@[simp] theorem flags_setup :
    (o.setup mem stack application len).flags = o.flags ||| flagSetupDone := rfl

end

theorem next_addRegion (r : Addr) (q : RegionPtr) :
    (o.addRegion r).next q =
      if q = .arg then some (.other r) else if q = .other r then o.next .arg else o.next q := by
  simp only [addRegion, next_setNext]

theorem checkFrom_eq (addr : Addr) (size : Nat) (type : BitVec 8) (fuel : Nat) (p : Option RegionPtr) :
    o.checkFrom addr size type fuel p =
      if (walked o.next fuel p).any (fun q => regionAccepts (o.nodes q).region addr size type) then some true
      else if walkEnds o.next fuel p then some false else none := by
  induction fuel generalizing p with
  | zero => cases p <;> simp [checkFrom, walked, walkEnds]
  | succ fuel ih =>
    cases p with
    | none => simp [checkFrom]
    | some a =>
      rw [checkFrom, ih]
      cases h : regionAccepts (o.nodes a).region addr size type with
      | true => simp [walked, h]
      | false => simp only [walked, walkEnds, any_cons, h, Bool.false_or, Bool.false_eq_true, if_false]; rfl

end Object

/-! ## Histories -/

inductive RegionCall
  | setup (mem : Mem) (stack application : Addr) (applicationLen : BitVec 32)
  | addRegion (region : Addr)

def RegionCall.isSetup : RegionCall → Bool
  | .setup .. => true
  | .addRegion _ => false

def regionCall : RegionCall → Object
  | .setup mem stack application len => o.setup mem stack application len
  | .addRegion r => o.addRegion r

def zeroNode : RegionNode := ⟨⟨0, 0, 0⟩, none⟩

variable (regions : Addr → RegionNode)

/-- A zero-initialised object; the caller's region objects may hold anything. -/
def zeroObject : Object where
  nodes := fun p => match p with
    | .other r => regions r
    | _ => zeroNode
  application := 0
  applicationLen := 0
  stack := 0
  flags := 0
  branchesRemaining := 0

variable (calls : List RegionCall)

def after : Object :=
  calls.foldl regionCall (zeroObject regions)

def addedSince : List Addr :=
  calls.foldl (fun added call => match call with
    | .setup .. => []
    | .addRegion r => r :: added) []

def AddedOnce : Prop := ∀ before, before <+: calls → (addedSince before).Nodup

structure ListExact (o : Object) (added : List Addr) : Prop where
  members : ∃ l, Linked (fun p => some (o.next p)) (some .stack) l ∧
    ∀ p, p ∈ l ↔ p.isOwn = true ∨ ∃ r ∈ added, p = .other r
  ends : ∀ addr size type, ∃ fuel, (o.checkMem fuel addr size type).isSome = true

structure SetupsFirst (calls : List RegionCall) : Prop where
  first : ∀ c ∈ calls.head?, c.isSetup = true
  order : calls.Pairwise fun c d => d.isSetup = true → c.isSetup = true

section
variable {regions : Addr → RegionNode} {calls : List RegionCall}

@[simp] theorem after_concat (c : RegionCall) : after regions (calls ++ [c]) = regionCall (after regions calls) c := by
  simp [after]

@[simp] theorem addedSince_setup (mem : Mem) (stack application : Addr) (len : BitVec 32) :
    addedSince (calls ++ [.setup mem stack application len]) = [] := by
  simp [addedSince]

@[simp] theorem addedSince_add (r : Addr) : addedSince (calls ++ [.addRegion r]) = r :: addedSince calls := by
  simp [addedSince]

theorem addedSince_of_setups (h : ∀ c ∈ calls, c.isSetup = true) : addedSince calls = [] := by
  cases calls using List.reverseRecOn with
  | nil => rfl
  | append_singleton calls c =>
    have hc := h c (by simp)
    cases c with
    | setup mem stack application len => simp
    | addRegion r => cases hc

theorem SetupsFirst.of_append {rest : List RegionCall} (h : SetupsFirst (calls ++ rest)) : SetupsFirst calls := by
  refine ⟨fun d hd => h.first d ?_, (pairwise_append.mp h.order).1⟩
  cases calls with
  | nil => cases hd
  | cons e calls => exact hd

theorem SetupsFirst.before_setup {c d : RegionCall} (h : SetupsFirst (calls ++ [c])) (hc : c.isSetup = true)
    (hd : d ∈ calls) : d.isSetup = true :=
  (pairwise_append.mp h.order).2.2 d hd c (by simp) hc

theorem AddedOnce.of_append {rest : List RegionCall} (h : AddedOnce (calls ++ rest)) : AddedOnce calls :=
  fun before hb => h before (hb.trans (prefix_append _ _))

theorem AddedOnce.of_take (h : ∀ k ≤ calls.length, (addedSince (calls.take k)).Nodup) : AddedOnce calls := by
  intro before hb
  rw [prefix_iff_eq_take.mp hb]
  exact h _ hb.length_le

/-! ## Histories with the setups first -/

def OwnLinked : Prop :=
  o.next .stack = some .data ∧ o.next .data = some .rodata ∧ o.next .rodata = some .arg

theorem OwnLinked.linked {o : Object} (h : OwnLinked o) {l : List RegionPtr}
    (hl : Linked (fun p => some (o.next p)) (o.next .arg) l) :
    Linked (fun p => some (o.next p)) (some .stack) (.stack :: .data :: .rodata :: .arg :: l) :=
  ⟨rfl, _, congrArg some h.1, rfl, _, congrArg some h.2.1, rfl, _, congrArg some h.2.2, rfl, _, rfl, hl⟩

theorem ownLinked_after (hs : SetupsFirst calls) (hne : calls ≠ []) : OwnLinked (after regions calls) := by
  induction calls using List.reverseRecOn with
  | nil => exact absurd rfl hne
  | append_singleton calls c ih =>
    rw [after_concat]
    cases c with
    | setup mem stack application len => exact ⟨rfl, rfl, rfl⟩
    | addRegion r =>
      have hcalls : calls ≠ [] := by
        rintro rfl
        exact absurd (hs.first _ rfl) (by simp [RegionCall.isSetup])
      obtain ⟨h1, h2, h3⟩ := ih hs.of_append hcalls
      simp [OwnLinked, regionCall, Object.next_addRegion, h1, h2, h3]

theorem tail_after (hs : SetupsFirst calls) (ho : AddedOnce calls) :
    Linked (fun p => some ((after regions calls).next p)) ((after regions calls).next .arg)
      ((addedSince calls).map .other) := by
  induction calls using List.reverseRecOn with
  | nil => rfl
  | append_singleton calls c ih =>
    have ih := ih hs.of_append ho.of_append
    rw [after_concat]
    cases c with
    | setup mem stack application len =>
      have hnil := addedSince_of_setups fun d hd => hs.before_setup rfl hd
      rw [hnil] at ih
      rw [addedSince_setup]; exact ih
    | addRegion r =>
      have hnew := ho _ (prefix_refl _)
      rw [addedSince_add, nodup_cons] at hnew
      rw [addedSince_add]
      refine ⟨by simp [regionCall, Object.next_addRegion], (after regions calls).next .arg, ?_, ih.congr ?_⟩
      · simp [regionCall, Object.next_addRegion]
      · rintro p hp
        obtain ⟨q, hq, rfl⟩ := mem_map.mp hp
        have hne : q ≠ r := fun h => hnew.1 (h ▸ hq)
        simp [regionCall, Object.next_addRegion, hne]

theorem checkMem_ends {o : Object} {l : List RegionPtr} (h : Linked (fun p => some (o.next p)) (some .stack) l)
    (addr : Addr) (size : Nat) (type : BitVec 8) : (o.checkMem l.length addr size type).isSome = true := by
  rw [Object.checkMem, Object.checkFrom_eq, (h.walked le_rfl).1]
  split <;> rfl

theorem listExact_after (hs : SetupsFirst calls) (ho : AddedOnce calls) (hne : calls ≠ []) :
    ListExact (after regions calls) (addedSince calls) := by
  have hown : OwnLinked (after regions calls) := ownLinked_after hs hne
  have hl := hown.linked (tail_after hs ho)
  refine ⟨⟨_, hl, fun p => ?_⟩, fun addr size type => ⟨_, checkMem_ends hl addr size type⟩⟩
  cases p <;> simp [RegionPtr.isOwn]

/-! ## Other histories -/

theorem ListExact.next_arg {o : Object} {added : List Addr} (h : ListExact o added) {r : Addr}
    (hr : o.next .arg = some (.other r)) : r ∈ added := by
  obtain ⟨l, hl, hmem⟩ := h.members
  have harg : RegionPtr.arg ∈ l := (hmem .arg).mpr (.inl rfl)
  have hin : RegionPtr.other r ∈ l := hl.next_mem harg (congrArg some hr)
  simpa [RegionPtr.isOwn] using (hmem _).mp hin

theorem next_arg_after {c : RegionCall} (hc : c ∈ calls) (hadd : c.isSetup = false) :
    ∃ r, (after regions calls).next .arg = some (.other r) := by
  induction calls using List.reverseRecOn with
  | nil => simp at hc
  | append_singleton calls d ih =>
    rw [after_concat]
    cases d with
    | addRegion r => exact ⟨r, by simp [regionCall, Object.next_addRegion]⟩
    | setup mem stack application len =>
      have hcalls : c ∈ calls := by
        simp only [mem_append, mem_singleton] at hc
        cases hc with
        | inl h => exact h
        | inr h => rw [h] at hadd; cases hadd
      exact ih hcalls

theorem not_listExact_add (r : Addr) (added : List Addr) : ¬ ListExact (after regions [.addRegion r]) added := by
  intro h
  obtain ⟨l, hl, hmem⟩ := h.members
  have hstack : Linked (fun p => some ((after regions [.addRegion r]).next p)) (some .stack) [.stack] :=
    ⟨rfl, none, rfl, rfl⟩
  have hdata := (hmem .data).mpr (.inl rfl)
  rw [hl.unique hstack] at hdata
  simp at hdata

theorem setupsFirst_of_exact
    (h : ∀ before, before <+: calls → before ≠ [] → ListExact (after regions before) (addedSince before)) :
    SetupsFirst calls := by
  induction calls using List.reverseRecOn with
  | nil => exact ⟨by simp, .nil⟩
  | append_singleton calls c ih =>
    have hcalls := ih fun before hb => h before (hb.trans (prefix_append _ _))
    have hlast := h _ (prefix_refl _) (by simp)
    cases c with
    | setup mem stack application len =>
      have hall : ∀ d ∈ calls, d.isSetup = true := by
        intro d hd
        by_contra hadd
        obtain ⟨r, hr⟩ : ∃ r, (after regions calls).next .arg = some (.other r) :=
          next_arg_after hd (by simpa using hadd)
        rw [after_concat, addedSince_setup] at hlast
        simpa using hlast.next_arg (r := r) hr
      refine ⟨?_, pairwise_append.mpr ⟨hcalls.order, by simp, fun d hd _ _ _ => hall d hd⟩⟩
      cases calls with
      | nil => simp [RegionCall.isSetup]
      | cons d calls => exact hcalls.first
    | addRegion r =>
      refine ⟨?_, pairwise_append.mpr ⟨hcalls.order, by simp, ?_⟩⟩
      · cases calls with
        | nil => exact absurd hlast (not_listExact_add r _)
        | cons d calls => exact hcalls.first
      · intro d _ e he hset
        rw [mem_singleton.mp he] at hset; cases hset

end

theorem region_list_iff (ho : AddedOnce calls) :
    (∀ before, before <+: calls → before ≠ [] → ListExact (after regions before) (addedSince before)) ↔
      SetupsFirst calls := by
  refine ⟨setupsFirst_of_exact, fun hs before hb hne => ?_⟩
  obtain ⟨rest, rfl⟩ := hb
  exact listExact_after hs.of_append ho.of_append hne

def sampleSetup : RegionCall := .setup (fun _ => 0) 0x20000000 0x20001000 28

theorem region_list_two_added : SetupsFirst [sampleSetup, .addRegion 8, .addRegion 24] ∧
    ListExact (after (fun _ => zeroNode) [sampleSetup, .addRegion 8, .addRegion 24]) [24, 8] := by
  have hs : SetupsFirst [sampleSetup, .addRegion 8, .addRegion 24] := by
    constructor <;> simp [sampleSetup, RegionCall.isSetup]
  exact ⟨hs, (region_list_iff (fun _ => zeroNode) _ (.of_take (by decide))).mpr hs _ (prefix_refl _) (by simp)⟩

/-- The second setup forgets nothing, and the region becomes its own successor. -/
theorem region_list_loops : AddedOnce [sampleSetup, .addRegion 8, sampleSetup, .addRegion 8] ∧
    ¬ ∃ fuel, ((after (fun _ => zeroNode) [sampleSetup, .addRegion 8, sampleSetup, .addRegion 8]).checkMem
      fuel 0 1 memRegionRead).isSome = true := by
  refine ⟨.of_take (by decide), ?_⟩
  rintro ⟨fuel, h⟩
  generalize ho : after (fun _ => zeroNode) [sampleSetup, .addRegion 8, sampleSetup, .addRegion 8] = o at h
  have hS : ∀ p : RegionPtr, (p.isOwn = true ∨ p = .other 8) →
      ∃ q, o.next p = some q ∧ (q.isOwn = true ∨ q = .other 8) := by
    subst ho
    rintro p (hp | rfl)
    · cases p with
      | other r => cases hp
      | stack => exact ⟨.data, rfl, .inl rfl⟩
      | data => exact ⟨.rodata, rfl, .inl rfl⟩
      | rodata => exact ⟨.arg, rfl, .inl rfl⟩
      | arg => exact ⟨.other 8, rfl, .inr rfl⟩
    · exact ⟨.other 8, rfl, .inr rfl⟩
  have hno : (walked o.next fuel (some .stack)).any
      (fun q => regionAccepts (o.nodes q).region 0 1 memRegionRead) = false := by
    rw [any_eq_false]
    intro q hq
    have hin : q.isOwn = true ∨ q = .other 8 := by
      refine mem_walked_of_closed (S := fun p => p.isOwn = true ∨ p = .other 8) ?_ ?_ hq
      · intro a b ha hb
        obtain ⟨c, hc, hSc⟩ := hS a ha
        cases hc.symm.trans hb
        exact hSc
      · intro a ha
        cases ha; exact .inl rfl
    subst ho
    rcases hin with hown | rfl
    · cases q with
      | other r => cases hown
      | _ => decide
    · decide
  rw [Object.checkMem, Object.checkFrom_eq, hno, walkEnds_eq_false hS (.inl rfl)] at h
  cases h

end PipRiot.Rbpf
