import PipRiot.Lib.System
import PipRiot.Rbpf.ControlFlow

/-!
# Which code gets to run

`PREFLIGHT_DONE` remembers that the checks were passed once. Setting up another
application does not clear it, and neither do stores that change what was
checked. As long as no call does one of these, the flag tells the truth.
-/

namespace PipRiot.Rbpf

structure World where
  rbpf : RbpfApplication
  mem : Mem

inductive ApiCall
  | setup (stack application : Addr) (applicationLen : BitVec 32)
  | addRegion (region : MemRegion)
  | verifyPreflight
  /-- `fuel` bounds the turns of the interpreter loop. -/
  | runCtx (ctx : Addr) (ctxLen : BitVec 32) (spill : Regs) (fuel : Nat)

def apiCall (host : Host) (w : World) : ApiCall → Option World
  | .setup stack application len => some { w with rbpf := applicationSetup w.mem w.rbpf stack application len }
  | .addRegion region => some { w with rbpf := addRegion w.rbpf region }
  | .verifyPreflight => some { w with rbpf := (verifyPreflight host w.mem w.rbpf).2 }
  | .runCtx ctx ctxLen spill fuel =>
    (applicationRunCtx host fuel w.mem w.rbpf ctx ctxLen spill).map fun r => ⟨r.rbpf, r.mem⟩

/-- The next turn leaves the bytes in `P` alone; an external function also
leaves the application struct alone. -/
structure Spares (host : Host) (P : Addr → Prop) (s : Vm) : Prop where
  store : ∀ a bs, s.storeOf = some (a, bs) → ∀ x, P x → bs.length ≤ dist a x
  call : s.opcode = some .call → ∀ f, host.externalCall s.current.immediate = some f →
    (f s.rbpf s.regmap s.mem).rbpf = s.rbpf ∧ ∀ x, P x → (f s.rbpf s.regmap s.mem).mem x = s.mem x

/-- The calls that keep the flag true: a set-up while it is clear or of an application
that passes the checks, and a run that spares what they have read and names registers
that there are. -/
def KeepsVerified (host : Host) (w : World) : ApiCall → Prop
  | .setup stack application len => w.rbpf.flags &&& flagPreflightDone = 0 ∨
      preflightChecks host w.mem (applicationSetup w.mem w.rbpf stack application len) = .ok
  | .addRegion _ => True
  | .verifyPreflight => True
  | .runCtx ctx ctxLen spill _ => ∀ m,
      ∀ s ∈ engineHeads host m w.mem (withContext w.rbpf ctx ctxLen) ctx spill,
        Spares host (PreflightReads w.mem w.rbpf) s ∧ s.InRegmap

/-! ## Flags and checks -/

theorem preflightChecks_struct {host : Host} {mem : Mem} {rbpf rbpf' : RbpfApplication}
    (ha : rbpf'.application = rbpf.application)
    (hf : rbpf'.flags &&& configNoReturn = rbpf.flags &&& configNoReturn) :
    preflightChecks host mem rbpf' = preflightChecks host mem rbpf := by
  have ht : applicationText mem rbpf' = applicationText mem rbpf := by
    simp only [applicationText, headerDataLen, headerRodataLen, ha]
  have hl : applicationTextLen mem rbpf' = applicationTextLen mem rbpf := by
    simp only [applicationTextLen, headerTextLen, ha]
  unfold preflightChecks
  rw [ht, hl, hf]

theorem setupDone_and (x : BitVec 16) :
    (x ||| flagSetupDone) &&& flagPreflightDone = x &&& flagPreflightDone ∧
      (x ||| flagSetupDone) &&& configNoReturn = x &&& configNoReturn := by
  constructor <;>
  · rw [BitVec.and_comm, BitVec.and_or_distrib_left, BitVec.and_comm]
    simp [flagSetupDone, flagPreflightDone, configNoReturn]

structure FlagTrue (host : Host) (w : World) : Prop where
  checked : w.rbpf.flags &&& flagPreflightDone ≠ 0 → preflightChecks host w.mem w.rbpf = .ok
  returns : w.rbpf.flags &&& configNoReturn = 0

/-! ## One run -/

structure Kept (mem : Mem) (rbpf : RbpfApplication) (P : Addr → Prop) (s : Vm) : Prop where
  application : s.rbpf.application = rbpf.application
  flags : s.rbpf.flags = rbpf.flags
  bytes : ∀ x, P x → s.mem x = mem x

theorem Kept.step {host : Host} {mem : Mem} {rbpf : RbpfApplication} {P : Addr → Prop} {s t : Vm}
    (h : Kept mem rbpf P s) (hg : Spares host P s) (hb : loopBody host s = .inl t) : Kept mem rbpf P t := by
  cases step_cases hb with
  | plain op hop hret hcall hj hd hi hr hm =>
    refine ⟨by rw [hr, h.application], by rw [hr, h.flags], fun x hx => ?_⟩
    rw [hm, ← h.bytes x hx]
    cases hs : s.storeOf with
    | none => rw [stored_of_not_store hs]
    | some p =>
      simp only [Vm.stored, hs]
      exact writeBytes_of_le (hg.store p.1 p.2 hs x hx)
  | double hd hj hi hr hm =>
    exact ⟨by rw [hr, h.application], by rw [hr, h.flags], fun x hx => by rw [hm, h.bytes x hx]⟩
  | jump hj hi hr hbr hm =>
    exact ⟨by rw [hr]; exact h.application, by rw [hr]; exact h.flags, fun x hx => by rw [hm, h.bytes x hx]⟩
  | call f hop hf hi hr hm =>
    obtain ⟨hrb, hbytes⟩ := hg.call hop f hf
    exact ⟨by rw [hr, hrb, h.application], by rw [hr, hrb, h.flags],
      fun x hx => by rw [hm, hbytes x hx, h.bytes x hx]⟩

theorem Kept.exit {host : Host} {mem : Mem} {rbpf : RbpfApplication} {P : Addr → Prop} {s t : Vm} {st : Status}
    (h : Kept mem rbpf P s) (hb : loopBody host s = .inr (st, t)) : Kept mem rbpf P t := by
  obtain ⟨hm, _, _, _, hr⟩ := exit_cases hb
  refine ⟨?_, ?_, fun x hx => by rw [hm, h.bytes x hx]⟩
  · rcases hr with hr | hr <;> rw [hr] <;> exact h.application
  · rcases hr with hr | hr <;> rw [hr] <;> exact h.flags

theorem run_kept {host : Host} {mem : Mem} {rbpf : RbpfApplication} {ctx : Addr} {spill : Regs} {fuel : Nat}
    {P : Addr → Prop} {r : RunResult} (hg : ∀ m, ∀ s ∈ engineHeads host m mem rbpf ctx spill, Spares host P s)
    (hr : engineRun host fuel mem rbpf ctx spill = some r) :
    r.rbpf.application = rbpf.application ∧ (∀ x, P x → r.mem x = mem x) ∧
      (r.rbpf.flags = rbpf.flags ∨
        (preflightChecks host mem rbpf = .ok ∧ r.rbpf.flags = rbpf.flags ||| flagPreflightDone)) := by
  cases hs : engineStart host mem rbpf ctx spill with
  | error e =>
    simp only [engineRun, hs] at hr
    cases hr; exact ⟨rfl, fun _ _ => rfl, .inl rfl⟩
  | ok s0 =>
    simp only [engineRun, engineHeads, hs] at hr hg
    obtain ⟨⟨st, t⟩, hrun, rfl⟩ := Option.map_eq_some_iff.mp hr
    obtain ⟨s, hmem, hexit⟩ := runLoop_last _ _ hrun
    obtain ⟨hpass, rfl⟩ := engineStart_iff.mp hs
    have h0 : Kept mem (startVm mem rbpf ctx spill).rbpf P (startVm mem rbpf ctx spill) :=
      ⟨rfl, rfl, fun _ _ => rfl⟩
    have hk := ReachBy.inv (Kept mem _ P) h0 (fun _ _ h hg hb => h.step hg hb)
      (heads_reach fuel _ (hg fuel) s hmem)
    obtain ⟨happ, hfl, hbytes⟩ := hk.exit hexit
    refine ⟨happ, hbytes, ?_⟩
    rcases hpass with hd | hok
    · exact .inl (hfl.trans (or_flagPreflightDone hd))
    · exact .inr ⟨hok, hfl⟩

theorem FlagTrue.step {host : Host} {w w' : World} {c : ApiCall} (h : FlagTrue host w)
    (hg : KeepsVerified host w c) (hs : apiCall host w c = some w') : FlagTrue host w' := by
  cases c with
  | setup stack application len =>
    cases hs
    obtain ⟨hd, hn⟩ := setupDone_and w.rbpf.flags
    refine ⟨fun hdone => hg.resolve_left fun h0 => hdone ?_, hn.trans h.returns⟩
    exact hd.trans h0
  | addRegion region =>
    cases hs; exact ⟨fun hd => h.checked hd, h.returns⟩
  | verifyPreflight =>
    cases hs
    rcases verifyPreflight_cases host w.mem w.rbpf with hr | ⟨hok, hr⟩
    · rw [hr]; exact h
    · simp only [hr]
      refine ⟨fun _ => ?_, (preflightDone_and _).trans h.returns⟩
      rw [← hok]
      exact preflightChecks_struct rfl (preflightDone_and _)
  | runCtx ctx ctxLen spill fuel =>
    obtain ⟨r, hrun, rfl⟩ := Option.map_eq_some_iff.mp hs
    simp only [applicationRunCtx] at hrun
    split at hrun
    · cases hrun
    · obtain ⟨happ, hbytes, hfl⟩ := run_kept (fun m s hs => (hg m s hs).1) hrun
      have hchecks : w.rbpf.flags &&& configNoReturn = r.rbpf.flags &&& configNoReturn →
          preflightChecks host r.mem r.rbpf = preflightChecks host w.mem w.rbpf := fun hn => by
        rw [preflightChecks_congr fun x hx => (hbytes x hx).symm]
        exact preflightChecks_struct happ hn.symm
      rcases hfl with hfl | ⟨hok, hfl⟩
      · have hfl : r.rbpf.flags = w.rbpf.flags := hfl
        exact ⟨fun hd => (hchecks (by rw [hfl])).trans (h.checked (hfl ▸ hd)), by rw [hfl]; exact h.returns⟩
      · have hn : r.rbpf.flags &&& configNoReturn = w.rbpf.flags &&& configNoReturn := by
          rw [hfl]; exact preflightDone_and _
        exact ⟨fun _ => (hchecks hn.symm).trans hok, hn.trans h.returns⟩

def badText : List (List Byte) := [insn 0xb7 0x0f 0 1]

def twoImages : Mem := writeBytes (sampleMem movText) 0x20002000 (sampleImage badText)

end PipRiot.Rbpf
