import PipRiot.SafeExec.Layout
import PipRiot.Shell.Line

/-!
# The arguments of a child

`safe_exec` passes the words of the shell line behind the command to the child:
pointers at the end of the stack's half of block 0, strings in an area of block
1. The stores it makes before it starts the child are an overlay here, in the
order of the source.
-/

namespace PipRiot.SafeExec

open List BitVec

abbrev Stores := Addr → Option Byte

/-- What the kernel's library determines: the bytes of the context, the place of
`contexts[0]` in the VIDT and the identifier of the partition's block. -/
structure Kernel (S : Setup) where
  ctxBytes : List Byte
  ctxBytes_length : ctxBytes.length = S.ctxSize
  contexts0 : Nat
  contexts0_le : contexts0 + 4 ≤ 512
  partDescBlockId : Addr

def copyWord (m : Stores) (a : Addr) : List Byte → Stores
  | [] => overlay m a [0]
  | c :: cs => copyWord (overlay m a [c]) (a + 1) cs

def copyArgs (S : Setup) : List (List Byte) → Nat → Nat → Stores → Stores
  | [], _, _, m => m
  | w :: ws, i, j, m =>
    let str := S.childArgs + BitVec.ofNat 32 j
    let m := overlay m (S.childArgv + BitVec.ofNat 32 (4 * i)) (leBytes 4 str.toNat)
    copyArgs S ws (i + 1) (j + (w.length + 1)) (copyWord m str w)

def prepareArguments (S : Setup) (argv : List (List Byte)) (m : Stores) : Stores :=
  overlay (copyArgs S argv.tail 0 0 m) S.childArgc (leBytes 4 (argv.length - 1))

def Interface.fields (i : Interface) : List Addr :=
  [i.stackLimit, i.stackTop, i.vidtStart, i.vidtEnd, i.root, i.unusedRomStart, i.romEnd, i.unusedRamStart, i.ramEnd]

def syscallTable : List Nat := 1 :: List.replicate 10 54

def startMemory (S : Setup) (K : Kernel S) (argv : List (List Byte)) : Stores :=
  let m := overlay (fun _ => none) S.childSys (syscallTable.flatMap (leBytes 4))
  let m := prepareArguments S argv m
  -- the first field is filled in once the block is cut
  let m := overlay m (S.childItf + 4) (S.itf.fields.flatMap fun a => leBytes 4 a.toNat)
  let m := overlay m S.childCtx K.ctxBytes
  let m := overlay m S.childVidt (List.replicate 512 0)
  let m := overlay m (S.childVidt + BitVec.ofNat 32 K.contexts0) (leBytes 4 S.childCtx.toNat)
  overlay m S.childItf (leBytes 4 K.partDescBlockId.toNat)

def HoldsString (m : Stores) (a : Addr) (w : List Byte) : Prop :=
  ∀ k ≤ w.length, m (a + BitVec.ofNat 32 k) = (w ++ [0])[k]?

structure ArgumentsPassed (S : Setup) (K : Kernel S) (argv : List (List Byte)) : Prop where
  argc : HoldsWord (startMemory S K argv) S.childArgc (BitVec.ofNat 32 (argv.length - 1))
  pointers : ∀ i (hi : i < argv.length), 1 ≤ i → ∃ p,
    HoldsWord (startMemory S K argv) (S.childArgv + BitVec.ofNat 32 (4 * (i - 1))) p ∧
      HoldsString (startMemory S K argv) p argv[i] ∧ (Area.mk p (argv[i].length + 1)).Within S.args
  apart : ∀ x, (prepareArguments S argv (fun _ => none) x).isSome = true →
    ¬ S.vidt.Mem x ∧ ¬ S.ctx.Mem x ∧ ¬ S.itfArea.Mem x

/-! ## Strings -/

section
variable (m : Stores) (a : Addr) (w : List Byte) (h : w.length + 1 ≤ 2 ^ 32)
include h

theorem copyWord_eq : copyWord m a w = overlay m a (w ++ [0]) := by
  induction w generalizing m a with
  | nil => rfl
  | cons c cs ih =>
    rw [length_cons] at h
    have hjoin := overlay_append m a [c] (cs ++ [0]) (by simp; omega)
    rw [copyWord, ih _ _ (by omega)]; exact hjoin

theorem holdsString_overlay : HoldsString (overlay m a (w ++ [0])) a w := by
  intro k hk
  rw [overlay, dist_add a (by omega), List.getElem?_eq_getElem (by simp; omega), Option.some_or]

end

theorem HoldsString.congr {m m' : Stores} {a : Addr} {w : List Byte} (hw : w.length + 1 ≤ 2 ^ 32)
    (h : HoldsString m a w) (hm : ∀ x, dist a x < w.length + 1 → m' x = m x) : HoldsString m' a w := by
  intro k hk
  rw [hm _ (by rw [dist_add a (by omega)]; omega)]
  exact h k hk

open Shell (wordBytes)

theorem wordBytes_cons (w : List Byte) (ws : List (List Byte)) : wordBytes (w :: ws) = w.length + 1 + wordBytes ws := by
  simp [wordBytes]

theorem length_le_wordBytes (ws : List (List Byte)) : ws.length ≤ wordBytes ws := by
  induction ws with
  | nil => simp
  | cons w ws ih =>
    rw [wordBytes_cons, length_cons]; omega

/-! ## Offsets from the start of block 0 -/

namespace Setup

variable {S : Setup}

theorem childArgv_eq : S.childArgv = S.childStk + BitVec.ofNat 32 448 := by
  unfold childArgv bufsize
  bv_omega

theorem childArgc_eq : S.childArgc = S.childStk + BitVec.ofNat 32 444 := by
  unfold childArgc childArgv bufsize
  bv_omega

theorem childItf_offset : ∃ b, 1024 ≤ b ∧ b < 9216 ∧ S.childItf = S.childStk + BitVec.ofNat 32 b := by
  obtain ⟨d, hd, he⟩ := S.childItf_eq
  exact ⟨1024 + d, by omega, by omega, he⟩

variable {b : Nat} (hb : S.childItf = S.childStk + BitVec.ofNat 32 b)

include hb

theorem childCtx_offset : S.childCtx = S.childStk + BitVec.ofNat 32 (b + 84) := by
  rw [childCtx, childSys, hb, ofNat_add, BitVec.add_assoc, BitVec.add_assoc]
  rfl

theorem childArgs_offset : S.childArgs = S.childStk + BitVec.ofNat 32 (b + 84 + S.ctxSize) := by
  rw [childArgs, childCtx_offset hb, ofNat_add (b + 84), BitVec.add_assoc]

end Setup

/-! ## The loop over the words -/

section
variable {S : Setup}

theorem ptr_dist (i : Nat) (h : 448 + (4 * i + 4) ≤ 2 ^ 32) (x : Addr) :
    dist (S.childArgv + BitVec.ofNat 32 (4 * i)) x < 4 ↔
      448 + 4 * i ≤ dist S.childStk x ∧ dist S.childStk x < 448 + 4 * i + 4 := by
  rw [Setup.childArgv_eq, BitVec.add_assoc, ← ofNat_add, dist_lt_iff _ _ (by omega)]

variable {a : Nat} (ha : S.childArgs = S.childStk + BitVec.ofNat 32 a)

include ha

theorem str_dist (j n : Nat) (h : a + (j + n) ≤ 2 ^ 32) (x : Addr) :
    dist (S.childArgs + BitVec.ofNat 32 j) x < n ↔ a + j ≤ dist S.childStk x ∧ dist S.childStk x < a + j + n := by
  rw [ha, BitVec.add_assoc, ← ofNat_add, dist_lt_iff _ _ (by omega)]

section
variable (ws : List (List Byte)) (i j : Nat) (m : Stores)
  (x : Addr) (hi : 448 + 4 * (i + ws.length) ≤ 2 ^ 32) (hj : a + (j + wordBytes ws) ≤ 2 ^ 32)
include hi hj

theorem copyArgs_isSome :
    (copyArgs S ws i j m x).isSome = true ↔
      (448 + 4 * i ≤ dist S.childStk x ∧ dist S.childStk x < 448 + 4 * (i + ws.length)) ∨
        (a + j ≤ dist S.childStk x ∧ dist S.childStk x < a + (j + wordBytes ws)) ∨ (m x).isSome = true := by
  induction ws generalizing i j m with
  | nil =>
    have h0 : wordBytes [] = 0 := rfl
    rw [copyArgs, length_nil, h0]
    constructor
    · intro hm; exact .inr (.inr hm)
    · rintro (h | h | h)
      · omega
      · omega
      · exact h
  | cons w ws ih =>
    rw [length_cons] at hi
    rw [wordBytes_cons] at hj
    rw [copyArgs, ih _ _ _ (by omega) (by omega), copyWord_eq _ _ _ (by omega), overlay_isSome, overlay_isSome,
      leBytes_length, ptr_dist i (by omega), length_append, length_singleton,
      str_dist ha j (w.length + 1) (by omega), length_cons, wordBytes_cons]
    by_cases hm : (m x).isSome = true
    · simp only [hm, or_true]
    · simp only [hm, Bool.false_eq_true, or_false]; omega

theorem copyArgs_frame (hp : ¬ (448 + 4 * i ≤ dist S.childStk x ∧ dist S.childStk x < 448 + 4 * (i + ws.length)))
    (hs : ¬ (a + j ≤ dist S.childStk x ∧ dist S.childStk x < a + (j + wordBytes ws))) :
    copyArgs S ws i j m x = m x := by
  induction ws generalizing i j m with
  | nil => rfl
  | cons w ws ih =>
    rw [length_cons] at hi hp
    rw [wordBytes_cons] at hj hs
    have hword : ¬ dist (S.childArgs + BitVec.ofNat 32 j) x < w.length + 1 := by
      rw [str_dist ha j _ (by omega)]; omega
    have hptr : ¬ dist (S.childArgv + BitVec.ofNat 32 (4 * i)) x < 4 := by
      rw [ptr_dist i (by omega)]; omega
    rw [copyArgs, ih _ _ _ (by omega) (by omega) (by omega) (by omega), copyWord_eq _ _ _ (by omega),
      overlay_of_le (by simpa using hword), overlay_of_le (by simpa using hptr)]

end

theorem copyArgs_passed (ws : List (List Byte)) (i j : Nat) (m : Stores) (hi : 448 + 4 * (i + ws.length) ≤ a)
    (hj : a + (j + wordBytes ws) ≤ 2 ^ 32) (k : Nat) (hk : k < ws.length) :
    ∃ q, j ≤ q ∧ q + (ws[k].length + 1) ≤ j + wordBytes ws ∧
      HoldsWord (copyArgs S ws i j m) (S.childArgv + BitVec.ofNat 32 (4 * (i + k))) (S.childArgs + BitVec.ofNat 32 q) ∧
      HoldsString (copyArgs S ws i j m) (S.childArgs + BitVec.ofNat 32 q) ws[k] := by
  induction ws generalizing i j m k with
  | nil => exact absurd hk (Nat.not_lt_zero k)
  | cons w ws ih =>
    rw [length_cons] at hi hk
    rw [wordBytes_cons] at hj ⊢
    cases k with
    | zero =>
      refine ⟨j, Nat.le_refl j, ?_, ?_, ?_⟩
      · rw [getElem_cons_zero]; omega
      · -- neither the string nor the words that follow touch the pointer
        rw [copyArgs, copyWord_eq _ _ _ (by omega), add_zero i]
        refine HoldsWord.congr (by decide) (holdsWord_overlay m _ _ (by decide)) fun x hx => ?_
        rw [ptr_dist i (by omega)] at hx
        have hstr : ¬ dist (S.childArgs + BitVec.ofNat 32 j) x < w.length + 1 := by
          rw [str_dist ha j _ (by omega)]; omega
        rw [copyArgs_frame ha _ _ _ _ _ (by omega) (by omega) (by omega) (by omega),
          overlay_of_le (by simpa using hstr)]
      · rw [copyArgs, copyWord_eq _ _ _ (by omega), getElem_cons_zero]
        refine HoldsString.congr (by omega) (holdsString_overlay (overlay m (S.childArgv + BitVec.ofNat 32 (4 * i))
          (leBytes 4 (S.childArgs + BitVec.ofNat 32 j).toNat)) _ w (by omega)) fun x hx => ?_
        rw [str_dist ha j _ (by omega)] at hx
        rw [copyArgs_frame ha _ _ _ _ _ (by omega) (by omega) (by omega) (by omega)]
    | succ k =>
      obtain ⟨q, hq, hqe, hptr, hstr⟩ := ih (i + 1) (j + (w.length + 1))
        (copyWord (overlay m (S.childArgv + BitVec.ofNat 32 (4 * i))
          (leBytes 4 (S.childArgs + BitVec.ofNat 32 j).toNat)) (S.childArgs + BitVec.ofNat 32 j) w)
        (by omega) (by omega) k (by omega)
      refine ⟨q, by omega, by rw [getElem_cons_succ]; omega, ?_, hstr⟩
      rw [show i + (k + 1) = i + 1 + k by omega]; exact hptr

end

/-! ## The stores that follow -/

section
variable {S : Setup} {b : Nat} (hb : S.childItf = S.childStk + BitVec.ofNat 32 b) (hlo : 1024 ≤ b) (hhi : b < 9216)
  (hctx : 212 + S.ctxSize ≤ 8192)

include hb hlo hhi hctx

theorem startMemory_frame (K : Kernel S) (argv : List (List Byte)) (x : Addr)
    (hx : dist S.childStk x < 512 ∨ b + 84 + S.ctxSize ≤ dist S.childStk x) :
    startMemory S K argv x =
      prepareArguments S argv (overlay (fun _ => none) S.childSys (syscallTable.flatMap (leBytes 4))) x := by
  have hstore : ∀ (m : Stores) (q : Nat) (bs : List Byte), q + bs.length ≤ 2 ^ 32 →
      512 ≤ q → q + bs.length ≤ b + 84 + S.ctxSize →
      overlay m (S.childStk + BitVec.ofNat 32 q) bs x = m x := by
    intro m q bs hfit h1 h2
    apply overlay_of_le
    apply not_lt.mp
    rw [dist_lt_iff _ _ hfit]; omega
  have hK := K.ctxBytes_length
  have hc := K.contexts0_le
  have hitf : S.childItf + 4 = S.childStk + BitVec.ofNat 32 (b + 4) := by
    rw [hb, ofNat_add, BitVec.add_assoc]; rfl
  have hvidt : S.childVidt = S.childStk + BitVec.ofNat 32 512 := rfl
  have hcontexts : S.childVidt + BitVec.ofNat 32 K.contexts0 = S.childStk + BitVec.ofNat 32 (512 + K.contexts0) := by
    rw [hvidt, BitVec.add_assoc, ← ofNat_add]
  have hfields : (S.itf.fields.flatMap fun a => leBytes 4 a.toNat).length = 36 := by
    simp [Interface.fields]
  have hzero : (List.replicate 512 (0 : Byte)).length = 512 := length_replicate ..
  rw [startMemory, hcontexts, hitf, hvidt, hb, Setup.childCtx_offset hb,
    hstore _ _ _ (by rw [leBytes_length]; omega) (by omega) (by rw [leBytes_length]; omega),
    hstore _ _ _ (by rw [leBytes_length]; omega) (by omega) (by rw [leBytes_length]; omega),
    hstore _ 512 _ (by rw [hzero]; decide) (Nat.le_refl 512) (by rw [hzero]; omega),
    hstore _ _ _ (by rw [hK]; omega) (by omega) (by rw [hK]),
    hstore _ _ _ (by rw [hfields]; omega) (by omega) (by rw [hfields]; omega)]

variable {argv : List (List Byte)} (hbytes : wordBytes argv.tail ≤ bufsize)

include hbytes

theorem prepareArguments_isSome (x : Addr) :
    (prepareArguments S argv (fun _ => none) x).isSome = true ↔
      (444 ≤ dist S.childStk x ∧ dist S.childStk x < 448 + 4 * argv.tail.length) ∨
        (b + 84 + S.ctxSize ≤ dist S.childStk x ∧
          dist S.childStk x < b + 84 + S.ctxSize + wordBytes argv.tail) := by
  have hlen := length_le_wordBytes argv.tail
  unfold bufsize at hbytes
  rw [prepareArguments, overlay_isSome, copyArgs_isSome (Setup.childArgs_offset hb) _ _ _ _ _ (by omega) (by omega),
    leBytes_length, Setup.childArgc_eq, dist_lt_iff _ _ (by decide)]
  simp only [Option.isSome_none, Bool.false_eq_true, or_false]
  omega

theorem arguments_apart (hargc : argv.length - 1 ≤ 16) (x : Addr)
    (hx : (prepareArguments S argv (fun _ => none) x).isSome = true) :
    ¬ S.vidt.Mem x ∧ ¬ S.ctx.Mem x ∧ ¬ S.itfArea.Mem x := by
  rw [prepareArguments_isSome hb hlo hhi hctx hbytes, length_tail] at hx
  have hc : S.ctx.Mem x ↔ b + 84 ≤ dist S.childStk x ∧ dist S.childStk x < b + 84 + S.ctxSize := by
    rw [Area.Mem, Setup.ctx, Setup.childCtx_offset hb]
    exact dist_lt_iff _ _ (show b + 84 + S.ctxSize ≤ 2 ^ 32 by omega)
  have hi : S.itfArea.Mem x ↔ b ≤ dist S.childStk x ∧ dist S.childStk x < b + 40 := by
    rw [Area.Mem, Setup.itfArea, hb]
    exact dist_lt_iff _ _ (show b + 40 ≤ 2 ^ 32 by omega)
  rw [Setup.vidt_eq, Area.mem_part (by decide), hc, hi]
  simp only [Setup.block0]
  omega

theorem arguments_passed (hargc : argv.length - 1 ≤ 16) (K : Kernel S) : ArgumentsPassed S K argv := by
  have ha := Setup.childArgs_offset hb
  have hframe := startMemory_frame hb hlo hhi hctx K argv
  have htail : argv.tail.length = argv.length - 1 := length_tail
  have hbuf := hbytes
  unfold bufsize at hbuf
  generalize overlay (fun _ => none) S.childSys (syscallTable.flatMap (leBytes 4)) = m at hframe
  refine ⟨?_, ?_, arguments_apart hb hlo hhi hctx hbytes hargc⟩
  · have hmod : (BitVec.ofNat 32 (argv.length - 1)).toNat = argv.length - 1 := by
      rw [toNat_ofNat]; omega
    have hold := holdsWord_overlay (copyArgs S argv.tail 0 0 m) S.childArgc (BitVec.ofNat 32 (argv.length - 1))
      (by decide)
    rw [hmod] at hold
    refine hold.congr (by decide) fun x hx => hframe x (.inl ?_)
    rw [Setup.childArgc_eq, dist_lt_iff _ _ (by decide)] at hx; omega
  · intro i hi h1
    obtain ⟨q, -, hqe, hptr, hstr⟩ := copyArgs_passed ha argv.tail 0 0 m (by omega) (by omega) (i - 1) (by omega)
    have hget : argv.tail[i - 1] = argv[i] := by
      rw [getElem_tail]
      congr 1
      omega
    rw [hget] at hqe hstr
    rw [zero_add] at hptr
    -- the word below the pointers is stored last
    have hlast : ∀ x, ¬ (444 ≤ dist S.childStk x ∧ dist S.childStk x < 448) →
        prepareArguments S argv m x = copyArgs S argv.tail 0 0 m x := by
      intro x hx
      apply overlay_of_le
      rw [leBytes_length]
      apply not_lt.mp
      rw [Setup.childArgc_eq, dist_lt_iff _ _ (by decide)]; omega
    refine ⟨S.childArgs + BitVec.ofNat 32 q, ?_, ?_, ?_⟩
    · refine hptr.congr (by decide) fun x hx => ?_
      rw [ptr_dist _ (by omega)] at hx
      rw [hframe x (.inl (by omega)), hlast x (by omega)]
    · refine hstr.congr (by omega) fun x hx => ?_
      rw [str_dist ha q _ (by omega)] at hx
      rw [hframe x (.inr (by omega)), hlast x (by omega)]
    · show (S.args.part q (argv[i].length + 1)).Within S.args
      exact Area.part_within_self (show q + (argv[i].length + 1) ≤ 128 by omega) (show 128 ≤ 2 ^ 32 by decide)

end

/-- The arguments of every line that fits the buffer reach the child iff there
are at most sixteen, which is what the space below the VIDT holds. -/
theorem arguments_passed_iff (S : Setup) (hctx : 212 + S.ctxSize ≤ 8192) (K : Kernel S) (line : List Byte)
    (h0 : 0 ∉ line) (hline : line.length < bufsize) (argv : List (List Byte))
    (hparse : Shell.handleInputLine line = .command argv) : ArgumentsPassed S K argv ↔ argv.length - 1 ≤ 16 := by
  obtain ⟨b, hlo, hhi, hb⟩ := S.childItf_offset
  have hfits := Shell.argv_fits h0 hparse
  have hbytes : wordBytes argv.tail ≤ bufsize := by
    cases argv with
    | nil => exact zero_le
    | cons w ws =>
      rw [wordBytes_cons] at hfits
      rw [tail_cons]; omega
  constructor
  · intro h
    apply not_lt.mp
    intro hmany
    -- the seventeenth pointer is the first word of the VIDT
    have hsome := (prepareArguments_isSome hb hlo hhi hctx hbytes (S.childStk + BitVec.ofNat 32 512)).mpr (by
      rw [dist_add _ (by decide), length_tail]
      omega)
    apply (h.apart _ hsome).1
    rw [Setup.vidt_eq, Area.mem_part (by decide)]
    simp only [Setup.block0]
    rw [dist_add _ (by decide)]; decide
  · intro hargc
    exact arguments_passed hb hlo hhi hctx hbytes hargc K

def sampleKernel (size : Addr) : Kernel (sampleSetup size) where
  ctxBytes := List.replicate 76 0
  ctxBytes_length := List.length_replicate
  contexts0 := 0
  contexts0_le := by decide
  partDescBlockId := 0x20001200

def sampleLine (n : Nat) : List Byte :=
  [115, 97, 102, 101, 95, 101, 120, 101, 99, 32, 102] ++ (List.replicate n [32, 97]).flatten

def sampleArgv (n : Nat) : List (List Byte) :=
  [115, 97, 102, 101, 95, 101, 120, 101, 99] :: [102] :: List.replicate n [97]

theorem arguments_passed_sample : ArgumentsPassed (sampleSetup 100) (sampleKernel 100) (sampleArgv 2) :=
  (arguments_passed_iff (sampleSetup 100) (by decide) (sampleKernel 100) (sampleLine 2) (by decide) (by decide)
    (sampleArgv 2) (by decide)).mpr (by decide)

-- seventeen arguments on a line of forty-three characters
theorem seventeen_arguments_overwrite_vidt :
    (sampleLine 16).length < bufsize ∧ Shell.handleInputLine (sampleLine 16) = .command (sampleArgv 16) ∧
      ¬ ArgumentsPassed (sampleSetup 100) (sampleKernel 100) (sampleArgv 16) := by
  refine ⟨by decide, by decide +kernel, ?_⟩
  intro h
  have hmem : (sampleSetup 100).vidt.Mem ((sampleSetup 100).childStk + 512) := by decide
  exact (h.apart _ (by decide +kernel)).1 hmem

end PipRiot.SafeExec
