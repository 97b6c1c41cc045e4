import PipRiot.Lib.Area

/-!
# Accesses under a protection unit

A protection unit has slots, and a slot holds at most one block. An access is
permitted when a slot holds a block with its address at that moment; stores need
a block that can be written. A trace is a list of accesses and of changes of
slots, and `Permitted` follows the slots along it.
-/

namespace PipRiot

structure Block (w : Nat) where
  area : Area w
  writable : Bool
  deriving DecidableEq

inductive Access (w : Nat)
  | read (x : BitVec w)
  | write (x : BitVec w)
  deriving DecidableEq

abbrev Slots (ι : Type) (w : Nat) := ι → Option (Block w)

inductive Act (ι : Type) (w : Nat)
  | map (i : ι) (block : Option (Block w))
  | access (a : Access w)

section
variable {ι : Type} {w : Nat} (u : Slots ι w)

def Slots.Reads (x : BitVec w) : Prop := ∃ i B, u i = some B ∧ B.area.Mem x

def Slots.Writes (x : BitVec w) : Prop := ∃ i B, u i = some B ∧ B.writable = true ∧ B.area.Mem x

def Slots.Allows : Access w → Prop
  | .read x => u.Reads x
  | .write x => u.Writes x

variable [DecidableEq ι]

def Slots.after (u : Slots ι w) : List (Act ι w) → Slots ι w
  | [] => u
  | .map i block :: l => Slots.after (Function.update u i block) l
  | .access _ :: l => Slots.after u l

def Permitted : Slots ι w → List (Act ι w) → Prop
  | _, [] => True
  | u, .map i block :: l => Permitted (Function.update u i block) l
  | u, .access a :: l => u.Allows a ∧ Permitted u l

def touch (l : List (Access w)) : List (Act ι w) := l.map .access

@[simp] theorem Slots.after_nil : u.after [] = u := rfl

@[simp] theorem Slots.after_map (i : ι) (block : Option (Block w)) (l : List (Act ι w)) :
    u.after (.map i block :: l) = Slots.after (Function.update u i block) l := rfl

@[simp] theorem permitted_nil : Permitted u [] := trivial

@[simp] theorem permitted_map (i : ι) (block : Option (Block w)) (l : List (Act ι w)) :
    Permitted u (.map i block :: l) ↔ Permitted (Function.update u i block) l := Iff.rfl

@[simp] theorem Slots.after_touch (l : List (Access w)) (l' : List (Act ι w)) :
    u.after (touch l ++ l') = u.after l' := by
  induction l with
  | nil => rfl
  | cons a l ih => exact ih

@[simp] theorem permitted_touch (l : List (Access w)) (l' : List (Act ι w)) :
    Permitted u (touch l ++ l') ↔ (∀ a ∈ l, u.Allows a) ∧ Permitted u l' := by
  induction l with
  | nil => simp [touch]
  | cons a l ih =>
    rw [List.forall_mem_cons, and_assoc, ← ih]; rfl

end

end PipRiot
