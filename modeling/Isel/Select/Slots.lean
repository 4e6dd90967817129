import Isel.Flow.Instr
import Isel.Syntax.Node

/-!
# Value slots

Every node that produces a value gets one slot, the number of slots handed out
before.  So the slot of a node is its place in the list of owners.

The place of a missing node can own a slot too; what cannot be done is to name it
in a fault (`SlotStop.malformed`).
-/

namespace Isel.Select

open Isel.Syntax
open Isel.Flow (Slot)

/-- The owners of slots in order of allocation. -/
structure Slots where
  owners : List (Option Label) := []
  deriving DecidableEq, Repr

inductive SlotFault where
  /-- A second slot is asked for. -/
  | held (kind : Kind) (slot : Slot)
  /-- The slot of a node that has none is asked for. -/
  | unlowered (kind : Kind) (name : String)
  deriving DecidableEq, Repr

inductive SlotStop where
  | fault (f : SlotFault)
  /-- The fault is about a missing node. -/
  | malformed
  deriving DecidableEq, Repr

def SlotFault.message : SlotFault → String
  | .held kind slot => "internal error: " ++ kind.text ++ " already holds slot s" ++ toString slot
  | .unlowered kind name =>
    "internal error: " ++ kind.text ++ " '" ++ name ++ "' was used before it was lowered"

namespace Slots

def count (s : Slots) : Nat := s.owners.length

def slot? (s : Slots) (owner : Option Label) : Option Slot := s.owners.findIdx? (· == owner)

/-- Hands out the next slot. -/
def add (s : Slots) (owner : Option Label) : Slot × Slots := (s.count, ⟨s.owners ++ [owner]⟩)

theorem slot?_add_self {s : Slots} {owner : Option Label} (h : s.slot? owner = none) :
    (s.add owner).2.slot? owner = some s.count := by
  simp only [slot?, List.findIdx?_eq_none_iff] at h
  simp only [slot?, add, count, List.findIdx?_append]
  rw [List.findIdx?_eq_none_iff.mpr h]
  simp

/-- The next slot goes to a node that has none. -/
def allocate (s : Slots) (owner : Option Tag) : Except SlotStop (Slot × Slots) :=
  match s.slot? (owner.map Tag.label), owner with
  | none, _ => .ok (s.add (owner.map Tag.label))
  | some slot, some tag => .error (.fault (.held tag.kind slot))
  | some _, none => .error .malformed

def lookup (s : Slots) (owner : Option Decl) : Except SlotStop Slot :=
  match s.slot? (owner.map Decl.label), owner with
  | some slot, _ => .ok slot
  | none, some decl => .error (.fault (.unlowered decl.kind decl.name))
  | none, none => .error .malformed

end Slots

end Isel.Select
