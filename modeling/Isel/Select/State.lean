import Isel.Digest.XXH64
import Isel.Flow.Encode
import Isel.Scope.Bindings
import Isel.Select.Cause
import Isel.Settings.Config

/-!
# The state of a selection

A selection builds a module step by step.  Beside the module it keeps the slots
handed out, the functions declared so far, the remarks made and the requests that
hooks answered; all of this can still be looked at when the selection has failed.

Instructions go to a `Point`, which is a block or the global sequence.  The steps
below are all that ever changes the state.
-/

namespace Isel.Select

open Isel.Syntax Isel.Flow
open Isel.Scope (Bindings)
open Isel.Settings (Config Warning)
open Isel.Source (Position)

/-- What a selection is given beside the program. -/
structure Setup where
  config : Config := {}
  /-- The name is that of a variable of the program scope. -/
  isGlobal : String → Bool := fun _ => false
  bindings : Bindings := {}
  hooks : Hooks := {}
  digest : Digest := Digest.XXH64.digest

/-- A declared function: its node and the type of its result. -/
structure Signature where
  name : String
  label : Label
  result : ValueType
  deriving DecidableEq, Repr

structure Remark where
  warning : Warning
  pos : Position
  message : String
  deriving DecidableEq, Repr

structure State where
  module : Module := {}
  slots : Slots := {}
  signatures : List Signature := []
  /-- The remarks in order. -/
  remarks : List Remark := []
  /-- The requests that were answered, in order. -/
  served : List Request := []
  deriving Repr

abbrev Selection := EStateM Stop State

/-- Where instructions go. -/
inductive Point where
  | globals
  | block (r : BlockRef)
  deriving DecidableEq, Repr

def Point.emit (m : Module) (i : Instr) : Point → Module
  | .globals => m.emitGlobal i
  | .block r => m.emit r i

def fail (pos : Position) (cause : Cause) : Selection α := throw (.fault ⟨pos, cause⟩)

/-- Ends the selection for want of a slot. -/
def failSlot (pos : Position) : SlotStop → Selection α
  | .fault f => fail pos (.slot f)
  | .malformed => throw .malformed

def modifyModule (f : Module → Module) : Selection Unit := modify fun s => { s with module := f s.module }

def emit (pt : Point) (op : Machine.Opcode) (args : List Operand) : Selection Unit :=
  modifyModule fun m => pt.emit m ⟨op, args⟩

/-- Makes a remark if its warning is on. -/
def remark (su : Setup) (warning : Warning) (pos : Position) (message : String) : Selection Unit :=
  if su.config.warns warning then
    modify fun s => { s with remarks := s.remarks ++ [⟨warning, pos, message⟩] }
  else pure ()

def allocate (tag : Tag) : Selection Slot := do
  match (← get).slots.allocate (some tag) with
  | .ok (slot, slots) =>
    modify fun s => { s with slots }
    return slot
  | .error stop => failSlot tag.pos stop

def lookup (pos : Position) (decl : Decl) : Selection Slot := do
  match (← get).slots.lookup (some decl) with
  | .ok slot => return slot
  | .error stop => failSlot pos stop

/-- The slot of a declaration, which gets one if it has none. -/
def lookupOrAdd (decl : Decl) : Selection Slot := do
  match (← get).slots.slot? (some decl.label) with
  | some slot => return slot
  | none =>
    let (slot, slots) := (← get).slots.add (some decl.label)
    modify fun s => { s with slots }
    return slot

/-- Puts the answer to a request at a point. -/
def serve (su : Setup) (pos : Position) (pt : Point) (request : Request) : Selection Unit := do
  match su.hooks.answer (← get).served request with
  | .ok instrs =>
    modify fun s =>
      { s with
        module := instrs.foldl (fun m i => pt.emit m i) s.module
        served := s.served ++ [request] }
  | .error f => fail pos (.hook f)

/-- Opens a block behind `current` in the same graph.  Control falls through to it
unless `current` is terminated, and then an edge says so. -/
def openBlock (current : BlockRef) : Selection BlockRef := do
  let (m, r) := (← get).module.addBlock current.graph "" []
  let m := if (m.block? current).any Block.isTerminated then m else m.connect current (some r)
  modify fun s => { s with module := m }
  return r

/-- A jump from block to block, with an edge unless there is one or the jump is dead
behind a return. -/
def jump (source target : BlockRef) : Selection Unit :=
  modifyModule fun m =>
    let skip := (m.block? source).any fun b => b.endsInRet || b.hasSuccessor (some target)
    let m := m.emit source ⟨.jump, [.block (some target)]⟩
    if skip then m else m.connect source (some target)

end Isel.Select
