import Isel.Flow.Encode
import Isel.Flow.Module
import Isel.Machine.Stream

/-!
# Encoded images

The image of a module is a stream of sections, the global sequence first and then
the functions in order, each behind a word that holds its length.  Addresses are
not linked: a jump or a call holds the number of its block, counted through all
functions of the module.
-/

namespace Isel.Flow

open Isel.Machine

structure Numbering where
  /-- How many different blocks have a number. -/
  count : Nat := 0
  /-- Block and number, latest first. -/
  entries : List (BlockRef × Nat) := []
  deriving Repr

namespace Numbering

def find? (n : Numbering) (r : BlockRef) : Option Nat := n.entries.lookup r

/-- Numbers a block.  The number is the count of different blocks before it, also for
a block that is met again. -/
def add (n : Numbering) (r : BlockRef) : Numbering :=
  ⟨if (n.find? r).isSome then n.count else n.count + 1, (r, n.count) :: n.entries⟩

end Numbering

/-- Why a module has no image: the section and what is wrong in it. -/
structure ImageError where
  sectionName : String
  cause : EncodeError
  deriving DecidableEq, Repr

namespace Module

def numbering (m : Module) : Numbering :=
  (m.functions.flatMap fun f => m.blockRefs f.graph).foldl Numbering.add {}

/-- Block numbers as addresses, as far as they fit 16 bits. -/
def resolver (m : Module) : Resolver :=
  let numbers := m.numbering
  fun r => (numbers.find? r).bind fun n => if n ≤ 0xFFFF then some (BitVec.ofNat 16 n) else none

def sectionWords (resolve : Resolver) (name : String) (instrs : List Instr) :
    Except ImageError (List Word) :=
  match instrs.mapM (Instr.encode resolve) with
  | .ok words => .ok (BitVec.ofNat 32 instrs.length :: words)
  | .error e => .error ⟨name, e⟩

def sections (m : Module) : List (String × List Instr) :=
  ("globals", m.globals) :: m.functions.map fun f => (f.name, (m.graph f.graph).instrs)

def imageWords (m : Module) : Except ImageError (List Word) := do
  let resolve := m.resolver
  return (← m.sections.mapM fun (name, instrs) => sectionWords resolve name instrs).flatten

/-- **The encoded image.** -/
def image (m : Module) : Except ImageError (List UInt8) := do return Stream.write (← m.imageWords)

end Module

def ImageError.message (m : Module) (e : ImageError) : String :=
  e.sectionName ++ ": " ++ e.cause.message m.blockName

end Isel.Flow
