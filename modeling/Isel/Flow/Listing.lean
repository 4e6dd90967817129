import Isel.Digest.XXH64
import Isel.Flow.Module
import Isel.Text.Quoted

/-!
# Listings

The listing of a module names its literals, its global sequence and then the
blocks of each function with their edges and instructions, a line each.  Blocks
are referred to by name.  A module with an edge that leads nowhere has no
listing.

The fingerprint of a module is the digest of its listing.
-/

namespace Isel.Flow

open Isel.Text

/-- Lines under a heading; no heading without lines. -/
def underHeading (heading : String) (lines : List String) : List String :=
  if lines.isEmpty then [] else heading :: lines

namespace Module

def literalLine (l : Literal) : String :=
  "    m" ++ toString l.slot ++ " " ++ l.name ++ " = " ++ quote l.bytes

def instrLine (m : Module) (i : Instr) : String := "    " ++ i.text m.blockName

def blockHeading (m : Module) (b : Block) : String :=
  "  " ++ b.name ++ ":" ++
    if b.successors.isEmpty then ""
    else " -> " ++ String.intercalate ", " (b.successors.map (targetText m.blockName))

def blockLines (m : Module) (b : Block) : List String :=
  m.blockHeading b :: b.instrs.map m.instrLine

def functionLines (m : Module) (f : Function) : List String :=
  ("fn " ++ f.name ++ ":") :: (m.graph f.graph).blocks.flatMap m.blockLines

def listingLines (m : Module) : List String :=
  underHeading "literals:" (m.literals.map literalLine) ++
    underHeading "globals:" (m.globals.map m.instrLine) ++
    m.functions.flatMap m.functionLines

def listing (m : Module) : String := String.join (m.listingLines.map (· ++ "\n"))

/-- A function has an edge that leads nowhere. -/
def hasLooseEdge (m : Module) : Bool := m.functions.any fun f => (m.graph f.graph).hasLooseEdge

/-- The listing, if every edge leads to a block. -/
def listing? (m : Module) : Option String := if m.hasLooseEdge then none else some m.listing

def fingerprint? (m : Module) : Option UInt64 :=
  m.listing?.map fun text => Digest.XXH64.digest (Utf8.bytes text)

end Module

end Isel.Flow
