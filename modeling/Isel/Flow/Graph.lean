import Isel.Flow.Instr

/-!
# Blocks and graphs

A block is a straight line of instructions.  Its successor list describes where
control can go; control itself is moved by instructions, and a block that does
not end in a `RET` or a `JUMP` falls through to the block behind it.  A graph is
the list of the blocks of one function, the first being the entry.
-/

namespace Isel.Flow

structure Block where
  name : String
  instrs : List Instr := []
  /-- The recorded edges in order; an edge may lead nowhere. -/
  successors : List (Option BlockRef) := []
  deriving DecidableEq, Repr

namespace Block

/-- The last instruction is a `RET` or a `JUMP`. -/
def isTerminated (b : Block) : Bool := b.instrs.getLast?.any Instr.isTerminator

def endsInRet (b : Block) : Bool := b.instrs.getLast?.any fun i => i.op == .ret

def hasSuccessor (b : Block) (target : Option BlockRef) : Bool := b.successors.contains target

def append (b : Block) (i : Instr) : Block := { b with instrs := b.instrs ++ [i] }

def connect (b : Block) (target : Option BlockRef) : Block :=
  { b with successors := b.successors ++ [target] }

def hasLooseEdge (b : Block) : Bool := b.successors.contains none

end Block

structure Graph where
  blocks : List Block := []
  /-- How many names a graph that names its blocks by itself has drawn; other graphs
  draw from the count of the module. -/
  ownNames : Option Nat := none
  deriving DecidableEq, Repr

namespace Graph

def instrs (g : Graph) : List Instr := g.blocks.flatMap Block.instrs

def instrCount (g : Graph) : Nat := g.instrs.length

def hasLooseEdge (g : Graph) : Bool := g.blocks.any Block.hasLooseEdge

end Graph

end Isel.Flow
