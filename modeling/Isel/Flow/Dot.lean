import Isel.Flow.Module
import Isel.Text.Quoted

/-!
# Graph drawings

A graph as text for a graph drawing tool: a box for each block with its
instructions, a solid arrow for each edge, and a dashed arrow for each
instruction that names a block of another graph.  A graph with an edge that leads
nowhere cannot be drawn.
-/

namespace Isel.Flow

open Isel.Text

namespace Module

/-- A box.  The label is not escaped. -/
def dotBox (m : Module) (b : Block) : String :=
  "\t" ++ quoteString b.name ++ " [label=\"" ++
    String.join ((b.name :: b.instrs.map (Instr.text m.blockName)).map (· ++ "\\l")) ++ "\"];\n"

def dotArrow (source target style : String) : String :=
  "\t" ++ quoteString source ++ " -> " ++ quoteString target ++ style ++ ";\n"

def dotArrows (m : Module) (g : Nat) (b : Block) : String :=
  String.join ((b.successors.filterMap id).map fun r => dotArrow b.name (m.blockName r) "") ++
    String.join (((b.instrs.filterMap Instr.target?).filter fun r => r.graph != g).map fun r =>
      dotArrow b.name (m.blockName r) " [style=dashed]")

def dot (m : Module) (g : Nat) (name : String) : String :=
  let blocks := (m.graph g).blocks
  "digraph " ++ quoteString name ++ " \x7b\n\tnode [shape=box fontname=monospace];\n" ++
    String.join (blocks.map m.dotBox) ++ String.join (blocks.map (m.dotArrows g)) ++ "\x7d\n"

/-- The drawing, if every edge leads to a block. -/
def dot? (m : Module) (g : Nat) (name : String) : Option String :=
  if (m.graph g).hasLooseEdge then none else some (m.dot g name)

end Module

end Isel.Flow
