import Isel.Flow.Module

/-!
# Reachable blocks

From a block control may go along its recorded edges, to the blocks that its
jumps and calls name, and to the block behind it if it is not terminated.  Only
blocks of the same graph count.  `Module.reachable` collects what can be reached
from the entry, by a search that keeps the list of blocks not yet met: each step
either meets one of them or drops one piece of work.
-/

namespace Isel.Flow

/-- The indices of the blocks of graph `g` that control can go to from `b`, which
stands at `index`. -/
def Block.exits (g : Nat) (b : Block) (index : Nat) : List Nat :=
  let edges := b.successors.filterMap id
  let targets := (b.instrs.filter fun i => i.op.isBranch).filterMap Instr.target?
  ((edges ++ targets).filter fun r => r.graph == g).map BlockRef.index ++
    if b.isTerminated then [] else [index + 1]

/-- Takes the blocks that can be reached from the `work` list out of the blocks not
yet met. -/
def unmet (exits : Nat → List Nat) (work unseen : List Nat) : List Nat :=
  match work with
  | [] => unseen
  | i :: rest =>
    if i ∈ unseen then unmet exits (exits i ++ rest) (unseen.erase i) else unmet exits rest unseen
termination_by (unseen.length, work.length)
decreasing_by
  · apply Prod.Lex.left
    have hpos := List.length_pos_of_mem ‹i ∈ unseen›
    rw [List.length_erase_of_mem ‹i ∈ unseen›]
    omega
  · apply Prod.Lex.right
    simp

/-- The indices of the blocks that can be reached from the entry, in ascending
order. -/
def Module.reachable (m : Module) (g : Nat) : List Nat :=
  let blocks := (m.graph g).blocks
  let indices := List.range blocks.length
  let left := unmet (fun i => (blocks[i]?).elim [] fun b => b.exits g i) [0] indices
  indices.filter fun i => !left.contains i

end Isel.Flow
