import Isel.Assoc
import Isel.Fault
import Isel.Flow.Graph

/-!
# Modules

A module owns graphs, the functions that stand for some of them, the global
sequence (run once before any function) and the literal table.  Blocks are
reached through references, so a loop is no harder to hold than a line.

Every operation gives a new module.  `Module.emit` and `Module.connect` change
one block, `Module.addBlock` adds one; nothing is ever removed.

Literals are searched by a digest of their bytes.  For this the module keeps the
slots of every digest, and compares the bytes of these only.  Slots are numbers
without a bound; tables of `2 ^ 32` literals and more are not considered.
-/

namespace Isel.Flow

structure Literal where
  slot : Nat
  name : String
  bytes : List UInt8
  deriving DecidableEq, Repr

structure Function where
  name : String
  graph : Nat
  deriving DecidableEq, Repr

structure Module where
  graphs : List Graph := []
  functions : List Function := []
  globals : List Instr := []
  literals : List Literal := []
  /-- The slots of the literals with a digest, in the order of their entry. -/
  interned : List (UInt64 × List Nat) := []
  /-- How many block names were drawn. -/
  namesDrawn : Nat := 0
  deriving DecidableEq, Repr

structure DuplicateFunction where
  name : String
  deriving DecidableEq, Repr

def DuplicateFunction.message (e : DuplicateFunction) : String :=
  "duplicate function '" ++ e.name ++ "'"

abbrev Digest := List UInt8 → UInt64

/-- The name of the block that draws after `n` others. -/
def generatedName (n : Nat) : String := "Block" ++ toString n

namespace Module

/-! ## Graphs and blocks -/

/-- The graph of a number; an unused number has the empty graph. -/
def graph (m : Module) (g : Nat) : Graph := (m.graphs[g]?).getD {}

def block? (m : Module) (r : BlockRef) : Option Block := (m.graph r.graph).blocks[r.index]?

/-- The name of a block.  A reference that leads to no block has the empty name; only
hooks can put one in. -/
def blockName (m : Module) (r : BlockRef) : String := (m.block? r).elim "" Block.name

/-- A new graph without blocks.  With `own` it counts its block names by itself. -/
def addGraph (m : Module) (own : Bool) : Module × Nat :=
  ({ m with graphs := m.graphs ++ [{ ownNames := if own then some 0 else none }] }, m.graphs.length)

/-- Draws a block name from the count of the module. -/
def drawName (m : Module) : Module × String :=
  ({ m with namesDrawn := m.namesDrawn + 1 }, generatedName m.namesDrawn)

def drawNameFor (m : Module) (g : Nat) : Module × String :=
  match (m.graph g).ownNames with
  | none => m.drawName
  | some n =>
    ({ m with graphs := m.graphs.modify g fun gr => { gr with ownNames := some (n + 1) } },
      generatedName n)

/-- A new block at the end of a graph.  An empty name draws one. -/
def addBlock (m : Module) (g : Nat) (name : String) (instrs : List Instr) : Module × BlockRef :=
  let (m, name) := if name = "" then m.drawNameFor g else (m, name)
  ({ m with
      graphs := m.graphs.modify g fun gr => { gr with blocks := gr.blocks ++ [{ name, instrs }] } },
    ⟨g, (m.graph g).blocks.length⟩)

def modifyBlock (m : Module) (r : BlockRef) (f : Block → Block) : Module :=
  { m with
    graphs := m.graphs.modify r.graph fun g => { g with blocks := g.blocks.modify r.index f } }

theorem graph_modifyBlock (m : Module) (r : BlockRef) (f : Block → Block) (g : Nat) :
    (m.modifyBlock r f).graph g =
      if g = r.graph then { m.graph g with blocks := (m.graph g).blocks.modify r.index f }
      else m.graph g := by
  simp only [graph, modifyBlock, List.getElem?_modify]
  by_cases h : r.graph = g
  · subst h
    cases m.graphs[r.graph]? <;> simp
  · simp [h, Ne.symm h]

/-- Only the block that is changed is seen to change. -/
theorem block?_modifyBlock (m : Module) (r q : BlockRef) (f : Block → Block) :
    (m.modifyBlock r f).block? q = if q = r then (m.block? r).map f else m.block? q := by
  obtain ⟨g, i⟩ := r
  obtain ⟨g', i'⟩ := q
  simp only [block?, graph_modifyBlock]
  by_cases hg : g' = g
  · subst hg
    by_cases hi : i = i'
    · subst hi
      simp
    · simp [hi, Ne.symm hi]
  · simp [hg]

def emit (m : Module) (r : BlockRef) (i : Instr) : Module := m.modifyBlock r (·.append i)

/-- Records an edge.  No instruction comes with it. -/
def connect (m : Module) (r : BlockRef) (target : Option BlockRef) : Module :=
  m.modifyBlock r (·.connect target)

/-- The first block of a graph. -/
def entry? (m : Module) (g : Nat) : Option BlockRef :=
  if (m.graph g).blocks.isEmpty then none else some ⟨g, 0⟩

def blockAt? (m : Module) (g : Nat) (index : Int) : Option BlockRef :=
  if 0 ≤ index ∧ index.toNat < (m.graph g).blocks.length then some ⟨g, index.toNat⟩ else none

def blockRefs (m : Module) (g : Nat) : List BlockRef :=
  (List.range (m.graph g).blocks.length).map fun i => ⟨g, i⟩

/-! ## Functions -/

def function? (m : Module) (name : String) : Option Function :=
  m.functions.find? fun f => f.name == name

/-- A function of a name that is not taken. -/
def addFunction (m : Module) (name : String) (g : Nat) : Except DuplicateFunction Module :=
  if (m.function? name).isSome then .error ⟨name⟩
  else .ok { m with functions := m.functions ++ [⟨name, g⟩] }

/-- The first function that a block is the entry of.  The want of a block is the
entry of a function without blocks. -/
def functionAt? (m : Module) (b : Option BlockRef) : Option Function :=
  m.functions.find? fun f => m.entry? f.graph == b

/-! ## Globals and literals -/

def emitGlobal (m : Module) (i : Instr) : Module := { m with globals := m.globals ++ [i] }

def slotsOf (m : Module) (d : UInt64) : List Nat := (m.interned.lookup d).getD []

def addLiteral (m : Module) (digest : Digest) (name : String) (bytes : List UInt8) :
    Module × Nat :=
  let slot := m.literals.length
  let d := digest bytes
  ({ m with
      literals := m.literals ++ [⟨slot, name, bytes⟩]
      interned := Assoc.put d (m.slotsOf d ++ [slot]) m.interned }, slot)

/-- The first slot kept for the digest whose entry has the bytes. -/
def literalSlot? (m : Module) (digest : Digest) (bytes : List UInt8) : Option Nat :=
  (m.slotsOf (digest bytes)).find? fun slot => m.literals[slot]?.any fun l => l.bytes == bytes

/-- The slot of an entry with these bytes, which is made if there is none. -/
def internLiteral (m : Module) (digest : Digest) (name : String) (bytes : List UInt8) :
    Module × Nat :=
  match m.literalSlot? digest bytes with
  | some slot => (m, slot)
  | none => m.addLiteral digest name bytes

def literal? (m : Module) (slot : Nat) : Option Literal := m.literals[slot]?

end Module

end Isel.Flow
