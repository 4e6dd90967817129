import Isel.Select.Operator
import Isel.Select.State

/-!
# Lowering expressions

An expression gets its slot before its operands get theirs, and its instructions
come behind theirs, all at one point.  Operands are lowered from left to right.
-/

namespace Isel.Select

open Isel.Syntax Isel.Flow
open Isel.Source (Position)

/-- The slot of an expression; a node of another kind gets none. -/
def claimSlot (tag : Tag) : Selection Slot :=
  if tag.kind.isExpr then allocate tag else fail tag.pos (.notExpr tag.kind)

/-- The opcode of an operator, with a remark if it does not tell the direction. -/
def operatorOpcode (su : Setup) (pos : Position) (op : Token) : Selection Machine.Opcode := do
  match opcodeOf? op with
  | none => fail pos (.unknownOperator op)
  | some opcode =>
    if isDirectional op && !su.config.uses .directionalOps then
      remark su .ambiguousOp pos
        ("'" ++ op.text ++ "' shares its opcode with the opposite direction.")
      return sharedOpcode opcode
    else return opcode

/-- The name of the literal that is entered behind `n` others. -/
def literalName (n : Nat) : String := "str" ++ toString n

/-- The literal slot of a string; equal strings share one if literals are shared. -/
def literalFor (su : Setup) (bytes : List UInt8) : Selection Nat := do
  let m := (← get).module
  let insert := if su.config.uses .dedupLiterals then m.internLiteral else m.addLiteral
  let (m, slot) := insert su.digest (literalName m.literals.length) bytes
  modify fun s => { s with module := m }
  return slot

/-- The entry of a function that is declared. -/
def calleeEntry (tag : Tag) (callee : String) : Selection (Option BlockRef) := do
  let m := (← get).module
  match m.function? callee with
  | some f => return m.entry? f.graph
  | none => fail tag.pos (.unknownCallee callee)

def hasResult (callee : String) : Selection Bool := do
  return (← get).signatures.any fun s => s.name == callee && s.result != .void

/-- The call behind its arguments, and its result. -/
def emitCall (su : Setup) (pt : Point) (tag : Tag) (callee : String) (entry : Option BlockRef)
    (args : List Slot) (slot : Slot) : Selection Unit := do
  if !args.isEmpty then serve su tag.pos pt (.argsOut args)
  emit pt .call [.block entry]
  if ← hasResult callee then serve su tag.pos pt (.resultIn slot)

mutual

/-- Lowers an expression at a point and gives its slot. -/
def selectExpr (su : Setup) (pt : Point) : Node → Selection Slot
  | .absent => fail .nowhere .missingExpr
  | .number tag value => do
    let slot ← claimSlot tag
    if !fits16 value then
      remark su .immRange tag.pos
        ("Literal " ++ toString value ++ " does not fit a 16-bit immediate.")
    emit pt .loadImm [.slot slot, .imm value]
    return slot
  | .boolean tag value => do
    let slot ← claimSlot tag
    emit pt .loadImm [.slot slot, .imm (if value then 1 else 0)]
    return slot
  | .ident tag name => do
    let slot ← claimSlot tag
    match su.bindings.find? tag.label with
    | none => fail tag.pos (.unbound name)
    | some decl =>
      let source ← lookup tag.pos decl
      emit pt .mov [.slot slot, .slot source]
      return slot
  | .string tag bytes => do
    let slot ← claimSlot tag
    let literal ← literalFor su bytes
    emit pt .loadImm [.slot slot, .literal literal]
    return slot
  | .binary tag op left right => do
    let slot ← claimSlot tag
    let lhs ← selectExpr su pt left
    let rhs ← selectExpr su pt right
    let opcode ← operatorOpcode su tag.pos op
    emit pt opcode [.slot slot, .slot lhs, .slot rhs]
    return slot
  | .call tag callee args => do
    let slot ← claimSlot tag
    let entry ← calleeEntry tag callee
    let args ← selectArgs su pt args
    emitCall su pt tag callee entry args slot
    return slot
  | .bare tag | .program tag _ | .function tag _ _ _ _ | .param tag _ _ | .var tag _ _ _
  | .compound tag _ | .ifThen tag _ _ | .print tag _ | .ret tag _ | .scan tag _ | .loop tag _ _ => do
    let _ ← claimSlot tag
    fail tag.pos (.noLowering tag.kind)

/-- Lowers expressions from left to right and gives their slots. -/
def selectArgs (su : Setup) (pt : Point) : List Node → Selection (List Slot)
  | [] => return []
  | n :: rest => do
    let slot ← selectExpr su pt n
    return slot :: (← selectArgs su pt rest)

end

end Isel.Select
