import Isel.Select.Expr

/-!
# Lowering statements

A statement is lowered behind the block where control arrives, and gives the block
where control goes on.  Every compound opens a block.

An `if` closes the block of its condition with a test and two jumps, to the
compound and to a new block behind it; a `while` gives its condition a block of its
own, which the compound jumps back to.  Edges are recorded along with the jumps.
-/

namespace Isel.Select

open Isel.Syntax Isel.Flow

/-- Lowers a variable.  Without initializer there is nothing to do.  The copy into its
slot goes to the global sequence if the variable is of the program scope. -/
def selectVar (su : Setup) (pt : Point) (tag : Tag) (name : String) : Node → Selection Unit
  | .absent => pure ()
  | init => do
    let source ← selectExpr su pt init
    let slot ← allocate tag
    if su.isGlobal name then emit .globals .mov [.slot slot, .slot source]
    else match pt with
      | .globals => fail tag.pos (.localOutside name)
      | .block _ => emit pt .mov [.slot slot, .slot source]

/-- The slot that a scan writes to. -/
def scannedSlot (su : Setup) (tag : Tag) (target : Node) : Selection Slot := do
  match target.tag? with
  | none => fail tag.pos .notVariable
  | some t =>
    if t.kind ≠ .identExpr then fail tag.pos .notVariable
    else match target with
      | .ident _ name =>
        match su.bindings.find? t.label with
        | none => fail t.pos (.unbound name)
        | some decl => lookupOrAdd decl
      | _ => fail t.pos (.carries t.kind target.payloadName)

/-- A statement that is an expression. -/
def selectExprStmt (su : Setup) (n : Node) (current : BlockRef) : Selection Unit := do
  match n.tag? with
  | none => throw .malformed
  | some tag =>
    if !tag.kind.isExpr then fail tag.pos (.notStatement tag.kind)
    if tag.kind ≠ .callExpr then remark su .pedantic tag.pos "Expression result unused."
    let _ ← selectExpr su (.block current) n

/-- Opens the block of a compound. -/
def openBody (tag : Tag) (current : BlockRef) : Selection BlockRef :=
  if tag.kind = .compoundStmt then openBlock current else fail tag.pos (.notCompound tag.kind)

/-- Remarks on a statement behind a return. -/
def remarkUnreachable (su : Setup) (n : Node) : Selection Unit :=
  match n.tag? with
  | none => throw .malformed
  | some tag => remark su .unreachableCode tag.pos "Statement is unreachable after return."

/-- Closes a block with a test of `cond` and two jumps. -/
def emitBranch (source : BlockRef) (cond : Slot) (yes no : BlockRef) : Selection Unit := do
  emit (.block source) .tst [.slot cond, .imm 1]
  jump source yes
  jump source no

mutual

/-- Lowers a statement and gives the block where control goes on. -/
def selectStmt (su : Setup) : Node → BlockRef → Selection BlockRef
  | .var tag name _ init, current => do
    selectVar su (.block current) tag name init
    return current
  | .compound tag stmts, current => do
    let entry ← openBody tag current
    selectStmts su false stmts entry
  | .ifThen _ cond body, current => do
    let slot ← selectExpr su (.block current) cond
    let (bodyEntry, bodyEnd) ← selectBody su body current
    let exit ← openBlock bodyEnd
    emitBranch current slot bodyEntry exit
    jump bodyEnd exit
    return exit
  | .loop _ cond body, current => do
    let header ← openBlock current
    let slot ← selectExpr su (.block header) cond
    let (bodyEntry, bodyEnd) ← selectBody su body header
    jump bodyEnd header
    let exit ← openBlock bodyEnd
    emitBranch header slot bodyEntry exit
    return exit
  | .ret tag expr, current => do
    if !expr.isAbsent then
      let value ← selectExpr su (.block current) expr
      serve su tag.pos (.block current) (.resultOut value)
    emit (.block current) .ret []
    return current
  | .print tag expr, current => do
    let value ← selectExpr su (.block current) expr
    serve su tag.pos (.block current) (.print value)
    return current
  | .scan tag target, current => do
    let slot ← scannedSlot su tag target
    serve su tag.pos (.block current) (.scan slot)
    return current
  | n, current => do
    selectExprStmt su n current
    return current

/-- Lowers the body of a statement or a function and gives its first and its last
block. -/
def selectBody (su : Setup) : Node → BlockRef → Selection (BlockRef × BlockRef)
  | .compound tag stmts, current => do
    let entry ← openBody tag current
    return (entry, ← selectStmts su false stmts entry)
  | n, current => do
    match n.tag? with
    | none => throw .malformed
    | some tag =>
      let _ ← openBody tag current
      fail tag.pos (.carries tag.kind n.payloadName)

/-- Lowers statements one after the other.  `returned` says that the one before was a
return. -/
def selectStmts (su : Setup) (returned : Bool) : List Node → BlockRef → Selection BlockRef
  | [], current => return current
  | n :: rest, current => do
    if returned then remarkUnreachable su n
    let current ← selectStmt su n current
    selectStmts su (n.tag?.any fun tag => tag.kind == .returnStmt) rest current

end

end Isel.Select
