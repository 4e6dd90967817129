import Isel.Flow.Module
import Isel.Select.Hooks
import Isel.Select.Slots
import Isel.Source.Report

/-!
# Diagnostics

A selection that cannot go on ends with a diagnostic: a position and a cause.
Nearly all causes are internal, which means that an earlier pass should have ruled
them out; only a hook can say that something is not supported.
-/

namespace Isel.Select

open Isel.Syntax
open Isel.Flow (DuplicateFunction)
open Isel.Source (Position Sources)

inductive Cause where
  | noProgram
  | notProgram (kind : Kind)
  | notDeclaration (kind : Kind)
  /-- A node holds something else than its kind says. -/
  | carries (kind : Kind) (payload : String)
  | notParam (function : String) (kind : Kind)
  | noBody (function : String)
  | localOutside (name : String)
  | notCompound (kind : Kind)
  | notStatement (kind : Kind)
  | notVariable
  | unbound (name : String)
  | missingExpr
  | notExpr (kind : Kind)
  | noLowering (kind : Kind)
  | unknownCallee (name : String)
  | unknownOperator (op : Token)
  | slot (f : SlotFault)
  | duplicate (f : DuplicateFunction)
  | hook (f : HookFault)
  deriving DecidableEq, Repr

/-- The refusal says by itself whether it is internal or about something
unsupported. -/
def HookFault.isClassified (f : HookFault) : Bool :=
  f.categories.contains .internal || f.categories.contains .unsupported

namespace Cause

/-- The message; a refusal that does not classify itself counts as internal. -/
def message : Cause → String
  | .noProgram => "internal error: no program to lower"
  | .notProgram kind => "internal error: expected Program at the root, got " ++ kind.text
  | .notDeclaration kind => "internal error: top-level " ++ kind.text ++ " is not a declaration"
  | .carries kind payload => "internal error: " ++ kind.text ++ " node carries " ++ payload
  | .notParam function kind =>
    "internal error: parameter of '" ++ function ++ "' is a " ++ kind.text
  | .noBody function => "internal error: function '" ++ function ++ "' has no body"
  | .localOutside name =>
    "internal error: local variable '" ++ name ++ "' outside of a function"
  | .notCompound kind => "internal error: expected CompoundStmt, got " ++ kind.text
  | .notStatement kind => "internal error: " ++ kind.text ++ " is not a statement"
  | .notVariable => "internal error: scan target is not a variable"
  | .unbound name => "internal error: identifier '" ++ name ++ "' is not bound to a declaration"
  | .missingExpr => "internal error: missing expression"
  | .notExpr kind => "internal error: " ++ kind.text ++ " is not an expression"
  | .noLowering kind => "internal error: no lowering for " ++ kind.text
  | .unknownCallee name => "internal error: call to '" ++ name ++ "' before it was lowered"
  | .unknownOperator op => "internal error: unknown binary operator " ++ op.text
  | .slot f => f.message
  | .duplicate f => "internal error: " ++ f.message
  | .hook f => if f.isClassified then f.message else "internal error: " ++ f.message

def categories : Cause → List Category
  | .duplicate _ => [.internal, .duplicateFunction]
  | .hook f => if f.isClassified then f.categories else .internal :: f.categories
  | _ => [.internal]

end Cause

structure Diagnostic where
  pos : Position
  cause : Cause
  deriving DecidableEq, Repr

def Diagnostic.message (sources : Sources) (d : Diagnostic) : String :=
  sources.location d.pos ++ ": " ++ d.cause.message

/-- Why a selection ends without a module. -/
inductive Stop where
  | fault (d : Diagnostic)
  /-- A declaration, a parameter, a statement or the body of a statement is missing. -/
  | malformed
  deriving DecidableEq, Repr

end Isel.Select
