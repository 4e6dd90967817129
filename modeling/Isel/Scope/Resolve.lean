import Isel.Fault
import Isel.Scope.Bindings
import Isel.Scope.Table
import Isel.Source.Report

/-!
# Name resolution

`resolveProgram` resolves the identifiers of a program by lexical scope.  Functions are
visible in the whole program and variables behind their declaration; the
parameters and the outermost variables of a function share a scope, and every
other compound opens one of its own.  Since later passes tell a variable of the
program scope by its name alone, no variable below may take such a name, whether
it is declared earlier or later.

Resolution ends at the first fault; the bindings made before it stay.
-/

namespace Isel.Scope

open Isel.Syntax
open Isel.Source (Position Sources)

/-- What is wrong with the use or the declaration of a name. -/
inductive Cause where
  | redeclared (name : String)
  | shadowsGlobal (name : String)
  | undeclared (name : String)
  | functionAsValue (name : String)
  | undeclaredFunction (name : String)
  deriving DecidableEq, Repr

def Cause.message : Cause → String
  | .redeclared name => "redeclaration of '" ++ name ++ "'"
  | .shadowsGlobal name => "local '" ++ name ++ "' shadows a global variable"
  | .undeclared name => "use of undeclared identifier '" ++ name ++ "'"
  | .functionAsValue name => "function '" ++ name ++ "' used as a value"
  | .undeclaredFunction name => "call to undeclared function '" ++ name ++ "'"

structure Fault where
  pos : Position
  cause : Cause
  deriving DecidableEq, Repr

/-- Why resolution ends without a table. -/
inductive Stop where
  /-- The root is missing or claims to be something else than a program. -/
  | notProgram
  /-- The root claims to be a program and holds something else. -/
  | programCarries (payload : String)
  | fault (f : Fault)
  /-- A declaration is missing, or a function's body is there and no compound. -/
  | malformed
  deriving DecidableEq, Repr

/-- What is said when resolution ends; nothing about a malformed tree. -/
def Stop.message? (sources : Sources) : Stop → Option String
  | .notProgram => some "symtab: expected a program node"
  | .programCarries payload => some ("symtab: program node carries " ++ payload)
  | .fault f => some (sources.location f.pos ++ ": " ++ f.cause.message)
  | .malformed => none

def Stop.categories : Stop → List Category
  | .fault _ => [.resolution]
  | _ => []

def Stop.pos? : Stop → Option Position
  | .fault f => some f.pos
  | _ => none

/-- Resolution with the bindings made so far. -/
abbrev Resolve := EStateM Stop Bindings

/-- Stops at a fault, if there is one. -/
def raise : Option Fault → Resolve Unit
  | some f => throw (.fault f)
  | none => pure ()

/-- A frame with one more symbol, or a fault if the frame has its name. -/
def Frame.declare (frame : Frame) (pos : Position) (symbol : Symbol) : Except Fault Frame :=
  if (frame.find? symbol.name).isSome then .error ⟨pos, .redeclared symbol.name⟩
  else .ok (symbol :: frame)

/-- The symbol and the position of a declaration. -/
def symbolOf? (role : Role) (n : Node) : Option (Symbol × Position) :=
  n.tag?.map fun tag => (⟨n.name, role, ⟨tag.label, tag.kind, n.name⟩⟩, tag.pos)

/-- The scope that the parameters of a function make, or the first fault among
them. -/
def declareParams (frame : Frame) : List (Symbol × Position) → Except Fault Frame
  | [] => .ok frame
  | (symbol, pos) :: rest => do declareParams (← frame.declare pos symbol) rest

/-- Declares a variable whose initializer is resolved. -/
def declareVar (t : Table) (env : Env) (tag : Tag) (name : String) : Resolve Env :=
  if t.isGlobal name && env.isNested then throw (.fault ⟨tag.pos, .shadowsGlobal name⟩)
  else match env.frame.declare tag.pos ⟨name, .var, ⟨tag.label, tag.kind, name⟩⟩ with
    | .ok frame => pure { env with frame }
    | .error f => throw (.fault f)

def resolveIdent (env : Env) (tag : Tag) (name : String) : Resolve Unit :=
  match env.find? name with
  | none => throw (.fault ⟨tag.pos, .undeclared name⟩)
  | some symbol =>
    if symbol.role = .function then throw (.fault ⟨tag.pos, .functionAsValue name⟩)
    else modify fun b => b.bind tag.label symbol.decl

/-- Checks that the callee is a function. -/
def resolveCallee (env : Env) (tag : Tag) (callee : String) : Resolve Unit :=
  if (env.find? callee).any fun symbol => symbol.role == .function then pure ()
  else throw (.fault ⟨tag.pos, .undeclaredFunction callee⟩)

/-- The environment inside of a function.  A missing parameter counts before a
fault among the others. -/
def enterFunction (env : Env) (params : List Node) : Resolve Env :=
  match params.mapM (symbolOf? .param) with
  | none => throw .malformed
  | some symbols => match declareParams [] symbols with
    | .ok frame => pure (env.enter frame)
    | .error f => throw (.fault f)

mutual

/-- Resolves a node in an environment and gives the environment behind it. -/
def resolve (t : Table) (env : Env) : Node → Resolve Env
  | .absent | .bare _ | .param .. | .boolean .. | .number .. | .string .. => pure env
  | .function _ _ params _ .absent => do
    let _ ← enterFunction env params
    return env
  | .function _ _ params _ (.compound _ stmts) => do
    let inner ← enterFunction env params
    let _ ← resolveAll t inner stmts
    return env
  | .function .. => throw .malformed
  | .var tag name _ init => do declareVar t (← resolve t env init) tag name
  | .ident tag name => do
    resolveIdent env tag name
    return env
  | .call tag callee args => do
    resolveCallee env tag callee
    resolveAll t env args
  | .compound _ stmts => do
    let _ ← resolveAll t (env.enter []) stmts
    return env
  | .program _ decls => resolveAll t env decls
  | .binary _ _ left right => do resolve t (← resolve t env left) right
  | .ifThen _ cond body => do resolve t (← resolve t env cond) body
  | .loop _ cond body => do resolve t (← resolve t env cond) body
  | .print _ expr => resolve t env expr
  | .ret _ expr => resolve t env expr
  | .scan _ target => resolve t env target

def resolveAll (t : Table) (env : Env) : List Node → Resolve Env
  | [] => pure env
  | n :: rest => do resolveAll t (← resolve t env n) rest

end

/-- What the top level of a program declares. -/
structure Surface where
  table : Table := {}
  frame : Frame := []
  /-- The first function name that was declared before. -/
  fault : Option Fault := none
  deriving Repr

/-- Takes in a declaration by the kind it claims: a function with its symbol, a
variable by its name only. -/
def Surface.add (s : Surface) (n : Node) : Surface :=
  match symbolOf? .function n with
  | none => s
  | some (symbol, pos) =>
    match symbol.decl.kind with
    | .functionDecl =>
      let table := s.table.addFunction symbol.name
      match s.frame.declare pos symbol with
      | .ok frame => { s with table, frame }
      | .error f => { s with table, fault := s.fault.or (some f) }
    | .varDecl => { s with table := s.table.addGlobal symbol.name }
    | _ => s

def resolveDecls (decls : List Node) : Resolve Table := do
  if decls.any Node.isAbsent then throw .malformed
  let surface := decls.foldl Surface.add {}
  raise surface.fault
  let _ ← resolveAll surface.table { frame := surface.frame } decls
  return surface.table

/-- **Resolves a program.** -/
def resolveProgram (root : Node) : Resolve Table :=
  match root.tag?.map Tag.kind, root with
  | some .program, .program _ decls => resolveDecls decls
  | some .program, _ => throw (.programCarries root.payloadName)
  | _, _ => throw .notProgram

end Isel.Scope
