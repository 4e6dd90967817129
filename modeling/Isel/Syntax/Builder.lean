import Isel.Syntax.Node

/-!
# Building trees

Nodes are built from the leaves up.  The builder gives each node a fresh label
and remembers for every node which one it was last made a child of, so a node
that is built into two places has the later one as its parent.

A missing child is possible in every place but one: a function's parameters must
all be there.
-/

namespace Isel.Syntax

open Isel.Source (Position)

structure Builder where
  /-- How many nodes were built; the next label. -/
  built : Nat := 0
  /-- Child and parent, latest first. -/
  parents : List (Label × Label) := []
  deriving Repr

namespace Builder

/-- The node that `child` was last made a child of. -/
def parent? (b : Builder) (child : Label) : Option Label := b.parents.lookup child

inductive Failure where
  | absentParameter
  deriving DecidableEq, Repr

/-- A computation that builds nodes. -/
abbrev Build := EStateM Failure Builder

/-- Makes `label` the parent of the nodes that are there. -/
def adopt (label : Label) (children : List Node) : Build Unit :=
  modify fun b => { b with parents := (children.filterMap Node.label?).map (·, label) ++ b.parents }

/-- A new node: `make` puts the payload under its tag. -/
def node (kind : Kind) (pos : Position) (children : List Node) (make : Tag → Node) : Build Node := do
  let label := (← get).built
  modify fun b => { b with built := label + 1 }
  adopt label children
  return make ⟨label, kind, pos⟩

def bare (pos : Position) : Build Node := node .program pos [] .bare

def program (pos : Position) (decls : List Node) : Build Node :=
  node .program pos decls fun tag => .program tag decls

/-- A function; no parameter may be missing. -/
def function (pos : Position) (name : String) (params : List Node) (result : ValueType)
    (body : Node) : Build Node :=
  if params.any Node.isAbsent then throw .absentParameter
  else node .functionDecl pos (params ++ [body]) fun tag => .function tag name params result body

def param (pos : Position) (name : String) (type : ValueType) : Build Node :=
  node .paramDecl pos [] fun tag => .param tag name type

def var (pos : Position) (name : String) (type : ValueType) (init : Node) : Build Node :=
  node .varDecl pos [init] fun tag => .var tag name type init

def binary (pos : Position) (op : Token) (left right : Node) : Build Node :=
  node .binaryExpr pos [left, right] fun tag => .binary tag op left right

def boolean (pos : Position) (value : Bool) : Build Node :=
  node .booleanExpr pos [] fun tag => .boolean tag value

def call (pos : Position) (callee : String) (args : List Node) : Build Node :=
  node .callExpr pos args fun tag => .call tag callee args

def ident (pos : Position) (name : String) : Build Node :=
  node .identExpr pos [] fun tag => .ident tag name

def number (pos : Position) (value : Int) : Build Node :=
  node .numberExpr pos [] fun tag => .number tag value

def string (pos : Position) (bytes : List UInt8) : Build Node :=
  node .stringExpr pos [] fun tag => .string tag bytes

def compound (pos : Position) (stmts : List Node) : Build Node :=
  node .compoundStmt pos stmts fun tag => .compound tag stmts

def ifThen (pos : Position) (cond body : Node) : Build Node :=
  node .ifStmt pos [cond, body] fun tag => .ifThen tag cond body

def print (pos : Position) (expr : Node) : Build Node :=
  node .printStmt pos [expr] fun tag => .print tag expr

def ret (pos : Position) (expr : Node) : Build Node :=
  node .returnStmt pos [expr] fun tag => .ret tag expr

def scan (pos : Position) (target : Node) : Build Node :=
  node .scanStmt pos [target] fun tag => .scan tag target

def loop (pos : Position) (cond body : Node) : Build Node :=
  node .whileStmt pos [cond, body] fun tag => .loop tag cond body

end Builder

end Isel.Syntax
