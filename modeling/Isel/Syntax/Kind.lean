/-!
# Node kinds and value types

A node of the syntax tree says of which kind it is.  The kind is a claim of its
own beside what the node holds, so it may be any number: `Kind.other` are the
numbers without a kind.
-/

namespace Isel.Syntax

inductive Kind where
  | program
  | functionDecl
  | paramDecl
  | varDecl
  | binaryExpr
  | booleanExpr
  | callExpr
  | identExpr
  | numberExpr
  | stringExpr
  | compoundStmt
  | ifStmt
  | printStmt
  | returnStmt
  | scanStmt
  | whileStmt
  | other (code : Int)
  deriving DecidableEq, Repr

namespace Kind

/-- The kinds in the order of their numbers. -/
def all : List Kind :=
  [.program, .functionDecl, .paramDecl, .varDecl, .binaryExpr, .booleanExpr, .callExpr, .identExpr,
    .numberExpr, .stringExpr, .compoundStmt, .ifStmt, .printStmt, .returnStmt, .scanStmt,
    .whileStmt]

def ofCode (code : Int) : Kind :=
  if code < 0 then .other code else all.getD code.toNat (.other code)

def text : Kind → String
  | .program => "Program"
  | .functionDecl => "FunctionDecl"
  | .paramDecl => "ParamVarDecl"
  | .varDecl => "VarDecl"
  | .binaryExpr => "BinaryExpr"
  | .booleanExpr => "BooleanExpr"
  | .callExpr => "CallExpr"
  | .identExpr => "IdentifierExpr"
  | .numberExpr => "NumberExpr"
  | .stringExpr => "StringExpr"
  | .compoundStmt => "CompoundStmt"
  | .ifStmt => "IfStmt"
  | .printStmt => "PrintStmt"
  | .returnStmt => "ReturnStmt"
  | .scanStmt => "ScanStmt"
  | .whileStmt => "WhileStmt"
  | .other code => "NodeType(" ++ toString code ++ ")"

/-- Nodes of the kind produce a value. -/
def isExpr : Kind → Bool
  | .binaryExpr | .booleanExpr | .callExpr | .identExpr | .numberExpr | .stringExpr => true
  | _ => false

/-- Nodes of the kind introduce a name. -/
def isDecl : Kind → Bool
  | .functionDecl | .paramDecl | .varDecl => true
  | _ => false

end Kind

/-- The static type of a value. -/
inductive ValueType where
  | unknown
  | int
  | bool
  | string
  | void
  deriving DecidableEq, Repr

namespace ValueType

def ofCode : Int → ValueType
  | 1 => .int
  | 2 => .bool
  | 3 => .string
  | 4 => .void
  | _ => .unknown

def code : ValueType → Nat
  | .unknown => 0
  | .int => 1
  | .bool => 2
  | .string => 3
  | .void => 4

def text : ValueType → String
  | .unknown => "unknown"
  | .int => "Int"
  | .bool => "Bool"
  | .string => "String"
  | .void => "Void"

def ofKeyword? : String → Option ValueType
  | "Int" => some .int
  | "Bool" => some .bool
  | "String" => some .string
  | "Void" => some .void
  | _ => none

end ValueType

end Isel.Syntax
