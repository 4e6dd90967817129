import Isel.Source.Position
import Isel.Syntax.Kind
import Isel.Syntax.Token

/-!
# Syntax trees

A node holds a payload (the constructor and its fields) under a `Tag`: a label
that tells the node from all others, the kind it claims to be, and its position.
Kind and payload come from different hands and may disagree (`Node.Agrees`).

A node may occur in several places of a tree; all its occurrences have the same
label.  A tree without such sharing has pairwise different labels
(`Node.labels`).  A child may be missing; `Node.absent` stands in its place.

Declarations are referred to by `Decl`: what later passes need to know of a node
without holding it.
-/

namespace Isel.Syntax

open Isel.Source (Position)

/-- Tells a node from all others. -/
abbrev Label := Nat

/-- What every node carries beside its payload. -/
structure Tag where
  label : Label
  kind : Kind
  pos : Position
  deriving DecidableEq, Repr

inductive Node where
  /-- No node. -/
  | absent
  /-- A node without payload. -/
  | bare (tag : Tag)
  | program (tag : Tag) (decls : List Node)
  | function (tag : Tag) (name : String) (params : List Node) (result : ValueType) (body : Node)
  | param (tag : Tag) (name : String) (type : ValueType)
  | var (tag : Tag) (name : String) (type : ValueType) (init : Node)
  | binary (tag : Tag) (op : Token) (left right : Node)
  | boolean (tag : Tag) (value : Bool)
  | call (tag : Tag) (callee : String) (args : List Node)
  | ident (tag : Tag) (name : String)
  | number (tag : Tag) (value : Int)
  | string (tag : Tag) (bytes : List UInt8)
  | compound (tag : Tag) (stmts : List Node)
  | ifThen (tag : Tag) (cond body : Node)
  | print (tag : Tag) (expr : Node)
  | ret (tag : Tag) (expr : Node)
  | scan (tag : Tag) (target : Node)
  | loop (tag : Tag) (cond body : Node)
  deriving Repr

/-- A node as a declaration that identifiers can refer to. -/
structure Decl where
  label : Label
  kind : Kind
  name : String
  deriving DecidableEq, Repr

namespace Node

def tag? : Node → Option Tag
  | .absent => none
  | .bare tag | .program tag _ | .function tag _ _ _ _ | .param tag _ _ | .var tag _ _ _
  | .binary tag _ _ _ | .boolean tag _ | .call tag _ _ | .ident tag _ | .number tag _
  | .string tag _ | .compound tag _ | .ifThen tag _ _ | .print tag _ | .ret tag _ | .scan tag _
  | .loop tag _ _ => some tag

def label? (n : Node) : Option Label := n.tag?.map Tag.label

def isAbsent : Node → Bool
  | .absent => true
  | _ => false

/-- The node with another kind; the payload stays. -/
def withKind (kind : Kind) : Node → Node
  | .absent => .absent
  | .bare tag => .bare { tag with kind }
  | .program tag decls => .program { tag with kind } decls
  | .function tag name params result body => .function { tag with kind } name params result body
  | .param tag name type => .param { tag with kind } name type
  | .var tag name type init => .var { tag with kind } name type init
  | .binary tag op left right => .binary { tag with kind } op left right
  | .boolean tag value => .boolean { tag with kind } value
  | .call tag callee args => .call { tag with kind } callee args
  | .ident tag name => .ident { tag with kind } name
  | .number tag value => .number { tag with kind } value
  | .string tag bytes => .string { tag with kind } bytes
  | .compound tag stmts => .compound { tag with kind } stmts
  | .ifThen tag cond body => .ifThen { tag with kind } cond body
  | .print tag expr => .print { tag with kind } expr
  | .ret tag expr => .ret { tag with kind } expr
  | .scan tag target => .scan { tag with kind } target
  | .loop tag cond body => .loop { tag with kind } cond body

/-- The kind that the payload belongs to. -/
def payloadKind? : Node → Option Kind
  | .absent | .bare _ => none
  | .program .. => some .program
  | .function .. => some .functionDecl
  | .param .. => some .paramDecl
  | .var .. => some .varDecl
  | .binary .. => some .binaryExpr
  | .boolean .. => some .booleanExpr
  | .call .. => some .callExpr
  | .ident .. => some .identExpr
  | .number .. => some .numberExpr
  | .string .. => some .stringExpr
  | .compound .. => some .compoundStmt
  | .ifThen .. => some .ifStmt
  | .print .. => some .printStmt
  | .ret .. => some .returnStmt
  | .scan .. => some .scanStmt
  | .loop .. => some .whileStmt

/-- The name of the payload in messages about a payload that does not fit. -/
def payloadName (n : Node) : String :=
  match n.payloadKind? with
  | some kind => "ast." ++ kind.text ++ "Node"
  | none => "<nil>"

/-- The kind of the node is the one its payload belongs to. -/
def Agrees (n : Node) : Prop := n.tag?.map Tag.kind = n.payloadKind?

/-- The name that a declaration introduces or that an identifier or a call refers to. -/
def name : Node → String
  | .function _ name _ _ _ | .param _ name _ | .var _ name _ _ | .ident _ name | .call _ name _ =>
    name
  | _ => ""

def decl? (n : Node) : Option Decl := n.tag?.map fun tag => ⟨tag.label, tag.kind, n.name⟩

/-- The places for children, absent ones included, in source order. -/
def parts : Node → List Node
  | .absent | .bare _ | .param .. | .boolean .. | .ident .. | .number .. | .string .. => []
  | .program _ decls => decls
  | .function _ _ params _ body => params ++ [body]
  | .var _ _ _ init => [init]
  | .binary _ _ left right => [left, right]
  | .call _ _ args => args
  | .compound _ stmts => stmts
  | .ifThen _ cond body | .loop _ cond body => [cond, body]
  | .print _ expr | .ret _ expr => [expr]
  | .scan _ target => [target]

def children (n : Node) : List Node := n.parts.filter fun c => !c.isAbsent

end Node

end Isel.Syntax
