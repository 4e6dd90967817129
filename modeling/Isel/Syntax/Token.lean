/-!
# Tokens

The kinds of token of the source language.  Only operators reach the syntax tree;
the other kinds are here for their texts and numbers.
-/

namespace Isel.Syntax

inductive Token where
  | eof
  | ident
  | number
  | string
  | kwFn
  | kwVar
  | kwPrint
  | kwScan
  | kwIf
  | kwWhile
  | kwReturn
  | kwTrue
  | kwFalse
  | kwInt
  | kwBool
  | kwString
  | kwVoid
  | lparen
  | rparen
  | lbrace
  | rbrace
  | semi
  | comma
  | colon
  | arrow
  | assign
  | plus
  | minus
  | star
  | slash
  | rem
  | andInt
  | orInt
  | andBool
  | orBool
  | xor
  | shl
  | shr
  | lt
  | gt
  | not
  /-- A number that names no kind of token. -/
  | other
  deriving DecidableEq, Repr

namespace Token

/-- The kinds in the order of their numbers. -/
def all : List Token :=
  [.eof, .ident, .number, .string, .kwFn, .kwVar, .kwPrint, .kwScan, .kwIf, .kwWhile, .kwReturn,
    .kwTrue, .kwFalse, .kwInt, .kwBool, .kwString, .kwVoid, .lparen, .rparen, .lbrace, .rbrace,
    .semi, .comma, .colon, .arrow, .assign, .plus, .minus, .star, .slash, .rem, .andInt, .orInt,
    .andBool, .orBool, .xor, .shl, .shr, .lt, .gt, .not]

def ofCode : Int → Token
  | .ofNat n => all.getD n .other
  | .negSucc _ => .other

def text : Token → String
  | .eof => "EOF"
  | .ident => "identifier"
  | .number => "number"
  | .string => "string"
  | .kwFn => "fn"
  | .kwVar => "var"
  | .kwPrint => "print"
  | .kwScan => "scan"
  | .kwIf => "if"
  | .kwWhile => "while"
  | .kwReturn => "return"
  | .kwTrue => "True"
  | .kwFalse => "False"
  | .kwInt => "Int"
  | .kwBool => "Bool"
  | .kwString => "String"
  | .kwVoid => "Void"
  | .lparen => "("
  | .rparen => ")"
  | .lbrace => "\x7b"
  | .rbrace => "\x7d"
  | .semi => ";"
  | .comma => ","
  | .colon => ":"
  | .arrow => "->"
  | .assign => "="
  | .plus => "+"
  | .minus => "-"
  | .star => "*"
  | .slash => "/"
  | .rem => "%"
  | .andInt => "&"
  | .orInt => "|"
  | .andBool => "&&"
  | .orBool => "||"
  | .xor => "^"
  | .shl => "<<"
  | .shr => ">>"
  | .lt => "<"
  | .gt => ">"
  | .not => "!"
  | .other => "token"

/-- The token may stand between the operands of a binary expression. -/
def isBinary : Token → Bool
  | .plus | .minus | .star | .slash | .rem | .andInt | .orInt | .andBool | .orBool | .xor | .shl
  | .shr | .lt | .gt => true
  | _ => false

end Token

end Isel.Syntax
