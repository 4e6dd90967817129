import Isel.Flow.Instr

/-!
# QBE intermediate language

The part of the QBE intermediate language that modules are written in: functions
made of labelled sections, lines that assign a temporary, and lines that store,
call or move control.  A value slot has a temporary of its own; a slot that the
global sequence defines also has a data cell.
-/

namespace Isel.Il

open Isel.Flow

inductive Temp where
  /-- The temporary of a value slot. -/
  | slot (s : Slot)
  /-- The outcome of a test. -/
  | flag (n : Nat)
  deriving DecidableEq, Repr

inductive Value where
  | temp (t : Temp)
  | int (v : Int)
  /-- The address of a symbol. -/
  | symbol (name : String)
  /-- An operand that means nothing here and is written as it stands. -/
  | verbatim (text : String)
  deriving DecidableEq, Repr

inductive BinOp where
  | add
  | sub
  | mul
  | div
  | rem
  | and
  | or
  | xor
  | shl
  | sar
  | less
  | greater
  deriving DecidableEq, Repr

inductive Rhs where
  | copy (v : Value)
  | bin (op : BinOp) (x y : Value)
  | neg (v : Value)
  /-- The content of the data cell of a slot. -/
  | load (cell : Slot)
  deriving DecidableEq, Repr

inductive Line where
  | assign (dst : Temp) (rhs : Rhs)
  /-- A temporary goes into the data cell of a slot. -/
  | store (src : Temp) (cell : Slot)
  | call (callee : String)
  | jmp (label : String)
  | jnz (cond : Temp) (yes no : String)
  | ret
  deriving DecidableEq, Repr

/-- A label and the lines up to the next one. -/
structure Section where
  label : String
  lines : List Line
  deriving DecidableEq, Repr

structure Function where
  name : String
  sections : List Section
  deriving DecidableEq, Repr

/-- A text in the language: literals with their names, data cells, functions. -/
structure Text where
  literals : List (String × List UInt8)
  cells : List Slot
  functions : List Function
  deriving DecidableEq, Repr

end Isel.Il
