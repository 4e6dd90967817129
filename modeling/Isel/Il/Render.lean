import Isel.Il.Data
import Isel.Il.Line
import Isel.Settings.Config

/-!
# Writing the intermediate language

All values have one type, the word type of the configuration, and data cells are
aligned to its word size.
-/

namespace Isel.Il

open Isel.Flow (Slot)
open Isel.Settings (Config)

/-- The type and size of a word; what a configuration leaves open is a 64-bit word. -/
structure WordFormat where
  type : String
  size : Int
  deriving DecidableEq, Repr

def WordFormat.ofConfig (c : Config) : WordFormat :=
  ⟨if c.wordType = "" then "l" else c.wordType, if c.wordSize ≤ 0 then 8 else c.wordSize⟩

def Temp.text : Temp → String
  | .slot s => "%s" ++ toString s
  | .flag n => "%t" ++ toString n

def cellText (cell : Slot) : String := "$g" ++ toString cell

def Value.text : Value → String
  | .temp t => t.text
  | .int v => toString v
  | .symbol name => "$" ++ name
  | .verbatim text => text

def BinOp.text (w : WordFormat) : BinOp → String
  | .add => "add"
  | .sub => "sub"
  | .mul => "mul"
  | .div => "div"
  | .rem => "rem"
  | .and => "and"
  | .or => "or"
  | .xor => "xor"
  | .shl => "shl"
  | .sar => "sar"
  | .less => "cslt" ++ w.type
  | .greater => "csgt" ++ w.type

def Rhs.text (w : WordFormat) : Rhs → String
  | .copy v => "copy " ++ v.text
  | .bin op x y => op.text w ++ " " ++ x.text ++ ", " ++ y.text
  | .neg v => "neg " ++ v.text
  | .load cell => "load" ++ w.type ++ " " ++ cellText cell

def Line.text (w : WordFormat) : Line → String
  | .assign dst rhs => dst.text ++ " =" ++ w.type ++ " " ++ rhs.text w
  | .store src cell => "store" ++ w.type ++ " " ++ src.text ++ ", " ++ cellText cell
  | .call callee => "call $" ++ callee ++ "()"
  | .jmp label => "jmp @" ++ label
  | .jnz cond yes no => "jnz " ++ cond.text ++ ", @" ++ yes ++ ", @" ++ no
  | .ret => "ret 0"

def Section.text (w : WordFormat) (s : Section) : String :=
  "@" ++ s.label ++ "\n" ++ String.join (s.lines.map fun l => "\t" ++ l.text w ++ "\n")

def Function.text (w : WordFormat) (f : Function) : String :=
  "\nexport function " ++ w.type ++ " $" ++ f.name ++ "() \x7b\n" ++
    String.join (f.sections.map (Section.text w)) ++ "\x7d\n"

def literalText (name : String) (bytes : List UInt8) : String :=
  "data $" ++ name ++ " = \x7b " ++ dataText bytes ++ " \x7d\n"

def cellData (w : WordFormat) (cell : Slot) : String :=
  "data " ++ cellText cell ++ " = align " ++ toString w.size ++ " \x7b " ++ w.type ++ " 0 \x7d\n"

/-- **The written text.** -/
def Text.render (w : WordFormat) (t : Text) : String :=
  String.join (t.literals.map fun (name, bytes) => literalText name bytes) ++
    String.join (t.cells.map (cellData w)) ++ String.join (t.functions.map (Function.text w))

end Isel.Il
