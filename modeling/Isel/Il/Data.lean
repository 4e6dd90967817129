/-!
# Data items

A byte string is spelled as a list of items and ends with a zero byte.  A run of
printable ASCII characters is one quoted item; every other byte, a quote or a
backslash included, is an item by number.
-/

namespace Isel.Il

inductive Item where
  /-- Printable bytes between quotes. -/
  | quoted (run : List UInt8)
  | byte (b : UInt8)
  deriving DecidableEq, Repr

/-- The byte may stand between quotes. -/
def isPlain (b : UInt8) : Bool := 0x20 ≤ b && b < 0x7F && b != 0x22 && b != 0x5C

/-- The item of a run whose last byte comes first, if there is a run. -/
def flushRun (run : List UInt8) : List Item := if run.isEmpty then [] else [.quoted run.reverse]

/-- The items of a byte string behind a run that is still open. -/
def itemsFrom (run : List UInt8) : List UInt8 → List Item
  | [] => flushRun run
  | b :: rest =>
    if isPlain b then itemsFrom (b :: run) rest else flushRun run ++ .byte b :: itemsFrom [] rest

def itemsOf (bytes : List UInt8) : List Item := itemsFrom [] bytes ++ [.byte 0]

def Item.text : Item → String
  | .quoted run => "b \"" ++ String.ofList (run.map fun b => Char.ofNat b.toNat) ++ "\""
  | .byte b => "b " ++ toString b.toNat

def dataText (bytes : List UInt8) : String :=
  String.intercalate ", " ((itemsOf bytes).map Item.text)

end Isel.Il
