import Isel.Settings.Config
import Isel.Source.Position

/-!
# Reports

An error or a warning is shown with its place, and with the source line it stands
in if that file is known: the line itself, then a caret under the column and a
tilde for every further character.

* `excerptLine`: the line shown for a line number.
* `Sources.report`, `Sources.warn`: the full text of an error or a warning.
-/

namespace Isel.Source

open Isel.Settings (Config)

/-- A source file.  Its characters are given by their numbers, and a number need not
be that of a character. -/
structure File where
  name : String
  content : List Int32
  deriving DecidableEq, Repr

/-- The known files and whether their reports are coloured. -/
structure Sources where
  files : List File := []
  color : Bool := false
  deriving Repr

/-- The character of a number, U+FFFD if there is none. -/
def shownChar (r : Int32) : Char :=
  if 0 ≤ r.toInt ∧ r.toInt.toNat.isValidChar then Char.ofNat r.toInt.toNat
  else Char.ofNat 0xFFFD

def shown (text : List Int32) : String := String.ofList (text.map shownChar)

/-! ## Lines -/

/-- The character that ends a line. -/
def lineFeed : Int32 := 10

/-- Looks for the start of a line.  `place` is where the scan stands, `start` the start
of the line it is in, and `line` the number of the line looked for, counted from there. -/
def scanStart (place start : Nat) (line : Int) : List Int32 → Nat
  | [] => start
  | r :: rest =>
    if line ≤ 1 then start
    else if r = lineFeed then scanStart (place + 1) (place + 1) (line - 1) rest
    else scanStart (place + 1) start line rest

/-- Where a line starts.  A number below one means the first line, one that is too
large the last. -/
def lineStart (content : List Int32) (line : Int) : Nat := scanStart 0 0 line content

/-- Where the line with that start ends: in front of the next line end, or with the
text. -/
def lineEnd (content : List Int32) (start : Nat) : Nat :=
  match (content.drop start).idxOf? lineFeed with
  | some n => start + n
  | none => content.length

/-- The text of a line. -/
def excerptLine (content : List Int32) (line : Int) : List Int32 :=
  let start := lineStart content line
  content.extract start (lineEnd content start)

/-- Blanks up to the column. -/
def caretIndent (column : Int) : String := String.ofList (List.replicate (column.toNat - 1) ' ')

/-- A caret, then tildes up to the length. -/
def caret (length : Int) : String :=
  String.ofList ('^' :: List.replicate (length.toNat - 1) '~')

namespace Sources

def file? (s : Sources) (pos : Position) : Option File :=
  if pos.file < 0 then none else s.files[pos.file.toNat]?

/-- File, line and column. -/
def location (s : Sources) (pos : Position) : String :=
  ((s.file? pos).elim "<input>" File.name) ++ ":" ++ toString pos.line ++ ":" ++ toString pos.column

/-- The text in a terminal colour, if colours are in use. -/
def paint (s : Sources) (code text : String) : String :=
  if s.color then "\x1b[" ++ code ++ "m" ++ text ++ "\x1b[0m" else text

/-- The source line of a position with a caret below it; nothing if the file is not
known or the position has no line. -/
def excerpt (s : Sources) (pos : Position) : String :=
  match s.file? pos with
  | none => ""
  | some file =>
    if pos.line = 0 then ""
    else "  " ++ shown (excerptLine file.content pos.line) ++ "\n" ++
      "  " ++ caretIndent pos.column ++ s.paint "32" (caret pos.length) ++ "\n"

def report (s : Sources) (pos : Position) (message : String) : String :=
  s.location pos ++ ": " ++ s.paint "31" "error:" ++ " " ++ message ++ "\n" ++ s.excerpt pos

/-- A warning with the flag that governs it, if it is on. -/
def warn (s : Sources) (c : Config) (number : Int) (pos : Position) (message : String) : String :=
  match c.warnings.info? number with
  | some info =>
    if info.on then
      s.location pos ++ ": " ++ s.paint "33" "warning:" ++ " " ++ message ++
        " [-W" ++ info.name ++ "]\n" ++ s.excerpt pos
    else ""
  | none => ""

end Sources

end Isel.Source
