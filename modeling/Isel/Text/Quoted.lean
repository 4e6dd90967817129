import Isel.Text.Hex
import Isel.Text.Printable
import Isel.Text.Utf8

/-!
# Quoted text

A byte string is written between double quotes.  Printable characters stand for
themselves; a quote and a backslash get a backslash; seven control characters
have a letter of their own; all other characters are written by number, and a
byte that belongs to no character is written as that byte.
-/

namespace Isel.Text

/-- The letter that stands for a control character behind a backslash. -/
def controlLetter? (c : Char) : Option Char :=
  match c.toNat with
  | 0x07 => some 'a'
  | 0x08 => some 'b'
  | 0x09 => some 't'
  | 0x0A => some 'n'
  | 0x0B => some 'v'
  | 0x0C => some 'f'
  | 0x0D => some 'r'
  | _ => none

/-- A character by number: two digits below U+0080, four below U+10000, else eight. -/
def escapeByNumber (c : Char) : List Char :=
  if c.toNat < 0x80 then '\\' :: 'x' :: hexChars .lower 2 c.toNat
  else if c.toNat < 0x10000 then '\\' :: 'u' :: hexChars .lower 4 c.toNat
  else '\\' :: 'U' :: hexChars .lower 8 c.toNat

/-- How one character stands between the quotes. -/
def quotedChar (c : Char) : List Char :=
  if c = '"' || c = '\\' then ['\\', c]
  else if isPrintable c then [c]
  else match controlLetter? c with
    | some letter => ['\\', letter]
    | none => escapeByNumber c

/-- How one piece of a byte string stands between the quotes. -/
def quotedPiece : Utf8.Piece → List Char
  | .char c => quotedChar c
  | .stray b => '\\' :: 'x' :: hexChars .lower 2 b.toNat

/-- A byte string between double quotes. -/
def quote (bytes : List UInt8) : String :=
  String.ofList (['"'] ++ (Utf8.pieces bytes).flatMap quotedPiece ++ ['"'])

def quoteString (s : String) : String := quote (Utf8.bytes s)

end Isel.Text
