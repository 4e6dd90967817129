/-!
# Hexadecimal text

Words, registers, addresses and fingerprints are written in hexadecimal with a
fixed number of digits.  `hex c width n` writes the `width` lowest digits of `n`,
most significant first.
-/

namespace Isel.Text

/-- The letters used for the digits ten to fifteen. -/
inductive LetterCase where
  | lower
  | upper
  deriving DecidableEq, Repr

def LetterCase.digits : LetterCase → List Char
  | .lower => ['0', '1', '2', '3', '4', '5', '6', '7', '8', '9', 'a', 'b', 'c', 'd', 'e', 'f']
  | .upper => ['0', '1', '2', '3', '4', '5', '6', '7', '8', '9', 'A', 'B', 'C', 'D', 'E', 'F']

/-- The digit for the lowest four bits of `n`. -/
def hexDigit (c : LetterCase) (n : Nat) : Char := c.digits.getD (n % 16) '0'

/-- The `width` lowest hexadecimal digits of `n`, most significant first. -/
def hexChars (c : LetterCase) : Nat → Nat → List Char
  | 0, _ => []
  | width + 1, n => hexChars c width (n / 16) ++ [hexDigit c n]

/-- `hexChars` as a string. -/
def hex (c : LetterCase) (width n : Nat) : String := String.ofList (hexChars c width n)

/-- The bytes in order, two lower-case digits each. -/
def hexBytes (bytes : List UInt8) : String :=
  String.ofList (bytes.flatMap fun b => hexChars .lower 2 b.toNat)

theorem length_hexChars (c : LetterCase) (width n : Nat) : (hexChars c width n).length = width := by
  induction width generalizing n with
  | zero => rfl
  | succ width ih => simp [hexChars, ih]

end Isel.Text
