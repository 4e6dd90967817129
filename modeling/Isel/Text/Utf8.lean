/-!
# Reading bytes as UTF-8

`Utf8.pieces` splits a byte string into the characters it encodes and the bytes
that belong to no well-formed character.  A malformed sequence loses one byte at
a time: its first byte is reported and reading goes on at the next one.
-/

namespace Isel.Text.Utf8

/-- A part of a byte string. -/
inductive Piece where
  /-- A well-formed character. -/
  | char (c : Char)
  /-- A byte that starts no well-formed character. -/
  | stray (b : UInt8)
  deriving DecidableEq, Repr

/-- The low six bits of a continuation byte. -/
def continuation? (b : UInt8) : Option Nat :=
  if 0x80 ≤ b && b < 0xC0 then some (b.toNat - 0x80) else none

/-- The character that `b` starts together with the one byte after it. -/
def char2? (b : UInt8) : List UInt8 → Option Char
  | b1 :: _ => do
    guard (0xC2 ≤ b && b < 0xE0)
    let x1 ← continuation? b1
    return Char.ofNat ((b.toNat - 0xC0) * 0x40 + x1)
  | _ => none

/-- The character that `b` starts together with the two bytes after it: neither
overlong nor a surrogate. -/
def char3? (b : UInt8) : List UInt8 → Option Char
  | b1 :: b2 :: _ => do
    guard (0xE0 ≤ b && b < 0xF0)
    let x1 ← continuation? b1
    let x2 ← continuation? b2
    let n := (b.toNat - 0xE0) * 0x1000 + x1 * 0x40 + x2
    guard (0x800 ≤ n && (n < 0xD800 || 0xDFFF < n))
    return Char.ofNat n
  | _ => none

/-- The character that `b` starts together with the three bytes after it: neither
overlong nor above U+10FFFF. -/
def char4? (b : UInt8) : List UInt8 → Option Char
  | b1 :: b2 :: b3 :: _ => do
    guard (0xF0 ≤ b && b < 0xF5)
    let x1 ← continuation? b1
    let x2 ← continuation? b2
    let x3 ← continuation? b3
    let n := (b.toNat - 0xF0) * 0x40000 + x1 * 0x1000 + x2 * 0x40 + x3
    guard (0x10000 ≤ n && n ≤ 0x10FFFF)
    return Char.ofNat n
  | _ => none

/-- The piece that starts with `b`, and how many of the bytes after `b` it takes. -/
def lead (b : UInt8) (rest : List UInt8) : Piece × Nat :=
  if b < 0x80 then (.char (Char.ofNat b.toNat), 0)
  else match char2? b rest with
    | some c => (.char c, 1)
    | none => match char3? b rest with
      | some c => (.char c, 2)
      | none => match char4? b rest with
        | some c => (.char c, 3)
        | none => (.stray b, 0)

/-- The pieces of a byte string whose first `skip` bytes are already spoken for. -/
def piecesFrom : Nat → List UInt8 → List Piece
  | _, [] => []
  | skip + 1, _ :: rest => piecesFrom skip rest
  | 0, b :: rest => (lead b rest).1 :: piecesFrom (lead b rest).2 rest

def pieces (bytes : List UInt8) : List Piece := piecesFrom 0 bytes

def bytes (s : String) : List UInt8 := s.toUTF8.toList

end Isel.Text.Utf8
