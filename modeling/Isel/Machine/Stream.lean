import Isel.Machine.Word

/-!
# Word streams

Words are written one after the other, each as four bytes with the opcode byte
first.  Reading accepts exactly the byte strings whose length is a multiple of
four.
-/

namespace Isel.Machine.Stream

/-- The four bytes of a word, most significant first. -/
def bytesOfWord (w : Word) : List UInt8 :=
  [⟨w.extractLsb' 24 8⟩, ⟨w.a⟩, ⟨w.b⟩, ⟨w.c⟩]

/-- The word of four bytes, the most significant first. -/
def wordOfBytes (b0 b1 b2 b3 : UInt8) : Word :=
  b0.toBitVec ++ b1.toBitVec ++ b2.toBitVec ++ b3.toBitVec

theorem wordOfBytes_fields (w : Word) :
    wordOfBytes ⟨w.extractLsb' 24 8⟩ ⟨w.a⟩ ⟨w.b⟩ ⟨w.c⟩ = w := by
  apply BitVec.eq_of_toNat_eq
  have := w.isLt
  simp only [wordOfBytes, Word.a, Word.b, Word.c]
  rw [Word.toNat_append_byte, Word.toNat_append_byte, Word.toNat_append_byte]
  simp only [BitVec.extractLsb'_toNat, Nat.shiftRight_eq_div_pow]
  omega

def write (words : List Word) : List UInt8 := words.flatMap bytesOfWord

/-- The words of a byte string that is cut into fours without a rest. -/
def read? : List UInt8 → Option (List Word)
  | [] => some []
  | b0 :: b1 :: b2 :: b3 :: rest => (read? rest).map (wordOfBytes b0 b1 b2 b3 :: ·)
  | _ => none

/-- A byte string whose length is no multiple of four. -/
structure Ragged where
  length : Nat
  deriving DecidableEq, Repr

def Ragged.message (e : Ragged) : String :=
  "instruction stream length " ++ toString e.length ++ " is not a multiple of 4"

def read (bytes : List UInt8) : Except Ragged (List Word) :=
  match read? bytes with
  | some words => .ok words
  | none => .error ⟨bytes.length⟩

end Isel.Machine.Stream
