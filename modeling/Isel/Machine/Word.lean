import Isel.Fault
import Isel.Machine.Opcode

/-!
# Instruction words

A word holds the opcode in its top byte and then, by the form of the opcode,
three registers, or one register and an immediate, or an address:

    register form      [op:8][a:8][b:8][c:8]
    immediate form     [op:8][a:8][imm:16]
    address form       [op:8][ 0:8][imm:16]

`Fields.encode` refuses every value that the form has no place for, so that
nothing is lost, and `Word.decode` reads only the places that the form uses.
-/

namespace Isel.Machine

abbrev Word := BitVec 32

/-- The parts of a word.  Only those that the form of `op` uses have a meaning. -/
structure Fields where
  op : Opcode
  a : BitVec 8 := 0
  b : BitVec 8 := 0
  c : BitVec 8 := 0
  imm : BitVec 16 := 0
  deriving DecidableEq, Repr

/-- What the form of an opcode has no place for. -/
inductive Misfit where
  | takesNoOperands
  | usesRegisters
  | hasNoImmediate
  | packsImmediate
  deriving DecidableEq, Repr

inductive WordError where
  | unknownOpcode (byte : BitVec 8)
  | unknownInWord (word : Word)
  | misfit (op : Opcode) (cause : Misfit)
  deriving DecidableEq, Repr

namespace Word

def opcode (w : Word) : Opcode := .ofByte (w.extractLsb' 24 8)

def a (w : Word) : BitVec 8 := w.extractLsb' 16 8

def b (w : Word) : BitVec 8 := w.extractLsb' 8 8

def c (w : Word) : BitVec 8 := w.extractLsb' 0 8

def imm (w : Word) : BitVec 16 := w.extractLsb' 0 16

/-- Eight upper-case hexadecimal digits. -/
def text (w : Word) : String := Text.hex .upper 8 w.toNat

/-- A byte behind other bits, read as a number. -/
theorem toNat_append_byte {n : Nat} (x : BitVec n) (y : BitVec 8) :
    (x ++ y).toNat = x.toNat * 256 + y.toNat := by
  rw [BitVec.toNat_append, ← Nat.shiftLeft_add_eq_or_of_lt y.isLt, Nat.shiftLeft_eq]

def ofRegisters (op : Opcode) (a b c : BitVec 8) : Word := op.toByte ++ a ++ b ++ c

def ofImmediate (op : Opcode) (a : BitVec 8) (imm : BitVec 16) : Word := op.toByte ++ a ++ imm

end Word

def Misfit.message (op : Opcode) : Misfit → String
  | .takesNoOperands => op.text ++ " takes no operands"
  | .usesRegisters => op.text ++ " uses " ++ toString op.operands ++ " register(s)"
  | .hasNoImmediate => op.text ++ " has no immediate field"
  | .packsImmediate => op.text ++ " packs a 16-bit immediate"

def WordError.message : WordError → String
  | .unknownOpcode byte => "unknown opcode: 0x" ++ Text.hex .upper 2 byte.toNat
  | .unknownInWord w =>
    "unknown opcode: 0x" ++ Text.hex .upper 2 w.opcode.toByte.toNat ++ " in word " ++ w.text
  | .misfit op cause => "operand out of range: " ++ cause.message op

def WordError.category : WordError → Category
  | .unknownOpcode _ | .unknownInWord _ => .unknownOpcode
  | .misfit _ _ => .operandRange

namespace Fields

/-- Register `i` of the fields, counted from zero. -/
def reg (f : Fields) : Nat → BitVec 8
  | 0 => f.a
  | 1 => f.b
  | _ => f.c

/-- The first `n` registers, each with its own name. -/
def registerTexts (f : Fields) (n : Nat) : List String :=
  ([f.a, f.b, f.c].take n).map fun r => "r" ++ toString r.toNat

def text (f : Fields) : String :=
  match f.op.form with
  | .none => f.op.text
  | .reg =>
    if f.op.operands = 0 then f.op.text
    else f.op.text ++ " " ++ String.intercalate ", " (f.registerTexts f.op.operands)
  | .regImm => f.op.text ++ " r" ++ toString f.a.toNat ++ ", #" ++ toString f.imm.toNat
  | .addr => f.op.text ++ " 0x" ++ Text.hex .upper 4 f.imm.toNat

/-- **Packing.**  A value in a place that the form does not have is refused. -/
def encode (f : Fields) : Except WordError Word :=
  match f.op.info? with
  | none => .error (.unknownOpcode f.op.toByte)
  | some info =>
    match info.form with
    | .none =>
      if f.a = 0 ∧ f.b = 0 ∧ f.c = 0 ∧ f.imm = 0 then .ok (.ofRegisters f.op 0 0 0)
      else .error (.misfit f.op .takesNoOperands)
    | .reg =>
      if ([f.a, f.b, f.c].drop info.operands).any (· != 0) then .error (.misfit f.op .usesRegisters)
      else if f.imm ≠ 0 then .error (.misfit f.op .hasNoImmediate)
      else .ok (.ofRegisters f.op f.a f.b f.c)
    | .regImm =>
      if f.b = 0 ∧ f.c = 0 then .ok (.ofImmediate f.op f.a f.imm)
      else .error (.misfit f.op .packsImmediate)
    | .addr =>
      if f.a = 0 ∧ f.b = 0 ∧ f.c = 0 then .ok (.ofImmediate f.op 0 f.imm)
      else .error (.misfit f.op .packsImmediate)

end Fields

/-- **Unpacking.**  Places that the form does not use are read as zero. -/
def Word.decode (w : Word) : Except WordError Fields :=
  match w.opcode.info? with
  | none => .error (.unknownInWord w)
  | some info =>
    match info.form with
    | .none => .ok { op := w.opcode }
    | .reg =>
      .ok
        { op := w.opcode
          a := if 0 < info.operands then w.a else 0
          b := if 1 < info.operands then w.b else 0
          c := if 2 < info.operands then w.c else 0 }
    | .regImm => .ok { op := w.opcode, a := w.a, imm := w.imm }
    | .addr => .ok { op := w.opcode, imm := w.imm }

end Isel.Machine
