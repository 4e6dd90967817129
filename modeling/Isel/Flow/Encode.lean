import Isel.Fault
import Isel.Flow.Instr
import Isel.Machine.Word

/-!
# From instructions to words

An instruction is packed if its operands match the form of its opcode, its slots
fit a register field, its constant fits 16 bits, and its block has an address.
Addresses are given from outside (`Resolver`).
-/

namespace Isel.Flow

open Isel.Machine

/-- The addresses of blocks, as far as they are known. -/
abbrev Resolver := BlockRef → Option (BitVec 16)

inductive Mismatch where
  | operands
  | registers (wanted : Nat)
  | registerAndImmediate
  | oneTarget
  | notSlot (arg : Operand)
  deriving DecidableEq, Repr

inductive EncodeError where
  | word (e : WordError)
  | mismatch (i : Instr) (m : Mismatch)
  | slotRange (i : Instr) (s : Slot)
  | immRange (i : Instr)
  | unresolved (target : BlockRef)
  deriving DecidableEq, Repr

namespace EncodeError

def message (names : Names) : EncodeError → String
  | .word e => e.message
  | .mismatch i .operands => "operands do not match opcode form: " ++ i.text names
  | .mismatch i (.registers n) =>
    "operands do not match opcode form: " ++ i.text names ++ " wants " ++ toString n ++ " register(s)"
  | .mismatch i .registerAndImmediate =>
    "operands do not match opcode form: " ++ i.text names ++ " wants a register and an immediate"
  | .mismatch i .oneTarget =>
    "operands do not match opcode form: " ++ i.text names ++ " wants one block target"
  | .mismatch i (.notSlot arg) =>
    i.text names ++ ": operands do not match opcode form: " ++ arg.text names ++ " is not a slot"
  | .slotRange i s =>
    i.text names ++ ": slot does not fit a register field: " ++ (Operand.slot s).text names
  | .immRange i => i.text names ++ ": immediate does not fit 16 bits"
  | .unresolved target => "unresolved block target: " ++ names target

def category : EncodeError → Category
  | .word e => e.category
  | .mismatch .. => .operandMismatch
  | .slotRange .. => .slotRange
  | .immRange _ => .immRange
  | .unresolved _ => .unresolvedTarget

end EncodeError

/-- The number has a 16-bit form, signed or unsigned. -/
def fits16 (v : Int) : Bool := -0x8000 ≤ v && v ≤ 0xFFFF

namespace Instr

def register (i : Instr) : Operand → Except EncodeError (BitVec 8)
  | .slot s => if s ≤ 0xFF then .ok (BitVec.ofNat 8 s) else .error (.slotRange i s)
  | arg => .error (.mismatch i (.notSlot arg))

def immediate (i : Instr) : Operand → Except EncodeError (BitVec 16)
  | .imm v => if fits16 v then .ok (BitVec.ofInt 16 v) else .error (.immRange i)
  | .literal n => if n ≤ 0xFFFF then .ok (BitVec.ofNat 16 n) else .error (.immRange i)
  | _ => .error (.mismatch i .operands)

def fields (resolve : Resolver) (i : Instr) : Except EncodeError Fields :=
  match i.op.info? with
  | none => .error (.word (.unknownOpcode i.op.toByte))
  | some info =>
    match info.form with
    | .none => if i.args.isEmpty then .ok { op := i.op } else .error (.mismatch i .operands)
    | .reg =>
      if i.args.length = info.operands then do
        let regs ← i.args.mapM i.register
        return { op := i.op, a := regs.getD 0 0, b := regs.getD 1 0, c := regs.getD 2 0 }
      else .error (.mismatch i (.registers info.operands))
    | .regImm =>
      match i.args with
      | [r, v] => do return { op := i.op, a := ← i.register r, imm := ← i.immediate v }
      | _ => .error (.mismatch i .registerAndImmediate)
    | .addr =>
      match i.args with
      | [.block (some target)] =>
        match resolve target with
        | some address => .ok { op := i.op, imm := address }
        | none => .error (.unresolved target)
      | _ => .error (.mismatch i .oneTarget)

def encode (resolve : Resolver) (i : Instr) : Except EncodeError Word := do
  match (← i.fields resolve).encode with
  | .ok w => return w
  | .error e => throw (.word e)

end Instr

end Isel.Flow
