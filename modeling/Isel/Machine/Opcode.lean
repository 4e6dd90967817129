import Isel.Text.Hex

/-!
# Opcodes

An opcode is the most significant byte of an instruction word.  37 of the 256
bytes are assigned to an operation; `Opcode.info?` is the table that classifies
each of them, and every query below reads that table.  A byte outside the table
is still an opcode that an instruction can carry (`Opcode.unassigned`): it has no
classification and cannot be packed.

* `Opcode.ofByte`, `Opcode.toByte`: the numbering, one the inverse of the other
  on bytes (`Opcode.toByte_ofByte`).
* `Opcode.info?`: name, operand form and the four properties of an operation.
-/

namespace Isel.Machine

inductive Opcode where
  | noOp
  | jump
  | call
  | ret
  | loadImm
  | mov
  | store
  | push
  | pop
  | pushAll
  | popAll
  | addImm
  | add
  | subImm
  | sub
  | cmpImm
  | cmp
  | cmpGt
  | andImm
  | and
  | tst
  | orImm
  | or
  | xorImm
  | xor
  | mulImm
  | mul
  | divImm
  | div
  | shift
  | shiftR
  | modImm
  | mod
  | notImm
  | not
  | negImm
  | neg
  /-- A byte that names no operation. -/
  | unassigned (byte : BitVec 8)
  deriving DecidableEq, Repr

/-- The layout of the three bytes behind the opcode. -/
inductive Form where
  /-- All three bytes are zero. -/
  | none
  /-- Up to three register fields. -/
  | reg
  /-- One register field and a 16-bit immediate. -/
  | regImm
  /-- A 16-bit address in place of the immediate, and no register. -/
  | addr
  deriving DecidableEq, Repr

namespace Form

/-- The forms in the order of their numbers. -/
def ofCode? : BitVec 8 → Option Form
  | 0 => some .none
  | 1 => some .reg
  | 2 => some .regImm
  | 3 => some .addr
  | _ => Option.none

def text : Form → String
  | .none => "none"
  | .reg => "reg"
  | .regImm => "reg-imm"
  | .addr => "addr"

/-- The text of a form number; a number without a form is named as such. -/
def textOfCode (code : BitVec 8) : String :=
  match ofCode? code with
  | some f => f.text
  | Option.none => "Form(" ++ toString code.toNat ++ ")"

end Form

namespace Opcode

/-- The classification of an assigned opcode. -/
structure Info where
  name : String
  form : Form
  /-- How many register fields are in use. -/
  operands : Nat := 0
  /-- The operation is arithmetic or logic. -/
  arith : Bool := false
  /-- The first register is both source and destination. -/
  inplace : Bool := false
  /-- The operation writes its first register. -/
  defines : Bool := false
  deriving DecidableEq, Repr

/-- Arithmetic of a register with an immediate, in place. -/
def Info.accumulate (name : String) : Info := ⟨name, .regImm, 1, true, true, true⟩

/-- Arithmetic of two registers into a third. -/
def Info.combine (name : String) : Info := ⟨name, .reg, 3, true, false, true⟩

/-- **The opcode table.** -/
def info? : Opcode → Option Info
  | .noOp => some ⟨"NO_OP", .none, 0, false, false, false⟩
  | .jump => some ⟨"JUMP", .addr, 0, false, false, false⟩
  | .call => some ⟨"CALL", .addr, 0, false, false, false⟩
  | .ret => some ⟨"RET", .none, 0, false, false, false⟩
  | .loadImm => some ⟨"LOAD_IMM", .regImm, 1, false, false, true⟩
  | .mov => some ⟨"MOV", .reg, 2, false, false, true⟩
  | .store => some ⟨"STORE", .reg, 2, false, false, false⟩
  | .push => some ⟨"PUSH", .reg, 1, false, false, false⟩
  | .pop => some ⟨"POP", .reg, 1, false, false, true⟩
  | .pushAll => some ⟨"PUSHALL", .none, 0, false, false, false⟩
  | .popAll => some ⟨"POPALL", .none, 0, false, false, false⟩
  | .addImm => some (.accumulate "ADD_IMM")
  | .add => some (.combine "ADD")
  | .subImm => some (.accumulate "SUB_IMM")
  | .sub => some (.combine "SUB")
  | .cmpImm => some (.accumulate "CMP_IMM")
  | .cmp => some (.combine "CMP")
  | .cmpGt => some (.combine "CMP_GT")
  | .andImm => some (.accumulate "AND_IMM")
  | .and => some (.combine "AND")
  | .tst => some ⟨"TST", .regImm, 1, false, false, false⟩
  | .orImm => some (.accumulate "OR_IMM")
  | .or => some (.combine "OR")
  | .xorImm => some (.accumulate "XOR_IMM")
  | .xor => some (.combine "XOR")
  | .mulImm => some (.accumulate "MUL_IMM")
  | .mul => some (.combine "MUL")
  | .divImm => some (.accumulate "DIV_IMM")
  | .div => some (.combine "DIV")
  | .shift => some (.combine "SHIFT")
  | .shiftR => some (.combine "SHIFT_R")
  | .modImm => some (.accumulate "MOD_IMM")
  | .mod => some (.combine "MOD")
  | .notImm => some ⟨"NOT_IMM", .regImm, 1, true, false, true⟩
  | .not => some ⟨"NOT", .reg, 2, true, false, true⟩
  | .negImm => some ⟨"NEG_IMM", .regImm, 1, true, false, true⟩
  | .neg => some ⟨"NEG", .reg, 2, true, false, true⟩
  | .unassigned _ => none

def toByte : Opcode → BitVec 8
  | .noOp => 0x00
  | .jump => 0x10
  | .call => 0x14
  | .ret => 0x15
  | .loadImm => 0x20
  | .mov => 0x24
  | .store => 0x30
  | .push => 0x40
  | .pop => 0x41
  | .pushAll => 0x42
  | .popAll => 0x43
  | .addImm => 0x50
  | .add => 0x52
  | .subImm => 0x60
  | .sub => 0x62
  | .cmpImm => 0x63
  | .cmp => 0x64
  | .cmpGt => 0x65
  | .andImm => 0x70
  | .and => 0x72
  | .tst => 0x74
  | .orImm => 0x80
  | .or => 0x82
  | .xorImm => 0x90
  | .xor => 0x92
  | .mulImm => 0xA0
  | .mul => 0xA2
  | .divImm => 0xB0
  | .div => 0xB2
  | .shift => 0xC0
  | .shiftR => 0xC1
  | .modImm => 0xD0
  | .mod => 0xD2
  | .notImm => 0xE0
  | .not => 0xE2
  | .negImm => 0xF0
  | .neg => 0xF2
  | .unassigned byte => byte

/-- The assigned opcodes in ascending order of their bytes. -/
def assigned : List Opcode :=
  [.noOp, .jump, .call, .ret, .loadImm, .mov, .store, .push, .pop, .pushAll, .popAll, .addImm, .add,
    .subImm, .sub, .cmpImm, .cmp, .cmpGt, .andImm, .and, .tst, .orImm, .or, .xorImm, .xor, .mulImm,
    .mul, .divImm, .div, .shift, .shiftR, .modImm, .mod, .notImm, .not, .negImm, .neg]

def ofByte (byte : BitVec 8) : Opcode :=
  (assigned.find? fun op => op.toByte == byte).getD (.unassigned byte)

/-- The opcode of a mnemonic such as `ADD_IMM`. -/
def ofName? (name : String) : Option Opcode :=
  assigned.find? fun op => op.info?.any fun i => i.name == name

def isAssigned (op : Opcode) : Bool := op.info?.isSome

/-- The operand form; an unassigned opcode takes no operands. -/
def form (op : Opcode) : Form := op.info?.elim .none Info.form

def operands (op : Opcode) : Nat := op.info?.elim 0 Info.operands

def isArith (op : Opcode) : Bool := op.info?.any Info.arith

def isInplace (op : Opcode) : Bool := op.info?.any Info.inplace

/-- The operation writes its first register. -/
def defines (op : Opcode) : Bool := op.info?.any Info.defines

def usesImmediate (op : Opcode) : Bool := op.form == .regImm || op.form == .addr

def isBranch (op : Opcode) : Bool := op == .jump || op == .call

def isTerminator (op : Opcode) : Bool := op == .ret || op == .jump

/-- The mnemonic; the byte `FF` is the sentinel `UNKNOWN`. -/
def text (op : Opcode) : String :=
  match op.info? with
  | some i => i.name
  | none =>
    if op.toByte = 0xFF then "UNKNOWN" else "Opcode(0x" ++ Text.hex .upper 2 op.toByte.toNat ++ ")"

theorem toByte_ofByte (byte : BitVec 8) : (ofByte byte).toByte = byte := by
  unfold ofByte
  cases h : assigned.find? fun op => op.toByte == byte with
  | none => rfl
  | some op => simpa using List.find?_some h

theorem ofByte_toByte {op : Opcode} (h : op.isAssigned) : ofByte op.toByte = op := by
  cases op <;> first | rfl | simp [isAssigned, info?] at h

end Opcode

end Isel.Machine
