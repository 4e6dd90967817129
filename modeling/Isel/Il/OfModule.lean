import Isel.Flow.Module
import Isel.Il.Line

/-!
# Modules in the intermediate language

Every value slot becomes a temporary.  A slot that the global sequence defines
lives in a data cell, so that functions can read it: an instruction that reads
such a slot loads it before, one that writes it stores it behind.  The global
sequence becomes a function of its own.

A block ends at its first `TST`, `JUMP` or `RET`; what stands behind is dropped.
A `TST` takes the two jumps behind it with it.

The text does not depend on the configuration; only the way it is written does.
-/

namespace Isel.Il

open Isel.Flow

/-- The function that runs the global sequence. -/
def initFunction : String := "__tos_init"

/-- Why an instruction has no place in the language. -/
inductive Cause where
  /-- A test without its two jumps. -/
  | looseTest
  /-- A test against something else than a constant. -/
  | noImmediate (i : Instr)
  /-- A call of something else than a function. -/
  | notEntry (target : Option BlockRef)
  | noLowering (i : Instr)
  deriving DecidableEq, Repr

inductive Stop where
  | fault (function : String) (cause : Cause)
  /-- An operand is missing, or a jump that leads nowhere is taken. -/
  | malformed
  deriving DecidableEq, Repr

def Cause.message (names : Names) : Cause → String
  | .looseTest => "TST must be followed by two jumps"
  | .noImmediate i => i.text names ++ " has no immediate"
  | .notEntry target => "call target " ++ targetText names target ++ " is not a function entry"
  | .noLowering i => "no QBE lowering for " ++ i.text names

/-- What is said about a stop; nothing about a malformed instruction. -/
def Stop.message? (names : Names) : Stop → Option String
  | .fault function cause => some (function ++ ": " ++ cause.message names)
  | .malformed => none

def globalSlots (m : Module) : List Slot := m.globals.filterMap Instr.def?

def valueOf (m : Module) : Operand → Value
  | .slot s => .temp (.slot s)
  | .imm v => .int v
  | .literal index =>
    match m.literal? index with
    | some l => .symbol l.name
    | none => .verbatim ((Operand.literal index).text m.blockName)
  | .block target => .verbatim (targetText m.blockName target)

def binOp? : Machine.Opcode → Option BinOp
  | .add | .addImm => some .add
  | .sub | .subImm => some .sub
  | .mul | .mulImm => some .mul
  | .div | .divImm => some .div
  | .mod | .modImm => some .rem
  | .and | .andImm => some .and
  | .or | .orImm => some .or
  | .xor | .xorImm => some .xor
  | .shift => some .shl
  | .shiftR => some .sar
  | .cmp | .cmpImm => some .less
  | .cmpGt => some .greater
  | _ => none

def rhsOf (m : Module) (fn : String) (dst : Slot) (i : Instr) : Except Stop Rhs :=
  match i.op, i.args with
  | .loadImm, _ :: x :: _ | .mov, _ :: x :: _ => .ok (.copy (valueOf m x))
  | .not, _ :: x :: _ => .ok (.bin .xor (valueOf m x) (.int (-1)))
  | .neg, _ :: x :: _ => .ok (.neg (valueOf m x))
  | .loadImm, _ | .mov, _ | .not, _ | .neg, _ => .error .malformed
  | op, args =>
    match binOp? op with
    | none => .error (.fault fn (.noLowering i))
    | some bin =>
      if op.isInplace then
        match args with
        | _ :: x :: _ => .ok (.bin bin (.temp (.slot dst)) (valueOf m x))
        | _ => .error .malformed
      else
        match args with
        | _ :: x :: y :: _ => .ok (.bin bin (valueOf m x) (valueOf m y))
        | _ => .error .malformed

def loadLines (m : Module) (i : Instr) : List Line :=
  (i.uses.filter (globalSlots m).contains).map fun s => .assign (.slot s) (.load s)

def storeLines (m : Module) (i : Instr) : List Line :=
  (i.def?.toList.filter (globalSlots m).contains).map fun s => .store (.slot s) s

/-- The lines of an instruction that control falls past, loads and stores apart. -/
def effectLines (m : Module) (fn : String) (i : Instr) : Except Stop (List Line) :=
  match i.op with
  | .noOp => .ok []
  | .call =>
    match m.functionAt? i.target? with
    | some f => .ok [.call f.name]
    | none => .error (.fault fn (.notEntry i.target?))
  | _ =>
    match i.def? with
    | some dst => do return [.assign (.slot dst) (← rhsOf m fn dst i)]
    | none => .error (.fault fn (.noLowering i))

/-- The lines of an instruction that control falls past. -/
def straightLines (m : Module) (fn : String) (i : Instr) : Except Stop (List Line) := do
  return loadLines m i ++ (← effectLines m fn i) ++ storeLines m i

/-- The instruction ends the text of its block. -/
def endsText (i : Instr) : Bool := i.op == .tst || i.op == .jump || i.op == .ret

def labelOf (m : Module) (i : Instr) : Except Stop String :=
  match i.target? with
  | some r => .ok (m.blockName r)
  | none => .error .malformed

def jumpPair? : List Instr → Option (Instr × Instr)
  | yes :: no :: _ => if yes.op = .jump ∧ no.op = .jump then some (yes, no) else none
  | _ => none

/-- The test of an operand against a constant, and the jump on its outcome. -/
def testLines (m : Module) (fn : String) (flag : Nat) (i yes no : Instr) :
    Except Stop (List Line) :=
  match i.args with
  | x :: .imm v :: _ => do
    let yes ← labelOf m yes
    let no ← labelOf m no
    return [.assign (.flag flag) (.bin .and (valueOf m x) (.int v)), .jnz (.flag flag) yes no]
  | _ :: _ :: _ => .error (.fault fn (.noImmediate i))
  | _ => .error .malformed

/-- The lines of an instruction that ends the text of its block, the next ones being
`rest`. -/
def endLines (m : Module) (fn : String) (flag : Nat) (i : Instr) (rest : List Instr) :
    Except Stop (List Line) :=
  match i.op with
  | .jump => do return loadLines m i ++ [.jmp (← labelOf m i)]
  | .ret => .ok (loadLines m i ++ [.ret])
  | _ =>
    match jumpPair? rest with
    | some (yes, no) => do return loadLines m i ++ (← testLines m fn flag i yes no)
    | none => .error (.fault fn .looseTest)

structure Body where
  lines : List Line := []
  /-- Control does not fall past the last line. -/
  ended : Bool := false
  /-- How many tests were numbered, this block included. -/
  flags : Nat
  deriving DecidableEq, Repr

/-- The lines of the instructions of a block, `flag` being the next number of a
test. -/
def bodyOf (m : Module) (fn : String) (flag : Nat) : List Instr → Except Stop Body
  | [] => .ok { flags := flag }
  | i :: rest =>
    if endsText i then do
      let lines ← endLines m fn flag i rest
      return { lines, ended := true, flags := if i.op = .tst then flag + 1 else flag }
    else do
      let lines ← straightLines m fn i
      let body ← bodyOf m fn flag rest
      return { body with lines := lines ++ body.lines }

/-- The slots that a function reads and neither it nor the global sequence defines, in
order of their first use. -/
def undefinedSlots (m : Module) (instrs : List Instr) : List Slot :=
  let defined := instrs.filterMap Instr.def? ++ globalSlots m
  ((instrs.flatMap Instr.uses).eraseDups).filter fun s => !defined.contains s

/-- The sections of the blocks of a function, and the next number of a test.  Control
that falls off the end returns. -/
def sectionsOf (m : Module) (fn : String) (flag : Nat) :
    List (String × List Instr) → Except Stop (List Section × Nat)
  | [] => .ok ([], flag)
  | (label, instrs) :: rest => do
    let body ← bodyOf m fn flag instrs
    let (sections, flag) ← sectionsOf m fn body.flags rest
    let tail := if !body.ended && rest.isEmpty then [Line.ret] else []
    return (⟨label, body.lines ++ tail⟩ :: sections, flag)

def prependLines (lines : List Line) : List Section → List Section
  | [] => []
  | s :: rest => { s with lines := lines ++ s.lines } :: rest

/-- A function from its labelled blocks.  Slots that nothing defines start as zero. -/
def functionOf (m : Module) (name : String) (flag : Nat) (blocks : List (String × List Instr)) :
    Except Stop (Function × Nat) := do
  let (sections, flag) ← sectionsOf m name flag blocks
  let zeros := (undefinedSlots m (blocks.flatMap Prod.snd)).map fun s =>
    Line.assign (.slot s) (.copy (.int 0))
  return (⟨name, prependLines zeros sections⟩, flag)

/-- The functions of a module with their labelled blocks; the global sequence is the
first if it is not empty. -/
def sourcesOf (m : Module) : List (String × List (String × List Instr)) :=
  (if m.globals.isEmpty then [] else [(initFunction, [("start", m.globals)])]) ++
    m.functions.map fun f => (f.name, (m.graph f.graph).blocks.map fun b => (b.name, b.instrs))

/-- The functions in order, `flag` being the next number of a test. -/
def functionsOf (m : Module) (flag : Nat) :
    List (String × List (String × List Instr)) → Except Stop (List Function)
  | [] => .ok []
  | (name, blocks) :: rest => do
    let (function, flag) ← functionOf m name flag blocks
    return function :: (← functionsOf m flag rest)

/-- **The text of a module.** -/
def ofModule (m : Module) : Except Stop Text := do
  return {
    literals := m.literals.map fun l => (l.name, l.bytes)
    cells := (globalSlots m).eraseDups.mergeSort fun s t => decide (s ≤ t)
    functions := ← functionsOf m 0 (sourcesOf m) }

end Isel.Il
