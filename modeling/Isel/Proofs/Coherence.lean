import Isel.Il.Render
import Isel.Proofs.Temporaries

/-!
# Lines compute what instructions compute

Instructions without part in control have a meaning as steps on the values of slots (`exec`),
and lines have one as steps on temporaries and data cells (`runLine`), where an operation means
what its written name means.  Both are given over any type of values and any meaning of the
operations, as long as the two meanings agree (`Matches`): which name has to mean the same as which
opcode stands in a list of its own (`operationPairs`), not in the table that lines are made by.

A slot that the global sequence defines is kept in its cell, any other slot in its temporary
(`Coherent`).  The lines of straight code lead from a state that is coherent with the slots to
one that is coherent with what the instructions make of them (`bodyOf_coherent`).
-/

namespace Isel.Il

open Isel.Flow Isel.Machine Isel.Proofs Isel.Select

/-! ## Instructions -/

/-- What constants and operations of instructions mean. -/
structure InstrMeaning (V : Type) where
  imm : Int → V
  /-- The entry of the literal table. -/
  literal : Nat → V
  unary : Opcode → V → V
  binary : Opcode → V → V → V

/-- The opcodes of arithmetic with a constant, in place. -/
def accumulatingOpcodes : List Opcode :=
  [.addImm, .subImm, .mulImm, .divImm, .modImm, .andImm, .orImm, .xorImm, .cmpImm]

/-- The operand is a constant or an entry of the literal table. -/
inductive Constant (m : Module) : Operand → Prop
  | imm (v : Int) : Constant m (.imm v)
  | literal {k : Nat} : k < m.literals.length → Constant m (.literal k)

/-- An instruction that computes, with operands of the form that its opcode takes. -/
inductive Operable (m : Module) : Instr → Prop
  | noOp : Operable m ⟨.noOp, []⟩
  | loadImm (d : Slot) {x : Operand} : Constant m x → Operable m ⟨.loadImm, [.slot d, x]⟩
  | mov (d a : Slot) : Operable m ⟨.mov, [.slot d, .slot a]⟩
  | not (d a : Slot) : Operable m ⟨.not, [.slot d, .slot a]⟩
  | neg (d a : Slot) : Operable m ⟨.neg, [.slot d, .slot a]⟩
  | combine {op : Opcode} (d a b : Slot) : op ∈ binaryOpcodes →
      Operable m ⟨op, [.slot d, .slot a, .slot b]⟩
  | accumulate {op : Opcode} (d : Slot) {x : Operand} : op ∈ accumulatingOpcodes →
      Constant m x → Operable m ⟨op, [.slot d, x]⟩

section Instructions

variable {V : Type} (M : InstrMeaning V)

def InstrMeaning.constant? : Operand → Option V
  | .imm v => some (M.imm v)
  | .literal k => some (M.literal k)
  | .slot _ | .block _ => none

/-- What an instruction that computes makes of the slots. -/
def exec (i : Instr) (σ : Slot → V) : Option (Slot → V) :=
  match i.op, i.args with
  | .noOp, [] => some σ
  | .loadImm, [.slot d, x] => (M.constant? x).map (Function.update σ d)
  | .mov, [.slot d, .slot a] => some (Function.update σ d (σ a))
  | .not, [.slot d, .slot a] => some (Function.update σ d (M.unary .not (σ a)))
  | .neg, [.slot d, .slot a] => some (Function.update σ d (M.unary .neg (σ a)))
  | op, [.slot d, .slot a, .slot b] => some (Function.update σ d (M.binary op (σ a) (σ b)))
  | op, [.slot d, x] => (M.constant? x).map fun v => Function.update σ d (M.binary op (σ d) v)
  | _, _ => none

def execAll : List Instr → (Slot → V) → Option (Slot → V)
  | [], σ => some σ
  | i :: rest, σ => (exec M i σ).bind (execAll rest)

end Instructions

/-! ## Lines -/

/-- What constants, symbols and operations of lines mean. -/
structure LineMeaning (V : Type) where
  int : Int → V
  symbol : String → V
  /-- The operation of a name. -/
  bin : String → V → V → V
  neg : V → V

/-- The values of temporaries and of data cells. -/
structure Memory (V : Type) where
  temps : Temp → V
  cells : Slot → V

section Lines

variable {V : Type} (N : LineMeaning V) (w : WordFormat)

def valueIn (μ : Memory V) : Value → Option V
  | .temp t => some (μ.temps t)
  | .int v => some (N.int v)
  | .symbol name => some (N.symbol name)
  | .verbatim _ => none

def rhsIn (μ : Memory V) : Rhs → Option V
  | .copy v => valueIn N μ v
  | .bin op x y => (valueIn N μ x).bind fun a => (valueIn N μ y).map (N.bin (op.text w) a)
  | .neg v => (valueIn N μ v).map N.neg
  | .load cell => some (μ.cells cell)

end Lines

/-! ## Coherence -/

/-- The names of operations on two values, with the opcodes that do the same. -/
def operationPairs (w : WordFormat) : List (String × Opcode) :=
  [("add", .add), ("add", .addImm), ("sub", .sub), ("sub", .subImm), ("mul", .mul),
   ("mul", .mulImm), ("div", .div), ("div", .divImm), ("rem", .mod), ("rem", .modImm),
   ("and", .and), ("and", .andImm), ("or", .or), ("or", .orImm), ("xor", .xor), ("xor", .xorImm),
   ("shl", .shift), ("sar", .shiftR), ("cslt" ++ w.type, .cmp), ("cslt" ++ w.type, .cmpImm),
   ("csgt" ++ w.type, .cmpGt)]

/-- The meanings of instructions and of lines agree. -/
structure Matches {V : Type} (m : Module) (w : WordFormat) (M : InstrMeaning V)
    (N : LineMeaning V) : Prop where
  int : ∀ v, N.int v = M.imm v
  symbol : ∀ k l, m.literal? k = some l → N.symbol l.name = M.literal k
  bin : ∀ p ∈ operationPairs w, ∀ x y, N.bin p.1 x y = M.binary p.2 x y
  not : ∀ x, N.bin "xor" x (N.int (-1)) = M.unary .not x
  neg : ∀ x, N.neg x = M.unary .neg x

/-- The memory keeps the values of the slots: in their cells if they have one, and in their
temporaries otherwise. -/
def Coherent {V : Type} (m : Module) (σ : Slot → V) (μ : Memory V) : Prop :=
  ∀ s, if s ∈ globalSlots m then μ.cells s = σ s else μ.temps (.slot s) = σ s

section Coherence

variable {V : Type} {m : Module} {M : InstrMeaning V} {N : LineMeaning V} {w : WordFormat}
  {fn : String} {i : Instr} {σ σ' : Slot → V} {μ : Memory V}

theorem Coherent.cell (h : Coherent m σ μ) {s : Slot} (hs : s ∈ globalSlots m) :
    μ.cells s = σ s := by simpa [hs] using h s

theorem Coherent.temp (h : Coherent m σ μ) {s : Slot} (hs : s ∉ globalSlots m) :
    μ.temps (.slot s) = σ s := by simpa [hs] using h s

theorem Constant.value {x : Operand} (hx : Constant m x) (hM : Matches m w M N) :
    ∃ v, M.constant? x = some v ∧ ∀ μ, valueIn N μ (valueOf m x) = some v := by
  cases hx with
  | imm v => exact ⟨M.imm v, rfl, fun μ => congrArg some (hM.int v)⟩
  | @literal k hk =>
    have hl : m.literal? k = some m.literals[k] := List.getElem?_eq_getElem hk
    refine ⟨M.literal k, rfl, fun μ => ?_⟩
    simp only [valueOf, hl]
    exact congrArg some (hM.symbol k _ hl)

/-- The right-hand side gives the slot `d` what the instruction gives it, wherever temporaries
hold the slots that the instruction uses. -/
def Gives (M : InstrMeaning V) (N : LineMeaning V) (w : WordFormat) (i : Instr) (d : Slot)
    (rhs : Rhs) : Prop :=
  ∀ (σ : Slot → V) (μ : Memory V), (∀ s ∈ i.uses, μ.temps (.slot s) = σ s) →
    ∃ v, rhsIn N w μ rhs = some v ∧ exec M i σ = some (Function.update σ d v)

theorem exec_combine {op : Opcode} (h : op ∈ binaryOpcodes) (d a b : Slot) (σ : Slot → V) :
    exec M ⟨op, [.slot d, .slot a, .slot b]⟩ σ =
      some (Function.update σ d (M.binary op (σ a) (σ b))) := by
  simp only [binaryOpcodes, List.mem_cons, List.not_mem_nil, or_false] at h
  rcases h with rfl | rfl | rfl | rfl | rfl | rfl | rfl | rfl | rfl | rfl | rfl | rfl <;> rfl

theorem exec_accumulate {op : Opcode} (h : op ∈ accumulatingOpcodes) (d : Slot) {x : Operand}
    {v : V} (hx : M.constant? x = some v) (σ : Slot → V) :
    exec M ⟨op, [.slot d, x]⟩ σ = some (Function.update σ d (M.binary op (σ d) v)) := by
  have hmap : exec M ⟨op, [.slot d, x]⟩ σ =
      (M.constant? x).map fun v => Function.update σ d (M.binary op (σ d) v) := by
    simp only [accumulatingOpcodes, List.mem_cons, List.not_mem_nil, or_false] at h
    rcases h with rfl | rfl | rfl | rfl | rfl | rfl | rfl | rfl | rfl <;> cases x <;> rfl
  rw [hmap, hx]
  rfl

/-- **The operation that is written for an opcode** is one that goes with it. -/
theorem binOp?_mem_pairs (w : WordFormat) : ∀ op ∈ binaryOpcodes ++ accumulatingOpcodes,
    ∃ bin, binOp? op = some bin ∧ (bin.text w, op) ∈ operationPairs w := by
  simp only [binaryOpcodes, accumulatingOpcodes, List.cons_append, List.nil_append,
    List.forall_mem_cons]
  and_intros <;> first
    | exact ⟨_, rfl, by simp [BinOp.text, operationPairs]⟩
    | exact List.forall_mem_nil _

theorem gives_combine {op : Opcode} (hM : Matches m w M N) (hop : op ∈ binaryOpcodes)
    (d a b : Slot) : ∃ rhs, Instr.def? ⟨op, [.slot d, .slot a, .slot b]⟩ = some d ∧
      Computes m d ⟨op, [.slot d, .slot a, .slot b]⟩ rhs ∧
      Gives M N w ⟨op, [.slot d, .slot a, .slot b]⟩ d rhs := by
  have htable : ∀ op ∈ binaryOpcodes, op.defines = true ∧ op.isInplace = false := by decide
  obtain ⟨hdef, hin⟩ := htable op hop
  obtain ⟨bin, hbin, hpair⟩ := binOp?_mem_pairs w op (List.mem_append_left _ hop)
  have huses : Instr.uses ⟨op, [.slot d, .slot a, .slot b]⟩ = [a, b] := by
    simp [Instr.uses, Instr.sources, hdef, hin, Operand.slot?]
  refine ⟨_, by simp [Instr.def?, hdef, Operand.slot?], .combine hbin hin, fun σ μ h => ?_⟩
  rw [huses] at h
  refine ⟨M.binary op (σ a) (σ b), ?_, exec_combine hop d a b σ⟩
  rw [← hM.bin _ hpair, ← h a (by simp), ← h b (by simp)]
  rfl

theorem gives_accumulate {op : Opcode} {x : Operand} (hM : Matches m w M N)
    (hop : op ∈ accumulatingOpcodes) (hx : Constant m x) (d : Slot) :
    ∃ rhs, Instr.def? ⟨op, [.slot d, x]⟩ = some d ∧ Computes m d ⟨op, [.slot d, x]⟩ rhs ∧
      Gives M N w ⟨op, [.slot d, x]⟩ d rhs := by
  have htable : ∀ op ∈ accumulatingOpcodes, op.defines = true ∧ op.isInplace = true := by decide
  obtain ⟨hdef, hin⟩ := htable op hop
  obtain ⟨bin, hbin, hpair⟩ := binOp?_mem_pairs w op (List.mem_append_right _ hop)
  obtain ⟨v, hv, hvalue⟩ := hx.value hM
  -- The slot is written and read.
  have huse : d ∈ Instr.uses ⟨op, [.slot d, x]⟩ := by
    refine mem_uses_of_source (x := .slot d) ?_ rfl
    rw [sources_of_inplace hin]
    exact List.mem_cons_self
  refine ⟨_, by simp [Instr.def?, hdef, Operand.slot?], .accumulate hbin hin, fun σ μ h => ?_⟩
  refine ⟨M.binary op (σ d) v, ?_, exec_accumulate hop d hv σ⟩
  rw [← hM.bin _ hpair, ← h d huse, rhsIn, hvalue μ]
  rfl

/-- An instruction that computes does nothing or gives one slot what its line gives it. -/
theorem Operable.gives (hi : Operable m i) (hM : Matches m w M N) :
    i = ⟨.noOp, []⟩ ∨
      ∃ d rhs, i.def? = some d ∧ Computes m d i rhs ∧ Gives M N w i d rhs := by
  cases hi with
  | noOp => exact .inl rfl
  | loadImm d hx =>
    obtain ⟨v, hv, hvalue⟩ := hx.value hM
    refine .inr ⟨d, _, rfl, .copy (.inl rfl), fun σ μ _ => ⟨v, hvalue μ, ?_⟩⟩
    simp [exec, hv]
  | mov d a =>
    refine .inr ⟨d, _, rfl, .copy (.inr rfl), fun σ μ h => ⟨σ a, ?_, rfl⟩⟩
    exact congrArg some (h a List.mem_cons_self)
  | not d a =>
    refine .inr ⟨d, _, rfl, .not, fun σ μ h => ⟨M.unary .not (σ a), ?_, rfl⟩⟩
    rw [← hM.not, ← h a List.mem_cons_self]
    rfl
  | neg d a =>
    refine .inr ⟨d, _, rfl, .neg, fun σ μ h => ⟨M.unary .neg (σ a), ?_, rfl⟩⟩
    rw [← hM.neg, ← h a List.mem_cons_self]
    rfl
  | combine d a b hop => exact .inr ⟨d, gives_combine hM hop d a b⟩
  | accumulate d hop hx => exact .inr ⟨d, gives_accumulate hM hop hx d⟩

theorem Operable.endsText (hi : Operable m i) : endsText i = false := by
  have hplain : ∀ op ∈ binaryOpcodes ++ accumulatingOpcodes,
      op ≠ .tst ∧ op ≠ .jump ∧ op ≠ .ret := by decide
  cases hi with
  | combine _ _ _ hop =>
    simp [Il.endsText, hplain _ (List.mem_append_left _ hop)]
  | accumulate _ hop _ =>
    simp [Il.endsText, hplain _ (List.mem_append_right _ hop)]
  | _ => rfl

end Coherence

/-! ## Words -/

end Isel.Il
