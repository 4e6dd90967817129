import Isel.Proofs.Execution
import Isel.Proofs.Lexical

/-!
# Evaluation by structure

What a program means can be said along its tree, without blocks and slots.  A variable
declaration binds the label of the declaration, and an identifier has the value of the
declaration that it is bound to.  Printed values are collected in order.

Loops need not end.  `exec` is given how many rounds each loop may make, and says so if
that was not enough (`Result.timeout`).  Calls and input have no meaning here.
-/

namespace Isel.Eval

open Isel.Syntax
open Isel.Scope (Bindings)
open Isel.Flow (Meaning)
open Isel.Machine (Opcode)

/-- What evaluation is given beside the program: the meaning of constants and operations,
the operations that the operators stand for, and what identifiers are bound to. -/
structure Reading (V : Type) where
  meaning : Meaning V
  ops : Token → Option Opcode
  bindings : Bindings

/-- The values of the declared variables. -/
abbrev Vars (V : Type) := Label → Option V

def Vars.set {V : Type} (vars : Vars V) (l : Label) (v : Option V) : Vars V :=
  fun k => if k = l then v else vars k

@[simp] theorem Vars.set_self {V : Type} (vars : Vars V) (l : Label) (v : Option V) :
    vars.set l v l = v := if_pos rfl

theorem Vars.set_ne {V : Type} {vars : Vars V} {k l : Label} {v : Option V} (h : k ≠ l) :
    vars.set l v k = vars k := if_neg h

theorem Vars.set_notMem {V : Type} {vars : Vars V} {l : Label} {v : Option V} {L : List Label}
    (hl : l ∈ L) : ∀ k, k ∉ L → vars.set l v k = vars k := by
  intro k hk
  refine Vars.set_ne ?_
  rintro rfl
  exact hk hl

/-- The values of the variables, and what was printed so far. -/
structure Mem (V : Type) where
  vars : Vars V
  out : List V

inductive Result (V : Type) where
  | next (σ : Mem V)
  | returned (value : Option V) (σ : Mem V)
  /-- A loop ran out of its rounds. -/
  | timeout
  /-- There is no meaning. -/
  | stuck

def Result.andThen {V : Type} (r : Result V) (f : Mem V → Result V) : Result V :=
  match r with
  | .next σ => f σ
  | .returned value σ => .returned value σ
  | .timeout => .timeout
  | .stuck => .stuck

/-- What a function returned and what it printed, if it came to an end. -/
def Result.end? {V : Type} : Result V → Option (Option V × List V)
  | .next σ => some (none, σ.out)
  | .returned value σ => some (value, σ.out)
  | .timeout | .stuck => none

section Eval

variable {V : Type} (R : Reading V)

def eval (vars : Vars V) : Node → Option V
  | .number _ value => some (R.meaning.imm value)
  | .boolean _ value => some (R.meaning.imm (if value then 1 else 0))
  | .string _ bytes => some (R.meaning.bytes bytes)
  | .ident tag _ => (R.bindings.find? tag.label).bind fun decl => vars decl.label
  | .binary _ op left right =>
    (eval vars left).bind fun v => (eval vars right).bind fun w =>
      (R.ops op).map fun opcode => R.meaning.binary opcode v w
  | _ => none

/-- A loop of so many rounds. -/
def rounds (test : Mem V → Option V) (body : Mem V → Result V) : Nat → Mem V → Result V
  | 0, _ => .timeout
  | k + 1, σ =>
    (test σ).elim .stuck fun v =>
      if R.meaning.truth v then (body σ).andThen (rounds test body k) else .next σ

mutual

/-- Executes a statement with so many rounds for each loop. -/
def exec (fuel : Nat) : Node → Mem V → Result V
  | .var tag _ _ .absent, σ => .next { σ with vars := σ.vars.set tag.label none }
  | .var tag _ _ init, σ =>
    (eval R σ.vars init).elim .stuck fun v =>
      .next { σ with vars := σ.vars.set tag.label (some v) }
  | .compound _ stmts, σ => execAll fuel stmts σ
  | .ifThen _ cond body, σ =>
    (eval R σ.vars cond).elim .stuck fun v =>
      if R.meaning.truth v then exec fuel body σ else .next σ
  | .loop _ cond body, σ => rounds R (fun σ => eval R σ.vars cond) (exec fuel body) fuel σ
  | .ret _ .absent, σ => .returned none σ
  | .ret _ expr, σ => (eval R σ.vars expr).elim .stuck fun v => .returned (some v) σ
  | .print _ expr, σ =>
    (eval R σ.vars expr).elim .stuck fun v => .next { σ with out := σ.out ++ [v] }
  | n, σ => (eval R σ.vars n).elim .stuck fun _ => .next σ

def execAll (fuel : Nat) : List Node → Mem V → Result V
  | [], σ => .next σ
  | n :: rest, σ => (exec fuel n σ).andThen (execAll fuel rest)

end

theorem exec_var {fuel : Nat} {tag : Tag} {name : String} {type : ValueType} {init : Node}
    (h : init ≠ .absent) (σ : Mem V) :
    exec R fuel (.var tag name type init) σ = (eval R σ.vars init).elim .stuck fun v =>
      .next { σ with vars := σ.vars.set tag.label (some v) } := by
  cases init with
  | absent => exact absurd rfl h
  | _ => rw [exec]; simp

theorem exec_ret {fuel : Nat} {tag : Tag} {expr : Node} (h : expr ≠ .absent) (σ : Mem V) :
    exec R fuel (.ret tag expr) σ =
      (eval R σ.vars expr).elim .stuck fun v => .returned (some v) σ := by
  cases expr with
  | absent => exact absurd rfl h
  | _ => rw [exec]; simp

/-- Evaluates the initialised variables of the program scope in order. -/
def initVars : List Node → Vars V → Option (Vars V)
  | [], vars => some vars
  | .var _ _ _ .absent :: rest, vars => initVars rest vars
  | .var tag _ _ init :: rest, vars =>
    (eval R vars init).bind fun v => initVars rest (vars.set tag.label (some v))
  | _ :: rest, vars => initVars rest vars

theorem initVars_var {tag : Tag} {name : String} {type : ValueType} {init : Node}
    (h : init ≠ .absent) (rest : List Node) (vars : Vars V) :
    initVars R (.var tag name type init :: rest) vars =
      (eval R vars init).bind fun v => initVars R rest (vars.set tag.label (some v)) := by
  cases init with
  | absent => exact absurd rfl h
  | _ => rw [initVars]; simp

def bindParams : List Node → List V → Vars V → Vars V
  | p :: params, v :: args, vars =>
    bindParams params args (p.label?.elim vars fun l => vars.set l (some v))
  | _, _, vars => vars

def call (fuel : Nat) (params : List Node) (body : Node) (args : List V) (vars : Vars V) :
    Result V := exec R fuel body ⟨bindParams params args vars, []⟩

end Eval

end Isel.Eval
