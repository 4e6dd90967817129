import Isel.Fault
import Isel.Flow.Instr

/-!
# Hooks

The selector does not know how values cross a call, nor how they are printed and
read.  Where one of these comes up it makes a request, and a hook answers with
the instructions to put there, or refuses.  A hook may take the requests answered
before into account.

* `Hook.refuse`: nothing is supported.
* `Hook.stack`: values cross a call on the machine stack.
-/

namespace Isel.Select

open Isel.Flow

/-- What the selector asks for. -/
inductive Request where
  /-- Parameters arrive, at the entry of a function. -/
  | paramsIn (params : List Slot)
  /-- Arguments leave, right before a call. -/
  | argsOut (args : List Slot)
  /-- A result arrives, right behind a call. -/
  | resultIn (dst : Slot)
  /-- A result leaves, right before a return. -/
  | resultOut (value : Slot)
  | print (value : Slot)
  | scan (target : Slot)
  deriving DecidableEq, Repr

namespace Request

def isIO : Request → Bool
  | .print _ | .scan _ => true
  | _ => false

/-- The construct that a request stands for. -/
def construct : Request → String
  | .paramsIn _ => "function parameters"
  | .argsOut _ => "call arguments"
  | .resultIn _ => "call result"
  | .resultOut _ => "return value"
  | .print _ => "print statement"
  | .scan _ => "scan statement"

def printed? : Request → Option Slot
  | .print value => some value
  | _ => none

def scanned? : Request → Option Slot
  | .scan target => some target
  | _ => none

end Request

structure HookFault where
  message : String
  categories : List Category := []
  deriving DecidableEq, Repr

/-- Answers a request, given the requests answered before. -/
abbrev Hook := List Request → Request → Except HookFault (List Instr)

namespace Hook

/-- Supports nothing. -/
def refuse : Hook := fun _ r => .error ⟨"unsupported construct: " ++ r.construct, [.unsupported]⟩

/-- The instructions that move values over the stack.  Arguments are pushed from left
to right and popped in reverse; a result is pushed by the callee and popped by the
caller. -/
def stackInstrs : Request → List Instr
  | .paramsIn params => params.reverse.map fun s => ⟨.pop, [.slot s]⟩
  | .argsOut args => args.map fun s => ⟨.push, [.slot s]⟩
  | .resultIn dst => [⟨.pop, [.slot dst]⟩]
  | .resultOut value => [⟨.push, [.slot value]⟩]
  | .print _ | .scan _ => []

/-- Values cross a call on the machine stack. -/
def stack : Hook := fun _ r => .ok (stackInstrs r)

end Hook

/-- The two hooks of a selection. -/
structure Hooks where
  /-- How values cross a call. -/
  convention : Hook := .refuse
  /-- How values are printed and read. -/
  io : Hook := .refuse

def Hooks.answer (h : Hooks) : Hook := fun served r =>
  if r.isIO then h.io served r else h.convention served r

end Isel.Select
