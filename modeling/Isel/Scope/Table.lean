import Isel.Syntax.Node

/-!
# Symbols, scopes and the table of a program

A scope is a list of symbols with different names.  An environment is the stack
of scopes that are open at a place of the program, the program scope at its
bottom.  The table says which names are functions and which are variables of the
program scope.
-/

namespace Isel.Scope

open Isel.Syntax

/-- What a name stands for. -/
inductive Role where
  | var
  | param
  | function
  deriving DecidableEq, Repr

structure Symbol where
  name : String
  role : Role
  decl : Decl
  deriving DecidableEq, Repr

/-- The symbols of one scope, latest first. -/
abbrev Frame := List Symbol

def Frame.find? (f : Frame) (name : String) : Option Symbol := List.find? (·.name == name) f

structure Env where
  /-- The innermost scope. -/
  frame : Frame := []
  /-- The enclosing scopes, innermost first. -/
  outer : List Frame := []
  deriving Repr

namespace Env

/-- The symbol of a name in the innermost scope that has it. -/
def find? (e : Env) (name : String) : Option Symbol :=
  (e.frame :: e.outer).findSome? fun f => Frame.find? f name

/-- The innermost scope is not the program scope. -/
def isNested (e : Env) : Bool := !e.outer.isEmpty

def enter (e : Env) (frame : Frame) : Env := ⟨frame, e.frame :: e.outer⟩

def declare (e : Env) (symbol : Symbol) : Env := { e with frame := symbol :: e.frame }

end Env

structure Table where
  /-- Function names, each once, in order of declaration. -/
  functions : List String := []
  /-- Names of variables of the program scope, each once, in order of declaration. -/
  globals : List String := []
  deriving DecidableEq, Repr

namespace Table

def isFunction (t : Table) (name : String) : Bool := t.functions.contains name

def isGlobal (t : Table) (name : String) : Bool := t.globals.contains name

def addFunction (t : Table) (name : String) : Table :=
  if t.isFunction name then t else { t with functions := t.functions ++ [name] }

def addGlobal (t : Table) (name : String) : Table :=
  if t.isGlobal name then t else { t with globals := t.globals ++ [name] }

/-- The function names in alphabetical order. -/
def sortedFunctions (t : Table) : List String := t.functions.mergeSort fun a b => decide (a ≤ b)

end Table

end Isel.Scope
