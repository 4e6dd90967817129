import Isel.Syntax.Node

/-!
# Bindings

Which declaration an identifier refers to.  Bindings are kept beside the tree, by
the label of the identifier; to bind an identifier again replaces its
declaration.
-/

namespace Isel.Scope

open Isel.Syntax

/-- Identifier and declaration, latest first. -/
structure Bindings where
  entries : List (Label × Decl) := []
  deriving Repr

namespace Bindings

def find? (b : Bindings) (ident : Label) : Option Decl := b.entries.lookup ident

def bind (b : Bindings) (ident : Label) (decl : Decl) : Bindings := ⟨(ident, decl) :: b.entries⟩

theorem find?_bind (b : Bindings) (ident other : Label) (decl : Decl) :
    (b.bind ident decl).find? other = if other = ident then some decl else b.find? other := by
  by_cases h : other = ident
  · subst h; simp [find?, bind]
  · have hne : (other == ident) = false := by simpa using h
    simp [find?, bind, List.lookup_cons, hne, h]

end Bindings

end Isel.Scope
