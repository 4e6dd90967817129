import Isel.Select.Stmt

/-!
# Lowering programs

The declarations of a program are lowered in order.  A function is declared, with a
graph and an entry block, when it is lowered; with forward calls all functions are
declared before.  A call can only name a function that is declared.
-/

namespace Isel.Select

open Isel.Syntax Isel.Flow

/-- Declares a function and gives its graph. -/
def reserveFunction (tag : Tag) (name : String) (result : ValueType) : Selection Nat := do
  let (m, g) := (← get).module.addGraph false
  let (m, _) := m.addBlock g "" []
  match m.addFunction name g with
  | .error e => fail tag.pos (.duplicate e)
  | .ok m =>
    modify fun s =>
      { s with module := m, signatures := s.signatures ++ [⟨name, tag.label, result⟩] }
    return g

/-- The graph of a function, which is declared unless this very node was declared
before. -/
def functionGraph (tag : Tag) (name : String) (result : ValueType) : Selection Nat := do
  let s ← get
  match s.module.function? name, s.signatures.find? (fun sig => sig.name == name) with
  | some f, some sig =>
    if sig.label = tag.label then return f.graph else reserveFunction tag name result
  | _, _ => reserveFunction tag name result

/-- Slots for the parameters of a function. -/
def selectParams (function : String) : List Node → Selection (List Slot)
  | [] => return []
  | p :: rest => do
    match p.tag? with
    | none => throw .malformed
    | some tag =>
      if tag.kind ≠ .paramDecl then fail tag.pos (.notParam function tag.kind)
      let slot ← allocate tag
      return slot :: (← selectParams function rest)

def selectFunction (su : Setup) (tag : Tag) (name : String) (params : List Node)
    (result : ValueType) (body : Node) : Selection Unit := do
  let g ← functionGraph tag name result
  let entry : BlockRef := ⟨g, 0⟩
  if !params.isEmpty then
    let slots ← selectParams name params
    serve su tag.pos (.block entry) (.paramsIn slots)
  if body.tag?.any fun t => t.kind == .compoundStmt then
    let _ ← selectBody su body entry
  else fail tag.pos (.noBody name)

/-- Declares a function before the program is lowered; other declarations wait. -/
def reserveDecl (n : Node) : Selection Unit := do
  match n.tag? with
  | none => throw .malformed
  | some tag =>
    if tag.kind = .functionDecl then
      match n with
      | .function _ name _ result _ => let _ ← reserveFunction tag name result
      | _ => fail tag.pos (.carries tag.kind n.payloadName)

/-- Lowers a declaration of the program by the kind it claims. -/
def selectDecl (su : Setup) (n : Node) : Selection Unit := do
  match n.tag? with
  | none => throw .malformed
  | some tag =>
    match tag.kind, n with
    | .functionDecl, .function _ name params result body =>
      selectFunction su tag name params result body
    | .varDecl, .var _ name _ init => selectVar su .globals tag name init
    | .functionDecl, _ | .varDecl, _ => fail tag.pos (.carries tag.kind n.payloadName)
    | _, _ => fail tag.pos (.notDeclaration tag.kind)

def selectDecls (su : Setup) (decls : List Node) : Selection Unit := do
  if su.config.uses .forwardCalls then decls.forM reserveDecl
  decls.forM (selectDecl su)

def selectProgram (su : Setup) (root : Node) : Selection Unit := do
  match root.tag? with
  | none => fail .nowhere .noProgram
  | some tag =>
    if tag.kind ≠ .program then fail tag.pos (.notProgram tag.kind)
    match root with
    | .program _ decls => selectDecls su decls
    | _ => fail tag.pos (.carries tag.kind root.payloadName)

/-- **Instruction selection.**  The outcome and the state it leaves; on success the
state holds the module. -/
def select (su : Setup) (root : Node) : EStateM.Result Stop State Unit :=
  (selectProgram su root).run {}

end Isel.Select
