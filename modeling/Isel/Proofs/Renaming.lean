import Isel.Proofs.Outcome
import Isel.Proofs.Tree
import Isel.Scope.Resolve

/-!
# Consistent renaming

`Node.rename r` gives other names to the variables, the parameters and whatever refers to them or
calls.  Where `r` takes no two names to one and leaves the functions their names, resolution of the
renamed program goes as that of the program, up to the names in tables, bindings and faults
(`Echoes`).
-/

namespace Isel.Syntax

variable (r : String → String)

namespace Node

mutual

/-- The tree with other names for variables and parameters, and for what refers to them or
calls. -/
def rename : Node → Node
  | .absent => .absent
  | .bare tag => .bare tag
  | .program tag decls => .program tag (renameAll decls)
  | .function tag name params result body =>
    .function tag name (renameAll params) result (rename body)
  | .param tag name type => .param tag (r name) type
  | .var tag name type init => .var tag (r name) type (rename init)
  | .binary tag op left right => .binary tag op (rename left) (rename right)
  | .boolean tag value => .boolean tag value
  | .call tag callee args => .call tag (r callee) (renameAll args)
  | .ident tag name => .ident tag (r name)
  | .number tag value => .number tag value
  | .string tag bytes => .string tag bytes
  | .compound tag stmts => .compound tag (renameAll stmts)
  | .ifThen tag cond body => .ifThen tag (rename cond) (rename body)
  | .print tag expr => .print tag (rename expr)
  | .ret tag expr => .ret tag (rename expr)
  | .scan tag target => .scan tag (rename target)
  | .loop tag cond body => .loop tag (rename cond) (rename body)

def renameAll : List Node → List Node
  | [] => []
  | n :: rest => rename n :: renameAll rest

end

theorem renameAll_eq : ∀ ns : List Node, renameAll r ns = ns.map (rename r) := by
  intro ns
  induction ns with
  | nil => rw [renameAll]; rfl
  | cons n ns ih => rw [renameAll, ih, List.map_cons]

@[simp] theorem tag?_rename (n : Node) : (n.rename r).tag? = n.tag? := by
  cases n <;> rw [rename] <;> rfl

@[simp] theorem isAbsent_rename (n : Node) : (n.rename r).isAbsent = n.isAbsent := by
  cases n <;> rw [rename] <;> rfl

def isNamed : Node → Bool
  | .function .. | .param .. | .var .. | .ident .. | .call .. => true
  | _ => false

/-- A function keeps its name. -/
def KeepsName (n : Node) : Prop :=
  ∀ tag name params result body, n = .function tag name params result body → r name = name

/-- The name changes as it should, unless there is none and the empty name changes. -/
theorem name_rename {n : Node} (h : n.KeepsName r) (hnamed : n.isNamed = true ∨ r "" = "") :
    (n.rename r).name = r n.name := by
  cases n with
  | function tag name params result body =>
    rw [rename]
    exact (h tag name params result body rfl).symm
  | param | var | ident | call => rw [rename]; rfl
  | _ =>
    rw [rename]
    exact (hnamed.resolve_left Bool.false_ne_true).symm

/-- What declares a name: the functions and the variables of a program, by the kinds they claim,
and the parameters of all functions. -/
inductive Declares (root : Node) : Node → Prop
  | decl {d : Node} {tag : Tag} : d ∈ root.parts → d.tag? = some tag →
      tag.kind = .functionDecl ∨ tag.kind = .varDecl → Declares root d
  | param {tag : Tag} {name : String} {params : List Node} {result : ValueType} {body p : Node} :
      .function tag name params result body ∈ root.nodes → p ∈ params → Declares root p

end Node

def Decl.rename (d : Decl) : Decl := { d with name := r d.name }

end Isel.Syntax

namespace Isel.Scope

open Isel.Syntax Isel.Proofs

/-! ## Resolution -/

section Rename

variable (r : String → String)

def Symbol.rename (x : Symbol) : Symbol := ⟨r x.name, x.role, x.decl.rename r⟩

def Frame.rename (f : Frame) : Frame := f.map (Symbol.rename r)

def Env.rename (env : Env) : Env := ⟨env.frame.rename r, env.outer.map (Frame.rename r)⟩

def Table.rename (t : Table) : Table := ⟨t.functions.map r, t.globals.map r⟩

def Bindings.rename (b : Bindings) : Bindings := ⟨b.entries.map fun (l, d) => (l, d.rename r)⟩

def Cause.rename : Cause → Cause
  | .redeclared name => .redeclared (r name)
  | .shadowsGlobal name => .shadowsGlobal (r name)
  | .undeclared name => .undeclared (r name)
  | .functionAsValue name => .functionAsValue (r name)
  | .undeclaredFunction name => .undeclaredFunction (r name)

def Fault.rename (f : Fault) : Fault := ⟨f.pos, f.cause.rename r⟩

def Stop.rename : Stop → Stop
  | .fault f => .fault (f.rename r)
  | e => e

/-- The outcome of resolution with other names in it. -/
def renamed {α β : Type} (f : α → β) :
    EStateM.Result Stop Bindings α → EStateM.Result Stop Bindings β
  | .ok a b => .ok (f a) (b.rename r)
  | .error e b => .error (e.rename r) (b.rename r)

/-- The second computation does with renamed bindings what the first one does, under other
names. -/
structure Echoes {α β : Type} (f : α → β) (x : Resolve α) (y : Resolve β) : Prop where
  run : ∀ b, y (b.rename r) = renamed r f (x b)

end Rename

section Echoes

variable {α β γ δ : Type} {r : String → String}

theorem echoes_pure (f : α → β) (a : α) : Echoes r f (pure a) (pure (f a)) := ⟨fun _ => rfl⟩

theorem echoes_throw (f : α → β) (e : Stop) : Echoes r f (throw e) (throw (e.rename r)) :=
  ⟨fun _ => rfl⟩

theorem Echoes.bind {f : α → β} {g : γ → δ} {x : Resolve α} {y : Resolve β} {k : α → Resolve γ}
    {l : β → Resolve δ} (hx : Echoes r f x y) (hk : ∀ a, Echoes r g (k a) (l (f a))) :
    Echoes r g (x >>= k) (y >>= l) := by
  constructor
  intro b
  cases hrun : x b with
  | ok a b' =>
    have hrun' : y (b.rename r) = .ok (f a) (b'.rename r) := by
      rw [hx.run, hrun]
      rfl
    rw [bind_of_ok hrun, bind_of_ok hrun']
    exact (hk a).run b'
  | error e b' =>
    have hrun' : y (b.rename r) = .error (e.rename r) (b'.rename r) := by
      rw [hx.run, hrun]
      rfl
    rw [bind_of_error hrun, bind_of_error hrun']
    rfl

end Echoes

/-! ### Scopes and tables -/

section Lookup

variable {r : String → String}

theorem Bindings.find?_rename (b : Bindings) (l : Label) :
    (b.rename r).find? l = (b.find? l).map (Decl.rename r) := by
  obtain ⟨entries⟩ := b
  show (entries.map _).lookup l = (entries.lookup l).map _
  induction entries with
  | nil => rfl
  | cons e entries ih =>
    obtain ⟨k, d⟩ := e
    rw [List.map_cons, List.lookup_cons, List.lookup_cons, ih]
    split <;> rfl

variable (hr : Function.Injective r)

include hr

theorem Frame.find?_rename (f : Frame) (name : String) :
    Frame.find? (f.rename r) (r name) = (Frame.find? f name).map (Symbol.rename r) := by
  have htest : (fun x : Symbol => x.name == r name) ∘ Symbol.rename r =
      fun x => x.name == name := by
    funext x
    show (r x.name == r name) = (x.name == name)
    rw [Bool.eq_iff_iff, beq_iff_eq, beq_iff_eq, hr.eq_iff]
  rw [Frame.find?, Frame.rename, List.find?_map, htest]
  rfl

theorem Env.find?_rename (env : Env) (name : String) :
    (env.rename r).find? (r name) = (env.find? name).map (Symbol.rename r) := by
  have hframes : (env.rename r).frame :: (env.rename r).outer =
      (env.frame :: env.outer).map (Frame.rename r) := rfl
  rw [Env.find?, hframes, Env.find?]
  induction env.frame :: env.outer with
  | nil => rfl
  | cons f fs ih =>
    rw [List.map_cons, List.findSome?_cons, List.findSome?_cons, Frame.find?_rename hr, ih]
    cases Frame.find? f name <;> rfl

theorem Frame.declare_rename (f : Frame) (pos : Source.Position) (x : Symbol) :
    (f.rename r).declare pos (x.rename r) =
      ((f.declare pos x).map (Frame.rename r)).mapError (Fault.rename r) := by
  have hname : (x.rename r).name = r x.name := rfl
  rw [Frame.declare, Frame.declare, hname, Frame.find?_rename hr, Option.isSome_map]
  split <;> rfl

theorem contains_rename (names : List String) (name : String) :
    (names.map r).contains (r name) = names.contains name := by
  rw [Bool.eq_iff_iff, List.contains_iff_mem, List.contains_iff_mem, List.mem_map_of_injective hr]

theorem Table.isGlobal_rename (t : Table) (name : String) :
    (t.rename r).isGlobal (r name) = t.isGlobal name := contains_rename hr ..

theorem Table.addGlobal_rename (t : Table) (name : String) :
    (t.rename r).addGlobal (r name) = (t.addGlobal name).rename r := by
  rw [Table.addGlobal, Table.addGlobal, Table.isGlobal_rename hr]
  split
  · rfl
  · simp [Table.rename]

theorem Table.addFunction_rename (t : Table) (name : String) :
    (t.rename r).addFunction (r name) = (t.addFunction name).rename r := by
  have hhas : (t.rename r).isFunction (r name) = t.isFunction name := contains_rename hr ..
  rw [Table.addFunction, Table.addFunction, hhas]
  split
  · rfl
  · simp [Table.rename]

end Lookup

/-! ### Declarations and uses -/

/-- The parameters of all functions in the tree are renamed. -/
def ParamsRenamed (r : String → String) (n : Node) : Prop :=
  ∀ tag name params result body, .function tag name params result body ∈ n.nodes →
    ∀ p ∈ params, (p.rename r).name = r p.name

theorem ParamsRenamed.part {r : String → String} {n p : Node} (h : ParamsRenamed r n)
    (hp : p ∈ n.parts) : ParamsRenamed r p :=
  fun tag name params result body hm =>
    h tag name params result body (Node.mem_nodes_of_part hp hm)

section Resolution

variable {r : String → String}

theorem symbolOf?_rename {n : Node} (h : (n.rename r).name = r n.name) (role : Role) :
    symbolOf? role (n.rename r) =
      (symbolOf? role n).map fun (x, pos) => (x.rename r, pos) := by
  rw [symbolOf?, symbolOf?, Node.tag?_rename, h, Option.map_map]
  rfl

theorem symbolsOf?_rename {params : List Node} (h : ∀ p ∈ params, (p.rename r).name = r p.name) :
    (params.map (Node.rename r)).mapM (symbolOf? .param) =
      (params.mapM (symbolOf? .param)).map (List.map fun (x, pos) => (x.rename r, pos)) := by
  induction params with
  | nil => rfl
  | cons p params ih =>
    rw [List.forall_mem_cons] at h
    rw [List.map_cons, List.mapM_cons, List.mapM_cons, symbolOf?_rename h.1, ih h.2]
    cases symbolOf? .param p with
    | none => rfl
    | some x => cases params.mapM (symbolOf? .param) <;> rfl

variable (hr : Function.Injective r)

include hr

theorem declareParams_rename (f : Frame) (xs : List (Symbol × Source.Position)) :
    declareParams (f.rename r) (xs.map fun (x, pos) => (x.rename r, pos)) =
      ((declareParams f xs).map (Frame.rename r)).mapError (Fault.rename r) := by
  induction xs generalizing f with
  | nil => rfl
  | cons x xs ih =>
    obtain ⟨x, pos⟩ := x
    rw [List.map_cons, declareParams, declareParams, Frame.declare_rename hr]
    cases f.declare pos x with
    | error e => rfl
    | ok f' => exact ih f'

theorem echoes_enterFunction {params : List Node} (h : ∀ p ∈ params, (p.rename r).name = r p.name)
    (env : Env) : Echoes r (Env.rename r) (enterFunction env params)
      (enterFunction (env.rename r) (params.map (Node.rename r))) := by
  rw [enterFunction, enterFunction, symbolsOf?_rename h]
  cases params.mapM (symbolOf? .param) with
  | none => exact echoes_throw ..
  | some xs =>
    have hdecl : declareParams [] (xs.map fun (x, pos) => (x.rename r, pos)) =
      ((declareParams [] xs).map (Frame.rename r)).mapError (Fault.rename r) :=
      declareParams_rename hr [] xs
    simp only [Option.map_some, hdecl]
    cases declareParams [] xs with
    | ok f => exact echoes_pure (Env.rename r) (env.enter f)
    | error e => exact echoes_throw ..

theorem echoes_declareVar (t : Table) (env : Env) (tag : Tag) (name : String) :
    Echoes r (Env.rename r) (declareVar t env tag name)
      (declareVar (t.rename r) (env.rename r) tag (r name)) := by
  have hnested : (env.rename r).isNested = env.isNested := by
    simp [Env.isNested, Env.rename]
  have hdecl : (env.rename r).frame.declare tag.pos ⟨r name, .var, ⟨tag.label, tag.kind, r name⟩⟩ =
      ((env.frame.declare tag.pos ⟨name, .var, ⟨tag.label, tag.kind, name⟩⟩).map
        (Frame.rename r)).mapError (Fault.rename r) :=
    Frame.declare_rename hr env.frame tag.pos ⟨name, .var, ⟨tag.label, tag.kind, name⟩⟩
  rw [declareVar, declareVar, Table.isGlobal_rename hr, hnested, hdecl]
  split
  · exact echoes_throw ..
  · cases env.frame.declare tag.pos ⟨name, .var, ⟨tag.label, tag.kind, name⟩⟩ with
    | ok f => exact echoes_pure (Env.rename r) { env with frame := f }
    | error e => exact echoes_throw ..

theorem echoes_resolveIdent (env : Env) (tag : Tag) (name : String) :
    Echoes r id (resolveIdent env tag name) (resolveIdent (env.rename r) tag (r name)) := by
  rw [resolveIdent, resolveIdent, Env.find?_rename hr]
  cases env.find? name with
  | none => exact echoes_throw ..
  | some x =>
    have hrole : (x.rename r).role = x.role := rfl
    simp only [Option.map_some, hrole]
    split
    · exact echoes_throw ..
    · exact ⟨fun b => rfl⟩

theorem echoes_resolveCallee (env : Env) (tag : Tag) (callee : String) :
    Echoes r id (resolveCallee env tag callee)
      (resolveCallee (env.rename r) tag (r callee)) := by
  have hany : ((env.find? callee).map (Symbol.rename r)).any (fun x => x.role == .function) =
      (env.find? callee).any fun x => x.role == .function := by
    cases env.find? callee <;> rfl
  rw [resolveCallee, resolveCallee, Env.find?_rename hr, hany]
  split
  · exact echoes_pure id _
  · exact echoes_throw ..

/-- Resolution of the renamed tree goes as that of the tree. -/
def ResolveEchoes (r : String → String) (n : Node) : Prop :=
  ∀ t env, Echoes r (Env.rename r) (resolve t env n)
    (resolve (t.rename r) (env.rename r) (n.rename r))

omit hr in
theorem echoes_resolveAll : ∀ ns : List Node, (∀ n ∈ ns, ResolveEchoes r n) → ∀ t env,
    Echoes r (Env.rename r) (resolveAll t env ns)
      (resolveAll (t.rename r) (env.rename r) (Node.renameAll r ns)) := by
  intro ns
  induction ns with
  | nil =>
    intro _ t env
    rw [Node.renameAll, resolveAll, resolveAll]
    exact echoes_pure ..
  | cons n ns ih =>
    intro h t env
    rw [List.forall_mem_cons] at h
    rw [Node.renameAll, resolveAll, resolveAll]
    exact (h.1 t env).bind fun env' => ih h.2 t env'

theorem echoes_function {tag : Tag} {name : String} {params : List Node} {result : ValueType}
    {body : Node} (hbody : ∀ n ∈ body.parts, ResolveEchoes r n)
    (hparams : ∀ p ∈ params, (p.rename r).name = r p.name) :
    ResolveEchoes r (.function tag name params result body) := by
  intro t env
  have henter := echoes_enterFunction hr hparams env
  rw [Node.rename, Node.renameAll_eq]
  cases body with
  | absent =>
    simp only [Node.rename, resolve]
    exact henter.bind fun _ => echoes_pure ..
  | compound ctag stmts =>
    simp only [Node.rename, resolve]
    exact henter.bind fun env' => (echoes_resolveAll stmts hbody t env').bind fun _ =>
      echoes_pure ..
  | _ =>
    simp only [Node.rename, resolve]
    exact echoes_throw ..

/-- **Resolution follows a renaming.** -/
theorem echoes_resolve : ∀ n : Node, ParamsRenamed r n → ResolveEchoes r n := by
  intro n
  induction n using Node.parts_induction with
  | _ n ih ih₂ =>
  intro hparams
  have hparts : ∀ p ∈ n.parts, ResolveEchoes r p := fun p hp => ih p hp (hparams.part hp)
  cases n with
  | function tag name params result body =>
    have hbody : body ∈ (Node.function tag name params result body).parts := by simp [Node.parts]
    exact echoes_function hr
      (fun q hq => ih₂ body hbody q hq ((hparams.part hbody).part hq))
      (hparams tag name params result body (Node.mem_nodes_self rfl))
  | var tag name type init =>
    intro t env
    rw [Node.rename, resolve, resolve]
    exact (hparts init (by simp [Node.parts]) t env).bind fun env' =>
      echoes_declareVar hr t env' tag name
  | ident tag name =>
    intro t env
    rw [Node.rename, resolve, resolve]
    exact (echoes_resolveIdent hr env tag name).bind fun _ => echoes_pure ..
  | call tag callee args =>
    intro t env
    rw [Node.rename, resolve, resolve]
    exact (echoes_resolveCallee hr env tag callee).bind fun _ => echoes_resolveAll args hparts t env
  | compound tag stmts =>
    intro t env
    rw [Node.rename, resolve, resolve]
    exact (echoes_resolveAll stmts hparts t (env.enter [])).bind fun _ => echoes_pure ..
  | program tag decls =>
    intro t env
    rw [Node.rename, resolve, resolve]
    exact echoes_resolveAll decls hparts t env
  | binary tag op left right | ifThen tag left right | loop tag left right =>
    intro t env
    rw [Node.rename, resolve, resolve]
    exact (hparts left (by simp [Node.parts]) t env).bind fun env' =>
      hparts right (by simp [Node.parts]) t env'
  | print tag expr | ret tag expr | scan tag expr =>
    intro t env
    rw [Node.rename, resolve, resolve]
    exact hparts expr (by simp [Node.parts]) t env
  | _ =>
    intro t env
    rw [Node.rename, resolve, resolve]
    exact echoes_pure ..

/-! ### Programs -/

def Surface.rename (r : String → String) (s : Surface) : Surface :=
  ⟨s.table.rename r, s.frame.rename r, s.fault.map (Fault.rename r)⟩

/-- What the top level declares is renamed. -/
def DeclRenamed (r : String → String) (d : Node) : Prop :=
  ∀ tag, d.tag? = some tag → tag.kind = .functionDecl ∨ tag.kind = .varDecl →
    (d.rename r).name = r d.name

theorem Surface.add_rename {d : Node} (hd : DeclRenamed r d) (s : Surface) :
    (s.rename r).add (d.rename r) = (s.add d).rename r := by
  rw [Surface.add, Surface.add, symbolOf?, symbolOf?, Node.tag?_rename]
  cases htag : d.tag? with
  | none => rfl
  | some tag =>
    simp only [Option.map_some]
    split
    · next hk =>
      have hdecl := Frame.declare_rename hr s.frame tag.pos
        ⟨d.name, .function, ⟨tag.label, tag.kind, d.name⟩⟩
      simp only [Symbol.rename, Decl.rename] at hdecl
      simp only [Surface.rename, hd tag htag (.inl hk), Table.addFunction_rename hr, hdecl]
      cases s.frame.declare tag.pos ⟨d.name, .function, ⟨tag.label, tag.kind, d.name⟩⟩ with
      | ok f => rfl
      | error e => cases s.fault <;> rfl
    · next hk =>
      rw [hd tag htag (.inr hk)]
      simp only [Surface.rename, Table.addGlobal_rename hr]
    · rfl

theorem foldl_add_rename {decls : List Node} (hdecls : ∀ d ∈ decls, DeclRenamed r d)
    (s : Surface) : (decls.map (Node.rename r)).foldl Surface.add (s.rename r) =
      (decls.foldl Surface.add s).rename r := by
  induction decls generalizing s with
  | nil => rfl
  | cons d decls ih =>
    rw [List.forall_mem_cons] at hdecls
    rw [List.map_cons, List.foldl_cons, List.foldl_cons, Surface.add_rename hr hdecls.1,
      ih hdecls.2]

omit hr in
theorem echoes_raise (fault : Option Fault) :
    Echoes r id (raise fault) (raise (fault.map (Fault.rename r))) := by
  cases fault with
  | none => exact echoes_pure id _
  | some f => exact echoes_throw ..

/-- Resolves declarations behind what the top level declares. -/
def resolveSurface (surface : Surface) (decls : List Node) : Resolve Table := do
  raise surface.fault
  let _ ← resolveAll surface.table { frame := surface.frame } decls
  return surface.table

theorem echoes_resolveDecls {decls : List Node} (hdecls : ∀ d ∈ decls, DeclRenamed r d)
    (hparams : ∀ d ∈ decls, ParamsRenamed r d) :
    Echoes r (Table.rename r) (resolveDecls decls)
      (resolveDecls (decls.map (Node.rename r))) := by
  have habsent : (decls.map (Node.rename r)).any Node.isAbsent = decls.any Node.isAbsent := by
    rw [List.any_map]
    congr 1
    funext n
    exact Node.isAbsent_rename r n
  have hsurface : (decls.map (Node.rename r)).foldl Surface.add {} =
      (decls.foldl Surface.add {}).rename r := foldl_add_rename hr hdecls {}
  have hall := echoes_resolveAll decls fun d hd => echoes_resolve hr d (hparams d hd)
  have hrest : Echoes r (Table.rename r) (resolveSurface (decls.foldl Surface.add {}) decls)
      (resolveSurface ((decls.foldl Surface.add {}).rename r) (decls.map (Node.rename r))) := by
    rw [← Node.renameAll_eq]
    exact (echoes_raise _).bind fun _ => (hall _ _).bind fun _ => echoes_pure ..
  rw [resolveDecls, resolveDecls, habsent, hsurface]
  split
  · exact (echoes_throw id _).bind fun _ => hrest
  · exact hrest

omit hr in
theorem resolveProgram_eq (root : Node) : resolveProgram root =
    if root.tag?.map Tag.kind = some .program then match root with
      | .program _ decls => resolveDecls decls
      | _ => throw (.programCarries root.payloadName)
    else throw .notProgram := by
  unfold resolveProgram
  by_cases h : root.tag?.map Tag.kind = some .program
  · rw [if_pos h, h]
    cases root <;> rfl
  · rw [if_neg h]
    split <;> first | contradiction | rfl

/-- **Programs are resolved alike**, but for the names. -/
theorem echoes_resolveProgram {root : Node} (hdecls : ∀ d ∈ root.parts, DeclRenamed r d)
    (hparams : ParamsRenamed r root) :
    Echoes r (Table.rename r) (resolveProgram root) (resolveProgram (root.rename r)) := by
  rw [resolveProgram_eq, resolveProgram_eq, Node.tag?_rename]
  split
  · cases root with
    | program tag decls =>
      simp only [Node.rename, Node.renameAll_eq]
      exact echoes_resolveDecls hr hdecls fun d hd => hparams.part hd
    | _ =>
      simp only [Node.rename]
      exact echoes_throw ..
  · exact echoes_throw ..

end Resolution

end Isel.Scope
