import Isel.Proofs.Scoping

/-!
# The grammar of programs

A parser builds only some of the trees: `IsExpr`, `IsStmt` and `IsTop` say which shapes
expressions, statements and declarations of the top level have, one rule for each
production.  Kinds are not part of it; that every node is of the kind it claims is said by
`Node.Agrees`.

`uses` lists the identifiers of a tree in program order, and tells those whose value is
asked for from those that input is read into.
-/

namespace Isel.Syntax.Node

/-! ## Shapes -/

inductive IsExpr : Node → Prop
  | number {tag : Tag} {value : Int} : IsExpr (.number tag value)
  | boolean {tag : Tag} {value : Bool} : IsExpr (.boolean tag value)
  | string {tag : Tag} {bytes : List UInt8} : IsExpr (.string tag bytes)
  | ident {tag : Tag} {name : String} : IsExpr (.ident tag name)
  | binary {tag : Tag} {op : Token} {left right : Node} :
      op.isBinary = true → IsExpr left → IsExpr right → IsExpr (.binary tag op left right)
  | call {tag : Tag} {callee : String} {args : List Node} :
      (∀ a ∈ args, IsExpr a) → IsExpr (.call tag callee args)

/-- The node has the shape of a statement.  Statement lists hold variables and
expressions too. -/
inductive IsStmt : Node → Prop
  | expr {n : Node} : IsExpr n → IsStmt n
  | var {tag : Tag} {name : String} {type : ValueType} {init : Node} :
      init = .absent ∨ IsExpr init → IsStmt (.var tag name type init)
  | compound {tag : Tag} {stmts : List Node} :
      (∀ s ∈ stmts, IsStmt s) → IsStmt (.compound tag stmts)
  | ifThen {tag inner : Tag} {cond : Node} {stmts : List Node} :
      IsExpr cond → (∀ s ∈ stmts, IsStmt s) → IsStmt (.ifThen tag cond (.compound inner stmts))
  | loop {tag inner : Tag} {cond : Node} {stmts : List Node} :
      IsExpr cond → (∀ s ∈ stmts, IsStmt s) → IsStmt (.loop tag cond (.compound inner stmts))
  | print {tag : Tag} {expr : Node} : IsExpr expr → IsStmt (.print tag expr)
  | ret {tag : Tag} {expr : Node} : expr = .absent ∨ IsExpr expr → IsStmt (.ret tag expr)
  | scan {tag itag : Tag} {name : String} : IsStmt (.scan tag (.ident itag name))

inductive IsTop : Node → Prop
  | function {tag inner : Tag} {name : String} {params stmts : List Node} {result : ValueType} :
      (∀ p ∈ params, ∃ ptag pname type, p = .param ptag pname type) →
      (∀ s ∈ stmts, IsStmt s) →
      IsTop (.function tag name params result (.compound inner stmts))
  | var {tag : Tag} {name : String} {type : ValueType} {init : Node} :
      init = .absent ∨ IsExpr init → IsTop (.var tag name type init)

theorem IsExpr.isAbsent {n : Node} (h : IsExpr n) : n.isAbsent = false := by
  cases h <;> rfl

theorem IsStmt.isAbsent {n : Node} (h : IsStmt n) : n.isAbsent = false := by
  cases h with
  | expr h => exact h.isAbsent
  | _ => rfl

instance (n : Node) : Decidable n.Agrees :=
  inferInstanceAs (Decidable (n.tag?.map Tag.kind = n.payloadKind?))

/-! ## Functions stand at the top level -/

/-- There is no function in the tree. -/
def FunctionFree (n : Node) : Prop := ∀ m ∈ n.nodes, m.payloadKind? ≠ some .functionDecl

theorem functionFree_of_parts {n : Node} (hn : n.payloadKind? ≠ some .functionDecl)
    (hparts : ∀ p ∈ n.parts, FunctionFree p) : FunctionFree n := by
  intro m hm
  rw [nodes_eq, List.mem_append] at hm
  rcases hm with hm | hm
  · split at hm
    · simp at hm
    · rw [List.mem_singleton.mp hm]
      exact hn
  · obtain ⟨p, hp, hm⟩ := List.mem_flatMap.mp hm
    exact hparts p hp m hm

theorem functionFree_absent : FunctionFree .absent := by
  intro m hm
  simp [nodes, walk] at hm

theorem IsExpr.functionFree {n : Node} (h : IsExpr n) : FunctionFree n := by
  induction h with
  | number | boolean | string | ident =>
    exact functionFree_of_parts (by simp [payloadKind?]) (by simp [parts])
  | binary _ _ _ ihl ihr =>
    exact functionFree_of_parts (by simp [payloadKind?]) (by simpa [parts] using ⟨ihl, ihr⟩)
  | call _ ih => exact functionFree_of_parts (by simp [payloadKind?]) (by simpa [parts] using ih)

theorem functionFree_of_optional {n : Node} (h : n = .absent ∨ IsExpr n) : FunctionFree n := by
  rcases h with rfl | h
  · exact functionFree_absent
  · exact h.functionFree

theorem IsStmt.functionFree {n : Node} (h : IsStmt n) : FunctionFree n := by
  have hcompound : ∀ (tag : Tag) (stmts : List Node), (∀ s ∈ stmts, FunctionFree s) →
      FunctionFree (.compound tag stmts) := fun _ _ hs =>
    functionFree_of_parts (by simp [payloadKind?]) (by simpa [parts] using hs)
  induction h with
  | expr h => exact h.functionFree
  | var h | ret h =>
    exact functionFree_of_parts (by simp [payloadKind?])
      (by simpa [parts] using functionFree_of_optional h)
  | compound _ ih => exact hcompound _ _ ih
  | ifThen hcond _ ih | loop hcond _ ih =>
    exact functionFree_of_parts (by simp [payloadKind?])
      (by simpa [parts] using ⟨hcond.functionFree, hcompound _ _ ih⟩)
  | print h =>
    exact functionFree_of_parts (by simp [payloadKind?]) (by simpa [parts] using h.functionFree)
  | scan =>
    exact functionFree_of_parts (by simp [payloadKind?])
      (by simpa [parts] using (IsExpr.ident).functionFree)

/-! ## Identifiers in program order -/

/-- An identifier of a program, by what it is used for. -/
inductive Use where
  /-- The value of the variable is asked for. -/
  | value (tag : Tag) (name : String)
  /-- Input is read into the variable. -/
  | target (tag : Tag) (name : String)
  deriving DecidableEq, Repr

def Use.node : Use → Node
  | .value tag name | .target tag name => .ident tag name

mutual

/-- The uses of identifiers in a tree, in program order. -/
def uses : Node → List Use
  | .absent | .bare _ | .param .. | .boolean .. | .number .. | .string .. => []
  | .ident tag name => [.value tag name]
  | .scan _ (.ident tag name) => [.target tag name]
  | .scan _ target => uses target
  | .program _ decls => usesAll decls
  | .function _ _ params _ body => usesAll params ++ uses body
  | .var _ _ _ init => uses init
  | .binary _ _ left right => uses left ++ uses right
  | .call _ _ args => usesAll args
  | .compound _ stmts => usesAll stmts
  | .ifThen _ cond body | .loop _ cond body => uses cond ++ uses body
  | .print _ expr | .ret _ expr => uses expr

def usesAll : List Node → List Use
  | [] => []
  | n :: rest => uses n ++ usesAll rest

end

theorem mem_usesAll {u : Use} {ns : List Node} (h : u ∈ usesAll ns) : ∃ n ∈ ns, u ∈ uses n := by
  induction ns with
  | nil => simp [usesAll] at h
  | cons n ns ih =>
    rw [usesAll, List.mem_append] at h
    rcases h with h | h
    · exact ⟨n, by simp, h⟩
    · obtain ⟨m, hm, hu⟩ := ih h
      exact ⟨m, by simp [hm], hu⟩

/-- Where no identifier is used by the node itself, the uses are those of the parts. -/
theorem uses_parts {n : Node} (hident : ∀ tag name, n ≠ .ident tag name)
    (hscan : ∀ tag itag name, n ≠ .scan tag (.ident itag name)) : uses n = usesAll n.parts := by
  have happ : ∀ xs ys, usesAll (xs ++ ys) = usesAll xs ++ usesAll ys := by
    intro xs ys
    induction xs with
    | nil => rw [usesAll]; rfl
    | cons x xs ih => rw [List.cons_append, usesAll, usesAll, ih, List.append_assoc]
  cases n with
  | ident tag name => exact absurd rfl (hident tag name)
  | scan tag target =>
    cases target with
    | ident itag name => exact absurd rfl (hscan tag itag name)
    | _ => simp [uses, usesAll, parts]
  | _ => simp [uses, usesAll, parts, happ]

theorem mem_nodes_of_uses {u : Use} : ∀ n : Node, u ∈ uses n → u.node ∈ n.nodes := by
  intro n
  induction n using Node.parts_induction with
  | _ n ih _ =>
  intro hu
  by_cases hparts : (∀ tag name, n ≠ .ident tag name) ∧
      ∀ tag itag name, n ≠ .scan tag (.ident itag name)
  · rw [uses_parts hparts.1 hparts.2] at hu
    obtain ⟨p, hp, hu⟩ := mem_usesAll hu
    exact mem_nodes_of_part hp (ih p hp hu)
  · cases n with
    | ident tag name =>
      rw [uses, List.mem_singleton] at hu
      rw [hu]
      exact mem_nodes_self rfl
    | scan tag target =>
      cases target with
      | ident itag name =>
        rw [uses, List.mem_singleton] at hu
        rw [hu]
        exact mem_nodes_of_part (p := .ident itag name) (by simp [parts]) (mem_nodes_self rfl)
      | _ => simp at hparts
    | _ => simp at hparts

end Isel.Syntax.Node

namespace Isel.Scope

open Isel.Syntax

/-! ## What the grammar says of scopes -/

theorem isPlain_of_isExpr {n : Node} (h : n.IsExpr) : isPlain n = true := by
  cases h <;> rfl

theorem declared_of_isExpr {n : Node} (h : n.IsExpr) : declared n = [] := by
  induction h with
  | number | boolean | string | ident => rw [declared]
  | binary _ _ _ ihl ihr => rw [declared, ihl, ihr]; rfl
  | call _ ih =>
    rw [declared, declaredAll_eq]
    exact List.flatMap_eq_nil_iff.mpr ih

theorem declared_of_optional {n : Node} (h : n = .absent ∨ n.IsExpr) : declared n = [] := by
  rcases h with rfl | h
  · rw [declared]
  · exact declared_of_isExpr h

theorem declared_of_isStmt {n : Node} (h : n.IsStmt) {x : Symbol} (hx : x ∈ declared n) :
    ∃ tag name type init, n = .var tag name type init ∧ x = varSymbol tag name := by
  cases h with
  | expr h => simp [declared_of_isExpr h] at hx
  | var h =>
    rw [declared, declared_of_optional h] at hx
    exact ⟨_, _, _, _, rfl, List.mem_singleton.mp hx⟩
  | compound => simp [declared] at hx
  | ifThen hcond | loop hcond => simp [declared, declared_of_isExpr hcond] at hx
  | print h => simp [declared, declared_of_isExpr h] at hx
  | ret h => simp [declared, declared_of_optional h] at hx
  | scan => simp [declared] at hx

theorem sitesAll_of_declared {env : Env} : ∀ (ns : List Node), (∀ n ∈ ns, declared n = []) →
    sitesAll env ns = ns.flatMap (sites env) := by
  intro ns
  induction ns with
  | nil => intro _; rw [sitesAll]; rfl
  | cons n ns ih =>
    intro h
    rw [sitesAll, h n (by simp), Env.extend_nil, ih fun m hm => h m (by simp [hm])]
    rfl

theorem sites_part {n p : Node} (h : n.IsExpr) (hp : p ∈ n.parts) {env : Env} {s : Site}
    (hs : s ∈ sites env p) : s ∈ sites env n := by
  have hnone : ∀ q ∈ n.parts, declared q = [] := by
    have hd := declared_of_isExpr h
    rw [declared_plain (isPlain_of_isExpr h), declaredAll_eq] at hd
    exact List.flatMap_eq_nil_iff.mp hd
  rw [sites_plain (isPlain_of_isExpr h), sitesAll_of_declared n.parts hnone]
  exact List.mem_cons_of_mem _ (List.mem_flatMap.mpr ⟨p, hp, hs⟩)

/-- A program of the grammar whose nodes are of the kinds they claim is well formed. -/
theorem wellFormed_of_isTop {tag : Tag} {decls : List Node} (htop : ∀ d ∈ decls, d.IsTop)
    (hagree : ∀ m ∈ (Node.program tag decls).nodes, m.Agrees) : WellFormed tag decls := by
  refine ⟨Option.some.inj (hagree _ (Node.mem_nodes_self rfl)), fun d hd => ?_, ?_⟩
  · have hthere : d.isAbsent = false := by cases htop d hd <;> rfl
    exact ⟨hthere, hagree d (Node.mem_nodes_of_part hd (Node.mem_nodes_self hthere))⟩
  · intro ftag name params result body hm
    rw [Node.nodes_eq, List.mem_append] at hm
    rcases hm with hm | hm
    · simp [Node.isAbsent] at hm
    obtain ⟨d, hd, hm⟩ := List.mem_flatMap.mp hm
    cases htop d hd with
    | var hinit => exact absurd rfl ((Node.IsStmt.var hinit).functionFree _ hm)
    | function hparams hstmts =>
      rw [Node.nodes_eq, List.mem_append] at hm
      rcases hm with hm | hm
      · simp only [Node.isAbsent, Bool.false_eq_true, if_false, List.mem_singleton] at hm
        cases hm
        exact ⟨⟨_, _, rfl⟩, hparams⟩
      -- Neither the parameters nor the body hold another function.
      · obtain ⟨p, hp, hm⟩ := List.mem_flatMap.mp hm
        rw [Node.parts, List.mem_append, List.mem_singleton] at hp
        rcases hp with hp | rfl
        · obtain ⟨ptag, pname, type, rfl⟩ := hparams p hp
          simp [Node.nodes, Node.walk] at hm
        · exact absurd rfl ((Node.IsStmt.compound hstmts).functionFree _ hm)

end Isel.Scope
