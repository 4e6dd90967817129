import Isel.Proofs.Outcome
import Isel.Proofs.Tree
import Isel.Scope.Resolve

/-!
# Scopes of a tree

Where a name is visible can be read off the tree without resolving anything.
`declared n` are the variables that a node declares in the scope it stands in, and
`sites env n` are the places of `n`, each with the scopes that are open there and
the declarations that stand before it in each of them.

`resolve_follows` says that resolution is exactly this reading: it ends well if
every place is in order (`Site.Ok`), leaves the scope with the variables declared on
the way, and binds every identifier to what its place shows.
-/

namespace Isel.Scope

open Isel.Syntax Isel.Proofs
open Isel.Source (Position)

/-! ## Declarations and places -/

def varSymbol (tag : Tag) (name : String) : Symbol := ⟨name, .var, ⟨tag.label, tag.kind, name⟩⟩

def paramSymbols (params : List Node) : List Symbol :=
  (params.filterMap (symbolOf? .param)).map Prod.fst

mutual

/-- The variables that a node declares in the scope it stands in, in source order.
Compounds and functions keep theirs to themselves. -/
def declared : Node → List Symbol
  | .absent | .bare _ | .param .. | .boolean .. | .ident .. | .number .. | .string ..
  | .compound .. | .function .. => []
  | .program _ decls => declaredAll decls
  | .var tag name _ init => declared init ++ [varSymbol tag name]
  | .binary _ _ left right => declared left ++ declared right
  | .call _ _ args => declaredAll args
  | .ifThen _ cond body | .loop _ cond body => declared cond ++ declared body
  | .print _ expr | .ret _ expr => declared expr
  | .scan _ target => declared target

def declaredAll : List Node → List Symbol
  | [] => []
  | n :: rest => declared n ++ declaredAll rest

end

def Env.extend (env : Env) (symbols : List Symbol) : Env := symbols.foldl Env.declare env

/-- A place of a tree: a node, and the scopes that are open there with the symbols
declared before. -/
structure Site where
  node : Node
  env : Env

mutual

/-- The places of a tree that stands in an environment.  An initializer stands before
the variable it belongs to. -/
def sites (env : Env) : Node → List Site
  | .absent => []
  | .program tag decls => ⟨.program tag decls, env⟩ :: sitesAll env decls
  | .function tag name params result (.compound inner stmts) =>
    ⟨.function tag name params result (.compound inner stmts), env⟩ ::
      sitesAll (env.enter (paramSymbols params).reverse) stmts
  | .var tag name type init => ⟨.var tag name type init, env⟩ :: sites env init
  | .binary tag op left right =>
    ⟨.binary tag op left right, env⟩ ::
      (sites env left ++ sites (env.extend (declared left)) right)
  | .call tag callee args => ⟨.call tag callee args, env⟩ :: sitesAll env args
  | .compound tag stmts => ⟨.compound tag stmts, env⟩ :: sitesAll (env.enter []) stmts
  | .ifThen tag cond body =>
    ⟨.ifThen tag cond body, env⟩ :: (sites env cond ++ sites (env.extend (declared cond)) body)
  | .loop tag cond body =>
    ⟨.loop tag cond body, env⟩ :: (sites env cond ++ sites (env.extend (declared cond)) body)
  | .print tag expr => ⟨.print tag expr, env⟩ :: sites env expr
  | .ret tag expr => ⟨.ret tag expr, env⟩ :: sites env expr
  | .scan tag target => ⟨.scan tag target, env⟩ :: sites env target
  | n => [⟨n, env⟩]

def sitesAll (env : Env) : List Node → List Site
  | [] => []
  | n :: rest => sites env n ++ sitesAll (env.extend (declared n)) rest

end

/-- What has to hold at a place for resolution to go on. -/
def Site.Ok (t : Table) (s : Site) : Prop :=
  match s.node with
  | .ident _ name => ∃ symbol, s.env.find? name = some symbol ∧ symbol.role ≠ .function
  | .call _ callee _ => ∃ symbol, s.env.find? callee = some symbol ∧ symbol.role = .function
  | .var _ name _ init =>
    ¬(t.isGlobal name = true ∧ s.env.isNested = true) ∧
      name ∉ (s.env.extend (declared init)).frame.map Symbol.name
  | .function _ _ params _ body =>
    (∀ p ∈ params, p.isAbsent = false) ∧ ((paramSymbols params).map Symbol.name).Nodup ∧
      (body = .absent ∨ ∃ tag stmts, body = .compound tag stmts)
  | _ => True

/-- The binding that a place makes. -/
def Site.bind (b : Bindings) (s : Site) : Bindings :=
  match s.node with
  | .ident tag name => (s.env.find? name).elim b fun symbol => b.bind tag.label symbol.decl
  | _ => b

def record (b : Bindings) (ss : List Site) : Bindings := ss.foldl Site.bind b

/-- The node opens no scope and declares nothing itself; its parts stand where it
stands. -/
def isPlain : Node → Bool
  | .absent | .var .. | .function .. | .compound .. => false
  | _ => true

theorem sites_plain {n : Node} (h : isPlain n = true) (env : Env) :
    sites env n = ⟨n, env⟩ :: sitesAll env n.parts := by
  cases n <;> simp_all [isPlain, sites, sitesAll, Node.parts]

theorem declared_plain {n : Node} (h : isPlain n = true) : declared n = declaredAll n.parts := by
  cases n <;> simp_all [isPlain, declared, declaredAll, Node.parts]

/-! ## Environments -/

@[simp] theorem Env.extend_nil (env : Env) : env.extend [] = env := rfl

theorem Env.extend_append (env : Env) (xs ys : List Symbol) :
    env.extend (xs ++ ys) = (env.extend xs).extend ys := List.foldl_append

@[simp] theorem Env.extend_frame (env : Env) (xs : List Symbol) :
    (env.extend xs).frame = xs.reverse ++ env.frame := by
  induction xs generalizing env with
  | nil => rfl
  | cons x xs ih =>
    show ((env.declare x).extend xs).frame = _
    rw [ih, List.reverse_cons, List.append_assoc]
    rfl

@[simp] theorem Env.extend_outer (env : Env) (xs : List Symbol) :
    (env.extend xs).outer = env.outer := by
  induction xs generalizing env with
  | nil => rfl
  | cons x xs ih => exact ih (env.declare x)

@[simp] theorem Env.extend_isNested (env : Env) (xs : List Symbol) :
    (env.extend xs).isNested = env.isNested := by
  rw [Env.isNested, Env.extend_outer, Env.isNested]

/-- Something holds of all symbols of the open scopes. -/
def Env.All (env : Env) (P : Symbol → Prop) : Prop :=
  ∀ f ∈ env.frame :: env.outer, ∀ x ∈ f, P x

theorem Env.All.mono {env : Env} {P Q : Symbol → Prop} (h : env.All P) (hPQ : ∀ x, P x → Q x) :
    env.All Q := fun f hf x hx => hPQ x (h f hf x hx)

theorem Env.All.enter {env : Env} {P : Symbol → Prop} (h : env.All P) {frame : Frame}
    (hf : ∀ x ∈ frame, P x) : (env.enter frame).All P := List.forall_mem_cons.mpr ⟨hf, h⟩

theorem Env.All.of_enter {env : Env} {P : Symbol → Prop} {frame : Frame}
    (h : (env.enter frame).All P) : env.All P := (List.forall_mem_cons.mp h).2

theorem Env.All.extend {env : Env} {P : Symbol → Prop} (h : env.All P) {xs : List Symbol}
    (hx : ∀ x ∈ xs, P x) : (env.extend xs).All P := by
  obtain ⟨hframe, houter⟩ := List.forall_mem_cons.mp h
  rw [Env.All, Env.extend_frame, Env.extend_outer]
  refine List.forall_mem_cons.mpr ⟨fun x hmem => ?_, houter⟩
  rcases List.mem_append.mp hmem with hmem | hmem
  · exact hx x (List.mem_reverse.mp hmem)
  · exact hframe x hmem

theorem Env.All.of_extend {env : Env} {P : Symbol → Prop} {xs : List Symbol}
    (h : (env.extend xs).All P) : env.All P := by
  rw [Env.All, Env.extend_frame, Env.extend_outer] at h
  obtain ⟨hframe, houter⟩ := List.forall_mem_cons.mp h
  exact List.forall_mem_cons.mpr ⟨fun x hx => hframe x (List.mem_append_right _ hx), houter⟩

theorem Frame.find?_isSome {f : Frame} {name : String} :
    (f.find? name).isSome = true ↔ name ∈ f.map Symbol.name := by
  rw [Frame.find?, List.find?_isSome, List.mem_map]
  simp only [beq_iff_eq]

theorem record_append (b : Bindings) (xs ys : List Site) :
    record b (xs ++ ys) = record (record b xs) ys := List.foldl_append

/-! ## Steps of resolution -/

theorem declareVar_eq_ok {t : Table} {env env' : Env} {tag : Tag} {name : String}
    {b b' : Bindings} :
    declareVar t env tag name b = .ok env' b' ↔
      env' = env.extend [varSymbol tag name] ∧ b' = b ∧
        ¬(t.isGlobal name = true ∧ env.isNested = true) ∧ name ∉ env.frame.map Symbol.name := by
  rw [declareVar, ← Frame.find?_isSome, Frame.declare]
  by_cases hg : (t.isGlobal name && env.isNested) = true
  · rw [if_pos hg]
    simp_all
  · rw [if_neg hg]
    have hg' : ¬(t.isGlobal name = true ∧ env.isNested = true) := by simpa using hg
    by_cases hf : (env.frame.find? name).isSome = true
    · simp [hf]
    · simp only [hf, hg']
      constructor
      · intro h
        cases h
        exact ⟨rfl, rfl, by simp, by simp⟩
      · rintro ⟨rfl, rfl, -, -⟩
        rfl

theorem resolveIdent_eq_ok {env : Env} {tag : Tag} {name : String} {b b' : Bindings} {u : Unit} :
    resolveIdent env tag name b = .ok u b' ↔
      b' = Site.bind b ⟨.ident tag name, env⟩ ∧
        ∃ symbol, env.find? name = some symbol ∧ symbol.role ≠ .function := by
  rw [resolveIdent, Site.bind]
  cases hf : env.find? name with
  | none => simp
  | some symbol =>
    by_cases hr : symbol.role = .function
    · simp [hr]
    · simp only [hr, if_false, modify_apply, EStateM.Result.ok.injEq, true_and, hf,
        Option.elim_some, Option.some.injEq, exists_eq_left', ne_eq, not_false_eq_true, and_true]
      exact eq_comm

theorem resolveCallee_eq_ok {env : Env} {tag : Tag} {callee : String} {b b' : Bindings}
    {u : Unit} :
    resolveCallee env tag callee b = .ok u b' ↔
      b' = b ∧ ∃ symbol, env.find? callee = some symbol ∧ symbol.role = .function := by
  rw [resolveCallee]
  cases hf : env.find? callee with
  | none => simp
  | some symbol =>
    by_cases hr : symbol.role = .function
    · simp only [Option.any_some, hr, beq_self_eq_true, if_true, pure_apply,
        EStateM.Result.ok.injEq, true_and, Option.some.injEq, exists_eq_left', and_true]
      exact eq_comm
    · simp [hr]

/-- Parameters make a scope if their names differ from each other and from those that
are there. -/
theorem declareParams_eq_ok : ∀ (symbols : List (Symbol × Position)) (frame frame' : Frame),
    (frame.map Symbol.name).Nodup →
      (declareParams frame symbols = .ok frame' ↔
        frame' = (symbols.map Prod.fst).reverse ++ frame ∧ (frame'.map Symbol.name).Nodup) := by
  intro symbols
  induction symbols with
  | nil =>
    intro frame frame' hnd
    simp only [declareParams, Except.ok.injEq, List.map_nil, List.reverse_nil, List.nil_append]
    constructor
    · rintro rfl
      exact ⟨rfl, hnd⟩
    · rintro ⟨rfl, -⟩
      rfl
  | cons p symbols ih =>
    obtain ⟨symbol, pos⟩ := p
    intro frame frame' hnd
    rw [declareParams, Frame.declare]
    by_cases hf : (frame.find? symbol.name).isSome = true
    · rw [if_pos hf]
      constructor
      · intro h
        cases h
      · rintro ⟨rfl, hnd'⟩
        rw [Frame.find?_isSome] at hf
        simp only [List.map_cons, List.reverse_cons, List.append_assoc, List.map_append] at hnd'
        have hnd'' := hnd'.of_append_right
        simp only [List.map_nil, List.singleton_append, List.nodup_cons] at hnd''
        exact absurd hf hnd''.1
    · rw [if_neg hf]
      have hnd' : ((symbol :: frame).map Symbol.name).Nodup :=
        List.nodup_cons.mpr ⟨fun h => hf (Frame.find?_isSome.mpr h), hnd⟩
      have hrec := ih (symbol :: frame) frame' hnd'
      simp only [List.map_cons, List.reverse_cons, List.append_assoc, List.singleton_append]
      exact hrec

theorem symbolOf?_eq_none {r : Role} {p : Node} : symbolOf? r p = none ↔ p.isAbsent = true := by
  cases p <;> simp [symbolOf?, Node.tag?, Node.isAbsent]

theorem mapM_symbolOf?_eq_some : ∀ (params : List Node) (symbols : List (Symbol × Position)),
    params.mapM (symbolOf? .param) = some symbols ↔
      (∀ p ∈ params, p.isAbsent = false) ∧ symbols = params.filterMap (symbolOf? .param) := by
  intro params
  induction params with
  | nil =>
    intro symbols
    rw [List.mapM_nil]
    constructor
    · intro h
      cases h
      exact ⟨by simp, rfl⟩
    · rintro ⟨-, rfl⟩
      rfl
  | cons p params ih =>
    intro symbols
    rw [List.mapM_cons, List.forall_mem_cons]
    cases hp : symbolOf? .param p with
    | none =>
      rw [symbolOf?_eq_none.mp hp]
      simp
    | some x =>
      have ha : p.isAbsent = false := by
        rw [← Bool.not_eq_true, ← symbolOf?_eq_none (r := .param), hp]
        simp
      rw [List.filterMap_cons_some hp, ha]
      constructor
      · intro h
        cases hm : params.mapM (symbolOf? .param) with
        | none => rw [hm] at h; cases h
        | some rest =>
          rw [hm] at h
          cases h
          obtain ⟨hall, rfl⟩ := (ih rest).mp hm
          exact ⟨⟨rfl, hall⟩, rfl⟩
      · rintro ⟨⟨-, hall⟩, rfl⟩
        rw [(ih _).mpr ⟨hall, rfl⟩]
        rfl

theorem enterFunction_eq_ok {env env' : Env} {params : List Node} {b b' : Bindings} :
    enterFunction env params b = .ok env' b' ↔
      env' = env.enter (paramSymbols params).reverse ∧ b' = b ∧
        (∀ p ∈ params, p.isAbsent = false) ∧ ((paramSymbols params).map Symbol.name).Nodup := by
  rw [enterFunction]
  cases hm : params.mapM (symbolOf? .param) with
  | none =>
    have hno : ¬∀ p ∈ params, p.isAbsent = false := by
      intro hall
      rw [(mapM_symbolOf?_eq_some params _).mpr ⟨hall, rfl⟩] at hm
      cases hm
    simp only [hno, false_and, and_false, iff_false]
    intro h
    cases h
  | some symbols =>
    obtain ⟨hall, rfl⟩ := (mapM_symbolOf?_eq_some params symbols).mp hm
    have hdecl := fun frame' =>
      declareParams_eq_ok (params.filterMap (symbolOf? .param)) [] frame' List.nodup_nil
    simp only [List.append_nil] at hdecl
    have hrev : ((paramSymbols params).reverse.map Symbol.name).Nodup ↔
        ((paramSymbols params).map Symbol.name).Nodup := by
      rw [List.map_reverse, List.nodup_reverse]
    cases hd : declareParams [] (params.filterMap (symbolOf? .param)) with
    | error f =>
      have hno : ¬((paramSymbols params).map Symbol.name).Nodup := by
        intro hnd
        rw [(hdecl _).mpr ⟨rfl, hrev.mpr hnd⟩] at hd
        cases hd
      simp only [hd, hno, and_false, iff_false]
      intro h
      cases h
    | ok frame =>
      obtain ⟨rfl, hnd⟩ := (hdecl frame).mp hd
      simp only [hd]
      constructor
      · intro h
        cases h
        exact ⟨rfl, rfl, hall, hrev.mp hnd⟩
      · rintro ⟨rfl, rfl, -, -⟩
        rfl

/-! ## Resolution reads the places off -/

/-- What resolution of nodes with these symbols and places makes of an environment and
of bindings. -/
def Follows (t : Table) (env : Env) (b : Bindings) (symbols : List Symbol) (ss : List Site)
    (env' : Env) (b' : Bindings) : Prop :=
  env' = env.extend symbols ∧ b' = record b ss ∧ ∀ s ∈ ss, s.Ok t

theorem follows_nil {t : Table} {env env' : Env} {b b' : Bindings} :
    Follows t env b [] [] env' b' ↔ env' = env ∧ b' = b := by
  simp [Follows, record]

theorem follows_leaf {t : Table} {env env' : Env} {b b' : Bindings} {s : Site} (hok : s.Ok t)
    (hb : s.bind b = b) : Follows t env b [] [s] env' b' ↔ env' = env ∧ b' = b := by
  simp [Follows, record, hok, hb]

theorem follows_cons {t : Table} {env env' : Env} {b b' : Bindings} {symbols : List Symbol}
    {s : Site} {ss : List Site} (hok : s.Ok t) (hb : s.bind b = b) :
    Follows t env b symbols ss env' b' ↔ Follows t env b symbols (s :: ss) env' b' := by
  simp [Follows, record, hok, hb]

theorem follows_append {t : Table} {env env' : Env} {b b' : Bindings} {xs ys : List Symbol}
    {ss : List Site} {f : Env → List Site} :
    Follows t env b (xs ++ ys) (ss ++ f (env.extend xs)) env' b' ↔
      ∃ env₁ b₁, Follows t env b xs ss env₁ b₁ ∧ Follows t env₁ b₁ ys (f env₁) env' b' := by
  constructor
  · rintro ⟨rfl, rfl, hok⟩
    refine ⟨env.extend xs, record b ss, ⟨rfl, rfl, fun s hs => hok s ?_⟩, ?_, ?_,
      fun s hs => hok s ?_⟩
    · exact List.mem_append_left _ hs
    · exact Env.extend_append env xs ys
    · exact record_append b ss _
    · exact List.mem_append_right _ hs
  · rintro ⟨env₁, b₁, ⟨rfl, rfl, hok₁⟩, rfl, rfl, hok₂⟩
    refine ⟨(Env.extend_append env xs ys).symm, (record_append b ss _).symm, fun s hs => ?_⟩
    rcases List.mem_append.mp hs with h | h
    · exact hok₁ s h
    · exact hok₂ s h

/-- Resolution of the node reads its places off: it ends well exactly if every place is in
order, and then leaves the scope with what was declared and binds what it met. -/
def Reads (t : Table) (n : Node) : Prop :=
  ∀ (env : Env) (b : Bindings) (env' : Env) (b' : Bindings),
    resolve t env n b = .ok env' b' ↔ Follows t env b (declared n) (sites env n) env' b'

theorem resolveAll_follows {t : Table} : ∀ (ns : List Node)
    (_ : ∀ n ∈ ns, Reads t n) (env : Env) (b : Bindings) (env' : Env) (b' : Bindings),
    resolveAll t env ns b = .ok env' b' ↔
      Follows t env b (declaredAll ns) (sitesAll env ns) env' b' := by
  intro ns
  induction ns with
  | nil =>
    intro _ env b env' b'
    rw [resolveAll, declaredAll, sitesAll, follows_nil, pure_apply]
    constructor
    · intro h
      cases h
      exact ⟨rfl, rfl⟩
    · rintro ⟨rfl, rfl⟩
      rfl
  | cons n ns ih =>
    intro h env b env' b'
    rw [resolveAll, declaredAll, sitesAll, bind_eq_ok,
      follows_append (f := fun env => sitesAll env ns)]
    have hn := h n (by simp)
    rw [Reads] at hn
    simp only [hn, ih fun m hm => h m (by simp [hm])]

section Reads

-- All cases open these functions: their equations are made here, once for all of them.
attribute [local simp] resolve declared sites

variable {t : Table}

theorem function_reads_absent (tag : Tag) (name : String) (params : List Node)
    (result : ValueType) : Reads t (.function tag name params result .absent) := by
  intro env b env' b'
  rw [resolve, declared, bind_eq_ok]
  simp only [sites, enterFunction_eq_ok]
  constructor
  · rintro ⟨_, _, ⟨rfl, rfl, hall, hnd⟩, h⟩
    cases h
    exact ⟨rfl, rfl, List.forall_mem_singleton.mpr ⟨hall, hnd, .inl rfl⟩⟩
  · rintro ⟨rfl, rfl, hok⟩
    obtain ⟨hall, hnd, -⟩ := hok _ (List.mem_singleton.mpr rfl)
    exact ⟨_, _, ⟨rfl, rfl, hall, hnd⟩, rfl⟩

theorem function_reads_compound (tag inner : Tag) (name : String) (params : List Node)
    (result : ValueType) {stmts : List Node} (ih : ∀ n ∈ stmts, Reads t n) :
    Reads t (.function tag name params result (.compound inner stmts)) := by
  intro env b env' b'
  rw [resolve, declared, sites, bind_eq_ok]
  simp only [enterFunction_eq_ok, bind_eq_ok, resolveAll_follows stmts ih]
  constructor
  · rintro ⟨_, _, ⟨rfl, rfl, hall, hnd⟩, _, _, ⟨rfl, rfl, hok⟩, h⟩
    cases h
    exact ⟨rfl, rfl, List.forall_mem_cons.mpr ⟨⟨hall, hnd, .inr ⟨inner, stmts, rfl⟩⟩, hok⟩⟩
  · rintro ⟨rfl, rfl, hok⟩
    obtain ⟨⟨hall, hnd, -⟩, hok⟩ := List.forall_mem_cons.mp hok
    exact ⟨_, _, ⟨rfl, rfl, hall, hnd⟩, _, _, ⟨rfl, rfl, hok⟩, rfl⟩

/-- A function with another body is not accepted. -/
theorem function_reads_other (tag : Tag) (name : String) (params : List Node)
    (result : ValueType) {body : Node}
    (hbody : ¬(body = .absent ∨ ∃ inner stmts, body = .compound inner stmts)) :
    Reads t (.function tag name params result body) := by
  intro env b env' b'
  constructor
  · intro h
    cases body <;> simp_all [resolve]
  · rintro ⟨-, -, hok⟩
    have hself : ⟨.function tag name params result body, env⟩ ∈
        sites env (.function tag name params result body) := by
      cases body <;> simp [sites]
    exact absurd (hok _ hself).2.2 hbody

theorem var_reads (tag : Tag) (name : String) (type : ValueType) {init : Node}
    (ih : Reads t init) : Reads t (.var tag name type init) := by
  intro env b env' b'
  rw [Reads] at ih
  rw [resolve, declared, sites, bind_eq_ok]
  simp only [ih, declareVar_eq_ok]
  constructor
  · rintro ⟨_, _, ⟨rfl, rfl, hok⟩, rfl, rfl, hg, hfresh⟩
    refine ⟨(Env.extend_append ..).symm, rfl, List.forall_mem_cons.mpr ⟨⟨?_, hfresh⟩, hok⟩⟩
    simpa using hg
  · rintro ⟨rfl, rfl, hok⟩
    obtain ⟨⟨hg, hfresh⟩, hok⟩ := List.forall_mem_cons.mp hok
    refine ⟨_, _, ⟨rfl, rfl, hok⟩, Env.extend_append .., rfl, ?_, hfresh⟩
    simpa using hg

theorem call_reads (tag : Tag) (callee : String) {args : List Node}
    (ih : ∀ n ∈ args, Reads t n) : Reads t (.call tag callee args) := by
  intro env b env' b'
  rw [resolve, declared, sites, bind_eq_ok]
  simp only [resolveCallee_eq_ok, resolveAll_follows args ih]
  constructor
  · rintro ⟨_, _, ⟨rfl, hcallee⟩, rfl, rfl, hok⟩
    exact ⟨rfl, rfl, List.forall_mem_cons.mpr ⟨hcallee, hok⟩⟩
  · rintro ⟨rfl, rfl, hok⟩
    obtain ⟨hcallee, hok⟩ := List.forall_mem_cons.mp hok
    exact ⟨⟨⟩, _, ⟨rfl, hcallee⟩, rfl, rfl, hok⟩

theorem ident_reads (tag : Tag) (name : String) : Reads t (.ident tag name) := by
  intro env b env' b'
  rw [resolve, declared, bind_eq_ok]
  simp only [sites, resolveIdent_eq_ok]
  constructor
  · rintro ⟨_, _, ⟨rfl, hfound⟩, h⟩
    cases h
    exact ⟨rfl, rfl, List.forall_mem_singleton.mpr hfound⟩
  · rintro ⟨rfl, rfl, hok⟩
    exact ⟨⟨⟩, _, ⟨rfl, hok _ (List.mem_singleton.mpr rfl)⟩, rfl⟩

theorem compound_reads (tag : Tag) {stmts : List Node} (ih : ∀ n ∈ stmts, Reads t n) :
    Reads t (.compound tag stmts) := by
  intro env b env' b'
  rw [resolve, declared, sites, bind_eq_ok]
  simp only [resolveAll_follows stmts ih]
  constructor
  · rintro ⟨_, _, ⟨rfl, rfl, hok⟩, h⟩
    cases h
    exact ⟨rfl, rfl, List.forall_mem_cons.mpr ⟨trivial, hok⟩⟩
  · rintro ⟨rfl, rfl, hok⟩
    exact ⟨_, _, ⟨rfl, rfl, (List.forall_mem_cons.mp hok).2⟩, rfl⟩

/-- A place without conditions of its own that binds nothing. -/
theorem pure_follows {env env' : Env} {b b' : Bindings} {s : Site} (hok : s.Ok t)
    (hb : s.bind b = b) :
    (pure env : Resolve Env) b = .ok env' b' ↔ Follows t env b [] [s] env' b' := by
  rw [follows_leaf hok hb, pure_apply]
  constructor
  · intro h
    cases h
    exact ⟨rfl, rfl⟩
  · rintro ⟨rfl, rfl⟩
    rfl

/-- **Resolution reads the places off.** -/
theorem resolve_follows : ∀ n : Node, Reads t n := by
  intro n
  induction n using Node.parts_induction with
  | _ n ih ih₂ =>
  cases n with
  | absent =>
    intro env b env' b'
    rw [resolve, declared, sites, follows_nil, pure_apply]
    simp [eq_comm]
  | bare | param | boolean | number | string =>
    intro env b env' b'
    simp only [resolve, declared, sites]
    exact pure_follows trivial rfl
  | program tag decls =>
    intro env b env' b'
    rw [resolve, declared, sites]
    refine Iff.trans ?_ (follows_cons trivial rfl)
    exact resolveAll_follows decls ih env b env' b'
  | function tag name params result body =>
    by_cases hbody : body = .absent ∨ ∃ inner stmts, body = .compound inner stmts
    · rcases hbody with rfl | ⟨inner, stmts, rfl⟩
      · exact function_reads_absent tag name params result
      · exact function_reads_compound tag inner name params result
          (ih₂ (.compound inner stmts) (by simp [Node.parts]))
    · exact function_reads_other tag name params result hbody
  | var tag name type init => exact var_reads tag name type (ih init (by simp [Node.parts]))
  | call tag callee args => exact call_reads tag callee ih
  | ident tag name => exact ident_reads tag name
  | compound tag stmts => exact compound_reads tag ih
  | binary tag _ left right | ifThen tag left right | loop tag left right =>
    intro env b env' b'
    have hl := ih left (by simp [Node.parts])
    have hr := ih right (by simp [Node.parts])
    rw [Reads] at hl hr
    rw [resolve, declared, sites, bind_eq_ok]
    refine Iff.trans ?_ (follows_cons trivial rfl)
    rw [follows_append (f := fun env => sites env right)]
    simp only [hl, hr]
  | print tag expr | ret tag expr | scan tag expr =>
    intro env b env' b'
    rw [resolve, declared, sites]
    refine Iff.trans ?_ (follows_cons trivial rfl)
    exact ih expr (by simp [Node.parts]) env b env' b'

end Reads

end Isel.Scope
