import Isel.Proofs.Grammar
import Isel.Proofs.ProgramLayout

/-!
# What selection finds of resolution

Selection looks a variable up by the declaration that resolution bound it to, and tells
a variable of the program scope by its name.  `Seen` says that at a place of the tree
both give what lexical scope says.

A variable without initializer never gets a slot (`unheld_body`, `unheld_global`), unless
input is read into it; so a slot that is found belongs to a variable that was given a value.
-/

namespace Isel.Scope

open Isel.Syntax Isel.Proofs

/-! ## The variables of the open scopes -/

theorem Env.mem_of_find? {env : Env} {name : String} {x : Symbol}
    (h : env.find? name = some x) : (∃ f ∈ env.frame :: env.outer, x ∈ f) ∧ x.name = name := by
  have hshow := Env.shows_of_find? h
  refine ⟨Env.mem_of_shows hshow, ?_⟩
  obtain ⟨_, _, _, -, -, -, hname⟩ := hshow
  exact hname

/-- Something holds of all variables and parameters of the open scopes. -/
def Env.Each (env : Env) (P : Symbol → Prop) : Prop := env.All fun x => x.role ≠ .function → P x

section Each

variable {env : Env} {P Q : Symbol → Prop} {frame : Frame} {xs : List Symbol}

theorem Env.Each.mono (h : env.Each P) (hPQ : ∀ x, P x → Q x) : env.Each Q :=
  Env.All.mono h fun x hx hr => hPQ x (hx hr)

theorem Env.Each.enter (h : env.Each P) (hf : ∀ x ∈ frame, P x) : (env.enter frame).Each P :=
  Env.All.enter h fun x hx _ => hf x hx

theorem Env.Each.extend (h : env.Each P) (hx : ∀ x ∈ xs, P x) : (env.extend xs).Each P :=
  Env.All.extend h fun x hmem _ => hx x hmem

theorem Env.Each.of_extend (h : (env.extend xs).Each P) : env.Each P := Env.All.of_extend h

theorem Env.Each.of_enter (h : ((env.enter frame).extend xs).Each P) : env.Each P :=
  Env.All.of_enter (Env.All.of_extend h)

theorem Env.Each.find? (h : env.Each P) {name : String} {x : Symbol}
    (hfind : env.find? name = some x) (hr : x.role ≠ .function) : P x := by
  obtain ⟨⟨f, hf, hx⟩, -⟩ := Env.mem_of_find? hfind
  exact h f hf x hx hr

end Each

theorem programEnv_each (decls : List Node) (P : Symbol → Prop) : (programEnv decls).Each P := by
  refine List.forall_mem_cons.mpr ⟨fun x hx hr => ?_, by simp [programEnv]⟩
  rw [programEnv, List.mem_reverse] at hx
  obtain ⟨d, -, hd⟩ := List.mem_filterMap.mp hx
  cases d with
  | function => cases hd; exact absurd rfl hr
  | _ => cases hd

theorem label_of_paramSymbols {params : List Node} {x : Symbol} (h : x ∈ paramSymbols params) :
    ∃ p ∈ params, p.label? = some x.decl.label := by
  obtain ⟨⟨y, pos⟩, hy, rfl⟩ := List.mem_map.mp h
  obtain ⟨p, hp, hsymbol⟩ := List.mem_filterMap.mp hy
  obtain ⟨tag, htag, he⟩ := Option.map_eq_some_iff.mp hsymbol
  cases he
  exact ⟨p, hp, by rw [Node.label?, htag]; rfl⟩

theorem label_of_declared {n : Node} {x : Symbol} (h : x ∈ declared n) :
    x.decl.label ∈ n.labels := by
  obtain ⟨d, hd, hby⟩ := declared_from n x h
  exact Node.mem_labels.mpr ⟨d, hd, Node.label?_of_decl? hby.decl?⟩

theorem sitesAll_append (env : Env) (xs ys : List Node) :
    sitesAll env (xs ++ ys) = sitesAll env xs ++ sitesAll (env.extend (declaredAll xs)) ys := by
  induction xs generalizing env with
  | nil => simp [sitesAll, declaredAll]
  | cons x xs ih =>
    rw [List.cons_append, sitesAll, sitesAll, ih, declaredAll, Env.extend_append,
      List.append_assoc]

end Isel.Scope

namespace Isel.Select

open Isel.Syntax Isel.Proofs Isel.Scope
open Isel.Flow (Slot Instr)

/-! ## Places as selection sees them -/

/-- Selection finds at the place what lexical scope says. -/
def Seen (su : Setup) (s : Site) : Prop :=
  match s.node with
  | .ident tag name => ∃ symbol, s.env.find? name = some symbol ∧ symbol.role ≠ .function ∧
      su.bindings.find? tag.label = some symbol.decl
  | .call _ callee _ => ∃ symbol, s.env.find? callee = some symbol ∧ symbol.role = .function
  | .var _ name _ _ => s.env.isNested = true → su.isGlobal name = false
  | _ => True

/-- Resolution of a tree without sharing is seen at all its places. -/
theorem programSites_seen {tag : Tag} {decls : List Node} {t : Table} {b₀ b : Bindings}
    (hres : Resolved decls t b₀ b) (hu : (Node.program tag decls).Unshared) {su : Setup}
    (hb : su.bindings = b) (hg : su.isGlobal = t.isGlobal) :
    ∀ s ∈ programSites decls, Seen su s := by
  intro s hs
  obtain ⟨n, env⟩ := s
  have hok := hres.sites_ok _ hs
  cases n with
  | ident itag name =>
    obtain ⟨symbol, hfind, hrole⟩ := hok
    refine ⟨symbol, hfind, hrole, ?_⟩
    rw [hb, hres.bindings]
    exact record_find? _ _ (programSites_bound_nodup hu) itag name env symbol hs hfind
  | var vtag name type init =>
    intro hnested
    rw [hg, ← Bool.not_eq_true]
    exact fun hglobal => hok.1 ⟨hglobal, hnested⟩
  | call ctag callee args => exact hok
  | _ => trivial

/-- A variable that stands below the program scope is not taken for one in it. -/
def Unmixed (su : Setup) (s : Site) : Prop :=
  match s.node with
  | .var _ name _ _ => s.env.isNested = true → su.isGlobal name = false
  | _ => True

theorem Seen.unmixed {su : Setup} {s : Site} (h : Seen su s) : Unmixed su s := by
  obtain ⟨n, env⟩ := s
  cases n with
  | var => exact h
  | _ => trivial

theorem localAll_of_unmixed {su : Setup} : ∀ ns : List Node,
    (∀ n ∈ ns, ∀ env : Env, env.isNested = true → (∀ s ∈ sites env n, Unmixed su s) → Local su n) →
    ∀ env : Env, env.isNested = true → (∀ s ∈ sitesAll env ns, Unmixed su s) → LocalAll su ns := by
  intro ns
  induction ns with
  | nil => intro _ env _ _; trivial
  | cons n ns ih =>
    intro h env hnested hunmixed
    rw [sitesAll, List.forall_mem_append] at hunmixed
    rw [LocalAll]
    refine ⟨h n (by simp) env hnested hunmixed.1,
      ih (fun m hm => h m (by simp [hm])) (env.extend (declared n)) ?_ hunmixed.2⟩
    rw [Env.extend_isNested]
    exact hnested

/-- Below the program scope no variable is taken for one in it. -/
theorem local_of_unmixed {su : Setup} : ∀ (n : Node) (env : Env), env.isNested = true →
    (∀ s ∈ sites env n, Unmixed su s) → Local su n := by
  intro n
  induction n using Node.parts_induction with
  | _ n ih _ =>
  intro env hnested hunmixed
  cases n with
  | var tag name type init =>
    rw [sites, List.forall_mem_cons] at hunmixed
    rw [Local]
    exact hunmixed.1 hnested
  | compound tag stmts =>
    rw [sites, List.forall_mem_cons] at hunmixed
    rw [Local]
    exact localAll_of_unmixed stmts ih (env.enter []) rfl hunmixed.2
  | ifThen tag cond body | loop tag cond body =>
    rw [sites, List.forall_mem_cons, List.forall_mem_append] at hunmixed
    rw [Local]
    refine ih body (by simp [Node.parts]) (env.extend (declared cond)) ?_ hunmixed.2.2
    rw [Env.extend_isNested]
    exact hnested
  | _ => trivial

/-! ## Expressions stand in one environment -/

section Expr

variable {su : Setup} {fin : State}

theorem isExpr_of_argsCode : ∀ (ns : List Node),
    (∀ n ∈ ns, ∀ slot code, ExprCode su fin n slot code → n.IsExpr) →
    ∀ slots code, ArgsCode su fin ns slots code → ∀ n ∈ ns, n.IsExpr := by
  intro ns
  induction ns with
  | nil => intro _ _ _ _ n hn; simp at hn
  | cons n ns ih =>
    intro h slots code hargs
    rw [ArgsCode] at hargs
    obtain ⟨slot, c, ss, cs, hn, hns, -, -⟩ := hargs
    exact List.forall_mem_cons.mpr
      ⟨h n (by simp) slot c hn, ih (fun m hm => h m (by simp [hm])) ss cs hns⟩

theorem isExpr_of_exprCode : ∀ (n : Node) (slot : Slot) (code : List Instr),
    ExprCode su fin n slot code → n.IsExpr := by
  intro n
  induction n using Node.parts_induction with
  | _ n ih _ =>
  intro slot code h
  cases n with
  | binary tag op left right =>
    rw [ExprCode] at h
    obtain ⟨-, lhs, rhs, c, d, opcode, hl, hr, hop, -⟩ := h
    have hbinary : op.isBinary = true := by
      obtain ⟨plain, hplain, -⟩ := Option.map_eq_some_iff.mp hop
      rw [← opcodeOf?_isSome, hplain]
      rfl
    exact .binary hbinary (ih left (by simp [Node.parts]) lhs c hl)
      (ih right (by simp [Node.parts]) rhs d hr)
  | call tag callee args =>
    rw [ExprCode] at h
    obtain ⟨-, slots, c, out, entry, result, hargs, -, -, -⟩ := h
    exact .call (isExpr_of_argsCode args ih slots c hargs)
  | ident => exact .ident
  | number => exact .number
  | boolean => exact .boolean
  | string => exact .string
  | _ => simp [ExprCode] at h

theorem declared_of_exprCode (n : Node) (slot : Slot) (code : List Instr)
    (h : ExprCode su fin n slot code) : declared n = [] :=
  declared_of_isExpr (isExpr_of_exprCode n slot code h)

theorem seen_part {n p : Node} {slot : Slot} {code : List Instr} {env : Env}
    (h : ExprCode su fin n slot code) (hseen : ∀ s ∈ sites env n, Seen su s)
    (hp : p ∈ n.parts) : ∀ s ∈ sites env p, Seen su s :=
  fun s hs => hseen s (sites_part (isExpr_of_exprCode n slot code h) hp hs)

end Expr

/-! ## Where the declarations stand -/

/-- The environment behind the first declarations of a program. -/
def envBehind (decls before : List Node) : Env := (programEnv decls).extend (declaredAll before)

theorem envBehind_concat (decls before : List Node) (d : Node) :
    envBehind decls (before ++ [d]) = (envBehind decls before).extend (declared d) := by
  rw [envBehind, envBehind, ← Env.extend_append, declaredAll_eq, declaredAll_eq,
    List.flatMap_append, List.flatMap_singleton]

theorem envBehind_each {decls before after : List Node} {P : Symbol → Prop}
    (h : (envBehind decls (before ++ after)).Each P) : (envBehind decls before).Each P := by
  rw [envBehind, declaredAll_eq, List.flatMap_append, Env.extend_append, ← declaredAll_eq] at h
  exact h.of_extend

theorem sites_of_split {decls before after : List Node} {d : Node}
    (hsplit : decls = before ++ d :: after) :
    ∀ s ∈ sites (envBehind decls before) d, s ∈ programSites decls := by
  intro s hs
  have hall : programSites decls = sitesAll (programEnv decls) before ++
      (sites (envBehind decls before) d ++
        sitesAll ((envBehind decls before).extend (declared d)) after) := by
    rw [programSites]
    conv => lhs; arg 2; rw [hsplit]
    rw [sitesAll_append, sitesAll]
    rfl
  rw [hall]
  exact List.mem_append_right _ (List.mem_append_left _ hs)

theorem seen_body {su : Setup} {decls before after : List Node} {ftag ctag : Tag} {name : String}
    {params stmts : List Node} {result : ValueType}
    (hsplit : decls = before ++ .function ftag name params result (.compound ctag stmts) :: after)
    (hseen : ∀ s ∈ programSites decls, Seen su s) :
    ∀ s ∈ sitesAll ((envBehind decls before).enter (paramSymbols params).reverse) stmts,
      Seen su s := by
  intro s hs
  refine hseen s (sites_of_split hsplit s ?_)
  rw [sites]
  exact List.mem_cons_of_mem _ hs

theorem local_body {su : Setup} {decls : List Node} {t : Table} {b₀ b : Bindings}
    (hres : Resolved decls t b₀ b) (hseen : ∀ s ∈ programSites decls, Seen su s)
    (tag : Tag) (name : String) (params : List Node) (result : ValueType) (body : Node)
    (hd : .function tag name params result body ∈ decls) : Local su body := by
  obtain ⟨before, after, hsplit⟩ := List.append_of_mem hd
  have hself : ⟨.function tag name params result body, envBehind decls before⟩ ∈
      sites (envBehind decls before) (.function tag name params result body) := by
    cases body <;> simp [sites]
  obtain ⟨-, -, hbody⟩ := hres.sites_ok _ (sites_of_split hsplit _ hself)
  rcases hbody with rfl | ⟨ctag, stmts, rfl⟩
  · trivial
  · rw [Local]
    exact localAll_of_unmixed stmts (fun n _ => local_of_unmixed n) _ rfl
      fun s hs => (seen_body hsplit hseen s hs).unmixed

/-- A declaration that selection accepts is of the kind it claims. -/
theorem IsDecl.isProper {d : Node} (h : IsDecl d) : IsProper d := by
  cases h with
  | function hk => exact ⟨rfl, congrArg some hk⟩
  | var hk => exact ⟨rfl, congrArg some hk⟩

/-- What is known of a program that was resolved and then lowered. -/
structure Accepted (su : Setup) (decls : List Node) (fin : State) : Prop where
  proper : ∀ d ∈ decls, IsDecl d
  seen : ∀ s ∈ programSites decls, Seen su s
  locals : ∀ tag name params result body, .function tag name params result body ∈ decls →
    Local su body
  lowered : Lowered su decls decls fin

theorem accepted {su : Setup} {tag : Tag} {decls : List Node} {t : Table} {b₀ b : Bindings}
    {u : Unit} {fin : State} (hu : (Node.program tag decls).Unshared)
    (hres : resolveProgram (.program tag decls) b₀ = .ok t b) (hb : su.bindings = b)
    (hg : su.isGlobal = t.isGlobal) (hsel : select su (.program tag decls) = .ok u fin) :
    Accepted su decls fin := by
  obtain ⟨hkind, hdecl⟩ := select_isDecl hsel
  obtain ⟨-, hres⟩ := (resolveProgram_eq_ok hkind fun d hd => (hdecl d hd).isProper).mp hres
  have hseen := programSites_seen hres hu hb hg
  exact ⟨hdecl, hseen, local_body hres hseen, select_laid hu hsel⟩

/-! ## Programs that can be lowered -/

/-- Printing pushes the value, and reading input does nothing. -/
def Hook.pushPrinted : Hook := fun _ request =>
  .ok (request.printed?.toList.map fun slot => ⟨.push, [.slot slot]⟩)

/-- Selection behind resolution, with values that cross a call on the stack. -/
def stackSetup (t : Table) (b : Bindings) : Setup where
  isGlobal := t.isGlobal
  bindings := b
  hooks := ⟨.stack, .pushPrinted⟩

/-- The instruction does nothing, or moves one slot to the stack or from it. -/
inductive Simple : Instr → Prop
  | noOp : Simple ⟨.noOp, []⟩
  | push (s : Slot) : Simple ⟨.push, [.slot s]⟩
  | pop (s : Slot) : Simple ⟨.pop, [.slot s]⟩

theorem simple_stackInstrs (request : Request) : ∀ i ∈ Hook.stackInstrs request, Simple i := by
  intro i hi
  cases request with
  | paramsIn params =>
    obtain ⟨s, -, rfl⟩ := List.mem_map.mp hi
    exact .pop s
  | argsOut args =>
    obtain ⟨s, -, rfl⟩ := List.mem_map.mp hi
    exact .push s
  | resultIn dst =>
    rw [List.mem_singleton.mp hi]
    exact .pop dst
  | resultOut value =>
    rw [List.mem_singleton.mp hi]
    exact .push value
  | print value => cases hi
  | scan target => cases hi

theorem simple_of_stack {su : Setup} (h : su.hooks = ⟨.stack, .pushPrinted⟩) {request : Request}
    {out : List Instr} (ho : Answered su request out) : ∀ i ∈ out, Simple i := by
  obtain ⟨served, ho⟩ := ho
  rw [h, Hooks.answer] at ho
  intro i hi
  split at ho
  · cases ho
    obtain ⟨slot, -, rfl⟩ := List.mem_map.mp hi
    exact .push slot
  · cases ho
    exact simple_stackInstrs request i hi

/-- The same with a hook that prints by the same instructions whatever is printed. -/
def printingSetup (out : List Instr) (t : Table) (b : Bindings) : Setup :=
  { stackSetup t b with hooks := ⟨.stack, fun _ _ => .ok out⟩ }

/-- What a program is lowered to, behind resolution. -/
def lowered? (setup : Table → Bindings → Setup) (root : Node) : Option State :=
  match resolveProgram root {} with
  | .error .. => none
  | .ok t b => match select (setup t b) root with
    | .error .. => none
    | .ok _ fin => some fin

theorem exists_of_lowered? {setup : Table → Bindings → Setup} {root : Node} {fin : State}
    (h : lowered? setup root = some fin) :
    ∃ t b, resolveProgram root {} = .ok t b ∧ select (setup t b) root = .ok () fin := by
  rw [lowered?] at h
  split at h
  · cases h
  · next t b hres =>
    split at h
    · cases h
    · next u fin' hsel =>
      cases h
      exact ⟨t, b, hres, hsel⟩

def lowers (setup : Table → Bindings → Setup) (root : Node) : Bool := (lowered? setup root).isSome

theorem exists_of_lowers {setup : Table → Bindings → Setup} {root : Node}
    (h : lowers setup root = true) :
    ∃ t b fin, resolveProgram root {} = .ok t b ∧ select (setup t b) root = .ok () fin := by
  obtain ⟨fin, hfin⟩ := Option.isSome_iff_exists.mp h
  obtain ⟨t, b, hres, hsel⟩ := exists_of_lowered? hfin
  exact ⟨t, b, fin, hres, hsel⟩

/-! ## Who has no slot -/

/-- No input is read anywhere in the tree. -/
def ScanFree (n : Node) : Prop := ∀ tag target, .scan tag target ∉ n.nodes

theorem ScanFree.part {n p : Node} (h : ScanFree n) (hp : p ∈ n.parts) : ScanFree p :=
  fun tag target hm => h tag target (Node.mem_nodes_of_part hp hm)

/-- No variable of the tree that lacks an initializer has a slot. -/
def Unheld (fin : State) (n : Node) : Prop :=
  ∀ tag name type, .var tag name type .absent ∈ n.nodes →
    fin.slots.slot? (some tag.label) = none

theorem Unheld.part {fin : State} {n p : Node} (h : Unheld fin n) (hp : p ∈ n.parts) :
    Unheld fin p := fun tag name type hm => h tag name type (Node.mem_nodes_of_part hp hm)

theorem label_of_claimed {su : Setup} {n : Node} {l : Label} (hc : claimed? su n = some l)
    (hscan : ∀ tag target, n ≠ .scan tag target) : n.label? = some l := by
  cases n with
  | scan tag target => exact absurd rfl (hscan tag target)
  | var tag name type init =>
    cases init with
    | absent => cases hc
    | _ => exact hc
  | _ => exact hc

theorem mem_labels_of_claims {su : Setup} {n : Node} (hscan : ScanFree n) {l : Label}
    (hl : l ∈ claims su n) : l ∈ n.labels := by
  obtain ⟨m, hm, hc⟩ := List.mem_filterMap.mp hl
  exact Node.mem_labels.mpr
    ⟨m, hm, label_of_claimed hc fun tag target he => hscan tag target (he ▸ hm)⟩

theorem notMem_claims {su : Setup} {n : Node} (hscan : ScanFree n) (hu : n.labels.Nodup)
    {tag : Tag} {name : String} {type : ValueType} (hm : .var tag name type .absent ∈ n.nodes) :
    tag.label ∉ claims su n := by
  intro hl
  obtain ⟨m, hm', hc⟩ := List.mem_filterMap.mp hl
  have hlabel := label_of_claimed hc fun tag target he => hscan tag target (he ▸ hm')
  have heq := Node.eq_of_label_eq hu hm' hm hlabel rfl
  subst heq
  cases hc

theorem mem_labels_of_declClaims {su : Setup} {d : Node} (hscan : ScanFree d) {l : Label}
    (hl : l ∈ declClaims su d) : l ∈ d.labels := by
  cases d with
  | function tag name params result body =>
    rw [declClaims, List.mem_append] at hl
    rcases hl with hl | hl
    · obtain ⟨p, hp, hpl⟩ := List.mem_filterMap.mp hl
      have hpart : p ∈ (Node.function tag name params result body).parts := by
        simp [Node.parts, hp]
      refine Node.labels_part_subset hpart ?_
      rw [Node.labels_eq, hpl]
      simp
    · have hpart : body ∈ (Node.function tag name params result body).parts := by
        simp [Node.parts]
      exact Node.labels_part_subset hpart (mem_labels_of_claims (hscan.part hpart) hl)
  | _ => exact mem_labels_of_claims hscan hl

theorem slot?_eq_none {s : Slots} {l : Label} (h : some l ∉ s.owners) :
    s.slot? (some l) = none := by
  rw [Slots.slot?, List.findIdx?_eq_none_iff]
  intro o ho
  rw [beq_eq_false_iff_ne]
  rintro rfl
  exact h ho

section Unheld

variable {su : Setup} {tag : Tag} {decls : List Node} {fin : State}

theorem unheld_of_notMem (hlow : Lowered su decls decls fin)
    (hu : (Node.program tag decls).Unshared) (hscan : ScanFree (.program tag decls))
    {before after : List Node} {d : Node} (hsplit : decls = before ++ d :: after) {l : Label}
    (hl : l ∈ d.labels) (hclaim : l ∉ declClaims su d) :
    fin.slots.slot? (some l) = none := by
  have hnodup : (decls.flatMap Node.labels).Nodup := Node.nodup_parts hu
  refine slot?_eq_none fun ho => ?_
  obtain ⟨l', hl', he⟩ := hlow.owners _ ho
  cases he
  obtain ⟨d', hd', hl'⟩ := List.mem_flatMap.mp hl'
  have hlabel := mem_labels_of_declClaims (hscan.part hd') hl'
  rw [hsplit, List.flatMap_append, List.flatMap_cons, List.nodup_append', List.nodup_append']
    at hnodup
  obtain ⟨-, ⟨-, -, hafter⟩, hbefore⟩ := hnodup
  rw [hsplit, List.mem_append, List.mem_cons] at hd'
  rcases hd' with hd' | rfl | hd'
  · exact hbefore (List.mem_flatMap.mpr ⟨d', hd', hlabel⟩) (List.mem_append_left _ hl)
  · exact hclaim hl'
  · exact hafter hl (List.mem_flatMap.mpr ⟨d', hd', hlabel⟩)

theorem unheld_global (hlow : Lowered su decls decls fin)
    (hu : (Node.program tag decls).Unshared) (hscan : ScanFree (.program tag decls))
    {before after : List Node} {vtag : Tag} {name : String} {type : ValueType}
    (hsplit : decls = before ++ .var vtag name type .absent :: after) :
    fin.slots.slot? (some vtag.label) = none := by
  refine unheld_of_notMem hlow hu hscan hsplit (Node.label_mem_labels rfl) ?_
  simp [declClaims, claims, Node.nodes, Node.walk, claimed?]

theorem unheld_body (hlow : Lowered su decls decls fin)
    (hu : (Node.program tag decls).Unshared) (hscan : ScanFree (.program tag decls))
    {ftag : Tag} {fname : String} {params : List Node} {result : ValueType} {body : Node}
    (hd : .function ftag fname params result body ∈ decls) : Unheld fin body := by
  intro vtag name type hm
  obtain ⟨before, after, hsplit⟩ := List.append_of_mem hd
  have hbody : body ∈ (Node.function ftag fname params result body).parts := by simp [Node.parts]
  have hl : vtag.label ∈ body.labels := Node.mem_labels.mpr ⟨_, hm, rfl⟩
  have hnodup := Node.nodup_part hu hd
  refine unheld_of_notMem hlow hu hscan hsplit (Node.labels_part_subset hbody hl) fun hmem => ?_
  rw [declClaims, List.mem_append] at hmem
  rcases hmem with hmem | hmem
  · -- The label of a parameter is not one of the body.
    obtain ⟨p, hp, hpl⟩ := List.mem_filterMap.mp hmem
    have hparts := Node.nodup_parts hnodup
    rw [Node.parts, List.flatMap_append, List.nodup_append'] at hparts
    refine hparts.2.2 (List.mem_flatMap.mpr ⟨p, hp, ?_⟩) (by simpa using hl)
    rw [Node.labels_eq, hpl]
    simp
  · exact notMem_claims ((hscan.part hd).part hbody) (Node.nodup_part hnodup hbody) hm hmem

end Unheld

end Isel.Select
