import Isel.Proofs.Kinds
import Isel.Proofs.ProgramInStep
import Isel.Proofs.Progress

/-!
# Kinds set right

`Node.regular` is the tree with the kinds that go with the payloads.  Where the nodes of a program
are admitted at their places, the program and the regular one are lowered alike (`Even`): both end
well or none does, and the states differ in remarks at most.  So admission is all that kinds
decide, and `select_kinds` says what becomes of a program in which kinds and payloads disagree.
-/

namespace Isel.Syntax.Node

/-- The node as a parameter. -/
def asParam : Node → Node
  | .param tag name type => .param { tag with kind := .paramDecl } name type
  | n => n.tag?.elim .absent fun tag => .param { tag with kind := .paramDecl } n.name .unknown

mutual

/-- The tree with the kinds that go with the payloads; whatever stands for a parameter becomes
one. -/
def regular : Node → Node
  | .absent => .absent
  | .bare tag => .bare tag
  | .program tag decls => .program { tag with kind := .program } (regularAll decls)
  | .function tag name params result body =>
    .function { tag with kind := .functionDecl } name (params.map asParam) result (regular body)
  | .param tag name type => .param { tag with kind := .paramDecl } name type
  | .var tag name type init => .var { tag with kind := .varDecl } name type (regular init)
  | .binary tag op left right =>
    .binary { tag with kind := .binaryExpr } op (regular left) (regular right)
  | .boolean tag value => .boolean { tag with kind := .booleanExpr } value
  | .call tag callee args => .call { tag with kind := .callExpr } callee (regularAll args)
  | .ident tag name => .ident { tag with kind := .identExpr } name
  | .number tag value => .number { tag with kind := .numberExpr } value
  | .string tag bytes => .string { tag with kind := .stringExpr } bytes
  | .compound tag stmts => .compound { tag with kind := .compoundStmt } (regularAll stmts)
  | .ifThen tag cond body => .ifThen { tag with kind := .ifStmt } (regular cond) (regular body)
  | .print tag expr => .print { tag with kind := .printStmt } (regular expr)
  | .ret tag expr => .ret { tag with kind := .returnStmt } (regular expr)
  | .scan tag target => .scan { tag with kind := .scanStmt } (regular target)
  | .loop tag cond body => .loop { tag with kind := .whileStmt } (regular cond) (regular body)

def regularAll : List Node → List Node
  | [] => []
  | n :: rest => regular n :: regularAll rest

end

theorem regularAll_eq : ∀ ns : List Node, regularAll ns = ns.map regular := by
  intro ns
  induction ns with
  | nil => rw [regularAll]; rfl
  | cons n ns ih => rw [regularAll, ih, List.map_cons]

theorem isAbsent_regular (n : Node) : n.regular.isAbsent = n.isAbsent := by
  cases n <;> simp [regular, isAbsent]

theorem tag?_regular {n : Node} {tag : Tag} {kind : Kind} (htag : n.tag? = some tag)
    (hkind : n.payloadKind? = some kind) : n.regular.tag? = some { tag with kind := kind } := by
  cases n with
  | absent => cases htag
  | bare => cases hkind
  | _ =>
    cases htag
    cases hkind
    simp [regular, tag?]

theorem tag?_asParam {n : Node} {tag : Tag} (htag : n.tag? = some tag) :
    n.asParam.tag? = some { tag with kind := .paramDecl } := by
  cases n <;> cases htag <;> rfl

theorem asParam_cases (n : Node) : n.asParam = .absent ∨
    ∃ (tag : Tag) (name : String) (type : ValueType),
      n.asParam = .param { tag with kind := .paramDecl } name type := by
  cases n with
  | absent => exact .inl rfl
  | _ => exact .inr ⟨_, _, _, rfl⟩

theorem exists_of_mem_parts_regular {n q : Node} (h : q ∈ n.regular.parts) :
    ∃ m ∈ n.parts, q = m.regular ∨ q = m.asParam := by
  cases n <;>
    simp only [regular, regularAll_eq, parts, List.mem_append, List.mem_map, List.mem_cons,
      List.not_mem_nil, or_false] at h
  case function tag name params result body =>
    rcases h with ⟨m, hm, rfl⟩ | rfl
    · exact ⟨m, by simp [parts, hm], .inr rfl⟩
    · exact ⟨body, by simp [parts], .inl rfl⟩
  case program | call | compound =>
    obtain ⟨m, hm, rfl⟩ := h
    exact ⟨m, hm, .inl rfl⟩
  case var | print | ret | scan =>
    subst h
    exact ⟨_, by simp [parts], .inl rfl⟩
  case binary | ifThen | loop =>
    rcases h with rfl | rfl <;> exact ⟨_, by simp [parts], .inl rfl⟩

/-- **The kinds are right.** -/
theorem agrees_regular : ∀ n : Node,
    ∀ m ∈ n.regular.nodes, m.payloadKind?.isSome → m.Agrees := by
  intro n
  induction n using parts_induction with
  | _ n ih _ =>
  intro m hm hpayload
  rw [nodes_eq, List.mem_append, List.mem_flatMap] at hm
  rcases hm with hm | ⟨q, hq, hm⟩
  · have hself : m = n.regular := by
      split at hm
      · cases hm
      · exact List.mem_singleton.mp hm
    subst hself
    cases n with
    | absent | bare =>
      rw [regular] at hpayload
      cases hpayload
    | _ => simp [regular, Agrees, tag?, payloadKind?]
  · obtain ⟨part, hpart, rfl | rfl⟩ := exists_of_mem_parts_regular hq
    · exact ih part hpart m hm hpayload
    · rcases asParam_cases part with h | ⟨tag, name, type, h⟩
      · simp [h, nodes_eq, isAbsent, parts] at hm
      · have hself : m = .param { tag with kind := .paramDecl } name type := by
          simpa [h, nodes_eq, isAbsent, parts] using hm
        subst hself
        rfl

end Isel.Syntax.Node

namespace Isel.Select

open Isel.Flow Isel.Syntax Isel.Proofs
open Isel.Syntax.Node (Admitted)

/-! ## What is admitted is lowered alike -/

/-- The states are equal but for the remarks. -/
def EqualButRemarks (s t : State) : Prop := t = { s with remarks := t.remarks }

theorem EqualButRemarks.symm {s t : State} (h : EqualButRemarks s t) : EqualButRemarks t s := by
  rw [h]
  rfl

theorem EqualButRemarks.trans {s t u : State} (h : EqualButRemarks s t)
    (h' : EqualButRemarks t u) : EqualButRemarks s u := by
  rw [h', h]
  rfl

/-- No step of the selection reads the remarks. -/
theorem parallel_equalButRemarks (su : Setup) : ParallelDecls su su EqualButRemarks where
  alike := ⟨rfl, rfl, rfl, rfl, rfl⟩
  slots h := by rw [h]
  served h := by rw [h]
  allocated h slots := by rw [h]; rfl
  remarked h r := by rw [h]; rfl
  answered h r := by rw [h]; rfl
  emitted h pt _ i _ := by rw [h]; rfl
  opened r _ := by
    constructor
    intro s t q s' h hrun
    rw [openBlock_apply] at hrun
    cases hrun
    rw [h]
    exact ⟨_, openBlock_apply r _, rfl, trivial⟩
  jumped r target _ := by
    constructor
    rintro s t _ _ h ⟨⟩
    rw [h]
    exact ⟨_, rfl, rfl, trivial⟩
  literal pt _ slot bytes := by
    constructor
    rintro s t _ _ h ⟨⟩
    rw [h]
    exact ⟨_, rfl, rfl, trivial⟩
  entry tag callee := by
    constructor
    intro s t entry s' h hrun
    obtain ⟨rfl, hentry⟩ := calleeEntry_eq_ok.mp hrun
    rw [h]
    exact ⟨_, calleeEntry_eq_ok.mpr ⟨rfl, hentry⟩, rfl, trivial⟩
  result callee _ := by
    constructor
    rintro s t _ _ h ⟨⟩
    rw [h]
    exact ⟨_, rfl, rfl, trivial⟩
  forward := rfl
  functions h := by rw [h]
  signatures h := by rw [h]
  graphs h := by rw [h]
  declared h sig := by rw [h]; rfl

/-- The computations end alike: where one ends well the other does, with the same result, and the
states differ in remarks at most. -/
structure Even {α : Type} (x y : Selection α) : Prop where
  forth : InStep EqualButRemarks x y
  back : InStep EqualButRemarks y x

section Even

variable {α β : Type} {su : Setup}

theorem even_self {P : α → Prop} {x : Selection α} (h : InStep EqualButRemarks x x P) :
    Even x x := by
  have hx : InStep EqualButRemarks x x := by
    constructor
    intro s t a s' hR hrun
    obtain ⟨t', ht', hR', -⟩ := h.run s t a s' hR hrun
    exact ⟨t', ht', hR', trivial⟩
  exact ⟨hx, hx⟩

theorem Even.bind {x y : Selection α} {f g : α → Selection β} (hx : Even x y)
    (hf : ∀ a, Even (f a) (g a)) : Even (x >>= f) (y >>= g) :=
  ⟨hx.forth.bind fun a _ => (hf a).forth, hx.back.bind fun a _ => (hf a).back⟩

theorem Even.ite {c : Prop} [Decidable c] {x y x' y' : Selection α} (h : Even x y)
    (h' : Even x' y') : Even (if c then x else x') (if c then y else y') :=
  ⟨.ite h.forth h'.forth, .ite h.back h'.back⟩

theorem even_pure (a : α) : Even (pure a) (pure a) := by
  have h : InStep EqualButRemarks (pure a) (pure a) := inStep_pure trivial
  exact even_self h

theorem even_of_false {x y : Selection α} (hx : Requires x False) (hy : Requires y False) :
    Even x y :=
  ⟨⟨fun s _ a s' _ h => (hx.holds s a s' h).elim⟩, ⟨fun s _ a s' _ h => (hy.holds s a s' h).elim⟩⟩

theorem even_fail (pos pos' : Source.Position) (cause cause' : Cause) :
    Even (fail pos cause : Selection α) (fail pos' cause') :=
  even_of_false (requires_fail ..) (requires_fail ..)

section Remarks

variable {c c' : Prop} [Decidable c] [Decidable c'] {w w' : Settings.Warning}
  {pos pos' : Source.Position} {message message' : String} {x y : Selection α}

theorem exists_remarked (s : State) : ∃ s₁, EqualButRemarks s s₁ ∧
    (if c then remark su w pos message >>= fun _ => x else x) s = x s₁ := by
  split
  · refine ⟨s.remarked su w pos message, ?_, bind_of_ok (remark_apply su w pos message s)⟩
    rw [State.remarked]
    split <;> rfl
  · exact ⟨s, rfl, rfl⟩

theorem inStep_remarked (h : InStep EqualButRemarks x y) : InStep EqualButRemarks
    (if c then remark su w pos message >>= fun _ => x else x)
    (if c' then remark su w' pos' message' >>= fun _ => y else y) := by
  constructor
  intro s t a s' hR hrun
  obtain ⟨s₁, hs, hx⟩ : ∃ s₁, EqualButRemarks s s₁ ∧
    (if c then remark su w pos message >>= fun _ => x else x) s = x s₁ := exists_remarked s
  obtain ⟨t₁, ht, hy⟩ : ∃ t₁, EqualButRemarks t t₁ ∧
    (if c' then remark su w' pos' message' >>= fun _ => y else y) t = y t₁ := exists_remarked t
  rw [hx] at hrun
  rw [hy]
  exact h.run s₁ t₁ a s' (hs.symm.trans (hR.trans ht)) hrun

theorem Even.remarked (h : Even x y) :
    Even (if c then remark su w pos message >>= fun _ => x else x)
      (if c' then remark su w' pos' message' >>= fun _ => y else y) :=
  ⟨inStep_remarked h.forth, inStep_remarked h.back⟩

end Remarks

/-! ### Expressions -/

variable {pt : Point} {r : BlockRef}

theorem even_emit (op : Machine.Opcode) (args : List Operand) :
    Even (emit pt op args) (emit pt op args) := by
  constructor
  all_goals
    constructor
    rintro s t _ _ h ⟨⟩
    rw [h]
    exact ⟨_, rfl, rfl, trivial⟩

theorem even_serve (pos : Source.Position) (request : Request) :
    Even (serve su pos pt request) (serve su pos pt request) := by
  have hpt : pt.In fun _ => True := by cases pt <;> trivial
  exact even_self ((parallel_equalButRemarks su).serve hpt pos request)

/-- The kind of a node plays no part in the allocation of its slot. -/
theorem even_allocate (tag : Tag) (kind : Kind) :
    Even (allocate tag) (allocate { tag with kind := kind }) := by
  constructor
  all_goals
    constructor
    intro s t slot s' h hrun
    obtain ⟨hnone, rfl, rfl⟩ := allocate_eq_ok.mp hrun
    rw [h]
    exact ⟨_, allocate_eq_ok.mpr ⟨hnone, rfl, rfl⟩, rfl, trivial⟩

theorem even_claimSlot {tag : Tag} {kind : Kind} (h : tag.kind.isExpr = true)
    (h' : kind.isExpr = true) : Even (claimSlot tag) (claimSlot { tag with kind := kind }) := by
  rw [claimSlot, claimSlot, if_pos h, if_pos h']
  exact even_allocate tag kind

theorem even_selectArgs : ∀ ns : List Node,
    (∀ n ∈ ns, Even (selectExpr su pt n) (selectExpr su pt n.regular)) →
      Even (selectArgs su pt ns) (selectArgs su pt (Node.regularAll ns)) := by
  intro ns
  induction ns with
  | nil =>
    intro _
    rw [Node.regularAll, selectArgs]
    exact even_pure _
  | cons n ns ih =>
    intro h
    rw [List.forall_mem_cons] at h
    rw [Node.regularAll, selectArgs, selectArgs]
    exact h.1.bind fun _ => (ih h.2).bind fun _ => even_pure _

/-- **Expressions with the right kinds are lowered alike.** -/
theorem even_selectExpr : ∀ n : Node, Admitted .expression n →
    Even (selectExpr su pt n) (selectExpr su pt n.regular) := by
  intro n
  induction n using Node.parts_induction with
  | _ n ih _ =>
  intro h
  have hsteps := (parallel_equalButRemarks su).toParallel
  have hpt : pt.In fun _ => True := by cases pt <;> trivial
  have hend : ∀ (op : Machine.Opcode) (args : List Operand) (slot : Slot),
      Even (emit pt op args >>= fun _ => pure slot) (emit pt op args >>= fun _ => pure slot) :=
    fun op args slot => (even_emit op args).bind fun _ => even_pure slot
  cases n with
  | absent =>
    rw [Node.regular]
    exact even_fail ..
  | number tag value =>
    obtain ⟨hkind, -⟩ := (Node.admitted_expression (.inl rfl) rfl rfl).mp h
    rw [Node.regular, selectExpr, selectExpr]
    exact .bind (even_claimSlot hkind rfl) fun slot => (hend ..).remarked
  | boolean tag value =>
    obtain ⟨hkind, -⟩ := (Node.admitted_expression (.inl rfl) rfl rfl).mp h
    rw [Node.regular, selectExpr, selectExpr]
    exact .bind (even_claimSlot hkind rfl) fun slot => hend ..
  | ident tag name =>
    obtain ⟨hkind, -⟩ := (Node.admitted_expression (.inl rfl) rfl rfl).mp h
    rw [Node.regular, selectExpr, selectExpr]
    refine .bind (even_claimSlot hkind rfl) fun slot => ?_
    cases su.bindings.find? tag.label with
    | none => exact even_fail ..
    | some decl => exact .bind (even_self (hsteps.lookup ..)) fun _ => hend ..
  | string tag bytes =>
    obtain ⟨hkind, -⟩ := (Node.admitted_expression (.inl rfl) rfl rfl).mp h
    rw [Node.regular, selectExpr, selectExpr]
    exact .bind (even_claimSlot hkind rfl) fun slot => even_self (hsteps.literal pt hpt slot bytes)
  | binary tag op left right =>
    obtain ⟨hkind, hparts⟩ := (Node.admitted_expression (.inl rfl) rfl rfl).mp h
    have hleft : left ∈ (Node.binary tag op left right).parts := by simp [Node.parts]
    have hright : right ∈ (Node.binary tag op left right).parts := by simp [Node.parts]
    rw [Node.regular, selectExpr, selectExpr]
    refine .bind (even_claimSlot hkind rfl) fun slot => ?_
    refine .bind (ih left hleft (hparts left hleft)) fun _ => ?_
    refine .bind (ih right hright (hparts right hright)) fun _ => ?_
    exact .bind (even_self (hsteps.operatorOpcode ..)) fun _ => hend ..
  | call tag callee args =>
    obtain ⟨hkind, hparts⟩ := (Node.admitted_expression (.inl rfl) rfl rfl).mp h
    rw [Node.regular, selectExpr, selectExpr]
    refine .bind (even_claimSlot hkind rfl) fun slot => ?_
    refine .bind (even_self (hsteps.entry tag callee)) fun _ => ?_
    refine .bind (even_selectArgs args fun n hn => ih n hn (hparts n hn)) fun _ => ?_
    exact .bind (even_self (hsteps.emitCall hpt tag trivial ..)) fun _ => even_pure _
  | bare | program | function | param | var | compound | ifThen | print | ret | scan | loop =>
    cases h.payload rfl

theorem even_selectVar {init : Node} (h : Admitted .expression init) (tag : Tag) (kind : Kind)
    (name : String) :
    Even (selectVar su pt tag name init)
      (selectVar su pt { tag with kind := kind } name init.regular) := by
  by_cases hinit : init = .absent
  · subst hinit
    rw [Node.regular, selectVar, selectVar]
    exact even_pure _
  · have hinit' : init.regular ≠ .absent := by
      cases init with
      | absent => exact absurd rfl hinit
      | _ => simp [Node.regular]
    rw [selectVar_of_ne hinit, selectVar_of_ne hinit']
    refine .bind (even_selectExpr init h) fun _ => .bind (even_allocate tag kind) fun _ => ?_
    refine .ite (even_emit ..) ?_
    cases pt with
    | globals => exact even_fail ..
    | block r => exact even_emit ..

/-! ### Statements -/

theorem with_kind {tag : Tag} {kind : Kind} (h : tag.kind = kind) :
    { tag with kind := kind } = tag := by
  subst h
  rfl

theorem even_scannedSlot {target : Node} (h : Admitted .target target) (tag : Tag) (kind : Kind) :
    Even (scannedSlot su tag target) (scannedSlot su { tag with kind := kind } target.regular) := by
  cases target with
  | absent =>
    rw [Node.regular]
    exact even_fail ..
  | ident t name =>
    rw [Node.regular, with_kind ((Node.admitted_target ..).mp h)]
    exact even_self ((parallel_equalButRemarks su).scannedSlot tag (.ident t name))
  | _ => exact absurd h (Node.not_admitted rfl fun _ => Bool.and_false _)

theorem even_selectExprStmt {n : Node} (h : Admitted .expression n) (hn : n.isAbsent = false)
    (r : BlockRef) : Even (selectExprStmt su n r) (selectExprStmt su n.regular r) := by
  obtain ⟨tag, htag⟩ := Node.exists_tag? hn
  have hpayload := h.payload hn
  obtain ⟨hkind, -⟩ := (Node.admitted_expression (.inl rfl) htag hpayload).mp h
  obtain ⟨kind, hsome, hkind'⟩ : ∃ kind, n.payloadKind? = some kind ∧ kind.isExpr = true := by
    cases hsome : n.payloadKind? with
    | none =>
      rw [hsome] at hpayload
      cases hpayload
    | some kind => exact ⟨kind, rfl, by simpa [hsome] using hpayload⟩
  have hend : Even (do let _ ← selectExpr su (.block r) n)
      (do let _ ← selectExpr su (.block r) n.regular) :=
    (even_selectExpr n h).bind fun _ => even_pure ()
  simp only [selectExprStmt, htag, Node.tag?_regular htag hsome, hkind, hkind']
  exact hend.remarked

/-- The statement is lowered alike from every block, if it is admitted. -/
def StmtEven (su : Setup) (n : Node) : Prop :=
  Admitted .statement n → ∀ r, Even (selectStmt su n r) (selectStmt su n.regular r)

theorem even_selectStmts : ∀ ns : List Node, (∀ n ∈ ns, StmtEven su n) →
    (∀ n ∈ ns, Admitted .statement n) → ∀ (returned returned' : Bool) (r : BlockRef),
      Even (selectStmts su returned ns r) (selectStmts su returned' (Node.regularAll ns) r) := by
  intro ns
  induction ns with
  | nil =>
    intro _ _ returned returned' r
    rw [Node.regularAll, selectStmts, selectStmts]
    exact even_pure r
  | cons n ns ih =>
    intro hns h returned returned' r
    rw [List.forall_mem_cons] at hns h
    have hrest : ∀ again again', Even (selectStmt su n r >>= fun q => selectStmts su again ns q)
        (selectStmt su n.regular r >>= fun q => selectStmts su again' (Node.regularAll ns) q) :=
      fun again again' => .bind (hns.1 h.1 r) fun q => ih hns.2 h.2 again again' q
    cases hn : n.isAbsent with
    | true =>
      have habsent : n = .absent := by cases n <;> first | rfl | cases hn
      have hfalse : ∀ (again : Bool) (ns : List Node),
          Requires (selectStmts su again (.absent :: ns) r) False := by
        intro again ns
        simp only [selectStmts, selectStmt, selectExprStmt, Node.tag?]
        exact .ite (fun _ => .first (requires_throw ..) _) fun _ =>
          .first (.first (requires_throw ..) _) _
      rw [habsent, Node.regularAll, Node.regular]
      exact even_of_false (hfalse ..) (hfalse ..)
    | false =>
      obtain ⟨tag, htag⟩ := Node.exists_tag? hn
      obtain ⟨tag', htag'⟩ := Node.exists_tag? ((Node.isAbsent_regular n).trans hn)
      simp only [Node.regularAll, selectStmts, remarkUnreachable, htag, htag']
      exact (hrest ..).remarked

theorem even_selectBody {body : Node} (hparts : ∀ n ∈ body.parts, StmtEven su n)
    (h : Admitted .body body) (r : BlockRef) :
    Even (selectBody su body r) (selectBody su body.regular r) := by
  cases body with
  | absent =>
    have hfalse : Requires (selectBody su .absent r) False := by
      simp only [selectBody, Node.tag?]
      exact requires_throw ..
    rw [Node.regular]
    exact even_of_false hfalse hfalse
  | compound tag stmts =>
    obtain ⟨hkind, hstmts⟩ := (Node.admitted_compound (.inl rfl)).mp h
    rw [Node.regular, with_kind hkind, selectBody, selectBody]
    refine .bind (even_self ((parallel_equalButRemarks su).openBody trivial tag)) fun first => ?_
    exact .bind (even_selectStmts stmts hparts hstmts ..) fun _ => even_pure _
  | _ => exact absurd h (Node.not_admitted rfl fun _ => Bool.and_false _)

/-- **Statements with the right kinds are lowered alike.** -/
theorem even_selectStmt : ∀ n : Node, StmtEven su n := by
  intro n
  induction n using Node.parts_induction with
  | _ n ih ih₂ =>
  intro h r
  have hsteps := (parallel_equalButRemarks su).toParallel
  cases n with
  | var tag name type init =>
    rw [Node.regular, selectStmt, selectStmt]
    exact .bind (even_selectVar ((Node.admitted_var ..).mp h) ..) fun _ => even_pure _
  | compound tag stmts =>
    obtain ⟨hkind, hstmts⟩ := (Node.admitted_compound (.inr rfl)).mp h
    rw [Node.regular, with_kind hkind, selectStmt, selectStmt]
    refine .bind (even_self (hsteps.openBody trivial tag)) fun first => ?_
    exact even_selectStmts stmts ih hstmts ..
  | ifThen tag cond body =>
    obtain ⟨hcond, hbody⟩ := (Node.admitted_ifThen ..).mp h
    rw [Node.regular, selectStmt, selectStmt]
    refine .bind (even_selectExpr cond hcond) fun slot => ?_
    refine .bind (even_selectBody (ih₂ body (by simp [Node.parts])) hbody r) fun ⟨first, last⟩ => ?_
    refine .bind (even_self (hsteps.opened last trivial)) fun exit => ?_
    refine .bind (even_self (hsteps.emitBranch trivial ..)) fun _ => ?_
    exact .bind (even_self (hsteps.jumped last exit trivial)) fun _ => even_pure _
  | loop tag cond body =>
    obtain ⟨hcond, hbody⟩ := (Node.admitted_loop ..).mp h
    rw [Node.regular, selectStmt, selectStmt]
    refine .bind (even_self (hsteps.opened r trivial)) fun header => ?_
    refine .bind (even_selectExpr cond hcond) fun slot => ?_
    refine .bind (even_selectBody (ih₂ body (by simp [Node.parts])) hbody header)
      fun ⟨first, last⟩ => ?_
    refine .bind (even_self (hsteps.jumped last header trivial)) fun _ => ?_
    refine .bind (even_self (hsteps.opened last trivial)) fun exit => ?_
    exact .bind (even_self (hsteps.emitBranch trivial ..)) fun _ => even_pure _
  | ret tag expr =>
    have hexpr := (Node.admitted_ret ..).mp h
    have hend : Even (emit (.block r) .ret [] >>= fun _ => pure r)
        (emit (.block r) .ret [] >>= fun _ => pure r) := (even_emit ..).bind fun _ => even_pure _
    rw [Node.regular, selectStmt, selectStmt, Node.isAbsent_regular]
    refine .ite ?_ hend
    exact .bind (even_selectExpr expr hexpr) fun _ => .bind (even_serve ..) fun _ => hend
  | print tag expr =>
    have hexpr := (Node.admitted_print ..).mp h
    rw [Node.regular, selectStmt, selectStmt]
    exact .bind (even_selectExpr expr hexpr) fun _ => .bind (even_serve ..) fun _ => even_pure _
  | scan tag target =>
    have htarget := (Node.admitted_scan ..).mp h
    rw [Node.regular, selectStmt, selectStmt]
    exact .bind (even_scannedSlot htarget ..) fun _ => .bind (even_serve ..) fun _ => even_pure _
  | absent =>
    have hfalse : Requires (selectStmt su .absent r) False := by
      simp only [selectStmt, selectExprStmt, Node.tag?]
      exact .first (requires_throw ..) _
    rw [Node.regular]
    exact even_of_false hfalse hfalse
  | bare | program | function | param =>
    exact absurd h (Node.not_admitted rfl fun _ => Bool.and_false _)
  | number | boolean | ident | string | binary | call =>
    rw [Node.admitted_expression (.inr rfl) rfl rfl,
      ← Node.admitted_expression (.inl rfl) rfl rfl] at h
    have hexpr : Even (selectExprStmt su _ r) (selectExprStmt su _ r) :=
      even_selectExprStmt h rfl r
    simp only [Node.regular] at hexpr
    simp only [Node.regular, selectStmt]
    exact hexpr.bind fun _ => even_pure _

/-! ### Declarations -/

theorem even_selectParams (function : String) : ∀ params : List Node,
    (∀ n ∈ params, Admitted .parameter n) →
      Even (selectParams function params) (selectParams function (params.map Node.asParam)) := by
  intro params
  induction params with
  | nil => exact fun _ => even_pure _
  | cons n params ih =>
    intro h
    rw [List.forall_mem_cons] at h
    rw [List.map_cons, selectParams, selectParams]
    cases htag : n.tag? with
    | none =>
      have habsent : n = .absent := by cases n <;> first | rfl | cases htag
      rw [habsent]
      exact even_of_false (requires_throw ..) (requires_throw ..)
    | some tag =>
      have hkind : tag.kind = .paramDecl := (Node.admitted_parameter htag).mp h.1
      rw [Node.tag?_asParam htag, with_kind hkind]
      refine .ite (even_fail ..) ?_
      exact .bind (even_allocate tag tag.kind) fun _ => .bind (ih h.2) fun _ => even_pure _

theorem even_selectFunction (tag : Tag) (name : String) {params : List Node} (result : ValueType)
    {body : Node} (hparams : ∀ n ∈ params, Admitted .parameter n) (hbody : Admitted .body body) :
    Even (selectFunction su tag name params result body)
      (selectFunction su tag name (params.map Node.asParam) result body.regular) := by
  have hsteps := parallel_equalButRemarks su
  have hend : ∀ r, Even
      (if body.tag?.any fun t => t.kind == .compoundStmt then do
        let _ ← selectBody su body r
      else fail tag.pos (.noBody name))
      (if body.regular.tag?.any fun t => t.kind == .compoundStmt then do
        let _ ← selectBody su body.regular r
      else fail tag.pos (.noBody name)) := by
    intro r
    have hkind : (body.regular.tag?.any fun t => t.kind == .compoundStmt) =
        body.tag?.any fun t => t.kind == .compoundStmt := by
      cases body with
      | absent => rw [Node.regular]
      | compound tag stmts =>
        rw [Node.regular, with_kind ((Node.admitted_compound (.inl rfl)).mp hbody).1]
        rfl
      | _ => exact absurd hbody (Node.not_admitted rfl fun _ => Bool.and_false _)
    rw [hkind]
    refine .ite ?_ (even_fail ..)
    exact .bind (even_selectBody (fun n _ => even_selectStmt n) hbody r) fun _ => even_pure _
  rw [selectFunction_eq, selectFunction_eq]
  refine .bind (even_self (hsteps.functionGraph tag name result)) fun g => ?_
  rw [selectIn, selectIn, List.isEmpty_map]
  refine .ite ?_ (hend _)
  exact .bind (even_selectParams name params hparams) fun _ => .bind (even_serve ..) fun _ => hend _

theorem even_reserveDecl {n : Node} (h : Admitted .declaration n) :
    Even (reserveDecl n) (reserveDecl n.regular) := by
  cases n with
  | absent =>
    rw [Node.regular]
    exact even_of_false (requires_throw ..) (requires_throw ..)
  | function tag name params result body =>
    rw [Node.regular, with_kind ((Node.admitted_function ..).mp h).1]
    exact even_self ((parallel_equalButRemarks {}).reserveDecl
      (.function tag name params result body))
  | var tag name type init =>
    rw [Node.regular, with_kind ((Node.admitted_decl_var ..).mp h).1]
    exact even_self ((parallel_equalButRemarks {}).reserveDecl (.var tag name type init))
  | _ => exact absurd h (Node.not_admitted rfl fun _ => rfl)

theorem even_selectDecl {n : Node} (h : Admitted .declaration n) :
    Even (selectDecl su n) (selectDecl su n.regular) := by
  cases n with
  | absent =>
    rw [Node.regular]
    exact even_of_false (requires_throw ..) (requires_throw ..)
  | function tag name params result body =>
    obtain ⟨hkind, hparams, hbody⟩ := (Node.admitted_function ..).mp h
    rw [Node.regular, with_kind hkind]
    simp only [selectDecl, Node.tag?, hkind]
    exact even_selectFunction tag name result hparams hbody
  | var tag name type init =>
    obtain ⟨hkind, hinit⟩ := (Node.admitted_decl_var ..).mp h
    rw [Node.regular]
    simp only [selectDecl, Node.tag?, hkind]
    exact even_selectVar hinit tag .varDecl name
  | _ => exact absurd h (Node.not_admitted rfl fun _ => rfl)

theorem even_forM {f : Node → Selection Unit} : ∀ ns : List Node,
    (∀ n ∈ ns, Even (f n) (f n.regular)) → Even (ns.forM f) ((Node.regularAll ns).forM f) := by
  intro ns
  induction ns with
  | nil =>
    intro _
    rw [Node.regularAll]
    exact even_pure _
  | cons n ns ih =>
    intro h
    rw [List.forall_mem_cons] at h
    rw [Node.regularAll]
    exact .bind h.1 fun _ => ih h.2

/-- **Programs with the right kinds are lowered alike.** -/
theorem even_selectProgram {root : Node} (h : Admitted .program root) :
    Even (selectProgram su root) (selectProgram su root.regular) := by
  cases root with
  | absent =>
    rw [Node.regular]
    exact even_fail ..
  | program tag decls =>
    obtain ⟨hkind, hdecls⟩ := (Node.admitted_program ..).mp h
    rw [Node.regular, with_kind hkind, selectProgram, selectProgram]
    refine .ite (even_fail ..) ?_
    have hlower : Even (decls.forM (selectDecl su))
        ((Node.regularAll decls).forM (selectDecl su)) :=
      even_forM decls fun n hn => even_selectDecl (hdecls n hn)
    exact .ite (.bind (even_forM decls fun n hn => even_reserveDecl (hdecls n hn)) fun _ => hlower)
      hlower
  | _ => exact absurd h (Node.not_admitted rfl fun _ => Bool.and_false _)

end Even

/-! ## Programs in which kinds and payloads disagree -/

/-- **What becomes of kinds and payloads that disagree.**  In the regular program all kinds go
with their payloads.  A program is lowered exactly if its nodes are admitted at their places and
the regular program is lowered, and then to the same module.  A node that is not admitted is
reported as internal, unless a hook refuses before. -/
theorem select_kinds (su : Setup) (root : Node) :
    (∀ n ∈ root.regular.nodes, n.payloadKind?.isSome → n.Agrees) ∧
    ((∃ s, select su root = .ok () s) ↔
      (∀ v ∈ root.lowered .program, v.1.Admits v.2) ∧ ∃ s, select su root.regular = .ok () s) ∧
    (∀ s s', select su root = .ok () s → select su root.regular = .ok () s' →
      s'.module = s.module) ∧
    (root.Complete → Answers su → ∀ v ∈ root.lowered .program, ¬v.1.Admits v.2 →
      ∃ d s, select su root = .error (.fault d) s ∧ .internal ∈ d.cause.categories) := by
  have hadmitted : ∀ s, select su root = .ok () s → Admitted .program root :=
    fun s hs => (requires_selectProgram root).holds {} () s hs
  have hstart : EqualButRemarks {} {} := rfl
  refine ⟨Node.agrees_regular root, ⟨?_, ?_⟩, ?_, ?_⟩
  · rintro ⟨s, hs⟩
    obtain ⟨s', hs', -⟩ := (even_selectProgram (hadmitted s hs)).forth.run {} {} () s hstart hs
    exact ⟨hadmitted s hs, s', hs'⟩
  · rintro ⟨hall, s', hs'⟩
    obtain ⟨s, hs, -⟩ := (even_selectProgram hall).back.run {} {} () s' hstart hs'
    exact ⟨s, hs⟩
  · intro s s' hs hs'
    obtain ⟨t, ht, hR, -⟩ := (even_selectProgram (hadmitted s hs)).forth.run {} {} () s hstart hs
    have heq : s' = t := by
      rw [select, EStateM.run, ht] at hs'
      cases hs'
      rfl
    rw [heq, hR]
  · intro hcomplete hanswers v hv hnot
    cases hrun : select su root with
    | ok u s => exact absurd (hadmitted s hrun v hv) hnot
    | error e s =>
      obtain ⟨d, rfl, hhook⟩ := (reporting_selectProgram hcomplete).stop {} e s hrun
      refine ⟨d, s, rfl, Cause.internal_of_ne_hook fun f hf => ?_⟩
      obtain ⟨request, hrefused⟩ := hhook f hf
      obtain ⟨out, hout⟩ := hanswers s.served request
      rw [hout] at hrefused
      cases hrefused

/-- A program with a print that says it is a loop. -/
def mislabelledProgram : Node :=
  .program (.nowhere 0 .program)
    [.function (.nowhere 1 .functionDecl) "f" [] .void
      (.compound (.nowhere 2 .compoundStmt)
        [.print (.nowhere 3 .whileStmt) (.number (.nowhere 4 .numberExpr) 1)])]

/-- The program is lowered although the kind of a node is not that of its payload. -/
theorem mislabelledProgram_lowered :
    (∃ t b s, Scope.resolveProgram mislabelledProgram {} = .ok t b ∧
      select (stackSetup t b) mislabelledProgram = .ok () s) ∧
    ∃ v ∈ mislabelledProgram.lowered .program, ¬v.2.Agrees :=
  ⟨exists_of_lowers (by decide +kernel), by decide⟩

/-- A program with a number that says it is a print. -/
def refusedProgram : Node :=
  .program (.nowhere 0 .program)
    [.function (.nowhere 1 .functionDecl) "f" [] .void
      (.compound (.nowhere 2 .compoundStmt)
        [.print (.nowhere 3 .whileStmt) (.number (.nowhere 4 .printStmt) 1)])]

theorem refusedProgram_kinds :
    (∃ s s', select (stackSetup {} {}) mislabelledProgram = .ok () s ∧
      select (stackSetup {} {}) mislabelledProgram.regular = .ok () s' ∧ s'.module = s.module) ∧
    ∃ d s, select (stackSetup {} {}) refusedProgram = .error (.fault d) s ∧
      .internal ∈ d.cause.categories := by
  have hanswers : Answers (stackSetup {} {}) :=
    answers_of_stack rfl fun served request _ => ⟨_, rfl⟩
  have hlowered : (match select (stackSetup {} {}) mislabelledProgram.regular with
      | .ok .. => true
      | .error .. => false) = true := by decide +kernel
  obtain ⟨-, hiff, hmodule, -⟩ := select_kinds (stackSetup {} {}) mislabelledProgram
  obtain ⟨-, -, -, hreported⟩ := select_kinds (stackSetup {} {}) refusedProgram
  constructor
  · cases hs' : select (stackSetup {} {}) mislabelledProgram.regular with
    | error e s' =>
      rw [hs'] at hlowered
      cases hlowered
    | ok u s' =>
      obtain ⟨s, hs⟩ := hiff.mpr ⟨by decide, s', hs'⟩
      exact ⟨s, s', hs, rfl, hmodule s s' hs hs'⟩
  · have hmem : (.expression, .number (.nowhere 4 .printStmt) 1) ∈
        refusedProgram.lowered .program := by
      simp [refusedProgram, Node.lowered, Node.loweredAll]
    exact hreported (by decide) hanswers _ hmem (by decide)

end Isel.Select
