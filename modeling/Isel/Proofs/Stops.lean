import Isel.Proofs.Agreement

/-!
# How a selection stops

A selection that does not end well stops with a diagnostic, and never for want of a node, as long
as the places that must not be empty are filled (`Node.Complete`): declarations, parameters,
statements and the bodies of `if` and `while`.  Kinds and payloads may disagree, nodes may be
shared, identifiers may be bound to anything and expressions may be missing.

A computation is `Reporting` if it stops so wherever it is begun.  What it reports is internal,
or it is the refusal of a hook, given behind the requests that were answered before
(`Reported`).
-/

namespace Isel.Syntax.Node

/-- The places of the node that must not be empty are filled. -/
def Filled : Node → Prop
  | .program _ ns | .function _ _ ns _ _ | .compound _ ns => ∀ n ∈ ns, n.isAbsent = false
  | .ifThen _ _ body | .loop _ _ body => body.isAbsent = false
  | _ => True

instance : DecidablePred Filled := fun n => by
  cases n <;> unfold Filled <;> infer_instance

/-- In the whole tree the places that must not be empty are filled. -/
def Complete (n : Node) : Prop := ∀ m ∈ n.nodes, m.Filled

instance (n : Node) : Decidable n.Complete := inferInstanceAs (Decidable (∀ m ∈ n.nodes, m.Filled))

section Complete

variable {n p : Node}

theorem Complete.part (h : n.Complete) (hp : p ∈ n.parts) : p.Complete :=
  fun m hm => h m (mem_nodes_of_part hp hm)

theorem Complete.filled (h : n.Complete) (hn : n.isAbsent = false) : n.Filled :=
  h n (mem_nodes_self hn)

theorem exists_tag? (h : n.isAbsent = false) : ∃ tag, n.tag? = some tag := by
  cases n with
  | absent => cases h
  | _ => exact ⟨_, rfl⟩

end Complete

end Isel.Syntax.Node

namespace Isel.Proofs

variable {ε σ α β : Type}

/-- **A sequence stops** if its first part does, or the second one behind it. -/
theorem bind_eq_error {x : EStateM ε σ α} {f : α → EStateM ε σ β} {s s'' : σ} {e : ε} :
    (x >>= f) s = .error e s'' ↔
      x s = .error e s'' ∨ ∃ a s', x s = .ok a s' ∧ f a s' = .error e s'' := by
  cases h : x s with
  | ok a s' => simp [bind_of_ok h]
  | error e' s' => simp [bind_of_error h]

end Isel.Proofs

namespace Isel.Select

open Isel.Flow Isel.Syntax Isel.Proofs

/-! ## Causes -/

namespace Cause

theorem unsupported_of_mem {c : Cause} (h : .unsupported ∈ c.categories) :
    ∃ f, c = .hook f ∧ .unsupported ∈ f.categories := by
  cases c with
  | hook f =>
    rw [categories] at h
    split at h
    · exact ⟨f, rfl, h⟩
    · exact ⟨f, rfl, by simpa using h⟩
  | _ => simp [categories] at h

/-- The fault of a hook that is the cause. -/
def hook? : Cause → Option HookFault
  | .hook f => some f
  | _ => none

theorem internal_of_ne_hook {c : Cause} (h : ∀ f, c ≠ .hook f) : .internal ∈ c.categories := by
  cases c with
  | hook f => exact absurd rfl (h f)
  | _ => simp [categories]

theorem classified (c : Cause) : .internal ∈ c.categories ∨ .unsupported ∈ c.categories := by
  cases c with
  | hook f =>
    rw [categories]
    split
    · next h => simpa [HookFault.isClassified] using h
    · exact .inl List.mem_cons_self
  | _ => simp [categories]

end Cause

/-! ## Computations that report -/

/-- The stop is a diagnostic; if it comes from a hook, the hook refused a request behind those
that the state has as answered. -/
def Reported (su : Setup) (e : Stop) (s : State) : Prop :=
  ∃ d, e = .fault d ∧
    ∀ f, d.cause = .hook f → ∃ request, su.hooks.answer s.served request = .error f

/-- Where the computation stops, it reports. -/
structure Reporting {α : Type} (su : Setup) (x : Selection α) : Prop where
  stop : ∀ s e s', x s = .error e s' → Reported su e s'

section Reporting

variable {α β : Type} {su : Setup}

theorem Reporting.bind {x : Selection α} {f : α → Selection β} (hx : Reporting su x)
    (hf : ∀ a, Reporting su (f a)) : Reporting su (x >>= f) := by
  refine ⟨fun s e s' h => ?_⟩
  rcases bind_eq_error.mp h with h | ⟨a, s₁, -, h⟩
  · exact hx.stop s e s' h
  · exact (hf a).stop s₁ e s' h

theorem Reporting.ite {c : Prop} [Decidable c] {x y : Selection α} (hx : Reporting su x)
    (hy : Reporting su y) : Reporting su (if c then x else y) := by
  split
  · exact hx
  · exact hy

theorem reporting_of_ok {x : Selection α} (h : ∀ s, ∃ a s', x s = .ok a s') :
    Reporting su x := by
  refine ⟨fun s e s' hrun => ?_⟩
  obtain ⟨a, t, ht⟩ := h s
  rw [ht] at hrun
  cases hrun

theorem reporting_pure (a : α) : Reporting su (pure a : Selection α) :=
  reporting_of_ok fun s => ⟨a, s, rfl⟩

theorem reporting_get : Reporting su (get : Selection State) :=
  reporting_of_ok fun s => ⟨s, s, rfl⟩

theorem reporting_modify (f : State → State) : Reporting su (modify f) :=
  reporting_of_ok fun s => ⟨⟨⟩, f s, rfl⟩

theorem reporting_fail (pos : Source.Position) {cause : Cause} (h : cause.hook? = none) :
    Reporting su (fail pos cause : Selection α) := by
  refine ⟨fun s e s' hrun => ?_⟩
  cases hrun
  refine ⟨_, rfl, fun f hf => ?_⟩
  have hcause : cause = .hook f := hf
  rw [hcause] at h
  cases h

theorem reporting_emit (pt : Point) (op : Machine.Opcode) (args : List Operand) :
    Reporting su (emit pt op args) := reporting_modify _

theorem reporting_remark (w : Settings.Warning) (pos : Source.Position) (message : String) :
    Reporting su (remark su w pos message) := .ite (reporting_modify _) (reporting_pure _)

theorem reporting_allocate (tag : Tag) : Reporting su (allocate tag) := by
  refine reporting_get.bind fun s => ?_
  simp only [Slots.allocate, Option.map_some]
  cases s.slots.slot? (some tag.label) with
  | none => exact (reporting_modify _).bind fun _ => reporting_pure _
  | some slot => exact reporting_fail _ rfl

theorem reporting_claimSlot (tag : Tag) : Reporting su (claimSlot tag) :=
  .ite (reporting_allocate tag) (reporting_fail _ rfl)

theorem reporting_lookup (pos : Source.Position) (decl : Decl) :
    Reporting su (lookup pos decl) := by
  refine reporting_get.bind fun s => ?_
  simp only [Slots.lookup, Option.map_some]
  cases s.slots.slot? (some decl.label) with
  | none => exact reporting_fail _ rfl
  | some slot => exact reporting_pure _

theorem reporting_lookupOrAdd (decl : Decl) : Reporting su (lookupOrAdd decl) := by
  refine reporting_get.bind fun s => ?_
  split
  · exact reporting_pure _
  · exact reporting_get.bind fun _ => (reporting_modify _).bind fun _ => reporting_pure _

theorem reporting_literalFor (bytes : List UInt8) : Reporting su (literalFor su bytes) :=
  reporting_of_ok fun s => ⟨_, _, literalFor_apply su bytes s⟩

/-- A hook that refuses is asked behind the requests that were answered. -/
theorem reporting_serve (pos : Source.Position) (pt : Point) (request : Request) :
    Reporting su (serve su pos pt request) := by
  refine ⟨fun s e s' h => ?_⟩
  rw [serve, get_bind_apply] at h
  cases hanswer : su.hooks.answer s.served request with
  | ok out =>
    rw [hanswer] at h
    cases h
  | error f =>
    rw [hanswer] at h
    cases h
    refine ⟨_, rfl, fun g hg => ⟨request, ?_⟩⟩
    cases hg
    exact hanswer

theorem reporting_operatorOpcode (pos : Source.Position) (op : Token) :
    Reporting su (operatorOpcode su pos op) := by
  rw [operatorOpcode]
  split
  · exact reporting_fail _ rfl
  · exact .ite ((reporting_remark ..).bind fun _ => reporting_pure _) (reporting_pure _)

theorem reporting_calleeEntry (tag : Tag) (callee : String) :
    Reporting su (calleeEntry tag callee) := by
  refine reporting_get.bind fun s => ?_
  dsimp only
  split
  · exact reporting_pure _
  · exact reporting_fail _ rfl

theorem reporting_emitCall (pt : Point) (tag : Tag) (callee : String) (entry : Option BlockRef)
    (args : List Slot) (slot : Slot) :
    Reporting su (emitCall su pt tag callee entry args slot) := by
  have hresult : Reporting su (hasResult callee) := reporting_get.bind fun _ => reporting_pure _
  have hcall : Reporting su (do
      emit pt .call [.block entry]
      if ← hasResult callee then serve su tag.pos pt (.resultIn slot) : Selection Unit) :=
    (reporting_emit ..).bind fun _ =>
      hresult.bind fun _ => .ite (reporting_serve ..) (reporting_pure _)
  exact .ite ((reporting_serve ..).bind fun _ => hcall) hcall

theorem reporting_selectArgs (pt : Point) : ∀ ns : List Node,
    (∀ n ∈ ns, Reporting su (selectExpr su pt n)) → Reporting su (selectArgs su pt ns) := by
  intro ns
  induction ns with
  | nil =>
    intro _
    rw [selectArgs]
    exact reporting_pure _
  | cons n ns ih =>
    intro h
    rw [List.forall_mem_cons] at h
    rw [selectArgs]
    exact h.1.bind fun _ => (ih h.2).bind fun _ => reporting_pure _

/-- **Lowering an expression reports**, whatever the expression is. -/
theorem reporting_selectExpr (pt : Point) : ∀ n : Node, Reporting su (selectExpr su pt n) := by
  intro n
  induction n using Node.parts_induction with
  | _ n ih _ =>
  cases n with
  | absent =>
    rw [selectExpr]
    exact reporting_fail _ rfl
  | number tag value =>
    rw [selectExpr]
    have hend : ∀ slot, Reporting su (do
        emit pt .loadImm [.slot slot, .imm value]
        return slot : Selection Slot) :=
      fun _ => (reporting_emit ..).bind fun _ => reporting_pure _
    refine (reporting_claimSlot tag).bind fun slot => ?_
    exact .ite ((reporting_remark ..).bind fun _ => hend slot) (hend slot)
  | boolean tag value =>
    rw [selectExpr]
    exact (reporting_claimSlot tag).bind fun _ =>
      (reporting_emit ..).bind fun _ => reporting_pure _
  | ident tag name =>
    rw [selectExpr]
    refine (reporting_claimSlot tag).bind fun _ => ?_
    split
    · exact reporting_fail _ rfl
    · exact (reporting_lookup ..).bind fun _ =>
        (reporting_emit ..).bind fun _ => reporting_pure _
  | string tag bytes =>
    rw [selectExpr]
    exact (reporting_claimSlot tag).bind fun _ => (reporting_literalFor bytes).bind fun _ =>
      (reporting_emit ..).bind fun _ => reporting_pure _
  | binary tag op left right =>
    rw [selectExpr]
    refine (reporting_claimSlot tag).bind fun _ =>
      (ih left (by simp [Node.parts])).bind fun _ =>
        (ih right (by simp [Node.parts])).bind fun _ => ?_
    exact (reporting_operatorOpcode ..).bind fun _ =>
      (reporting_emit ..).bind fun _ => reporting_pure _
  | call tag callee args =>
    rw [selectExpr]
    exact (reporting_claimSlot tag).bind fun _ => (reporting_calleeEntry tag callee).bind fun _ =>
      (reporting_selectArgs pt args ih).bind fun _ =>
        (reporting_emitCall ..).bind fun _ => reporting_pure _
  | bare | program | function | param | var | compound | ifThen | print | ret | scan | loop =>
    rw [selectExpr]
    exact (reporting_claimSlot _).bind fun _ => reporting_fail _ rfl

theorem reporting_selectVar (pt : Point) (tag : Tag) (name : String) (init : Node) :
    Reporting su (selectVar su pt tag name init) := by
  by_cases hinit : init = .absent
  · subst hinit
    rw [selectVar]
    exact reporting_pure _
  · rw [selectVar_of_ne hinit]
    refine (reporting_selectExpr pt init).bind fun _ => (reporting_allocate tag).bind fun _ => ?_
    refine .ite (reporting_emit ..) ?_
    cases pt with
    | globals => exact reporting_fail _ rfl
    | block r => exact reporting_emit ..

theorem reporting_scannedSlot (tag : Tag) (target : Node) :
    Reporting su (scannedSlot su tag target) := by
  rw [scannedSlot]
  split
  · exact reporting_fail _ rfl
  · refine .ite (reporting_fail _ rfl) ?_
    split
    · split
      · exact reporting_fail _ rfl
      · exact reporting_lookupOrAdd _
    · exact reporting_fail _ rfl

/-! ## Statements -/

theorem reporting_openBlock (r : BlockRef) : Reporting su (openBlock r) :=
  reporting_of_ok fun s => ⟨_, _, openBlock_apply r s⟩

theorem reporting_openBody (tag : Tag) (r : BlockRef) : Reporting su (openBody tag r) :=
  .ite (reporting_openBlock r) (reporting_fail _ rfl)

theorem reporting_jump (r target : BlockRef) : Reporting su (jump r target) :=
  reporting_modify _

theorem reporting_emitBranch (r : BlockRef) (cond : Slot) (yes no : BlockRef) :
    Reporting su (emitBranch r cond yes no) :=
  (reporting_emit ..).bind fun _ => (reporting_jump r yes).bind fun _ => reporting_jump r no

theorem reporting_selectExprStmt {n : Node} (hn : n.isAbsent = false) (r : BlockRef) :
    Reporting su (selectExprStmt su n r) := by
  obtain ⟨tag, htag⟩ := Node.exists_tag? hn
  rw [selectExprStmt, htag]
  have hexpr : Reporting su (selectExpr su (.block r) n) := reporting_selectExpr (.block r) n
  have hend := hexpr.bind fun _ => reporting_pure ()
  refine .ite (reporting_fail _ rfl) ?_
  exact .ite ((reporting_remark ..).bind fun _ => hend) hend

theorem reporting_selectStmts : ∀ ns : List Node,
    (∀ n ∈ ns, n.isAbsent = false ∧ ∀ r, Reporting su (selectStmt su n r)) →
      ∀ (returned : Bool) (r : BlockRef), Reporting su (selectStmts su returned ns r) := by
  intro ns
  induction ns with
  | nil =>
    intro _ returned r
    rw [selectStmts]
    exact reporting_pure _
  | cons n ns ih =>
    intro h returned r
    rw [List.forall_mem_cons] at h
    obtain ⟨tag, htag⟩ := Node.exists_tag? h.1.1
    have hremark : Reporting su (remarkUnreachable su n) := by
      rw [remarkUnreachable, htag]
      exact reporting_remark ..
    have hrest : ∀ again, Reporting su
        (selectStmt su n r >>= fun q => selectStmts su again ns q) :=
      fun again => (h.1.2 r).bind fun q => ih h.2 again q
    rw [selectStmts]
    exact .ite (hremark.bind fun _ => hrest _) (hrest _)

/-- The statement reports from every block. -/
def StmtReports (su : Setup) (n : Node) : Prop :=
  n.isAbsent = false → n.Complete → ∀ r, Reporting su (selectStmt su n r)

theorem reporting_compound {tag : Tag} {stmts : List Node}
    (hstmts : ∀ n ∈ stmts, StmtReports su n) (h : (Node.compound tag stmts).Complete)
    (returned : Bool) (r : BlockRef) : Reporting su (selectStmts su returned stmts r) := by
  have hfilled : ∀ n ∈ stmts, n.isAbsent = false := h.filled rfl
  exact reporting_selectStmts stmts
    (fun n hn => ⟨hfilled n hn, hstmts n hn (hfilled n hn) (h.part hn)⟩) returned r

theorem reporting_selectBody {body : Node} (hparts : ∀ n ∈ body.parts, StmtReports su n)
    (hbody : body.isAbsent = false) (h : body.Complete) (r : BlockRef) :
    Reporting su (selectBody su body r) := by
  cases body with
  | absent => cases hbody
  | compound tag stmts =>
    rw [selectBody]
    exact (reporting_openBody tag r).bind fun first =>
      (reporting_compound hparts h false first).bind fun _ => reporting_pure _
  | _ =>
    simp only [selectBody, Node.tag?]
    exact (reporting_openBody _ r).bind fun _ => reporting_fail _ rfl

/-- **Lowering a statement reports**, if it is complete. -/
theorem reporting_selectStmt : ∀ n : Node, StmtReports su n := by
  intro n
  induction n using Node.parts_induction with
  | _ n ih ih₂ =>
  intro hn h r
  cases n with
  | absent => cases hn
  | compound tag stmts =>
    rw [selectStmt]
    exact (reporting_openBody tag r).bind fun first => reporting_compound ih h false first
  | ifThen tag cond body =>
    have hmem : body ∈ (Node.ifThen tag cond body).parts := by simp [Node.parts]
    have hbody := reporting_selectBody (ih₂ body hmem) (h.filled rfl) (h.part hmem) r
    rw [selectStmt]
    refine (reporting_selectExpr (.block r) cond).bind fun slot => ?_
    refine hbody.bind ?_
    rintro ⟨first, last⟩
    refine (reporting_openBlock last).bind fun exit => ?_
    exact (reporting_emitBranch r slot first exit).bind fun _ =>
      (reporting_jump last exit).bind fun _ => reporting_pure _
  | loop tag cond body =>
    have hmem : body ∈ (Node.loop tag cond body).parts := by simp [Node.parts]
    have hbody := reporting_selectBody (ih₂ body hmem) (h.filled rfl) (h.part hmem)
    rw [selectStmt]
    refine (reporting_openBlock r).bind fun header => ?_
    refine (reporting_selectExpr (.block header) cond).bind fun slot => ?_
    refine (hbody header).bind ?_
    rintro ⟨first, last⟩
    refine (reporting_jump last header).bind fun _ => ?_
    exact (reporting_openBlock last).bind fun exit =>
      (reporting_emitBranch header slot first exit).bind fun _ => reporting_pure _
  | var tag name type init =>
    rw [selectStmt]
    exact (reporting_selectVar ..).bind fun _ => reporting_pure _
  | ret tag expr =>
    rw [selectStmt]
    have hend : Reporting su (do
        emit (.block r) .ret []
        return r : Selection BlockRef) :=
      (reporting_emit ..).bind fun _ => reporting_pure _
    refine .ite ?_ hend
    exact (reporting_selectExpr ..).bind fun _ => (reporting_serve ..).bind fun _ => hend
  | print tag expr =>
    rw [selectStmt]
    exact (reporting_selectExpr ..).bind fun _ =>
      (reporting_serve ..).bind fun _ => reporting_pure _
  | scan tag target =>
    rw [selectStmt]
    exact (reporting_scannedSlot tag target).bind fun _ =>
      (reporting_serve ..).bind fun _ => reporting_pure _
  | _ =>
    simp only [selectStmt]
    exact (reporting_selectExprStmt hn r).bind fun _ => reporting_pure _

/-! ## Programs -/

theorem reporting_reserveFunction (tag : Tag) (name : String) (result : ValueType) :
    Reporting su (reserveFunction tag name result) := by
  refine reporting_get.bind fun s => ?_
  dsimp only
  split
  · exact reporting_fail _ rfl
  · exact (reporting_modify _).bind fun _ => reporting_pure _

theorem reporting_functionGraph (tag : Tag) (name : String) (result : ValueType) :
    Reporting su (functionGraph tag name result) := by
  refine reporting_get.bind fun s => ?_
  split
  · exact .ite (reporting_pure _) (reporting_reserveFunction ..)
  · exact reporting_reserveFunction ..

theorem reporting_selectParams (function : String) : ∀ params : List Node,
    (∀ p ∈ params, p.isAbsent = false) → Reporting su (selectParams function params) := by
  intro params
  induction params with
  | nil =>
    intro _
    rw [selectParams]
    exact reporting_pure _
  | cons p params ih =>
    intro h
    rw [List.forall_mem_cons] at h
    obtain ⟨tag, htag⟩ := Node.exists_tag? h.1
    rw [selectParams, htag]
    refine .ite (reporting_fail _ rfl) ?_
    exact (reporting_allocate tag).bind fun _ => (ih h.2).bind fun _ => reporting_pure _

theorem reporting_selectFunction {tag : Tag} {name : String} {params : List Node}
    {result : ValueType} {body : Node}
    (h : (Node.function tag name params result body).Complete) :
    Reporting su (selectFunction su tag name params result body) := by
  have hparams : ∀ p ∈ params, p.isAbsent = false := h.filled rfl
  have hbody : ∀ g, Reporting su
      (if body.tag?.any fun t => t.kind == .compoundStmt then do
        let _ ← selectBody su body ⟨g, 0⟩
      else fail tag.pos (.noBody name) : Selection Unit) := by
    intro g
    -- A body that is missing has no kind, so it is refused before it is opened.
    cases hnone : body.isAbsent with
    | true =>
      cases body with
      | absent => exact reporting_fail _ rfl
      | _ => cases hnone
    | false =>
      have hlower : Reporting su (selectBody su body ⟨g, 0⟩) :=
        reporting_selectBody (fun n _ => reporting_selectStmt n) hnone
          (h.part (by simp [Node.parts])) ⟨g, 0⟩
      exact .ite (hlower.bind fun _ => reporting_pure _) (reporting_fail _ rfl)
  refine (reporting_functionGraph tag name result).bind fun g => ?_
  refine .ite ?_ (hbody g)
  exact (reporting_selectParams name params hparams).bind fun _ =>
    (reporting_serve ..).bind fun _ => hbody g

theorem reporting_reserveDecl {d : Node} (hd : d.isAbsent = false) :
    Reporting su (reserveDecl d) := by
  obtain ⟨tag, htag⟩ := Node.exists_tag? hd
  rw [reserveDecl, htag]
  refine .ite ?_ (reporting_pure _)
  split
  · exact (reporting_reserveFunction ..).bind fun _ => reporting_pure _
  · exact reporting_fail _ rfl

theorem reporting_selectDecl {d : Node} (hd : d.isAbsent = false) (h : d.Complete) :
    Reporting su (selectDecl su d) := by
  obtain ⟨tag, htag⟩ := Node.exists_tag? hd
  rw [selectDecl, htag]
  dsimp only
  split
  · cases htag
    exact reporting_selectFunction h
  · exact reporting_selectVar ..
  · exact reporting_fail _ rfl
  · exact reporting_fail _ rfl
  · exact reporting_fail _ rfl

theorem reporting_forM {f : Node → Selection Unit} : ∀ ds : List Node,
    (∀ d ∈ ds, Reporting su (f d)) → Reporting su (ds.forM f) := by
  intro ds
  induction ds with
  | nil => exact fun _ => reporting_pure _
  | cons d ds ih =>
    intro h
    rw [List.forall_mem_cons] at h
    exact h.1.bind fun _ => ih h.2

/-- **Lowering a program reports**, if it is complete. -/
theorem reporting_selectProgram {root : Node} (h : root.Complete) :
    Reporting su (selectProgram su root) := by
  rw [selectProgram]
  split
  · exact reporting_fail _ rfl
  · refine .ite (reporting_fail _ rfl) ?_
    split
    · next decls _ =>
      have hfilled : ∀ d ∈ decls, d.isAbsent = false := h.filled rfl
      have hselect : Reporting su (decls.forM (selectDecl su)) :=
        reporting_forM decls fun d hd => reporting_selectDecl (hfilled d hd) (h.part hd)
      have hreserve : Reporting su (decls.forM reserveDecl) :=
        reporting_forM decls fun d hd => reporting_reserveDecl (hfilled d hd)
      exact .ite (hreserve.bind fun _ => hselect) hselect
    · exact reporting_fail _ rfl

/-- **Selection classifies every failure.**  A complete program is lowered to a module, or there
is a diagnostic, which is internal or about something unsupported.  Only a hook says that
something is unsupported. -/
theorem select_reports (su : Setup) {root : Node} (h : root.Complete) :
    (∃ s, select su root = .ok () s) ∨
      ∃ d s, select su root = .error (.fault d) s ∧
        (.internal ∈ d.cause.categories ∨ .unsupported ∈ d.cause.categories) ∧
        (.unsupported ∈ d.cause.categories → ∃ request f,
          su.hooks.answer s.served request = .error f ∧ .unsupported ∈ f.categories ∧
            d.cause = .hook f) := by
  cases hrun : select su root with
  | ok u s => exact .inl ⟨s, rfl⟩
  | error e s =>
    obtain ⟨d, rfl, hhook⟩ := (reporting_selectProgram h).stop {} e s hrun
    refine .inr ⟨d, s, rfl, d.cause.classified, fun hun => ?_⟩
    obtain ⟨f, hcause, hf⟩ := Cause.unsupported_of_mem hun
    obtain ⟨request, hrefused⟩ := hhook f hcause
    exact ⟨request, f, hrefused, hf, hcause⟩

end Reporting

/-- A program in which no statement and no expression is of the kind that it says. -/
def crookedProgram : Node :=
  .program (.nowhere 0 .program)
    [.function (.nowhere 1 .functionDecl) "f" [] .void
      (.compound (.nowhere 2 .compoundStmt)
        [.ret (.nowhere 3 .ifStmt) .absent,
         .print (.nowhere 4 .whileStmt) (.number (.nowhere 5 .stringExpr) 1)])]

theorem crookedProgram_reports : ∃ d s, select {} crookedProgram = .error (.fault d) s ∧
    .unsupported ∈ d.cause.categories ∧ ∃ request f,
      ({} : Setup).hooks.answer s.served request = .error f ∧ .unsupported ∈ f.categories ∧
        d.cause = .hook f := by
  have hstop : (match select {} crookedProgram with
      | .error (.fault d) _ => decide (Category.unsupported ∈ d.cause.categories)
      | _ => false) = true := by decide +kernel
  rcases select_reports {} (by decide : crookedProgram.Complete) with ⟨s, hs⟩ | ⟨d, s, hs, -, hhook⟩
  · rw [hs] at hstop
    cases hstop
  · rw [hs] at hstop
    have hun := of_decide_eq_true hstop
    exact ⟨d, s, hs, hun, hhook hun⟩

end Isel.Select
