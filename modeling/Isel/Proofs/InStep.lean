import Isel.Proofs.Construction

/-!
# Selections in step

Two selections of one program that differ in a feature go in step: where the first one ends well
the second one does, with the same result, and a relation between their states is kept
(`InStep`).  What the relation has to do is said once for the steps that change a state
(`Parallel`); that expressions, statements and functions are lowered in step follows from it.

The relation may restrict the graphs that are written to (`G`) and the functions that are called
(`K`).
-/

namespace Isel.Select

open Isel.Flow Isel.Syntax Isel.Proofs

/-! ## Computations in step -/

/-- Where the first computation ends well, the second does so with the same result, which is as
said, and the states stay related. -/
structure InStep {α : Type} (R : State → State → Prop) (x y : Selection α)
    (P : α → Prop := fun _ => True) : Prop where
  run : ∀ s t a s', R s t → x s = .ok a s' → ∃ t', y t = .ok a t' ∧ R s' t' ∧ P a

section InStep

variable {α β : Type} {R : State → State → Prop} {P : α → Prop} {Q : β → Prop}

theorem InStep.bind {x y : Selection α} {f g : α → Selection β} (hx : InStep R x y P)
    (hf : ∀ a, P a → InStep R (f a) (g a) Q) : InStep R (x >>= f) (y >>= g) Q := by
  constructor
  intro s t b s' hR h
  rw [bind_eq_ok] at h
  obtain ⟨a, s₁, hrun, h⟩ := h
  obtain ⟨t₁, hrun', hR₁, ha⟩ := hx.run s t a s₁ hR hrun
  obtain ⟨t', h', hR', hb⟩ := (hf a ha).run s₁ t₁ b s' hR₁ h
  exact ⟨t', (bind_of_ok hrun').trans h', hR', hb⟩

theorem InStep.ite {c : Prop} [Decidable c] {x y x' y' : Selection α} (h : InStep R x y P)
    (h' : InStep R x' y' P) : InStep R (if c then x else x') (if c then y else y') P := by
  split
  · exact h
  · exact h'

theorem inStep_pure {a : α} (ha : P a) : InStep R (pure a) (pure a) P := by
  constructor
  rintro s t _ _ hR ⟨⟩
  exact ⟨t, rfl, hR, ha⟩

theorem inStep_throw (e : Stop) (y : Selection α) : InStep R (throw e) y P :=
  ⟨fun _ _ _ _ _ h => nomatch h⟩

theorem inStep_fail (pos : Source.Position) (cause : Cause) (y : Selection α) :
    InStep R (fail pos cause) y P := inStep_throw _ y

end InStep

/-! ## Relations that are kept -/

/-- The point is the global sequence or in one of the graphs. -/
def Point.In (G : Nat → Prop) : Point → Prop
  | .globals => True
  | .block r => G r.graph

/-- The setups agree in all that the lowering of expressions reads, literals apart. -/
structure Setup.Alike (su su' : Setup) : Prop where
  warns : su'.config.warns = su.config.warns
  directional : su'.config.uses .directionalOps = su.config.uses .directionalOps
  isGlobal : su'.isGlobal = su.isGlobal
  bindings : su'.bindings = su.bindings
  hooks : su'.hooks = su.hooks

/-- The instruction has no literal among its operands. -/
def LiteralFree (i : Instr) : Prop := ∀ k, .literal k ∉ i.args

/-- The steps of two selections keep the relation, as far as they stay in the graphs `G` and call
functions of `K`.  Literals are only loaded, unless a hook puts in one. -/
structure Parallel (su su' : Setup) (R : State → State → Prop) (G : Nat → Prop)
    (K : String → Prop) : Prop where
  alike : su.Alike su'
  slots : ∀ {s t}, R s t → t.slots = s.slots
  served : ∀ {s t}, R s t → t.served = s.served
  allocated : ∀ {s t}, R s t → ∀ slots, R { s with slots := slots } { t with slots := slots }
  remarked : ∀ {s t}, R s t → ∀ r,
    R { s with remarks := s.remarks ++ [r] } { t with remarks := t.remarks ++ [r] }
  answered : ∀ {s t}, R s t → ∀ r,
    R { s with served := s.served ++ [r] } { t with served := t.served ++ [r] }
  emitted : ∀ {s t}, R s t → ∀ pt : Point, pt.In G → ∀ i, LiteralFree i ∨ Hooked su i →
    R (s.emit pt i) (t.emit pt i)
  opened : ∀ r, G r.graph → InStep R (openBlock r) (openBlock r) fun q => G q.graph
  jumped : ∀ r target, G r.graph → InStep R (jump r target) (jump r target)
  literal : ∀ pt : Point, pt.In G → ∀ slot bytes, InStep R
    (do
      let literal ← literalFor su bytes
      emit pt .loadImm [.slot slot, .literal literal]
      return slot)
    (do
      let literal ← literalFor su' bytes
      emit pt .loadImm [.slot slot, .literal literal]
      return slot)
  entry : ∀ tag callee, InStep R (calleeEntry tag callee) (calleeEntry tag callee) fun _ => K callee
  result : ∀ callee, K callee → InStep R (hasResult callee) (hasResult callee)

namespace Parallel

variable {su su' : Setup} {R : State → State → Prop} {G : Nat → Prop} {K : String → Prop}
  {pt : Point}

/-! ## Expressions -/

theorem remark (h : Parallel su su' R G K) (w : Settings.Warning) (pos : Source.Position)
    (message : String) :
    InStep R (Select.remark su w pos message) (Select.remark su' w pos message) := by
  constructor
  intro s t a s' hR hrun
  rw [remark_apply] at hrun
  cases hrun
  refine ⟨_, remark_apply su' w pos message t, ?_, trivial⟩
  rw [State.remarked, State.remarked, h.alike.warns]
  split
  · exact h.remarked hR _
  · exact hR

theorem allocate (h : Parallel su su' R G K) (tag : Tag) :
    InStep R (Select.allocate tag) (Select.allocate tag) := by
  constructor
  intro s t slot s' hR hrun
  obtain ⟨hnone, rfl, rfl⟩ := allocate_eq_ok.mp hrun
  have hslots := h.slots hR
  refine ⟨t.withOwner tag.label, ?_, ?_, trivial⟩
  · rw [← hslots] at hnone ⊢
    exact allocate_of_none hnone
  · rw [State.withOwner, State.withOwner, hslots]
    exact h.allocated hR _

theorem claimSlot (h : Parallel su su' R G K) (tag : Tag) :
    InStep R (Select.claimSlot tag) (Select.claimSlot tag) :=
  .ite (h.allocate tag) (inStep_fail ..)

theorem lookup (h : Parallel su su' R G K) (pos : Source.Position) (decl : Decl) :
    InStep R (Select.lookup pos decl) (Select.lookup pos decl) := by
  constructor
  intro s t slot s' hR hrun
  obtain ⟨hslot, rfl⟩ := lookup_eq_ok.mp hrun
  refine ⟨t, lookup_eq_ok.mpr ⟨?_, rfl⟩, hR, trivial⟩
  rw [h.slots hR, hslot]

theorem emit (h : Parallel su su' R G K) (hpt : pt.In G) (op : Machine.Opcode)
    (args : List Operand) (hargs : LiteralFree ⟨op, args⟩ := by simp [LiteralFree]) :
    InStep R (Select.emit pt op args) (Select.emit pt op args) := by
  constructor
  rintro s t _ _ hR ⟨⟩
  exact ⟨_, rfl, h.emitted hR pt hpt _ (.inl hargs), trivial⟩

theorem emitAll (h : Parallel su su' R G K) (hpt : pt.In G) : ∀ (out : List Instr) (s t : State),
    (∀ i ∈ out, Hooked su i) → R s t →
      R { s with module := out.foldl (fun m i => pt.emit m i) s.module }
        { t with module := out.foldl (fun m i => pt.emit m i) t.module } := by
  intro out
  induction out with
  | nil => exact fun s t _ hR => hR
  | cons i out ih =>
    intro s t hout hR
    rw [List.forall_mem_cons] at hout
    exact ih (s.emit pt i) (t.emit pt i) hout.2 (h.emitted hR pt hpt i (.inr hout.1))

theorem serve (h : Parallel su su' R G K) (hpt : pt.In G) (pos : Source.Position)
    (request : Request) :
    InStep R (Select.serve su pos pt request) (Select.serve su' pos pt request) := by
  constructor
  intro s t u s' hR hrun
  obtain ⟨out, hout, rfl⟩ := serve_eq_ok.mp hrun
  refine ⟨_, serve_eq_ok.mpr ⟨out, ?_, rfl⟩, ?_, trivial⟩
  · rw [h.alike.hooks, h.served hR, hout]
  · have hhooked : ∀ i ∈ out, Hooked su i := fun i hi => ⟨request, out, ⟨s.served, hout⟩, hi⟩
    exact h.answered (h.emitAll hpt out s t hhooked hR) request

theorem operatorOpcode (h : Parallel su su' R G K) (pos : Source.Position) (op : Token) :
    InStep R (Select.operatorOpcode su pos op) (Select.operatorOpcode su' pos op) := by
  rw [Select.operatorOpcode, Select.operatorOpcode, h.alike.directional]
  split
  · exact inStep_fail ..
  · exact .ite ((h.remark ..).bind fun _ _ => inStep_pure trivial) (inStep_pure trivial)

theorem emitCall (h : Parallel su su' R G K) (hpt : pt.In G) (tag : Tag) {callee : String}
    (hcallee : K callee) (entry : Option BlockRef) (args : List Slot) (slot : Slot) :
    InStep R (Select.emitCall su pt tag callee entry args slot)
      (Select.emitCall su' pt tag callee entry args slot) := by
  have hcall : InStep R
      (do
        Select.emit pt .call [.block entry]
        if ← hasResult callee then Select.serve su tag.pos pt (.resultIn slot))
      (do
        Select.emit pt .call [.block entry]
        if ← hasResult callee then Select.serve su' tag.pos pt (.resultIn slot)) :=
    (h.emit hpt _ _).bind fun _ _ => (h.result callee hcallee).bind fun _ _ =>
      .ite (h.serve hpt ..) (inStep_pure trivial)
  exact .ite ((h.serve hpt ..).bind fun _ _ => hcall) hcall

theorem selectArgs : ∀ ns : List Node,
    (∀ n ∈ ns, InStep R (Select.selectExpr su pt n) (Select.selectExpr su' pt n)) →
      InStep R (Select.selectArgs su pt ns) (Select.selectArgs su' pt ns) := by
  intro ns
  induction ns with
  | nil =>
    intro _
    rw [Select.selectArgs, Select.selectArgs]
    exact inStep_pure trivial
  | cons n ns ih =>
    intro hns
    rw [List.forall_mem_cons] at hns
    rw [Select.selectArgs, Select.selectArgs]
    exact hns.1.bind fun _ _ => (ih hns.2).bind fun _ _ => inStep_pure trivial

/-- **Expressions are lowered in step.** -/
theorem selectExpr (h : Parallel su su' R G K) (hpt : pt.In G) :
    ∀ n : Node, InStep R (Select.selectExpr su pt n) (Select.selectExpr su' pt n) := by
  intro n
  induction n using Node.parts_induction with
  | _ n ih _ =>
  cases n with
  | absent =>
    rw [Select.selectExpr]
    exact inStep_fail ..
  | number tag value =>
    rw [Select.selectExpr, Select.selectExpr]
    have hend : ∀ slot, InStep R
        (do
          Select.emit pt .loadImm [.slot slot, .imm value]
          return slot)
        (do
          Select.emit pt .loadImm [.slot slot, .imm value]
          return slot) :=
      fun _ => (h.emit hpt _ _).bind fun _ _ => inStep_pure trivial
    refine (h.claimSlot tag).bind fun slot _ => ?_
    exact .ite ((h.remark ..).bind fun _ _ => hend slot) (hend slot)
  | boolean tag value =>
    rw [Select.selectExpr, Select.selectExpr]
    exact (h.claimSlot tag).bind fun _ _ => (h.emit hpt _ _).bind fun _ _ => inStep_pure trivial
  | ident tag name =>
    rw [Select.selectExpr, Select.selectExpr, h.alike.bindings]
    refine (h.claimSlot tag).bind fun _ _ => ?_
    split
    · exact inStep_fail ..
    · exact (h.lookup ..).bind fun _ _ => (h.emit hpt _ _).bind fun _ _ => inStep_pure trivial
  | string tag bytes =>
    rw [Select.selectExpr, Select.selectExpr]
    exact (h.claimSlot tag).bind fun slot _ => h.literal pt hpt slot bytes
  | binary tag op left right =>
    rw [Select.selectExpr, Select.selectExpr]
    refine (h.claimSlot tag).bind fun _ _ => ?_
    refine (ih left (by simp [Node.parts])).bind fun _ _ => ?_
    refine (ih right (by simp [Node.parts])).bind fun _ _ => ?_
    exact (h.operatorOpcode ..).bind fun _ _ =>
      (h.emit hpt _ _).bind fun _ _ => inStep_pure trivial
  | call tag callee args =>
    rw [Select.selectExpr, Select.selectExpr]
    exact (h.claimSlot tag).bind fun _ _ => (h.entry tag callee).bind fun _ hcallee =>
      (selectArgs args ih).bind fun _ _ =>
        (h.emitCall hpt tag hcallee ..).bind fun _ _ => inStep_pure trivial
  | bare | program | function | param | var | compound | ifThen | print | ret | scan | loop =>
    rw [Select.selectExpr, Select.selectExpr]
    exact (h.claimSlot _).bind fun _ _ => inStep_fail ..

theorem selectVar (h : Parallel su su' R G K) (hpt : pt.In G) (tag : Tag) (name : String)
    (init : Node) :
    InStep R (Select.selectVar su pt tag name init) (Select.selectVar su' pt tag name init) := by
  by_cases hinit : init = .absent
  · subst hinit
    rw [Select.selectVar, Select.selectVar]
    exact inStep_pure trivial
  · rw [selectVar_of_ne hinit, selectVar_of_ne hinit, h.alike.isGlobal]
    refine (h.selectExpr hpt init).bind fun _ _ => (h.allocate tag).bind fun _ _ => ?_
    have hglobals : Point.globals.In G := trivial
    refine .ite (h.emit hglobals _ _) ?_
    split
    · exact inStep_fail ..
    · exact h.emit hpt _ _

/-! ## Statements -/

theorem lookupOrAdd (h : Parallel su su' R G K) (decl : Decl) :
    InStep R (Select.lookupOrAdd decl) (Select.lookupOrAdd decl) := by
  have hrun : ∀ s : State, Select.lookupOrAdd decl s =
      (s.slots.slot? (some decl.label)).elim (.ok s.slots.count (s.withOwner decl.label))
        fun slot => .ok slot s := by
    intro s
    rw [Select.lookupOrAdd, get_bind_apply]
    cases s.slots.slot? (some decl.label) <;> rfl
  constructor
  intro s t slot s' hR h'
  have hslots := h.slots hR
  rw [hrun] at h'
  rw [hrun, hslots]
  cases hslot : s.slots.slot? (some decl.label) with
  | some own =>
    rw [hslot] at h'
    cases h'
    exact ⟨t, rfl, hR, trivial⟩
  | none =>
    rw [hslot] at h'
    cases h'
    refine ⟨_, rfl, ?_, trivial⟩
    rw [State.withOwner, State.withOwner, hslots]
    exact h.allocated hR _

theorem scannedSlot (h : Parallel su su' R G K) (tag : Tag) (target : Node) :
    InStep R (Select.scannedSlot su tag target) (Select.scannedSlot su' tag target) := by
  rw [Select.scannedSlot, Select.scannedSlot, h.alike.bindings]
  split
  · exact inStep_fail ..
  · refine .ite (inStep_fail ..) ?_
    split
    · split
      · exact inStep_fail ..
      · exact h.lookupOrAdd _
    · exact inStep_fail ..

variable {r : BlockRef}

theorem selectExprStmt (h : Parallel su su' R G K) (hr : G r.graph) (n : Node) :
    InStep R (Select.selectExprStmt su n r) (Select.selectExprStmt su' n r) := by
  rw [Select.selectExprStmt, Select.selectExprStmt]
  split
  · exact inStep_throw ..
  · have hpt : (Point.block r).In G := hr
    have hend : InStep R (do let _ ← Select.selectExpr su (.block r) n)
        (do let _ ← Select.selectExpr su' (.block r) n) :=
      (h.selectExpr hpt n).bind fun _ _ => inStep_pure trivial
    refine .ite (inStep_fail ..) ?_
    exact .ite ((h.remark ..).bind fun _ _ => hend) hend

theorem openBody (h : Parallel su su' R G K) (hr : G r.graph) (tag : Tag) :
    InStep R (Select.openBody tag r) (Select.openBody tag r) fun q => G q.graph :=
  .ite (h.opened r hr) (inStep_fail ..)

theorem emitBranch (h : Parallel su su' R G K) (hr : G r.graph) (cond : Slot) (yes no : BlockRef) :
    InStep R (Select.emitBranch r cond yes no) (Select.emitBranch r cond yes no) := by
  have hpt : (Point.block r).In G := hr
  exact (h.emit hpt _ _).bind fun _ _ => (h.jumped r yes hr).bind fun _ _ => h.jumped r no hr

/-- The statement is lowered in step, from a block of the graphs to one of them. -/
def StmtInStep (su su' : Setup) (R : State → State → Prop) (G : Nat → Prop) (n : Node) : Prop :=
  ∀ r, G r.graph →
    InStep R (Select.selectStmt su n r) (Select.selectStmt su' n r) fun q => G q.graph

theorem remarkUnreachable (h : Parallel su su' R G K) (n : Node) :
    InStep R (Select.remarkUnreachable su n) (Select.remarkUnreachable su' n) := by
  rw [Select.remarkUnreachable, Select.remarkUnreachable]
  split
  · exact inStep_throw ..
  · exact h.remark ..

theorem selectStmts (h : Parallel su su' R G K) : ∀ ns : List Node,
    (∀ n ∈ ns, StmtInStep su su' R G n) → ∀ (returned : Bool) (r : BlockRef), G r.graph →
      InStep R (Select.selectStmts su returned ns r) (Select.selectStmts su' returned ns r)
        fun q => G q.graph := by
  intro ns
  induction ns with
  | nil =>
    intro _ returned r hr
    rw [Select.selectStmts, Select.selectStmts]
    exact inStep_pure hr
  | cons n ns ih =>
    intro hns returned r hr
    rw [List.forall_mem_cons] at hns
    have hrest : ∀ again, InStep R
        (Select.selectStmt su n r >>= fun q => Select.selectStmts su again ns q)
        (Select.selectStmt su' n r >>= fun q => Select.selectStmts su' again ns q)
        fun q => G q.graph :=
      fun again => (hns.1 r hr).bind fun q hq => ih hns.2 again q hq
    rw [Select.selectStmts, Select.selectStmts]
    exact .ite ((h.remarkUnreachable n).bind fun _ _ => hrest _) (hrest _)

theorem selectBody (h : Parallel su su' R G K) {body : Node}
    (hparts : ∀ n ∈ body.parts, StmtInStep su su' R G n) (hr : G r.graph) :
    InStep R (Select.selectBody su body r) (Select.selectBody su' body r)
      fun q => G q.1.graph ∧ G q.2.graph := by
  cases body with
  | compound tag stmts =>
    rw [Select.selectBody, Select.selectBody]
    refine (h.openBody hr tag).bind fun first hfirst => ?_
    exact (h.selectStmts stmts hparts false first hfirst).bind fun last hlast =>
      inStep_pure ⟨hfirst, hlast⟩
  | absent =>
    rw [Select.selectBody]
    · exact inStep_throw ..
    · simp
  | _ =>
    simp only [Select.selectBody, Node.tag?]
    exact (h.openBody hr _).bind fun _ _ => inStep_fail ..

theorem ifThen (h : Parallel su su' R G K) {tag : Tag} {cond body : Node}
    (hparts : ∀ n ∈ body.parts, StmtInStep su su' R G n) :
    StmtInStep su su' R G (.ifThen tag cond body) := by
  intro r hr
  have hpt : (Point.block r).In G := hr
  rw [Select.selectStmt, Select.selectStmt]
  refine (h.selectExpr hpt cond).bind fun slot _ => ?_
  refine (h.selectBody hparts hr).bind fun ⟨first, last⟩ ⟨_, hlast⟩ => ?_
  refine (h.opened last hlast).bind fun exit hexit => ?_
  refine (h.emitBranch hr slot first exit).bind fun _ _ => ?_
  exact (h.jumped last exit hlast).bind fun _ _ => inStep_pure hexit

theorem loop (h : Parallel su su' R G K) {tag : Tag} {cond body : Node}
    (hparts : ∀ n ∈ body.parts, StmtInStep su su' R G n) :
    StmtInStep su su' R G (.loop tag cond body) := by
  intro r hr
  rw [Select.selectStmt, Select.selectStmt]
  refine (h.opened r hr).bind fun header hheader => ?_
  have hpt : (Point.block header).In G := hheader
  refine (h.selectExpr hpt cond).bind fun slot _ => ?_
  refine (h.selectBody hparts hheader).bind fun ⟨first, last⟩ ⟨_, hlast⟩ => ?_
  refine (h.jumped last header hlast).bind fun _ _ => ?_
  refine (h.opened last hlast).bind fun exit hexit => ?_
  exact (h.emitBranch hheader slot first exit).bind fun _ _ => inStep_pure hexit

/-- **Statements are lowered in step.** -/
theorem selectStmt (h : Parallel su su' R G K) : ∀ n : Node, StmtInStep su su' R G n := by
  intro n
  induction n using Node.parts_induction with
  | _ n ih ih₂ =>
  intro r hr
  have hpt : (Point.block r).In G := hr
  cases n with
  | compound tag stmts =>
    rw [Select.selectStmt, Select.selectStmt]
    exact (h.openBody hr tag).bind fun first hfirst => h.selectStmts stmts ih false first hfirst
  | ifThen tag cond body => exact h.ifThen (ih₂ body (by simp [Node.parts])) r hr
  | loop tag cond body => exact h.loop (ih₂ body (by simp [Node.parts])) r hr
  | var tag name type init =>
    rw [Select.selectStmt, Select.selectStmt]
    exact (h.selectVar hpt tag name init).bind fun _ _ => inStep_pure hr
  | ret tag expr =>
    rw [Select.selectStmt, Select.selectStmt]
    have hend : InStep R
        (do
          Select.emit (.block r) .ret []
          return r)
        (do
          Select.emit (.block r) .ret []
          return r) fun q => G q.graph :=
      (h.emit hpt _ _).bind fun _ _ => inStep_pure hr
    refine .ite ?_ hend
    exact (h.selectExpr hpt expr).bind fun _ _ => (h.serve hpt ..).bind fun _ _ => hend
  | print tag expr =>
    rw [Select.selectStmt, Select.selectStmt]
    exact (h.selectExpr hpt expr).bind fun _ _ =>
      (h.serve hpt ..).bind fun _ _ => inStep_pure hr
  | scan tag target =>
    rw [Select.selectStmt, Select.selectStmt]
    exact (h.scannedSlot tag target).bind fun _ _ =>
      (h.serve hpt ..).bind fun _ _ => inStep_pure hr
  | _ =>
    simp only [Select.selectStmt]
    exact (h.selectExprStmt hr _).bind fun _ _ => inStep_pure hr

/-! ## Functions -/

theorem selectParams (h : Parallel su su' R G K) (function : String) : ∀ params : List Node,
    InStep R (Select.selectParams function params) (Select.selectParams function params) := by
  intro params
  induction params with
  | nil =>
    rw [Select.selectParams]
    exact inStep_pure trivial
  | cons p params ih =>
    rw [Select.selectParams]
    split
    · exact inStep_throw ..
    · refine .ite (inStep_fail ..) ?_
      exact (h.allocate _).bind fun _ _ => ih.bind fun _ _ => inStep_pure trivial

end Parallel

/-- Lowers a function in its graph. -/
def selectIn (su : Setup) (tag : Tag) (name : String) (params : List Node) (body : Node)
    (g : Nat) : Selection Unit := do
  if !params.isEmpty then
    let slots ← selectParams name params
    serve su tag.pos (.block ⟨g, 0⟩) (.paramsIn slots)
  if body.tag?.any fun t => t.kind == .compoundStmt then
    let _ ← selectBody su body ⟨g, 0⟩
  else fail tag.pos (.noBody name)

theorem selectFunction_eq (su : Setup) (tag : Tag) (name : String) (params : List Node)
    (result : ValueType) (body : Node) :
    selectFunction su tag name params result body =
      functionGraph tag name result >>= selectIn su tag name params body := rfl

/-- **Functions are lowered in step**, if their graphs are among those of the relation. -/
theorem Parallel.selectIn {su su' : Setup} {R : State → State → Prop} {G : Nat → Prop}
    {K : String → Prop} (h : Parallel su su' R G K) {g : Nat} (hg : G g) (tag : Tag)
    (name : String) (params : List Node) (body : Node) :
    InStep R (Select.selectIn su tag name params body g)
      (Select.selectIn su' tag name params body g) := by
  have hpt : (Point.block ⟨g, 0⟩).In G := hg
  rw [Select.selectIn, Select.selectIn]
  have hbody : InStep R
      (if body.tag?.any fun t => t.kind == .compoundStmt then do
        let _ ← Select.selectBody su body ⟨g, 0⟩
      else fail tag.pos (.noBody name))
      (if body.tag?.any fun t => t.kind == .compoundStmt then do
        let _ ← Select.selectBody su' body ⟨g, 0⟩
      else fail tag.pos (.noBody name)) := by
    refine .ite ?_ (inStep_fail ..)
    exact (h.selectBody (fun n _ => h.selectStmt n) hg).bind fun _ _ => inStep_pure trivial
  refine .ite ?_ hbody
  exact (h.selectParams name params).bind fun _ _ => (h.serve hpt ..).bind fun _ _ => hbody

/-! ## A selection in step with itself -/

/-- The same state, of which something is known. -/
def Retains (I : State → Prop) (s t : State) : Prop := t = s ∧ I s

section Retains

variable {α : Type} {I : State → Prop}

theorem inStep_retains {x : Selection α} {P : α → Prop}
    (h : ∀ s a s', I s → x s = .ok a s' → I s' ∧ P a) : InStep (Retains I) x x P := by
  constructor
  rintro s _ a s' ⟨rfl, hI⟩ hrun
  obtain ⟨hI', ha⟩ := h _ a s' hI hrun
  exact ⟨s', hrun, ⟨rfl, hI'⟩, ha⟩

/-- What is known of the functions and their signatures stays known as long as none is
declared. -/
theorem parallel_retains (su : Setup)
    (hI : ∀ s s' : State, I s → s'.module.functions = s.module.functions →
      s'.signatures = s.signatures → I s') :
    Parallel su su (Retains I) (fun _ => True) fun _ => True where
  alike := ⟨rfl, rfl, rfl, rfl, rfl⟩
  slots h := by rw [h.1]
  served h := by rw [h.1]
  allocated h slots := ⟨by rw [h.1], hI _ _ h.2 rfl rfl⟩
  remarked h r := ⟨by rw [h.1], hI _ _ h.2 rfl rfl⟩
  answered h r := ⟨by rw [h.1], hI _ _ h.2 rfl rfl⟩
  emitted {s t} h pt _ i _ := ⟨by rw [h.1], hI _ _ h.2 (pt.emit_rest s.module i).2.1 rfl⟩
  opened r _ := inStep_retains fun s q s' h hrun => by
    rw [openBlock_apply] at hrun
    cases hrun
    refine ⟨hI _ _ h ?_ rfl, trivial⟩
    show (openedModule s.module r).functions = _
    simp only [openedModule]
    split <;> exact (s.module.addBlock_rest r.graph).2.1
  jumped r target _ := inStep_retains fun s a s' h hrun => by
    cases hrun
    refine ⟨hI _ _ h ?_ rfl, trivial⟩
    dsimp only
    split <;> rfl
  literal pt _ slot bytes := inStep_retains fun s a s' h hrun => by
    rw [bind_of_ok (literalFor_apply ..), emit_bind_apply] at hrun
    cases hrun
    obtain ⟨-, more, index, hmore⟩ := literalEntry_spec su bytes s.module
    refine ⟨hI _ _ h ?_ rfl, trivial⟩
    show (pt.emit (literalEntry su bytes s.module).1 _).functions = _
    rw [(pt.emit_rest _ _).2.1, hmore]
  entry tag callee := inStep_retains fun s a s' h hrun => by
    obtain ⟨rfl, -⟩ := calleeEntry_eq_ok.mp hrun
    exact ⟨h, trivial⟩
  result callee _ := inStep_retains fun s a s' h hrun => by
    cases hrun
    exact ⟨h, trivial⟩

end Retains

end Isel.Select
