import Isel.Proofs.Agreement
import Isel.Proofs.Construction

/-!
# What lowering a declaration leaves alone

Lowering a function changes blocks of its own graph and nothing else, and lowering a variable of
the program scope changes no block at all.  This holds of the state that lowering leaves also
where it fails, so it is said of computations by their state at the end (`Confined`).

The selector sends the copy of a variable to the global sequence by its name alone.  That a
function leaves the global sequence as it is therefore rests on resolution (`local_of_resolved`):
no variable in a function has the name of one of the program scope.
-/

namespace Isel.Proofs

/-- The state that a computation leaves, whether it ends well or not. -/
def stateOf {ε σ α : Type} : EStateM.Result ε σ α → σ
  | .ok _ s | .error _ s => s

end Isel.Proofs

namespace Isel.Select

open Isel.Flow Isel.Syntax Isel.Proofs

/-! ## Regions of a module -/

/-- Where code goes: to the global sequence or to a graph. -/
inductive Region where
  | globals
  | graph (g : Nat)
  deriving DecidableEq

def Point.region : Point → Region
  | .globals => .globals
  | .block r => .graph r.graph

/-- The module changes in the region only. -/
structure Within (z : Region) (m m' : Module) : Prop where
  globals : z ≠ .globals → m'.globals = m.globals
  graphs : ∀ g, z ≠ .graph g → (m'.graph g).blocks = (m.graph g).blocks

section Within

variable {z : Region} {m m₁ m' : Module}

theorem Within.refl (z : Region) (m : Module) : Within z m m := ⟨fun _ => rfl, fun _ _ => rfl⟩

theorem Within.trans (h₁ : Within z m m₁) (h₂ : Within z m₁ m') : Within z m m' where
  globals hz := (h₂.globals hz).trans (h₁.globals hz)
  graphs g hz := (h₂.graphs g hz).trans (h₁.graphs g hz)

theorem within_modifyBlock (m : Module) (r : BlockRef) (f : Block → Block) :
    Within (.graph r.graph) m (m.modifyBlock r f) := by
  refine ⟨fun _ => rfl, fun g hg => ?_⟩
  rw [Module.graph_modifyBlock, if_neg]
  rintro rfl
  exact hg rfl

theorem within_emit (m : Module) (pt : Point) (i : Instr) : Within pt.region m (pt.emit m i) := by
  cases pt with
  | globals => exact ⟨fun h => absurd rfl h, fun _ _ => rfl⟩
  | block r => exact within_modifyBlock m r _

theorem within_foldl (pt : Point) : ∀ (out : List Instr) (m : Module),
    Within pt.region m (out.foldl (fun m i => pt.emit m i) m) := by
  intro out
  induction out with
  | nil => exact fun m => .refl _ m
  | cons i out ih => exact fun m => (within_emit m pt i).trans (ih (pt.emit m i))

theorem within_addBlock (m : Module) (g : Nat) :
    Within (.graph g) m (m.addBlock g "" []).1 := by
  refine ⟨fun _ => (m.addBlock_rest g).2.2.1, fun q hq => ?_⟩
  have hne : g ≠ q := by
    rintro rfl
    exact hq rfl
  rw [Module.addBlock_eq, ← Module.blocks_drawNameFor m g q]
  simp [Module.graph, hne]

end Within

/-! ## Computations -/

/-- Whatever comes of the computation, the module changes in the region only; if it ends well,
its result is as said. -/
structure Confined {α : Type} (z : Region) (x : Selection α) (P : α → Prop := fun _ => True) :
    Prop where
  within : ∀ s, Within z s.module (stateOf (x s)).module
  gives : ∀ s a s', x s = .ok a s' → P a

section Confined

variable {α β : Type} {z : Region} {P : α → Prop} {Q : β → Prop}

theorem Confined.bind {x : Selection α} {f : α → Selection β} (hx : Confined z x P)
    (hf : ∀ a, P a → Confined z (f a) Q) : Confined z (x >>= f) Q := by
  constructor
  · intro s
    have h₁ := hx.within s
    cases hrun : x s with
    | error e s₁ =>
      rw [bind_of_error hrun]
      rw [hrun] at h₁
      exact h₁
    | ok a s₁ =>
      rw [bind_of_ok hrun]
      rw [hrun] at h₁
      exact h₁.trans ((hf a (hx.gives s a s₁ hrun)).within s₁)
  · intro s b s' h
    rw [bind_eq_ok] at h
    obtain ⟨a, s₁, hrun, h⟩ := h
    exact (hf a (hx.gives s a s₁ hrun)).gives s₁ b s' h

theorem Confined.ite {c : Prop} [Decidable c] {x y : Selection α} (hx : Confined z x P)
    (hy : Confined z y P) : Confined z (if c then x else y) P := by
  split
  · exact hx
  · exact hy

theorem confined_pure {a : α} (ha : P a) : Confined z (pure a) P := by
  refine ⟨fun s => .refl z s.module, ?_⟩
  rintro s _ _ ⟨⟩
  exact ha

theorem confined_throw (e : Stop) : Confined z (throw e : Selection α) P :=
  ⟨fun s => .refl z s.module, fun _ _ _ h => nomatch h⟩

theorem confined_fail (pos : Source.Position) (cause : Cause) :
    Confined z (fail pos cause : Selection α) P := confined_throw _

theorem confined_get : Confined z (get : Selection State) :=
  ⟨fun s => .refl z s.module, fun _ _ _ _ => trivial⟩

theorem confined_modify {f : State → State} (h : ∀ s, Within z s.module (f s).module) :
    Confined z (modify f) := ⟨h, fun _ _ _ _ => trivial⟩

theorem confined_modify_same {f : State → State} (h : ∀ s, (f s).module = s.module) :
    Confined z (modify f) := confined_modify fun s => h s ▸ .refl z s.module

theorem confined_emit (pt : Point) (op : Machine.Opcode) (args : List Operand) :
    Confined pt.region (emit pt op args) := confined_modify fun s => within_emit s.module pt _

theorem confined_remark (su : Setup) (w : Settings.Warning) (pos : Source.Position)
    (message : String) : Confined z (remark su w pos message) :=
  .ite (confined_modify_same fun _ => rfl) (confined_pure trivial)

theorem confined_failSlot (pos : Source.Position) (stop : SlotStop) :
    Confined z (failSlot pos stop : Selection α) P := by
  cases stop with
  | fault f => exact confined_fail pos _
  | malformed => exact confined_throw _

theorem confined_allocate (tag : Tag) : Confined z (allocate tag) := by
  refine confined_get.bind fun s _ => ?_
  split
  · refine Confined.bind (confined_modify_same fun _ => rfl) fun _ _ => ?_
    exact confined_pure trivial
  · exact confined_failSlot ..

theorem confined_claimSlot (tag : Tag) : Confined z (claimSlot tag) :=
  .ite (confined_allocate tag) (confined_fail ..)

theorem confined_lookup (pos : Source.Position) (decl : Decl) :
    Confined z (lookup pos decl) := by
  refine confined_get.bind fun s _ => ?_
  split
  · exact confined_pure trivial
  · exact confined_failSlot ..

theorem confined_lookupOrAdd (decl : Decl) : Confined z (lookupOrAdd decl) := by
  refine confined_get.bind fun s _ => ?_
  split
  · exact confined_pure trivial
  · refine confined_get.bind fun s' _ => ?_
    refine Confined.bind (confined_modify_same fun _ => rfl) fun _ _ => ?_
    exact confined_pure trivial

theorem confined_literalFor (su : Setup) (bytes : List UInt8) :
    Confined z (literalFor su bytes) := by
  refine ⟨fun s => ?_, fun _ _ _ _ => trivial⟩
  obtain ⟨-, more, index, hmore⟩ := literalEntry_spec su bytes s.module
  rw [literalFor_apply]
  show Within z s.module (literalEntry su bytes s.module).1
  rw [hmore]
  exact ⟨fun _ => rfl, fun _ _ => rfl⟩

theorem confined_operatorOpcode (su : Setup) (pos : Source.Position) (op : Token) :
    Confined z (operatorOpcode su pos op) := by
  rw [operatorOpcode]
  split
  · exact confined_fail ..
  · exact .ite ((confined_remark ..).bind fun _ _ => confined_pure trivial)
      (confined_pure trivial)

theorem confined_calleeEntry (tag : Tag) (callee : String) :
    Confined z (calleeEntry tag callee) := by
  refine confined_get.bind fun s _ => ?_
  dsimp only
  split
  · exact confined_pure trivial
  · exact confined_fail ..

theorem confined_serve (su : Setup) (pos : Source.Position) (pt : Point) (request : Request) :
    Confined pt.region (serve su pos pt request) := by
  refine confined_get.bind fun s _ => ?_
  split
  · exact confined_modify fun s => within_foldl pt _ s.module
  · exact confined_fail ..

theorem confined_emitCall (su : Setup) (pt : Point) (tag : Tag) (callee : String)
    (entry : Option BlockRef) (args : List Slot) (slot : Slot) :
    Confined pt.region (emitCall su pt tag callee entry args slot) := by
  have hresult : Confined pt.region (hasResult callee) :=
    confined_get.bind fun _ _ => confined_pure trivial
  have hcall : Confined pt.region (do
      emit pt .call [.block entry]
      if ← hasResult callee then serve su tag.pos pt (.resultIn slot) : Selection Unit) :=
    (confined_emit pt _ _).bind fun _ _ =>
      hresult.bind fun _ _ => .ite (confined_serve ..) (confined_pure trivial)
  exact .ite ((confined_serve ..).bind fun _ _ => hcall) hcall

theorem confined_selectArgs (su : Setup) (pt : Point) : ∀ ns : List Node,
    (∀ n ∈ ns, Confined pt.region (selectExpr su pt n)) →
      Confined pt.region (selectArgs su pt ns) := by
  intro ns
  induction ns with
  | nil =>
    intro _
    rw [selectArgs]
    exact confined_pure trivial
  | cons n ns ih =>
    intro h
    rw [List.forall_mem_cons] at h
    rw [selectArgs]
    exact h.1.bind fun _ _ => (ih h.2).bind fun _ _ => confined_pure trivial

/-- **Lowering an expression changes the place of its code only.** -/
theorem confined_selectExpr (su : Setup) (pt : Point) :
    ∀ n : Node, Confined pt.region (selectExpr su pt n) := by
  intro n
  induction n using Node.parts_induction with
  | _ n ih _ =>
  cases n with
  | absent =>
    rw [selectExpr]
    exact confined_fail ..
  | number tag value =>
    rw [selectExpr]
    have hend : ∀ slot, Confined pt.region (do
        emit pt .loadImm [.slot slot, .imm value]
        return slot : Selection Slot) :=
      fun _ => (confined_emit pt _ _).bind fun _ _ => confined_pure trivial
    refine (confined_claimSlot tag).bind fun slot _ => ?_
    exact .ite ((confined_remark ..).bind fun _ _ => hend slot) (hend slot)
  | boolean tag value =>
    rw [selectExpr]
    exact (confined_claimSlot tag).bind fun _ _ =>
      (confined_emit pt _ _).bind fun _ _ => confined_pure trivial
  | ident tag name =>
    rw [selectExpr]
    refine (confined_claimSlot tag).bind fun _ _ => ?_
    split
    · exact confined_fail ..
    · exact (confined_lookup ..).bind fun _ _ =>
        (confined_emit pt _ _).bind fun _ _ => confined_pure trivial
  | string tag bytes =>
    rw [selectExpr]
    exact (confined_claimSlot tag).bind fun _ _ => (confined_literalFor su bytes).bind fun _ _ =>
      (confined_emit pt _ _).bind fun _ _ => confined_pure trivial
  | binary tag op left right =>
    rw [selectExpr]
    refine (confined_claimSlot tag).bind fun _ _ => ?_
    refine (ih left (by simp [Node.parts])).bind fun _ _ => ?_
    refine (ih right (by simp [Node.parts])).bind fun _ _ => ?_
    exact (confined_operatorOpcode ..).bind fun _ _ =>
      (confined_emit pt _ _).bind fun _ _ => confined_pure trivial
  | call tag callee args =>
    rw [selectExpr]
    exact (confined_claimSlot tag).bind fun _ _ => (confined_calleeEntry tag callee).bind fun _ _ =>
      (confined_selectArgs su pt args ih).bind fun _ _ =>
        (confined_emitCall ..).bind fun _ _ => confined_pure trivial
  | bare | program | function | param | var | compound | ifThen | print | ret | scan | loop =>
    rw [selectExpr]
    exact (confined_claimSlot _).bind fun _ _ => confined_fail ..

/-- A variable is copied into where its initializer is lowered, if it is taken for what it is. -/
theorem confined_selectVar {su : Setup} (pt : Point) {name : String}
    (h : pt ≠ .globals → su.isGlobal name = false) (tag : Tag) (init : Node) :
    Confined pt.region (selectVar su pt tag name init) := by
  by_cases hinit : init = .absent
  · subst hinit
    rw [selectVar]
    exact confined_pure trivial
  · rw [selectVar_of_ne hinit]
    refine (confined_selectExpr su pt init).bind fun _ _ =>
      (confined_allocate tag).bind fun _ _ => ?_
    cases pt with
    | globals => exact .ite (confined_emit .globals _ _) (confined_fail ..)
    | block r =>
      rw [h (by simp)]
      exact confined_emit (.block r) _ _

end Confined

/-! ## Statements -/

section Statements

variable {su : Setup} {g : Nat} {r t : BlockRef}

theorem confined_scannedSlot (su : Setup) (z : Region) (tag : Tag) (target : Node) :
    Confined z (scannedSlot su tag target) := by
  rw [scannedSlot]
  split
  · exact confined_fail ..
  · refine .ite (confined_fail ..) ?_
    split
    · split
      · exact confined_fail ..
      · exact confined_lookupOrAdd _
    · exact confined_fail ..

theorem confined_selectExprStmt (su : Setup) (n : Node) (r : BlockRef) :
    Confined (.graph r.graph) (selectExprStmt su n r) := by
  rw [selectExprStmt]
  split
  · exact confined_throw _
  · have hend : Confined (.graph r.graph) (do
        let _ ← selectExpr su (.block r) n : Selection Unit) :=
      (confined_selectExpr su (.block r) n).bind fun _ _ => confined_pure trivial
    refine .ite (confined_fail ..) ?_
    exact .ite ((confined_remark ..).bind fun _ _ => hend) hend

theorem confined_openBlock (r : BlockRef) :
    Confined (.graph r.graph) (openBlock r) fun q => q.graph = r.graph := by
  constructor
  · intro s
    rw [openBlock_apply]
    show Within (.graph r.graph) s.module (openedModule s.module r)
    have hblock := within_addBlock s.module r.graph
    simp only [openedModule]
    split
    · exact hblock
    · exact hblock.trans (within_modifyBlock _ r _)
  · intro s q s' h
    rw [openBlock_apply] at h
    cases h
    rfl

theorem confined_openBody (tag : Tag) (r : BlockRef) :
    Confined (.graph r.graph) (openBody tag r) fun q => q.graph = r.graph :=
  .ite (confined_openBlock r) (confined_fail ..)

theorem confined_jump (r t : BlockRef) : Confined (.graph r.graph) (jump r t) := by
  refine confined_modify fun s => ?_
  have hemit : Within (.graph r.graph) s.module (s.module.emit r (jumpTo t)) :=
    within_modifyBlock _ r _
  dsimp only
  split
  · exact hemit
  · exact hemit.trans (within_modifyBlock _ r _)

theorem confined_emitBranch (r : BlockRef) (cond : Slot) (yes no : BlockRef) :
    Confined (.graph r.graph) (emitBranch r cond yes no) :=
  (confined_emit (.block r) _ _).bind fun _ _ =>
    (confined_jump r yes).bind fun _ _ => confined_jump r no

/-- Lowering the statement from a block changes its graph only, and comes to a block of it. -/
def Stays (su : Setup) (n : Node) : Prop :=
  ∀ r : BlockRef, Confined (.graph r.graph) (selectStmt su n r) fun q => q.graph = r.graph

theorem confined_selectStmts : ∀ ns : List Node, (∀ n ∈ ns, Stays su n) →
    ∀ (returned : Bool) (r : BlockRef),
      Confined (.graph r.graph) (selectStmts su returned ns r) fun q => q.graph = r.graph := by
  intro ns
  induction ns with
  | nil =>
    intro _ returned r
    rw [selectStmts]
    exact confined_pure rfl
  | cons n ns ih =>
    intro h returned r
    rw [List.forall_mem_cons] at h
    have hrest : ∀ again, Confined (.graph r.graph)
        (selectStmt su n r >>= fun q => selectStmts su again ns q) fun q => q.graph = r.graph := by
      intro again
      refine (h.1 r).bind fun q hq => ?_
      rw [← hq]
      exact ih h.2 again q
    have hremark : Confined (.graph r.graph) (remarkUnreachable su n) := by
      rw [remarkUnreachable]
      split
      · exact confined_throw _
      · exact confined_remark ..
    rw [selectStmts]
    exact .ite (hremark.bind fun _ _ => hrest _) (hrest _)

theorem forall_local : ∀ {ns : List Node}, LocalAll su ns → ∀ n ∈ ns, Local su n := by
  intro ns
  induction ns with
  | nil => exact fun _ n hn => nomatch hn
  | cons n ns ih =>
    intro h
    rw [LocalAll] at h
    exact List.forall_mem_cons.mpr ⟨h.1, ih h.2⟩

theorem confined_selectBody {body : Node} (hlocal : Local su body)
    (hparts : ∀ n ∈ body.parts, Local su n → Stays su n) (r : BlockRef) :
    Confined (.graph r.graph) (selectBody su body r)
      fun q => q.1.graph = r.graph ∧ q.2.graph = r.graph := by
  cases body with
  | compound tag stmts =>
    rw [Local] at hlocal
    rw [selectBody]
    refine (confined_openBody tag r).bind fun first hfirst => ?_
    have hstmts := confined_selectStmts stmts
      (fun n hn => hparts n hn (forall_local hlocal n hn)) false first
    rw [hfirst] at hstmts
    exact hstmts.bind fun last hlast => confined_pure ⟨hfirst, hlast⟩
  | absent =>
    rw [selectBody]
    · exact confined_throw _
    · simp
  | _ =>
    simp only [selectBody, Node.tag?]
    exact (confined_openBody _ r).bind fun _ _ => confined_fail ..

theorem stays_ifThen {tag : Tag} {cond body : Node} (hlocal : Local su body)
    (hparts : ∀ n ∈ body.parts, Local su n → Stays su n) :
    Stays su (.ifThen tag cond body) := by
  intro r
  rw [selectStmt]
  refine (confined_selectExpr su (.block r) cond).bind fun slot _ => ?_
  refine (confined_selectBody hlocal hparts r).bind fun ⟨first, last⟩ ⟨_, hlast⟩ => ?_
  have hopen := confined_openBlock last
  rw [hlast] at hopen
  refine hopen.bind fun exit hexit => ?_
  refine (confined_emitBranch r slot first exit).bind fun _ _ => ?_
  have hjump := confined_jump last exit
  rw [hlast] at hjump
  exact hjump.bind fun _ _ => confined_pure hexit

theorem stays_loop {tag : Tag} {cond body : Node} (hlocal : Local su body)
    (hparts : ∀ n ∈ body.parts, Local su n → Stays su n) :
    Stays su (.loop tag cond body) := by
  intro r
  rw [selectStmt]
  refine (confined_openBlock r).bind fun header hheader => ?_
  rw [← hheader]
  refine (confined_selectExpr su (.block header) cond).bind fun slot _ => ?_
  refine (confined_selectBody hlocal hparts header).bind fun ⟨first, last⟩ ⟨_, hlast⟩ => ?_
  have hjump := confined_jump last header
  rw [hlast] at hjump
  refine hjump.bind fun _ _ => ?_
  have hopen := confined_openBlock last
  rw [hlast] at hopen
  refine hopen.bind fun exit hexit => ?_
  exact (confined_emitBranch header slot first exit).bind fun _ _ => confined_pure hexit

/-- **Lowering a statement changes its graph only**, if its variables are taken for what they
are. -/
theorem stays_selectStmt : ∀ n : Node, Local su n → Stays su n := by
  intro n
  induction n using Node.parts_induction with
  | _ n ih ih₂ =>
  intro hlocal
  cases n with
  | compound tag stmts =>
    intro r
    rw [Local] at hlocal
    rw [selectStmt]
    refine (confined_openBody tag r).bind fun first hfirst => ?_
    rw [← hfirst]
    exact confined_selectStmts stmts (fun n hn => ih n hn (forall_local hlocal n hn)) false first
  | ifThen tag cond body =>
    rw [Local] at hlocal
    exact stays_ifThen hlocal (ih₂ body (by simp [Node.parts]))
  | loop tag cond body =>
    rw [Local] at hlocal
    exact stays_loop hlocal (ih₂ body (by simp [Node.parts]))
  | var tag name type init =>
    intro r
    rw [Local] at hlocal
    rw [selectStmt]
    have hvar : Confined (.graph r.graph) (selectVar su (.block r) tag name init) :=
      confined_selectVar (.block r) (fun _ => hlocal) tag init
    exact hvar.bind fun _ _ => confined_pure rfl
  | ret tag expr =>
    intro r
    rw [selectStmt]
    have hend : Confined (.graph r.graph) (do
        emit (.block r) .ret []
        return r : Selection BlockRef) fun q => q.graph = r.graph :=
      (confined_emit (.block r) _ _).bind fun _ _ => confined_pure rfl
    refine .ite ?_ hend
    exact (confined_selectExpr su (.block r) expr).bind fun _ _ =>
      (confined_serve su _ (.block r) _).bind fun _ _ => hend
  | print tag expr =>
    intro r
    rw [selectStmt]
    exact (confined_selectExpr su (.block r) expr).bind fun _ _ =>
      (confined_serve su _ (.block r) _).bind fun _ _ => confined_pure rfl
  | scan tag target =>
    intro r
    rw [selectStmt]
    exact (confined_scannedSlot su _ tag target).bind fun _ _ =>
      (confined_serve su _ (.block r) _).bind fun _ _ => confined_pure rfl
  | _ =>
    intro r
    simp only [selectStmt]
    exact (confined_selectExprStmt su _ r).bind fun _ _ => confined_pure rfl

end Statements

/-! ## Declarations -/

section Declarations

variable {su : Setup} {s : State}

theorem confined_selectParams {z : Region} (function : String) : ∀ params : List Node,
    Confined z (selectParams function params) := by
  intro params
  induction params with
  | nil =>
    rw [selectParams]
    exact confined_pure trivial
  | cons p params ih =>
    rw [selectParams]
    split
    · exact confined_throw _
    · refine .ite (confined_fail ..) ?_
      exact (confined_allocate _).bind fun _ _ => ih.bind fun _ _ => confined_pure trivial

theorem within_reservedModule (m : Module) :
    Within (.graph m.graphs.length) m (reservedModule m) := by
  have hadd : Within (.graph m.graphs.length) m (m.addGraph false).1 :=
    ⟨fun _ => rfl, fun g _ => graph_addGraph m g false⟩
  exact hadd.trans (within_addBlock _ _)

theorem reserveFunction_within {tag : Tag} {name : String} {result : ValueType} {g : Nat}
    {s' : State} (h : reserveFunction tag name result s = .ok g s') :
    g = s.module.graphs.length ∧ Within (.graph g) s.module s'.module := by
  rw [reserveFunction_apply] at h
  split at h
  · cases h
  · next m hadd =>
    cases h
    refine ⟨rfl, ?_⟩
    have hwithin := within_reservedModule s.module
    rw [Module.addFunction] at hadd
    split at hadd
    · cases hadd
    · cases hadd
      exact ⟨hwithin.globals, hwithin.graphs⟩

/-- A function is declared with the graph that it has, or with a new one. -/
theorem functionGraph_within {tag : Tag} {name : String} {result : ValueType} {g : Nat}
    {s' : State} (h : functionGraph tag name result s = .ok g s') :
    (⟨name, g⟩ ∈ s.module.functions ∨ g = s.module.graphs.length) ∧
      Within (.graph g) s.module s'.module := by
  rcases functionGraph_cases h with ⟨rfl, hmem, -⟩ | hres
  · exact ⟨.inl hmem, .refl _ _⟩
  · obtain ⟨hg, hwithin⟩ := reserveFunction_within hres
    exact ⟨.inr hg, hwithin⟩

theorem functionGraph_error {tag : Tag} {name : String} {result : ValueType} {e : Stop}
    {s' : State} (h : functionGraph tag name result s = .error e s') : s' = s := by
  have hreserve : ∀ {s'}, reserveFunction tag name result s = .error e s' → s' = s := by
    intro s' h
    rw [reserveFunction_apply] at h
    split at h <;> cases h
    rfl
  rw [functionGraph, get_bind_apply] at h
  cases hf : s.module.function? name with
  | none =>
    simp only [hf] at h
    exact hreserve h
  | some f =>
    cases hsig : s.signatures.find? (fun sig => sig.name == name) with
    | none =>
      simp only [hf, hsig] at h
      exact hreserve h
    | some sig =>
      simp only [hf, hsig] at h
      split at h
      · cases h
      · exact hreserve h

/-- **Lowering a function changes its own graph only.** -/
theorem selectFunction_within {tag : Tag} {name : String} {params : List Node}
    {result : ValueType} {body : Node} (hlocal : Local su body) (s : State) :
    ∃ g, (⟨name, g⟩ ∈ s.module.functions ∨ g = s.module.graphs.length) ∧
      Within (.graph g) s.module
        (stateOf (selectFunction su tag name params result body s)).module := by
  cases hgraph : functionGraph tag name result s with
  | error e s₁ =>
    rw [selectFunction, bind_of_error hgraph, functionGraph_error hgraph]
    exact ⟨_, .inr rfl, .refl _ _⟩
  | ok g s₁ =>
    obtain ⟨hown, hwithin⟩ := functionGraph_within hgraph
    rw [selectFunction, bind_of_ok hgraph]
    refine ⟨g, hown, hwithin.trans ?_⟩
    have hbody : Confined (.graph g) (if body.tag?.any fun t => t.kind == .compoundStmt then do
        let _ ← selectBody su body ⟨g, 0⟩
      else fail tag.pos (.noBody name) : Selection Unit) :=
      .ite ((confined_selectBody hlocal (fun n _ => stays_selectStmt n) ⟨g, 0⟩).bind
        fun _ _ => confined_pure trivial) (confined_fail ..)
    have hall := (Confined.ite (c := (!params.isEmpty) = true)
      ((confined_selectParams name params).bind fun slots _ =>
        (confined_serve su tag.pos (.block ⟨g, 0⟩) (.paramsIn slots)).bind fun _ _ => hbody) hbody)
    exact hall.within s₁

/-- Lowering a function leaves the global sequence and the blocks of all other functions as they
are. -/
theorem selectDecl_function {tag : Tag} {name : String} {params : List Node}
    {result : ValueType} {body : Node} (hlocal : Local su body) (hs : Owned s.module) :
    (stateOf (selectDecl su (.function tag name params result body) s)).module.globals =
        s.module.globals ∧
      ∀ f ∈ s.module.functions, f.name ≠ name →
        ((stateOf (selectDecl su (.function tag name params result body) s)).module.graph
            f.graph).blocks = (s.module.graph f.graph).blocks := by
  by_cases hk : tag.kind = .functionDecl
  · have hdecl : selectDecl su (.function tag name params result body) =
        selectFunction su tag name params result body := by
      simp only [selectDecl, Node.tag?, hk]
    rw [hdecl]
    obtain ⟨g, hown, hwithin⟩ := selectFunction_within hlocal s
    refine ⟨hwithin.globals (by simp), fun f hf hne => hwithin.graphs f.graph ?_⟩
    rintro ⟨⟩
    rcases hown with hmem | hnew
    · exact hne (congrArg Function.name (List.inj_on_of_nodup_map hs.nodup hf hmem rfl))
    · have hlt := hs.mem.mpr ⟨f, hf, rfl⟩
      omega
  · -- A node that claims to be something else is refused at once.
    have hsame : stateOf (selectDecl su (.function tag name params result body) s) = s := by
      cases hkind : tag.kind with
      | functionDecl => exact absurd hkind hk
      | _ =>
        simp only [selectDecl, Node.tag?, hkind]
        rfl
    rw [hsame]
    exact ⟨rfl, fun _ _ _ => rfl⟩

/-- Lowering a variable of the program scope leaves all blocks as they are. -/
theorem selectDecl_var {tag : Tag} {name : String} {type : ValueType} {init : Node} (g : Nat) :
    ((stateOf (selectDecl su (.var tag name type init) s)).module.graph g).blocks =
      (s.module.graph g).blocks := by
  have hconfined : Confined .globals (selectDecl su (.var tag name type init)) := by
    cases hkind : tag.kind with
    | varDecl =>
      simp only [selectDecl, Node.tag?, hkind]
      exact confined_selectVar .globals (fun h => absurd rfl h) tag init
    | _ =>
      simp only [selectDecl, Node.tag?, hkind]
      exact confined_fail ..
  exact (hconfined.within s).graphs g (by simp)

end Declarations

theorem sites_of_resolved {tag : Tag} {decls : List Node} {t : Scope.Table}
    {b₀ b : Scope.Bindings} (hres : Scope.resolveProgram (.program tag decls) b₀ = .ok t b) :
    ∃ env, ∀ s ∈ Scope.sitesAll env decls, s.Ok t := by
  have hres : Scope.resolveDecls decls b₀ = .ok t b := by
    cases hkind : tag.kind with
    | program => simpa [Scope.resolveProgram, Node.tag?, hkind] using hres
    | _ => simp [Scope.resolveProgram, Node.tag?, hkind] at hres
  rw [Scope.resolveDecls] at hres
  split at hres
  · cases hres
  · dsimp only at hres
    rw [bind_eq_ok] at hres
    obtain ⟨_, b₁, -, hres⟩ := hres
    rw [bind_eq_ok] at hres
    obtain ⟨env', b₂, hall, hres⟩ := hres
    cases hres
    rw [Scope.resolveAll_follows decls fun n _ => Scope.resolve_follows n] at hall
    exact ⟨_, hall.2.2⟩

/-- **In a resolved program no variable of a function is taken for one of the program scope.** -/
theorem local_of_resolved {su : Setup} {tag : Tag} {decls : List Node} {t : Scope.Table}
    {b₀ b : Scope.Bindings} (hres : Scope.resolveProgram (.program tag decls) b₀ = .ok t b)
    (hg : su.isGlobal = t.isGlobal) {ftag : Tag} {name : String} {params : List Node}
    {result : ValueType} {body : Node} (hd : .function ftag name params result body ∈ decls) :
    Local su body := by
  obtain ⟨env, hok⟩ := sites_of_resolved hres
  have hunmixed : ∀ s : Scope.Site, s.Ok t → Unmixed su s := by
    rintro ⟨n, env⟩ hs
    cases n with
    | var vtag name type init =>
      intro hnested
      rw [hg, ← Bool.not_eq_true]
      exact fun hglobal => hs.1 ⟨hglobal, hnested⟩
    | _ => trivial
  obtain ⟨before, after, rfl⟩ := List.append_of_mem hd
  rw [Scope.sitesAll_append, Scope.sitesAll, List.forall_mem_append, List.forall_mem_append] at hok
  generalize env.extend (Scope.declaredAll before) = env at hok
  have hsites := hok.2.1
  have hself : ⟨.function ftag name params result body, env⟩ ∈
      Scope.sites env (.function ftag name params result body) := by
    cases body <;> simp [Scope.sites]
  obtain ⟨-, -, hbody⟩ := hsites _ hself
  rcases hbody with rfl | ⟨ctag, stmts, rfl⟩
  · trivial
  · rw [Scope.sites, List.forall_mem_cons] at hsites
    rw [Local]
    exact localAll_of_unmixed stmts (fun n _ => local_of_unmixed n) _ rfl
      fun s hs => hunmixed s (hsites.2 s hs)

end Isel.Select
