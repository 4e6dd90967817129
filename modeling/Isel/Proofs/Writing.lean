import Mathlib.Logic.Relation
import Isel.Proofs.Laid

/-!
# Computations that only write

Most computations of a selection change the module in two ways only: they append an
instruction at some point, or enter a literal into the table (`Write`).  They open no block,
record no edge, declare no function and jump nowhere, unless a hook does.

Such a computation is `Writing`; above all the lowering of expressions (`writing_selectExpr`)
and of statements without a body (`writing_selectStmt`).
-/

namespace Isel.Select

open Isel.Flow Isel.Syntax Isel.Proofs

/-- The opcodes of instructions that are put in without a hook, jumps apart. -/
def writtenOpcodes : List Machine.Opcode := [.tst, .ret] ++ exprOpcodes

/-- One change of a module that only writes. -/
inductive Write (su : Setup) (m : Module) : Module → Prop
  | own {i : Instr} (pt : Point) : i.op ∈ writtenOpcodes → Write su m (pt.emit m i)
  | hook {request : Request} {out : List Instr} {i : Instr} (pt : Point) :
      Answered su request out → i ∈ out → Write su m (pt.emit m i)
  | literal (bytes : List UInt8) : Write su m (literalEntry su bytes m).1

abbrev Writes (su : Setup) : Module → Module → Prop := Relation.ReflTransGen (Write su)

/-- The computation only writes. -/
structure Writing {α : Type} (su : Setup) (x : Selection α) : Prop where
  writes : ∀ s a s', x s = .ok a s' → Writes su s.module s'.module

section Writing

variable {α β : Type} {su : Setup}

theorem writing_pure (a : α) : Writing su (pure a : Selection α) := by
  refine ⟨fun s b s' h => ?_⟩
  cases h
  exact .refl

theorem writing_throw (e : Stop) : Writing su (throw e : Selection α) :=
  ⟨fun _ _ _ h => by cases h⟩

theorem writing_fail (pos : Source.Position) (cause : Cause) :
    Writing su (fail pos cause : Selection α) := writing_throw _

theorem Writing.bind_of_run {x : Selection α} {f : α → Selection β} (hx : Writing su x)
    (hf : ∀ s a s', x s = .ok a s' → Writing su (f a)) : Writing su (x >>= f) := by
  refine ⟨fun s b s' h => ?_⟩
  rw [bind_eq_ok] at h
  obtain ⟨a, s₁, hrun, h⟩ := h
  exact (hx.writes s a s₁ hrun).trans ((hf s a s₁ hrun).writes s₁ b s' h)

theorem Writing.bind {x : Selection α} {f : α → Selection β} (hx : Writing su x)
    (hf : ∀ a, Writing su (f a)) : Writing su (x >>= f) := hx.bind_of_run fun _ a _ _ => hf a

theorem Writing.ite {c : Prop} [Decidable c] {x y : Selection α} (hx : Writing su x)
    (hy : Writing su y) : Writing su (if c then x else y) := by
  split
  · exact hx
  · exact hy

theorem writing_get : Writing su (get : Selection State) := by
  refine ⟨fun s a s' h => ?_⟩
  cases h
  exact .refl

theorem writing_modify {f : State → State} (h : ∀ s, Writes su s.module (f s).module) :
    Writing su (modify f) := by
  refine ⟨fun s a s' hrun => ?_⟩
  cases hrun
  exact h s

theorem writing_emit (pt : Point) {op : Machine.Opcode} (args : List Operand)
    (h : op ∈ writtenOpcodes) : Writing su (emit pt op args) :=
  writing_modify fun _ => .single (.own pt h)

theorem writing_remark (w : Settings.Warning) (pos : Source.Position) (message : String) :
    Writing su (remark su w pos message) :=
  .ite (writing_modify fun _ => .refl) (writing_pure _)

theorem writing_failSlot (pos : Source.Position) (stop : SlotStop) :
    Writing su (failSlot pos stop : Selection α) := by
  cases stop with
  | fault f => exact writing_fail ..
  | malformed => exact writing_throw _

theorem writing_allocate (tag : Tag) : Writing su (allocate tag) := by
  refine writing_get.bind fun s => ?_
  split
  · exact Writing.bind (writing_modify fun _ => .refl) fun _ => writing_pure _
  · exact writing_failSlot ..

theorem writing_claimSlot (tag : Tag) : Writing su (claimSlot tag) :=
  .ite (writing_allocate tag) (writing_fail ..)

theorem writing_lookup (pos : Source.Position) (decl : Decl) :
    Writing su (lookup pos decl) := by
  refine writing_get.bind fun s => ?_
  split
  · exact writing_pure _
  · exact writing_failSlot ..

theorem writing_lookupOrAdd (decl : Decl) : Writing su (lookupOrAdd decl) := by
  refine writing_get.bind fun s => ?_
  split
  · exact writing_pure _
  · exact writing_get.bind fun _ =>
      Writing.bind (writing_modify fun _ => .refl) fun _ => writing_pure _

theorem writing_literalFor (bytes : List UInt8) : Writing su (literalFor su bytes) := by
  refine ⟨fun s k s' h => ?_⟩
  rw [literalFor_apply] at h
  cases h
  exact .single (.literal bytes)

theorem writing_operatorOpcode (pos : Source.Position) (op : Token) :
    Writing su (operatorOpcode su pos op) := by
  rw [operatorOpcode]
  split
  · exact writing_fail ..
  · exact .ite ((writing_remark ..).bind fun _ => writing_pure _) (writing_pure _)

theorem writing_calleeEntry (tag : Tag) (callee : String) :
    Writing su (calleeEntry tag callee) := by
  refine writing_get.bind fun s => ?_
  dsimp only
  split
  · exact writing_pure _
  · exact writing_fail ..

theorem writes_foldl {request : Request} {out : List Instr} (pt : Point)
    (ho : Answered su request out) : ∀ (is : List Instr) (m : Module), (∀ i ∈ is, i ∈ out) →
      Writes su m (is.foldl (fun m i => pt.emit m i) m) := by
  intro is
  induction is with
  | nil => exact fun _ _ => .refl
  | cons i is ih =>
    intro m h
    rw [List.forall_mem_cons] at h
    exact (Relation.ReflTransGen.single (.hook pt ho h.1)).trans (ih (pt.emit m i) h.2)

theorem writing_serve (pos : Source.Position) (pt : Point) (request : Request) :
    Writing su (serve su pos pt request) := by
  refine writing_get.bind fun s => ?_
  split
  · next out ho =>
    exact writing_modify fun s => writes_foldl pt ⟨_, ho⟩ out s.module fun _ hi => hi
  · exact writing_fail ..

theorem writing_emitCall (pt : Point) (tag : Tag) (callee : String) (entry : Option BlockRef)
    (args : List Slot) (slot : Slot) :
    Writing su (emitCall su pt tag callee entry args slot) := by
  have hresult : Writing su (hasResult callee) := writing_get.bind fun _ => writing_pure _
  have hcall : Writing su (do
      emit pt .call [.block entry]
      if ← hasResult callee then serve su tag.pos pt (.resultIn slot) : Selection Unit) :=
    (writing_emit pt _ (by decide)).bind fun _ =>
      hresult.bind fun _ => .ite (writing_serve ..) (writing_pure _)
  exact .ite ((writing_serve ..).bind fun _ => hcall) hcall

theorem writing_selectArgs (pt : Point) : ∀ ns : List Node,
    (∀ n ∈ ns, Writing su (selectExpr su pt n)) → Writing su (selectArgs su pt ns) := by
  intro ns
  induction ns with
  | nil =>
    intro _
    rw [selectArgs]
    exact writing_pure _
  | cons n ns ih =>
    intro h
    rw [selectArgs]
    exact (h n (by simp)).bind fun _ =>
      (ih fun m hm => h m (by simp [hm])).bind fun _ => writing_pure _

/-- **Lowering an expression only writes.** -/
theorem writing_selectExpr (pt : Point) : ∀ n : Node, Writing su (selectExpr su pt n) := by
  intro n
  induction n using Node.parts_induction with
  | _ n ih _ =>
  cases n with
  | absent =>
    rw [selectExpr]
    exact writing_fail ..
  | number tag value =>
    rw [selectExpr]
    have hend : ∀ slot, Writing su (do
        emit pt .loadImm [.slot slot, .imm value]
        return slot : Selection Slot) :=
      fun _ => (writing_emit pt _ (by decide)).bind fun _ => writing_pure _
    refine (writing_claimSlot tag).bind fun slot => ?_
    exact .ite ((writing_remark ..).bind fun _ => hend slot) (hend slot)
  | boolean tag value =>
    rw [selectExpr]
    exact (writing_claimSlot tag).bind fun _ =>
      (writing_emit pt _ (by decide)).bind fun _ => writing_pure _
  | ident tag name =>
    rw [selectExpr]
    refine (writing_claimSlot tag).bind fun _ => ?_
    split
    · exact writing_fail ..
    · exact (writing_lookup ..).bind fun _ =>
        (writing_emit pt _ (by decide)).bind fun _ => writing_pure _
  | string tag bytes =>
    rw [selectExpr]
    exact (writing_claimSlot tag).bind fun _ => (writing_literalFor bytes).bind fun _ =>
      (writing_emit pt _ (by decide)).bind fun _ => writing_pure _
  | binary tag op left right =>
    rw [selectExpr]
    refine (writing_claimSlot tag).bind fun _ =>
      (ih left (by simp [Node.parts])).bind fun _ =>
        (ih right (by simp [Node.parts])).bind fun _ => ?_
    refine (writing_operatorOpcode ..).bind_of_run fun s opcode s' hrun => ?_
    have hmem := mem_binaryOpcodes (operatorOpcode_eq_ok hrun pt).1
    have hwritten : opcode ∈ writtenOpcodes := by simp [writtenOpcodes, exprOpcodes, hmem]
    exact (writing_emit pt _ hwritten).bind fun _ => writing_pure _
  | call tag callee args =>
    rw [selectExpr]
    exact (writing_claimSlot tag).bind fun _ => (writing_calleeEntry tag callee).bind fun _ =>
      (writing_selectArgs pt args ih).bind fun _ =>
        (writing_emitCall ..).bind fun _ => writing_pure _
  | bare | program | function | param | var | compound | ifThen | print | ret | scan | loop =>
    rw [selectExpr]
    exact (writing_claimSlot _).bind fun _ => writing_fail ..

theorem writing_selectVar (pt : Point) (tag : Tag) (name : String) (init : Node) :
    Writing su (selectVar su pt tag name init) := by
  by_cases hinit : init = .absent
  · subst hinit
    rw [selectVar]
    exact writing_pure _
  · rw [selectVar_of_ne hinit]
    refine (writing_selectExpr pt init).bind fun _ => (writing_allocate tag).bind fun _ => ?_
    refine .ite (writing_emit _ _ (by decide)) ?_
    cases pt with
    | globals => exact writing_fail ..
    | block r => exact writing_emit _ _ (by decide)

theorem writing_scannedSlot (tag : Tag) (target : Node) :
    Writing su (scannedSlot su tag target) := by
  rw [scannedSlot]
  split
  · exact writing_fail ..
  · refine .ite (writing_fail ..) ?_
    split
    · split
      · exact writing_fail ..
      · exact writing_lookupOrAdd _
    · exact writing_fail ..

theorem writing_selectExprStmt (n : Node) (r : BlockRef) :
    Writing su (selectExprStmt su n r) := by
  rw [selectExprStmt]
  split
  · exact writing_throw _
  · have hexpr : Writing su (selectExpr su (.block r) n) := writing_selectExpr (.block r) n
    have hend := hexpr.bind fun _ => writing_pure ()
    refine .ite (writing_fail ..) ?_
    exact .ite ((writing_remark ..).bind fun _ => hend) hend

theorem writing_selectParams (function : String) : ∀ params : List Node,
    Writing su (selectParams function params) := by
  intro params
  induction params with
  | nil =>
    rw [selectParams]
    exact writing_pure _
  | cons p params ih =>
    rw [selectParams]
    split
    · exact writing_throw _
    · refine .ite (writing_fail ..) ?_
      exact (writing_allocate _).bind fun slot => ih.bind fun rest => writing_pure _

theorem writing_selectStmt {n : Node} (hn : hasBody n = false) (r : BlockRef) :
    Writing su (selectStmt su n r) := by
  have hexpr : Writing su (do
      selectExprStmt su n r
      return r : Selection BlockRef) :=
    (writing_selectExprStmt n r).bind fun _ => writing_pure _
  cases n with
  | compound | ifThen | loop => cases hn
  | var tag name type init =>
    rw [selectStmt]
    exact (writing_selectVar ..).bind fun _ => writing_pure _
  | ret tag expr =>
    rw [selectStmt]
    have hend : Writing su (do
        emit (.block r) .ret []
        return r : Selection BlockRef) :=
      (writing_emit _ _ (by decide)).bind fun _ => writing_pure _
    refine .ite ?_ hend
    exact (writing_selectExpr ..).bind fun _ => (writing_serve ..).bind fun _ => hend
  | print tag expr =>
    rw [selectStmt]
    exact (writing_selectExpr ..).bind fun _ => (writing_serve ..).bind fun _ => writing_pure _
  | scan tag target =>
    rw [selectStmt]
    exact (writing_scannedSlot tag target).bind fun _ => (writing_serve ..).bind fun _ =>
      writing_pure _
  | _ =>
    simp only [selectStmt]
    exact hexpr

end Writing

end Isel.Select
