import Mathlib.Data.List.Find
import Mathlib.Logic.Equiv.Basic
import Isel.Proofs.Agreement
import Isel.Proofs.ProgramInStep
import Isel.Proofs.Renaming

/-!
# Selection behind a renaming

A selection meets names in three places: a variable is taken for one of the program scope by its
name, a callee is looked up among the functions by its name, and an identifier leads to its
declaration by its label.  None of them tells the renamed program from the program, as long as the
functions keep their names (`Fixed`).  So the two selections end alike (`Matched`): where one ends
well the other does, in the same state.

`select_rename` puts this together with resolution.
-/

namespace Isel.Select

open Isel.Flow Isel.Syntax Isel.Scope Isel.Proofs

/-- The setup with what resolution gave. -/
def Setup.under (su : Setup) (t : Table) (b : Bindings) : Setup :=
  { su with isGlobal := t.isGlobal, bindings := b }

/-- The functions that are declared keep their names. -/
structure Fixed (r : String → String) (s : State) : Prop where
  functions : ∀ f ∈ s.module.functions, r f.name = f.name
  signatures : ∀ sig ∈ s.signatures, r sig.name = sig.name

theorem parallel_fixed (r : String → String) (su : Setup) :
    Parallel su su (Retains (Fixed r)) (fun _ => True) fun _ => True :=
  parallel_retains su fun _ _ h hfunctions hsignatures =>
    ⟨hfunctions ▸ h.functions, hsignatures ▸ h.signatures⟩

/-- The computations end alike: where one ends well the other does, with the same result and in the
same state. -/
structure Matched {α : Type} (r : String → String) (x y : Selection α) : Prop where
  forth : InStep (Retains (Fixed r)) x y
  back : InStep (Retains (Fixed r)) y x

section Matched

variable {α β : Type} {r : String → String}

theorem matched_self {P : α → Prop} {x : Selection α} (h : InStep (Retains (Fixed r)) x x P) :
    Matched r x x := by
  have hx : InStep (Retains (Fixed r)) x x := by
    constructor
    intro s t a s' hR hrun
    obtain ⟨t', ht', hR', -⟩ := h.run s t a s' hR hrun
    exact ⟨t', ht', hR', trivial⟩
  exact ⟨hx, hx⟩

theorem Matched.bind {x y : Selection α} {f g : α → Selection β} (hx : Matched r x y)
    (hf : ∀ a, Matched r (f a) (g a)) : Matched r (x >>= f) (y >>= g) :=
  ⟨hx.forth.bind fun a _ => (hf a).forth, hx.back.bind fun a _ => (hf a).back⟩

theorem Matched.ite {c : Prop} [Decidable c] {x y x' y' : Selection α} (h : Matched r x y)
    (h' : Matched r x' y') : Matched r (if c then x else x') (if c then y else y') :=
  ⟨.ite h.forth h'.forth, .ite h.back h'.back⟩

theorem matched_pure (a : α) : Matched r (pure a) (pure a) :=
  ⟨inStep_pure trivial, inStep_pure trivial⟩

theorem matched_throw (e e' : Stop) : Matched r (throw e : Selection α) (throw e') :=
  ⟨inStep_throw .., inStep_throw ..⟩

theorem matched_fail (pos pos' : Source.Position) (cause cause' : Cause) :
    Matched r (fail pos cause : Selection α) (fail pos' cause') := matched_throw ..

theorem matched_of_never {x y : Selection α} (hx : ∀ s a s', x s ≠ .ok a s')
    (hy : ∀ s a s', y s ≠ .ok a s') : Matched r x y :=
  ⟨⟨fun s _ a s' _ h => absurd h (hx s a s')⟩, ⟨fun s _ a s' _ h => absurd h (hy s a s')⟩⟩

theorem matched_of_iff {P : α → Prop} {x y : Selection α}
    (hx : InStep (Retains (Fixed r)) x x P)
    (h : ∀ s a s', Fixed r s → (y s = .ok a s' ↔ x s = .ok a s')) : Matched r x y := by
  constructor
  · constructor
    rintro s _ a s' ⟨rfl, hs⟩ hrun
    obtain ⟨t', hrun', hR, -⟩ := hx.run _ _ a s' ⟨rfl, hs⟩ hrun
    exact ⟨t', (h _ a t' hs).mpr hrun', hR, trivial⟩
  · constructor
    rintro s _ a s' ⟨rfl, hs⟩ hrun
    obtain ⟨t', hrun', hR, -⟩ := hx.run _ _ a s' ⟨rfl, hs⟩ ((h _ a s' hs).mp hrun)
    exact ⟨t', hrun', hR, trivial⟩

end Matched

/-! ## Expressions -/

section Lowering

variable {r : String → String} {su : Setup} {t : Table} {b : Bindings} {pt : Point}

theorem matched_emit (op : Machine.Opcode) (args : List Operand) :
    Matched r (emit pt op args) (emit pt op args) :=
  matched_self (P := fun _ => True) (inStep_retains fun s _ _ h hrun => by
    cases hrun
    have hfunctions := (pt.emit_rest s.module ⟨op, args⟩).2.1
    exact ⟨⟨by rw [hfunctions]; exact h.functions, h.signatures⟩, trivial⟩)

theorem matched_lookup (pos : Source.Position) (decl : Decl) :
    Matched r (lookup pos decl) (lookup pos (decl.rename r)) := by
  refine matched_of_iff ((parallel_fixed r {}).lookup pos decl) fun s slot s' _ => ?_
  rw [lookup_eq_ok, lookup_eq_ok]
  rfl

theorem matched_lookupOrAdd (decl : Decl) :
    Matched r (lookupOrAdd decl) (lookupOrAdd (decl.rename r)) :=
  matched_self ((parallel_fixed r {}).lookupOrAdd decl)

theorem matched_serve (pos : Source.Position) (request : Request) :
    Matched r (serve su pos pt request) (serve su pos pt request) := by
  have hpt : pt.In fun _ => True := by cases pt <;> trivial
  exact matched_self ((parallel_fixed r su).serve hpt pos request)

section Callee

variable (hr : Function.Injective r)

include hr

/-- A function that keeps its name is found where the renamed name is looked for. -/
theorem beq_rename {name callee : String} (h : r name = name) :
    (name == r callee) = (name == callee) := by
  rw [Bool.eq_iff_iff, beq_iff_eq, beq_iff_eq]
  constructor
  · intro he
    exact hr (h.trans he)
  · rintro rfl
    exact h.symm

theorem Fixed.function? {s : State} (h : Fixed r s) (callee : String) :
    s.module.function? (r callee) = s.module.function? callee := by
  rw [Module.function?, Module.function?]
  exact List.find?_congr fun f hf => beq_rename hr (h.functions f hf)

theorem matched_calleeEntry (tag : Tag) (callee : String) :
    Matched r (calleeEntry tag callee) (calleeEntry tag (r callee)) := by
  refine matched_of_iff ((parallel_fixed r {}).entry tag callee) fun s entry s' h => ?_
  rw [calleeEntry_eq_ok, calleeEntry_eq_ok, h.function? hr]

theorem matched_hasResult (callee : String) :
    Matched r (hasResult callee) (hasResult (r callee)) := by
  refine matched_of_iff ((parallel_fixed r {}).result callee trivial) fun s a s' h => ?_
  have hany : (s.signatures.any fun sig => sig.name == r callee && sig.result != .void) =
      s.signatures.any fun sig => sig.name == callee && sig.result != .void := by
    rw [Bool.eq_iff_iff, List.any_eq_true, List.any_eq_true]
    refine exists_congr fun sig => and_congr_right fun hsig => ?_
    rw [beq_rename hr (h.signatures sig hsig)]
  rw [hasResult_apply, hasResult_apply, hany]

theorem matched_emitCall (tag : Tag) (callee : String) (entry : Option BlockRef)
    (args : List Slot) (slot : Slot) :
    Matched r (emitCall su pt tag callee entry args slot)
      (emitCall su pt tag (r callee) entry args slot) := by
  have hcall : Matched r
      (do
        emit pt .call [.block entry]
        if ← hasResult callee then serve su tag.pos pt (.resultIn slot))
      (do
        emit pt .call [.block entry]
        if ← hasResult (r callee) then serve su tag.pos pt (.resultIn slot)) :=
    (matched_emit ..).bind fun _ => (matched_hasResult hr callee).bind fun _ =>
      .ite (matched_serve ..) (matched_pure _)
  exact .ite ((matched_serve ..).bind fun _ => hcall) hcall

end Callee

/-- The expression is lowered alike under its new names. -/
def ExprMatched (r : String → String) (su : Setup) (t : Table) (b : Bindings) (n : Node) : Prop :=
  ∀ pt, Matched r (selectExpr (su.under t b) pt n)
    (selectExpr (su.under (t.rename r) (b.rename r)) pt (n.rename r))

theorem matched_selectArgs : ∀ ns : List Node, (∀ n ∈ ns, ExprMatched r su t b n) →
    Matched r (selectArgs (su.under t b) pt ns)
      (selectArgs (su.under (t.rename r) (b.rename r)) pt (Node.renameAll r ns)) := by
  intro ns
  induction ns with
  | nil =>
    intro _
    rw [Node.renameAll, selectArgs, selectArgs]
    exact matched_pure _
  | cons n ns ih =>
    intro h
    rw [List.forall_mem_cons] at h
    rw [Node.renameAll, selectArgs, selectArgs]
    exact (h.1 pt).bind fun _ => (ih h.2).bind fun _ => matched_pure _

/-- **Renamed expressions are lowered alike.** -/
theorem matched_selectExpr (hr : Function.Injective r) : ∀ n : Node, ExprMatched r su t b n := by
  intro n
  induction n using Node.parts_induction with
  | _ n ih _ =>
  intro pt
  have hsteps := parallel_fixed r (su.under t b)
  have hpt : pt.In fun _ => True := by cases pt <;> trivial
  have hclaim : ∀ tag, Matched r (claimSlot tag) (claimSlot tag) :=
    fun tag => matched_self (hsteps.claimSlot tag)
  cases n with
  | absent =>
    rw [Node.rename, selectExpr, selectExpr]
    exact matched_fail ..
  | number tag value =>
    -- No name stands here, and what the setups differ in is not looked at.
    have hself := matched_self (hsteps.selectExpr hpt (.number tag value))
    rw [selectExpr] at hself
    rw [Node.rename, selectExpr, selectExpr]
    exact hself
  | boolean tag value =>
    rw [Node.rename, selectExpr, selectExpr]
    exact (hclaim tag).bind fun _ => (matched_emit ..).bind fun _ => matched_pure _
  | string tag bytes =>
    rw [Node.rename, selectExpr, selectExpr]
    exact (hclaim tag).bind fun slot => matched_self (hsteps.literal pt hpt slot bytes)
  | ident tag name =>
    rw [Node.rename, selectExpr, selectExpr]
    have hbound : (su.under (t.rename r) (b.rename r)).bindings.find? tag.label =
        ((su.under t b).bindings.find? tag.label).map (Decl.rename r) := Bindings.find?_rename ..
    rw [hbound]
    refine (hclaim tag).bind fun slot => ?_
    cases (su.under t b).bindings.find? tag.label with
    | none => exact matched_fail ..
    | some decl =>
      exact (matched_lookup ..).bind fun _ => (matched_emit ..).bind fun _ => matched_pure _
  | binary tag op left right =>
    rw [Node.rename, selectExpr, selectExpr]
    refine (hclaim tag).bind fun _ => ?_
    refine (ih left (by simp [Node.parts]) pt).bind fun _ => ?_
    refine (ih right (by simp [Node.parts]) pt).bind fun _ => ?_
    exact (matched_self (hsteps.operatorOpcode ..)).bind fun _ =>
      (matched_emit ..).bind fun _ => matched_pure _
  | call tag callee args =>
    rw [Node.rename, selectExpr, selectExpr]
    refine (hclaim tag).bind fun _ => (matched_calleeEntry hr tag callee).bind fun _ => ?_
    exact (matched_selectArgs args ih).bind fun _ =>
      (matched_emitCall hr tag callee ..).bind fun _ => matched_pure _
  | _ =>
    rw [Node.rename, selectExpr, selectExpr]
    exact (hclaim _).bind fun _ => matched_fail ..

/-! ## Statements -/

theorem matched_selectVar (hr : Function.Injective r) (tag : Tag) (name : String) (init : Node) :
    Matched r (selectVar (su.under t b) pt tag name init)
      (selectVar (su.under (t.rename r) (b.rename r)) pt tag (r name) (init.rename r)) := by
  by_cases hinit : init = .absent
  · subst hinit
    rw [Node.rename, selectVar, selectVar]
    exact matched_pure _
  · have hinit' : init.rename r ≠ .absent := by
      cases init with
      | absent => exact absurd rfl hinit
      | _ => simp [Node.rename]
    have hglobal : (su.under (t.rename r) (b.rename r)).isGlobal (r name) =
        (su.under t b).isGlobal name := Table.isGlobal_rename hr t name
    rw [selectVar_of_ne hinit, selectVar_of_ne hinit', hglobal]
    refine (matched_selectExpr hr init pt).bind fun _ => ?_
    refine (matched_self ((parallel_fixed r su).allocate tag)).bind fun _ => ?_
    refine .ite (matched_emit ..) ?_
    split
    · exact matched_fail ..
    · exact matched_emit ..

theorem matched_scannedSlot (tag : Tag) (target : Node) :
    Matched r (scannedSlot (su.under t b) tag target)
      (scannedSlot (su.under (t.rename r) (b.rename r)) tag (target.rename r)) := by
  have hbound : ∀ l, (su.under (t.rename r) (b.rename r)).bindings.find? l =
      ((su.under t b).bindings.find? l).map (Decl.rename r) := Bindings.find?_rename b
  rw [scannedSlot, scannedSlot, Node.tag?_rename]
  cases target.tag? with
  | none => exact matched_fail ..
  | some ttag =>
    refine .ite (matched_fail ..) ?_
    cases target with
    | ident itag name =>
      simp only [Node.rename, hbound]
      cases (su.under t b).bindings.find? ttag.label with
      | none => exact matched_fail ..
      | some decl => exact matched_lookupOrAdd decl
    | _ =>
      simp only [Node.rename]
      exact matched_fail ..

variable {q : BlockRef}

theorem matched_selectExprStmt (hr : Function.Injective r) (n : Node) :
    Matched r (selectExprStmt (su.under t b) n q)
      (selectExprStmt (su.under (t.rename r) (b.rename r)) (n.rename r) q) := by
  have hend : Matched r
      (do let _ ← selectExpr (su.under t b) (.block q) n)
      (do let _ ← selectExpr (su.under (t.rename r) (b.rename r)) (.block q) (n.rename r)) :=
    (matched_selectExpr hr n (.block q)).bind fun _ => matched_pure _
  rw [selectExprStmt, selectExprStmt, Node.tag?_rename]
  cases n.tag? with
  | none => exact matched_throw ..
  | some tag =>
    refine .ite (matched_fail ..) ?_
    have hpar := parallel_fixed r (su.under t b)
    exact .ite ((matched_self (hpar.remark ..)).bind fun _ => hend) hend

def StmtMatched (r : String → String) (su : Setup) (t : Table) (b : Bindings) (n : Node) : Prop :=
  ∀ q, Matched r (selectStmt (su.under t b) n q)
    (selectStmt (su.under (t.rename r) (b.rename r)) (n.rename r) q)

theorem matched_selectStmts : ∀ ns : List Node, (∀ n ∈ ns, StmtMatched r su t b n) →
    ∀ (returned : Bool) (q : BlockRef), Matched r (selectStmts (su.under t b) returned ns q)
      (selectStmts (su.under (t.rename r) (b.rename r)) returned (Node.renameAll r ns) q) := by
  intro ns
  induction ns with
  | nil =>
    intro _ returned q
    rw [Node.renameAll, selectStmts, selectStmts]
    exact matched_pure _
  | cons n ns ih =>
    intro hns returned q
    rw [List.forall_mem_cons] at hns
    have hrest : ∀ again, Matched r
        (selectStmt (su.under t b) n q >>= fun q => selectStmts (su.under t b) again ns q)
        (selectStmt (su.under (t.rename r) (b.rename r)) (n.rename r) q >>= fun q =>
          selectStmts (su.under (t.rename r) (b.rename r)) again (Node.renameAll r ns) q) :=
      fun again => (hns.1 q).bind fun q => ih hns.2 again q
    have hremark : Matched r (remarkUnreachable (su.under t b) n)
        (remarkUnreachable (su.under (t.rename r) (b.rename r)) (n.rename r)) := by
      rw [remarkUnreachable, remarkUnreachable, Node.tag?_rename]
      split
      · exact matched_throw ..
      · exact matched_self ((parallel_fixed r (su.under t b)).remark ..)
    rw [Node.renameAll, selectStmts, selectStmts, Node.tag?_rename]
    exact .ite (hremark.bind fun _ => hrest _) (hrest _)

theorem matched_openBody (tag : Tag) : Matched r (openBody tag q) (openBody tag q) :=
  matched_self ((parallel_fixed r {}).openBody trivial tag)

theorem matched_selectBody {body : Node} (hparts : ∀ n ∈ body.parts, StmtMatched r su t b n) :
    Matched r (selectBody (su.under t b) body q)
      (selectBody (su.under (t.rename r) (b.rename r)) (body.rename r) q) := by
  cases body with
  | compound tag stmts =>
    rw [Node.rename, selectBody, selectBody]
    exact (matched_openBody tag).bind fun first =>
      (matched_selectStmts stmts hparts false first).bind fun _ => matched_pure _
  | absent =>
    rw [Node.rename, selectBody, selectBody]
    · exact matched_throw ..
    · simp
    · simp
  | _ =>
    simp only [Node.rename, selectBody, Node.tag?]
    exact (matched_openBody _).bind fun _ => matched_fail ..

/-- **Renamed statements are lowered alike.** -/
theorem matched_selectStmt (hr : Function.Injective r) : ∀ n : Node, StmtMatched r su t b n := by
  intro n
  induction n using Node.parts_induction with
  | _ n ih ih₂ =>
  intro q
  have hsteps := parallel_fixed r (su.under t b)
  have hopen : ∀ q, Matched r (openBlock q) (openBlock q) :=
    fun q => matched_self (hsteps.opened q trivial)
  have hjump : ∀ q q', Matched r (jump q q') (jump q q') :=
    fun q q' => matched_self (hsteps.jumped q q' trivial)
  have hbranch : ∀ q slot yes no, Matched r (emitBranch q slot yes no) (emitBranch q slot yes no) :=
    fun q slot yes no => matched_self (hsteps.emitBranch trivial slot yes no)
  cases n with
  | compound tag stmts =>
    rw [Node.rename, selectStmt, selectStmt]
    exact (matched_openBody tag).bind fun first => matched_selectStmts stmts ih false first
  | ifThen tag cond body =>
    rw [Node.rename, selectStmt, selectStmt]
    refine (matched_selectExpr hr cond (.block q)).bind fun slot => ?_
    refine (matched_selectBody (ih₂ body (by simp [Node.parts]))).bind fun ends => ?_
    obtain ⟨first, last⟩ := ends
    refine (hopen last).bind fun exit => (hbranch q slot first exit).bind fun _ => ?_
    exact (hjump last exit).bind fun _ => matched_pure _
  | loop tag cond body =>
    rw [Node.rename, selectStmt, selectStmt]
    refine (hopen q).bind fun header => ?_
    refine (matched_selectExpr hr cond (.block header)).bind fun slot => ?_
    refine (matched_selectBody (ih₂ body (by simp [Node.parts]))).bind fun ends => ?_
    obtain ⟨first, last⟩ := ends
    refine (hjump last header).bind fun _ => (hopen last).bind fun exit => ?_
    exact (hbranch header slot first exit).bind fun _ => matched_pure _
  | var tag name type init =>
    rw [Node.rename, selectStmt, selectStmt]
    exact (matched_selectVar hr tag name init).bind fun _ => matched_pure _
  | ret tag expr =>
    rw [Node.rename, selectStmt, selectStmt, Node.isAbsent_rename]
    have hend : Matched r
        (do
          emit (.block q) .ret []
          return q)
        (do
          emit (.block q) .ret []
          return q) := (matched_emit ..).bind fun _ => matched_pure _
    refine .ite ?_ hend
    exact (matched_selectExpr hr expr (.block q)).bind fun _ =>
      (matched_serve ..).bind fun _ => hend
  | print tag expr =>
    rw [Node.rename, selectStmt, selectStmt]
    exact (matched_selectExpr hr expr (.block q)).bind fun _ =>
      (matched_serve ..).bind fun _ => matched_pure _
  | scan tag target =>
    rw [Node.rename, selectStmt, selectStmt]
    exact (matched_scannedSlot tag target).bind fun _ =>
      (matched_serve ..).bind fun _ => matched_pure _
  | _ =>
    simp only [Node.rename, selectStmt]
    exact (matched_selectExprStmt hr _).bind fun _ => matched_pure _

/-! ## Declarations -/

theorem matched_reserveFunction (tag : Tag) {name : String} (hname : r name = name)
    (result : ValueType) :
    Matched r (reserveFunction tag name result) (reserveFunction tag name result) :=
  matched_self (P := fun _ => True) (inStep_retains fun s g s' h hrun => by
    obtain ⟨-, -, rfl⟩ := reserveFunction_iff.mp hrun
    refine ⟨⟨?_, ?_⟩, trivial⟩
    · exact List.forall_mem_append.mpr ⟨h.functions, List.forall_mem_singleton.mpr hname⟩
    · exact List.forall_mem_append.mpr ⟨h.signatures, List.forall_mem_singleton.mpr hname⟩)

theorem matched_functionGraph (tag : Tag) {name : String} (hname : r name = name)
    (result : ValueType) :
    Matched r (functionGraph tag name result) (functionGraph tag name result) :=
  matched_self (P := fun _ => True) (inStep_retains fun s g s' h hrun => by
    rcases functionGraph_cases hrun with ⟨rfl, -, -⟩ | hres
    · exact ⟨h, trivial⟩
    · obtain ⟨t', ht', hR, -⟩ :=
        (matched_reserveFunction tag hname result).forth.run s s g s' ⟨rfl, h⟩ hres
      exact ⟨hR.2, trivial⟩)

theorem selectParams_rename (function : String) (params : List Node) :
    selectParams function (Node.renameAll r params) = selectParams function params := by
  induction params with
  | nil => rw [Node.renameAll]
  | cons p params ih => rw [Node.renameAll, selectParams, selectParams, Node.tag?_rename, ih]

theorem matched_selectIn (hr : Function.Injective r) (tag : Tag) (name : String)
    (params : List Node) (body : Node) (g : Nat) :
    Matched r (selectIn (su.under t b) tag name params body g)
      (selectIn (su.under (t.rename r) (b.rename r)) tag name (Node.renameAll r params)
        (body.rename r) g) := by
  have hempty : (Node.renameAll r params).isEmpty = params.isEmpty := by
    rw [Node.renameAll_eq, List.isEmpty_map]
  have hbody : Matched r
      (if body.tag?.any fun t => t.kind == .compoundStmt then do
        let _ ← selectBody (su.under t b) body ⟨g, 0⟩
      else fail tag.pos (.noBody name))
      (if body.tag?.any fun t => t.kind == .compoundStmt then do
        let _ ← selectBody (su.under (t.rename r) (b.rename r)) (body.rename r) ⟨g, 0⟩
      else fail tag.pos (.noBody name)) :=
    .ite ((matched_selectBody fun n _ => matched_selectStmt hr n).bind fun _ => matched_pure _)
      (matched_fail ..)
  rw [selectIn, selectIn, hempty, selectParams_rename, Node.tag?_rename]
  refine .ite ?_ hbody
  exact (matched_self ((parallel_fixed r su).selectParams name params)).bind fun _ =>
    (matched_serve ..).bind fun _ => hbody

theorem matched_selectDecl (hr : Function.Injective r) {d : Node}
    (hd : ∀ tag, d.tag? = some tag → tag.kind = .functionDecl → d.KeepsName r) :
    Matched r (selectDecl (su.under t b) d)
      (selectDecl (su.under (t.rename r) (b.rename r)) (d.rename r)) := by
  cases d with
  | function tag name params result body =>
    rw [Node.rename]
    by_cases hk : tag.kind = .functionDecl
    · have hname := hd tag rfl hk tag name params result body rfl
      simp only [selectDecl, Node.tag?, hk, selectFunction_eq]
      exact (matched_functionGraph tag hname result).bind fun g => matched_selectIn hr ..
    · refine matched_of_never (fun s a s' h => ?_) fun s a s' h => ?_
      all_goals
        cases selectDecl_eq_ok h
        contradiction
  | var tag name type init =>
    rw [Node.rename]
    by_cases hk : tag.kind = .varDecl
    · simp only [selectDecl, Node.tag?, hk]
      exact matched_selectVar hr tag name init
    · refine matched_of_never (fun s a s' h => ?_) fun s a s' h => ?_
      all_goals
        cases selectDecl_eq_ok h
        contradiction
  | _ =>
    rw [Node.rename]
    exact matched_of_never (fun s a s' h => by cases selectDecl_eq_ok h)
      fun s a s' h => by cases selectDecl_eq_ok h

theorem matched_reserveDecl {d : Node}
    (hd : ∀ tag, d.tag? = some tag → tag.kind = .functionDecl → d.KeepsName r) :
    Matched r (reserveDecl d) (reserveDecl (d.rename r)) := by
  rw [reserveDecl, reserveDecl, Node.tag?_rename]
  cases htag : d.tag? with
  | none => exact matched_throw ..
  | some tag =>
    by_cases hk : tag.kind = .functionDecl
    · have hkeeps := hd tag htag hk
      simp only [hk, if_true]
      cases d with
      | function ftag name params result body =>
        simp only [Node.rename]
        exact (matched_reserveFunction tag (hkeeps ftag name params result body rfl) result).bind
          fun _ => matched_pure _
      | _ =>
        simp only [Node.rename]
        exact matched_fail ..
    · simp only [hk, if_false]
      exact matched_pure _

theorem matched_forM {f g : Node → Selection Unit} {ds : List Node}
    (h : ∀ d ∈ ds, Matched r (f d) (g (d.rename r))) :
    Matched r (ds.forM f) ((ds.map (Node.rename r)).forM g) := by
  induction ds with
  | nil => exact matched_pure _
  | cons d ds ih =>
    rw [List.forall_mem_cons] at h
    exact h.1.bind fun _ => ih h.2

/-- **Renamed programs are lowered alike.** -/
theorem matched_selectProgram (hr : Function.Injective r) {root : Node}
    (hroot : ∀ d ∈ root.parts, ∀ tag, d.tag? = some tag → tag.kind = .functionDecl →
      d.KeepsName r) :
    Matched r (selectProgram (su.under t b) root)
      (selectProgram (su.under (t.rename r) (b.rename r)) (root.rename r)) := by
  rw [selectProgram, selectProgram, Node.tag?_rename]
  cases root.tag? with
  | none => exact matched_fail ..
  | some tag =>
    refine .ite (matched_fail ..) ?_
    cases root with
    | program ptag decls =>
      have hdecls : Matched r (decls.forM (selectDecl (su.under t b)))
          ((decls.map (Node.rename r)).forM
            (selectDecl (su.under (t.rename r) (b.rename r)))) :=
        matched_forM fun d hd => matched_selectDecl hr (hroot d hd)
      simp only [Node.rename, Node.renameAll_eq, selectDecls]
      exact .ite ((matched_forM fun d hd => matched_reserveDecl (hroot d hd)).bind fun _ => hdecls)
        hdecls
    | _ =>
      simp only [Node.rename]
      exact matched_fail ..

end Lowering

/-! ## Programs -/

/-- **Consistent renaming changes nothing but names.**  Resolution of the renamed program ends as
that of the program does, and each identifier is bound to the same declaration under its new name;
where resolution ends well, the selections that go by its results end well alike, in the same
state.

A declaration whose payload has no name is kept under the empty string, which stands for no name
and is not renamed with it; hence `hnamed`, which only asks that `r` leaves the empty string alone
if there is such a declaration. -/
theorem select_rename {r : String → String} (hr : Function.Injective r) {root : Node}
    (hfix : ∀ d, root.Declares d → d.KeepsName r)
    (hnamed : ∀ d, root.Declares d → d.isNamed = true ∨ r "" = "") (su : Setup) :
    resolveProgram (root.rename r) {} = renamed r (Table.rename r) (resolveProgram root {}) ∧
      ∀ t b, resolveProgram root {} = .ok t b →
        (∀ l, (b.rename r).find? l = (b.find? l).map (Decl.rename r)) ∧
        ∀ u fin, select (su.under (t.rename r) (b.rename r)) (root.rename r) = .ok u fin ↔
          select (su.under t b) root = .ok u fin := by
  have hrenamed : ∀ d, root.Declares d → (d.rename r).name = r d.name := fun d hd =>
    Node.name_rename r (hfix d hd) (hnamed d hd)
  have hdecls : ∀ d ∈ root.parts, DeclRenamed r d := fun d hd tag htag hk =>
    hrenamed d (.decl hd htag hk)
  have hparams : ParamsRenamed r root := fun tag name params result body hm p hp =>
    hrenamed p (.param hm hp)
  refine ⟨(echoes_resolveProgram hr hdecls hparams).run {}, fun t b _ => ?_⟩
  refine ⟨Bindings.find?_rename b, fun u fin => ?_⟩
  have hmatched : Matched r (selectProgram (su.under t b) root)
      (selectProgram (su.under (t.rename r) (b.rename r)) (root.rename r)) :=
    matched_selectProgram hr fun d hd tag htag hk => hfix d (.decl hd htag (.inl hk))
  -- Nothing is declared at the start, so there is no name to keep.
  have hstart : Retains (Fixed r) {} {} := ⟨rfl, by simp, by simp⟩
  constructor
  · intro h
    obtain ⟨fin', h', ⟨rfl, -⟩, -⟩ := hmatched.back.run {} {} u fin hstart h
    exact h'
  · intro h
    obtain ⟨fin', h', ⟨rfl, -⟩, -⟩ := hmatched.forth.run {} {} u fin hstart h
    exact h'

/-- A variable of the program scope, a function with a parameter, and one with a local variable. -/
def exchangeRoot : Node :=
  .program (.nowhere 0 .program)
    [.var (.nowhere 1 .varDecl) "x" .int (.number (.nowhere 2 .numberExpr) 1),
     .function (.nowhere 3 .functionDecl) "add" [.param (.nowhere 4 .paramDecl) "y" .int] .int
      (.compound (.nowhere 5 .compoundStmt)
        [.ret (.nowhere 6 .returnStmt)
          (.binary (.nowhere 7 .binaryExpr) .plus (.ident (.nowhere 8 .identExpr) "x")
            (.ident (.nowhere 9 .identExpr) "y"))]),
     .function (.nowhere 10 .functionDecl) "show" [] .void
      (.compound (.nowhere 11 .compoundStmt)
        [.var (.nowhere 12 .varDecl) "y" .int
          (.call (.nowhere 13 .callExpr) "add" [.ident (.nowhere 14 .identExpr) "x"]),
         .print (.nowhere 15 .printStmt) (.ident (.nowhere 16 .identExpr) "y")])]

theorem exchangeRoot_rename : ∃ t b fin,
    resolveProgram exchangeRoot {} = .ok t b ∧ select (stackSetup t b) exchangeRoot = .ok () fin ∧
      resolveProgram (exchangeRoot.rename (Equiv.swap "x" "y")) {} =
        .ok (t.rename (Equiv.swap "x" "y")) (b.rename (Equiv.swap "x" "y")) ∧
      select (stackSetup (t.rename (Equiv.swap "x" "y")) (b.rename (Equiv.swap "x" "y")))
        (exchangeRoot.rename (Equiv.swap "x" "y")) = .ok () fin := by
  have hlowers : lowers stackSetup exchangeRoot = true := by decide +kernel
  obtain ⟨t, b, fin, hres, hsel⟩ := exists_of_lowers hlowers
  have hdeclares : ∀ d, exchangeRoot.Declares d →
      d.KeepsName (Equiv.swap "x" "y") ∧ d.isNamed = true := by
    rintro d (⟨hd, -, -⟩ | ⟨hm, hp⟩)
    · simp only [exchangeRoot, Node.parts, List.mem_cons, List.not_mem_nil, or_false] at hd
      rcases hd with rfl | rfl | rfl
      · exact ⟨by rintro - - - - - ⟨⟩, rfl⟩
      all_goals
        refine ⟨?_, rfl⟩
        rintro - - - - - ⟨⟩
        exact Equiv.swap_apply_of_ne_of_ne (by decide) (by decide)
    · simp only [exchangeRoot, Node.nodes_eq, Node.parts, Node.isAbsent, Bool.false_eq_true,
        if_false, List.flatMap_cons, List.flatMap_nil, List.append_nil, List.cons_append,
        List.nil_append, List.mem_cons, List.not_mem_nil, or_false, reduceCtorEq, false_or,
        Node.function.injEq] at hm
      rcases hm with ⟨-, -, rfl, -⟩ | ⟨-, -, rfl, -⟩
      · cases List.mem_singleton.mp hp
        exact ⟨by rintro - - - - - ⟨⟩, rfl⟩
      · cases hp
  obtain ⟨hrenamed, hselect⟩ := select_rename (Equiv.injective (Equiv.swap "x" "y"))
    (fun d hd => (hdeclares d hd).1) (fun d hd => .inl (hdeclares d hd).2)
    { hooks := ⟨.stack, .pushPrinted⟩ }
  rw [hres] at hrenamed
  exact ⟨t, b, fin, hres, hsel, hrenamed, ((hselect t b hres).2 () fin).mpr hsel⟩

end Isel.Select
