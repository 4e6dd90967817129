import Isel.Proofs.Assignment
import Isel.Proofs.Balance
import Isel.Proofs.Preservation
import Isel.Proofs.ProgramInStep

/-!
# Calls inside expressions

A call may do more than give a result.  What functions do is left open (`Host`): they take values
and a world, and give a value and a world.  `evalIn` says what an expression comes to if its parts
are evaluated from left to right.  `runIn` says what code does on a machine that carries out a call
at once: the arguments are taken from the stack, the last one on top, and the result is put there
if there is one.

The code of an expression is run in the module of any state behind its selection.  While it runs,
the stack below is untouched and only slots of the expression are written (`Computes`).
`selectExpr_computes` is the result for selection, at any point and in any state that a selection
comes through (`Underway`).  States inside the body of a function are among them
(`Underway.functionBody`).
-/

namespace Isel.Flow

/-! ## A machine with calls -/

/-- What constants, operations and functions mean.  A function takes so many arguments; what it
does depends on them and on the world, and may change the world. -/
structure Host (V W : Type) extends Meaning V where
  arity : String → Nat
  returns : String → Bool
  call : String → List V → W → V × W

section Host

variable {V W : Type} (H : Host V W) (m : Module)

/-- The call of a function.  Its arguments are on the stack, the last one on top. -/
def Host.invoke (f : String) (c : Store V × W) : Option (Store V × W) :=
  if H.arity f ≤ c.1.stack.length then
    let r := H.call f (c.1.stack.take (H.arity f)).reverse c.2
    let rest := c.1.stack.drop (H.arity f)
    some ({ c.1 with stack := if H.returns f then r.1 :: rest else rest }, r.2)
  else none

/-- What an instruction does if calls are carried out at once. -/
def effectIn (i : Instr) (c : Store V × W) : Option (Store V × W) :=
  if i.op = .call then (m.functionAt? i.target?).bind fun f => H.invoke f.name c
  else (effect H.toMeaning m i c.1).map fun s => (s, c.2)

/-- Runs code with calls from its beginning to its end. -/
def runIn : List Instr → Store V × W → Option (Store V × W)
  | [], c => some c
  | i :: rest, c => (effectIn H m i c).bind (runIn rest)

variable {H m}

theorem runIn_append (c d : List Instr) (x : Store V × W) :
    runIn H m (c ++ d) x = (runIn H m c x).bind (runIn H m d) := by
  induction c generalizing x with
  | nil => rfl
  | cons i c ih =>
    rw [List.cons_append, runIn, runIn, Option.bind_assoc]
    congr 1
    funext y
    exact ih y

theorem runIn_trans {c d : List Instr} {x y : Store V × W} (h : runIn H m c x = some y) :
    runIn H m (c ++ d) x = runIn H m d y := by
  rw [runIn_append, h, Option.bind_some]

/-- An instruction that is no call leaves the world alone. -/
theorem runIn_effect {i : Instr} {s s' : Store V} (hi : i.op ≠ .call)
    (h : effect H.toMeaning m i s = some s') (w : W) : runIn H m [i] (s, w) = some (s', w) := by
  rw [runIn, effectIn, if_neg hi, h]
  rfl

/-- The values of the slots are pushed from left to right. -/
theorem runIn_pushes {vals : Slot → Option V} {slots : List Slot} {vs : List V}
    (h : List.Forall₂ (fun k v => vals k = some v) slots vs) (stack : List V) (w : W) :
    runIn H m (slots.map fun k => ⟨.push, [.slot k]⟩) (⟨vals, stack⟩, w) =
      some (⟨vals, vs.reverse ++ stack⟩, w) := by
  induction h generalizing stack with
  | nil => rfl
  | @cons k v slots vs hk _ ih =>
    have hpush : effect H.toMeaning m ⟨.push, [.slot k]⟩ ⟨vals, stack⟩ =
        some ⟨vals, v :: stack⟩ := by
      show (vals k).map _ = _
      rw [hk]
      rfl
    rw [List.map_cons, ← List.singleton_append, runIn_trans (runIn_effect (by simp) hpush w),
      ih, List.reverse_cons, List.append_assoc]
    rfl

/-- The call takes the arguments that were pushed, and no others. -/
theorem runIn_call {i : Instr} {f : Function} {vs : List V} (hi : i.op = .call)
    (hf : m.functionAt? i.target? = some f) (harity : vs.length = H.arity f.name)
    (vals : Slot → Option V) (stack : List V) (w : W) :
    runIn H m [i] (⟨vals, vs.reverse ++ stack⟩, w) =
      some (⟨vals, if H.returns f.name then (H.call f.name vs w).1 :: stack else stack⟩,
        (H.call f.name vs w).2) := by
  have hlength : vs.reverse.length = H.arity f.name := by rw [List.length_reverse, harity]
  rw [runIn, effectIn, if_pos hi, hf, Option.bind_some, Host.invoke, if_pos]
  · simp only [List.take_left' hlength, List.drop_left' hlength, List.reverse_reverse]
    rfl
  · rw [List.length_append, hlength]
    exact Nat.le_add_right ..

end Host

end Isel.Flow

namespace Isel.Eval

open Isel.Syntax

/-! ## Evaluation with calls -/

section Eval

variable {V W : Type} (R : Reading V) (call : String → List V → W → V × W) (vars : Vars V)

mutual

/-- The value of an expression and the world behind it. -/
def evalIn : Node → W → Option (V × W)
  | .number _ value, w => some (R.meaning.imm value, w)
  | .boolean _ value, w => some (R.meaning.imm (if value then 1 else 0), w)
  | .string _ bytes, w => some (R.meaning.bytes bytes, w)
  | .ident tag _, w =>
    ((R.bindings.find? tag.label).bind fun decl => vars decl.label).map fun v => (v, w)
  | .binary _ op left right, w =>
    (evalIn left w).bind fun (v, w₁) => (evalIn right w₁).bind fun (v', w₂) =>
      (R.ops op).map fun opcode => (R.meaning.binary opcode v v', w₂)
  | .call _ callee args, w => (evalArgs args w).map fun (vs, w₁) => call callee vs w₁
  | _, _ => none

/-- The values of expressions, from left to right, and the world behind them. -/
def evalArgs : List Node → W → Option (List V × W)
  | [], w => some ([], w)
  | n :: rest, w =>
    (evalIn n w).bind fun (v, w₁) => (evalArgs rest w₁).map fun (vs, w₂) => (v :: vs, w₂)

end

end Eval

end Isel.Eval

namespace Isel.Select

open Isel.Flow Isel.Syntax Isel.Scope Isel.Proofs Isel.Eval

/-! ## States that a selection comes through -/

/-- The functions and their signatures, in order, have the same names. -/
def Signed (s : State) : Prop :=
  s.signatures.map Signature.name = s.module.functions.map Function.name

/-- What holds of every state that a selection comes through: the module was made by steps, and
each function in it has a signature. -/
structure Underway (su : Setup) (s : State) : Prop where
  steps : Steps su {} s.module
  signed : Signed s

theorem parallel_signed (su : Setup) : ParallelDecls su su (Retains Signed) where
  toParallel := parallel_retains su fun s s' h hfunctions hsignatures => by
    rw [Signed, hfunctions, hsignatures, h]
  forward := rfl
  functions h := by rw [h.1]
  signatures h := by rw [h.1]
  graphs h := by rw [h.1]
  declared h sig := by
    refine ⟨by rw [h.1], ?_⟩
    rw [Signed, State.declare, declaredModule, List.map_append, List.map_append, h.2]
    rfl

namespace Underway

variable {su : Setup} {s s' : State}

/-- Steps that keep signatures with their functions lead on. -/
theorem go {α : Type} {x : Selection α} {a : α} {P : α → Prop} (h : Underway su s)
    (hx : InStep (Retains Signed) x x P) (hsteps : Steps su s.module s'.module)
    (hrun : x s = .ok a s') : Underway su s' := by
  obtain ⟨_, -, hsigned, -⟩ := hx.run s s a s' ⟨rfl, h.signed⟩ hrun
  exact ⟨h.steps.trans hsteps, hsigned.2⟩

/-- Behind the first declarations of a program. -/
theorem of_selectDone {decls done : List Node} {u : Unit}
    (h : selectDone su decls done {} = .ok u s) : Underway su s := by
  have hpar := parallel_signed su
  have hdone := ParallelDecls.forM hpar.selectDecl done
  have hx : InStep (Retains Signed) (selectDone su decls done) (selectDone su decls done) := by
    rw [selectDone]
    exact .ite ((ParallelDecls.forM hpar.reserveDecl decls).bind fun _ _ => hdone) hdone
  obtain ⟨_, -, hsigned, -⟩ := hx.run {} {} u s ⟨rfl, rfl⟩ h
  exact ⟨selectDone_steps h, hsigned.2⟩

theorem rooted (h : Underway su s) : Rooted s.module := by
  have hempty : Rooted ({} : Module) := by simp [Rooted]
  exact hempty.steps h.steps

theorem selectExpr {pt : Point} {e : Node} {slot : Slot} (h : Underway su s)
    (hrun : Select.selectExpr su pt e s = .ok slot s') : Underway su s' := by
  have hpt : pt.In fun _ => True := by cases pt <;> trivial
  exact h.go ((parallel_signed su).toParallel.selectExpr hpt e)
    ((writing_selectExpr pt e).steps hrun) hrun

theorem selectStmt {n : Node} {r q : BlockRef} (h : Underway su s)
    (hr : r.index < s.module.count r.graph) (hrun : Select.selectStmt su n r s = .ok q s') :
    Underway su s' :=
  h.go ((parallel_signed su).toParallel.selectStmt n r trivial)
    (advances_selectStmt n r.graph r s q s' hrun ⟨rfl, hr⟩).1 hrun

theorem functionGraph {tag : Tag} {name : String} {result : ValueType} {g : Nat}
    (h : Underway su s) (hrun : Select.functionGraph tag name result s = .ok g s') :
    Underway su s' ∧ Inside s'.module g ⟨g, 0⟩ := by
  obtain ⟨hsteps, hentry⟩ := functionGraph_steps su h.rooted hrun
  exact ⟨h.go ((parallel_signed su).functionGraph tag name result) hsteps hrun, hentry⟩

theorem params {name : String} {params : List Node} {slots : List Slot} {pos : Source.Position}
    {pt : Point} {s₁ : State} {u : Unit} (h : Underway su s)
    (hparams : selectParams name params s = .ok slots s₁)
    (hserve : serve su pos pt (.paramsIn slots) s₁ = .ok u s') : Underway su s' := by
  have hpt : pt.In fun _ => True := by cases pt <;> trivial
  have h₁ := h.go ((parallel_signed su).toParallel.selectParams name params)
    ((writing_selectParams name params).steps hparams) hparams
  exact h₁.go ((parallel_signed su).toParallel.serve hpt pos _)
    ((writing_serve ..).steps hserve) hserve

theorem openBody {tag : Tag} {g : Nat} {r q : BlockRef} (h : Underway su s)
    (hr : Inside s.module g r) (hrun : Select.openBody tag r s = .ok q s') :
    Underway su s' ∧ Inside s'.module g q := by
  have hopen : openBlock r s = .ok q s' := by
    rw [Select.openBody] at hrun
    split at hrun
    · exact hrun
    · cases hrun
  obtain ⟨hsteps, hq⟩ := openBlock_steps su hopen hr
  exact ⟨h.go ((parallel_signed su).toParallel.openBody trivial tag) hsteps hrun, hq.2⟩

/-- In front of each of the statements that are lowered one after the other. -/
theorem stmt {ns : List Node} {returned : Bool} {g : Nat} {r q : BlockRef} {n : Node}
    (h : Underway su s) (hr : Inside s.module g r) (hn : n ∈ ns)
    (hrun : Select.selectStmts su returned ns r s = .ok q s') :
    ∃ s₁ s₂ r₁ r₂, Underway su s₁ ∧ Inside s₁.module g r₁ ∧
      Select.selectStmt su n r₁ s₁ = .ok r₂ s₂ := by
  induction ns generalizing returned r s with
  | nil => cases hn
  | cons k ns ih =>
    obtain ⟨s₀, s₁, mid, again, hm, -, hsig, -, hk, hns⟩ := selectStmts_cons_ok hrun
    have h₀ : Underway su s₀ := by
      refine ⟨hm ▸ h.steps, ?_⟩
      rw [Signed, hm, hsig]
      exact h.signed
    rw [← hm] at hr
    rcases List.mem_cons.mp hn with rfl | hn
    · exact ⟨s₀, s₁, r, mid, h₀, hr, hk⟩
    · exact ih (h₀.selectStmt (hr.1 ▸ hr.2) hk) (advances_selectStmt k g r s₀ mid s₁ hk hr).2 hn hns

/-- **Inside a function**: each statement of its body is lowered from a state underway. -/
theorem functionBody {tag btag : Tag} {name : String} {params : List Node} {result : ValueType}
    {stmts : List Node} {n : Node} {u : Unit} (h : Underway su s) (hn : n ∈ stmts)
    (hrun : selectFunction su tag name params result (.compound btag stmts) s = .ok u s') :
    ∃ g s₁ s₂ r₁ r₂, Underway su s₁ ∧ Inside s₁.module g r₁ ∧
      Select.selectStmt su n r₁ s₁ = .ok r₂ s₂ := by
  obtain ⟨g, s₁, s₂, ends, hgraph, hparams, hbody⟩ := selectFunction_eq_ok hrun
  obtain ⟨h₁, hentry⟩ := h.functionGraph hgraph
  have hin : Underway su s₂ ∧ Inside s₂.module g ⟨g, 0⟩ := by
    rcases hparams with ⟨-, rfl⟩ | ⟨slots, s₃, hparams, hserve⟩
    · exact ⟨h₁, hentry⟩
    · exact ⟨h₁.params hparams hserve, hentry.mono (params_steps hparams hserve)⟩
  rw [selectBody, bind_eq_ok] at hbody
  obtain ⟨first, s₄, hopen, hbody⟩ := hbody
  rw [bind_eq_ok] at hbody
  obtain ⟨last, s₅, hstmts, -⟩ := hbody
  obtain ⟨h₄, hfirst⟩ := hin.1.openBody hin.2 hopen
  exact ⟨g, h₄.stmt hfirst hn hstmts⟩

theorem declared (h : Underway su s) : s.Declared := by
  intro f hf
  refine ⟨h.rooted f hf, ?_⟩
  have hname : f.name ∈ s.signatures.map Signature.name := by
    rw [h.signed]
    exact List.mem_map_of_mem hf
  exact List.mem_map.mp hname

theorem functionAt? (h : Underway su s) {f : Function} (hf : f ∈ s.module.functions) :
    s.module.functionAt? (some ⟨f.graph, 0⟩) = some f :=
  functionAt?_of_mem hf h.rooted h.steps.owned.nodup

theorem signature_eq (h : Underway su s) {sig sig' : Signature} (hsig : sig ∈ s.signatures)
    (hsig' : sig' ∈ s.signatures) (hname : sig.name = sig'.name) : sig = sig' := by
  refine List.inj_on_of_nodup_map ?_ hsig hsig' hname
  rw [h.signed]
  exact h.steps.functions_nodup

end Underway

/-! ## Labels that get their slots -/

/-- The labels are different, have no slots in `s` and have theirs in `s'`. -/
structure Taken (L : List Label) (s s' : State) : Prop where
  free : ∀ l ∈ L, s.slots.slot? (some l) = none
  nodup : L.Nodup
  held : ∀ l ∈ L, ∃ k, s'.slots.slot? (some l) = some k

section Taken

variable {su : Setup} {pt : Point} {L M : List Label} {s s₁ s' : State}

theorem Grows.free (h : Grows s s') {owner : Option Label} (hnone : s'.slots.slot? owner = none) :
    s.slots.slot? owner = none := by
  cases hs : s.slots.slot? owner with
  | none => rfl
  | some k => cases (h.slot? hs).symm.trans hnone

theorem Taken.grow (h : Taken L s s₁) (hgrow : Grows s₁ s') : Taken L s s' where
  free := h.free
  nodup := h.nodup
  held l hl := by
    obtain ⟨k, hk⟩ := h.held l hl
    exact ⟨k, hgrow.slot? hk⟩

theorem Taken.append (h₁ : Taken L s s₁) (h₂ : Taken M s₁ s') (g₁ : Grows s s₁)
    (g₂ : Grows s₁ s') : Taken (L ++ M) s s' where
  free l hl := by
    rcases List.mem_append.mp hl with hl | hl
    · exact h₁.free l hl
    · exact g₁.free (h₂.free l hl)
  nodup := by
    refine h₁.nodup.append h₂.nodup fun l hl hl' => ?_
    obtain ⟨k, hk⟩ := h₁.held l hl
    cases hk.symm.trans (h₂.free l hl')
  held l hl := by
    rcases List.mem_append.mp hl with hl | hl
    · exact (h₁.grow g₂).held l hl
    · exact h₂.held l hl

theorem claimSlot_taken {tag : Tag} {slot : Slot} (h : claimSlot tag s = .ok slot s')
    (pt : Point) : Taken [tag.label] s s' ∧ Emitted pt [] s s' := by
  obtain ⟨hnone, rfl, rfl⟩ := allocate_eq_ok.mp (claimSlot_eq_ok.mp h).2
  refine ⟨⟨?_, List.nodup_singleton _, ?_⟩, emitted_withOwner pt s _⟩
  · exact List.forall_mem_singleton.mpr hnone
  · exact List.forall_mem_singleton.mpr ⟨_, slot?_withOwner hnone⟩

/-- What selection of an expression does with its labels when it ends well. -/
def ExprTaken (su : Setup) (n : Node) : Prop :=
  ∀ (pt : Point) (s s' : State) (slot : Slot), selectExpr su pt n s = .ok slot s' →
    pt.Valid s.module → s.Declared → Taken n.labels s s'

theorem selectArgs_emitted {ns : List Node} {slots : List Slot}
    (h : selectArgs su pt ns s = .ok slots s') (hv : pt.Valid s.module) (hd : s.Declared) :
    ∃ code, Emitted pt code s s' := by
  obtain ⟨code, hemit, -⟩ := selectArgs_laid (L := ns.flatMap (claims su)) ns
    (fun n _ => selectExpr_laid n) (fun n hn l hl => List.mem_flatMap.mpr ⟨n, hn, hl⟩) pt s s' slots
    h hv hd
  exact ⟨code, hemit⟩

theorem selectArgs_taken : ∀ ns : List Node, (∀ n ∈ ns, ExprTaken su n) →
    ∀ (pt : Point) (s s' : State) (slots : List Slot), selectArgs su pt ns s = .ok slots s' →
      pt.Valid s.module → s.Declared → Taken (ns.flatMap Node.labels) s s' := by
  intro ns
  induction ns with
  | nil =>
    intro _ pt s s' slots h _ _
    exact ⟨by simp, List.nodup_nil, by simp⟩
  | cons n ns ih =>
    intro hns pt s s' slots h hv hd
    rw [List.forall_mem_cons] at hns
    rw [selectArgs, bind_eq_ok] at h
    obtain ⟨slot, s₁, hn, h⟩ := h
    rw [bind_eq_ok] at h
    obtain ⟨rest, s₂, hrest, h⟩ := h
    cases h
    obtain ⟨c, hemit, -⟩ := selectExpr_laid n pt s s₁ slot hn hv hd
    have hv₁ := hemit.valid hv
    have hd₁ := hemit.declared hd
    obtain ⟨d, hemit'⟩ := selectArgs_emitted hrest hv₁ hd₁
    rw [List.flatMap_cons]
    exact (hns.1 pt s s₁ slot hn hv hd).append (ih hns.2 pt s₁ s' rest hrest hv₁ hd₁)
      hemit.grows hemit'.grows

theorem binary_taken (tag : Tag) (op : Token) {left right : Node} (hl : ExprTaken su left)
    (hr : ExprTaken su right) : ExprTaken su (.binary tag op left right) := by
  intro pt s s' slot h hv hd
  rw [selectExpr, bind_eq_ok] at h
  obtain ⟨_, s₁, hclaim, h⟩ := h
  rw [bind_eq_ok] at h
  obtain ⟨lhs, s₂, hleft, h⟩ := h
  rw [bind_eq_ok] at h
  obtain ⟨rhs, s₃, hright, h⟩ := h
  rw [bind_eq_ok] at h
  obtain ⟨opcode, s₄, hop, h⟩ := h
  rw [emit_bind_apply] at h
  cases h
  obtain ⟨hown, hemit₁⟩ := claimSlot_taken hclaim pt
  have hv₁ := hemit₁.valid hv
  have hd₁ := hemit₁.declared hd
  obtain ⟨c, hemit₂, -⟩ := selectExpr_laid left pt s₁ s₂ lhs hleft hv₁ hd₁
  have hv₂ := hemit₂.valid hv₁
  have hd₂ := hemit₂.declared hd₁
  obtain ⟨d, hemit₃, -⟩ := selectExpr_laid right pt s₂ s₃ rhs hright hv₂ hd₂
  obtain ⟨-, hemit₄, -⟩ := operatorOpcode_eq_ok hop pt
  have htaken := (hl pt s₁ s₂ lhs hleft hv₁ hd₁).append (hr pt s₂ s₃ rhs hright hv₂ hd₂)
    hemit₂.grows hemit₃.grows
  have hall := hown.append htaken hemit₁.grows (hemit₂.trans hemit₃).grows
  have hlast := emitted_emit (hemit₄.valid (hemit₃.valid hv₂))
    ⟨opcode, [.slot slot, .slot lhs, .slot rhs]⟩
  simpa [Node.labels_eq (.binary ..), Node.label?, Node.tag?, Node.parts] using
    hall.grow (hemit₄.trans hlast).grows

theorem call_taken (tag : Tag) (callee : String) {args : List Node}
    (ih : ∀ n ∈ args, ExprTaken su n) : ExprTaken su (.call tag callee args) := by
  intro pt s s' slot h hv hd
  rw [selectExpr, bind_eq_ok] at h
  obtain ⟨_, s₁, hclaim, h⟩ := h
  rw [bind_eq_ok] at h
  obtain ⟨entry, s₂, hentry, h⟩ := h
  obtain ⟨rfl, f, hf, -⟩ := calleeEntry_eq_ok.mp hentry
  rw [bind_eq_ok] at h
  obtain ⟨slots, s₃, hargs, h⟩ := h
  rw [bind_eq_ok] at h
  obtain ⟨_, s₄, hcall, h⟩ := h
  cases h
  obtain ⟨hown, hemit₁⟩ := claimSlot_taken hclaim pt
  have hv₁ := hemit₁.valid hv
  have hd₁ := hemit₁.declared hd
  obtain ⟨d, hemit₂⟩ := selectArgs_emitted hargs hv₁ hd₁
  have hf₃ : s₃.module.function? callee = some f := by
    rw [Module.function?, hemit₂.functions]
    exact hf
  obtain ⟨_, _, hemit₃, -⟩ :=
    emitCall_laid hcall (hemit₂.valid hv₁) (hemit₂.declared hd₁) hf₃
  have hall := hown.append (selectArgs_taken args ih pt _ s₃ slots hargs hv₁ hd₁)
    hemit₁.grows hemit₂.grows
  simpa [Node.labels_eq (.call ..), Node.label?, Node.tag?, Node.parts] using
    hall.grow hemit₃.grows

/-- **An expression that is lowered shares no node**, neither with itself nor with what was lowered
before. -/
theorem selectExpr_taken : ∀ n : Node, ExprTaken su n := by
  intro n
  induction n using Node.parts_induction with
  | _ n ih _ =>
  cases n with
  | binary tag op left right =>
    exact binary_taken tag op (ih left (by simp [Node.parts])) (ih right (by simp [Node.parts]))
  | call tag callee args => exact call_taken tag callee ih
  | number | boolean | ident | string =>
    intro pt s s' slot h hv hd
    obtain ⟨code, -, -, hcode⟩ := selectExpr_laid _ pt s s' slot h hv hd
    obtain ⟨tag, htag, hslot⟩ := slot?_of_exprCode (hcode s' (Grows.refl s'))
    cases htag
    rw [selectExpr, bind_eq_ok] at h
    obtain ⟨_, s₁, hclaim, -⟩ := h
    obtain ⟨hown, -⟩ := claimSlot_taken hclaim pt
    exact ⟨hown.free, hown.nodup, List.forall_mem_singleton.mpr ⟨slot, hslot⟩⟩
  | _ =>
    intro pt s s' slot h hv hd
    obtain ⟨code, -, -, hcode⟩ := selectExpr_laid _ pt s s' slot h hv hd
    have hcode := hcode s' (Grows.refl s')
    simp [ExprCode] at hcode

end Taken

/-! ## What is appended -/

/-- The code is appended at the point, and all other blocks, all edges and the global sequence stay
as they are. -/
structure Appended (pt : Point) (code : List Instr) (m m' : Module) : Prop where
  blocks : ∀ r, m'.block? r = if pt = .block r
    then (m.block? r).map fun b => { b with instrs := b.instrs ++ code } else m.block? r
  globals : m'.globals = if pt = .globals then m.globals ++ code else m.globals

section Appended

variable {su : Setup} {pt : Point} {code : List Instr} {m m' : Module} {s s' : State}

/-- Writing keeps the names of the blocks and the edges. -/
theorem Writes.outline (h : Writes su m m') (r : BlockRef) :
    (m'.block? r).map (fun b => (b.name, b.successors)) =
      (m.block? r).map fun b => (b.name, b.successors) := by
  have hemit : ∀ (m : Module) (pt : Point) (i : Instr),
      ((pt.emit m i).block? r).map (fun b => (b.name, b.successors)) =
        (m.block? r).map fun b => (b.name, b.successors) := by
    intro m pt i
    cases pt with
    | globals => rfl
    | block q =>
      rw [Point.emit, Module.emit, Module.block?_modifyBlock]
      split
      · next he => rw [he, Option.map_map]; rfl
      · rfl
  induction h with
  | refl => rfl
  | @tail m₁ _ _ hwrite ih =>
    rw [← ih]
    cases hwrite with
    | own pt _ => exact hemit m₁ pt _
    | hook pt _ _ => exact hemit m₁ pt _
    | literal bytes =>
      obtain ⟨-, more, index, hmore⟩ := literalEntry_spec su bytes m₁
      rw [hmore]
      rfl

theorem appended_of_writes (hw : Writes su s.module s'.module) (h : Emitted pt code s s') :
    Appended pt code s.module s'.module where
  blocks r := by
    have houtline := hw.outline r
    have hcode : (.block r : Point).code s'.module = if pt = .block r
        then (.block r : Point).code s.module ++ code else (.block r : Point).code s.module := by
      split
      · next he => rw [← he, h.here]
      · next he => exact h.elsewhere _ (Ne.symm he)
    cases hb : s.module.block? r with
    | none =>
      rw [hb, Option.map_none, Option.map_eq_none_iff] at houtline
      rw [houtline]
      split <;> rfl
    | some b =>
      rw [hb, Option.map_some, Option.map_eq_some_iff] at houtline
      obtain ⟨b', hb', houtline⟩ := houtline
      obtain ⟨name, instrs, successors⟩ := b'
      obtain ⟨rfl, rfl⟩ := Prod.mk.inj houtline
      simp only [Point.code, Module.code, hb, hb', Option.elim_some] at hcode
      rw [hb', hcode]
      split <;> rfl
  globals := by
    split
    · next he => subst he; exact h.here
    · next he => exact h.elsewhere .globals (Ne.symm he)

end Appended

/-! ## Expressions compute their values -/

section Computes

variable {V W : Type}

/-- The functions are as the expression calls them: it is declared whether there is a result, no
part of the expression is a call without one, and each call has the arguments that the function
takes. -/
structure Suits (H : Host V W) (fin : State) (n : Node) : Prop where
  returns : ∀ callee, H.returns callee = true ↔ ¬IsVoid fin callee
  void : VoidApart (IsVoid fin) n
  fits : ∀ tag callee args, .call tag callee args ∈ n.nodes → args.length = H.arity callee

theorem Suits.part {H : Host V W} {fin : State} {n p : Node} (h : Suits H fin n)
    (hp : p ∈ n.parts) : Suits H fin p :=
  ⟨h.returns, h.void.part hp,
    fun tag callee args hm => h.fits tag callee args (Node.mem_nodes_of_part hp hm)⟩

/-- The variables that the tree names are declared at labels of this kind. -/
def NamesAt (su : Setup) (P : Label → Prop) (n : Node) : Prop :=
  ∀ tag name decl, .ident tag name ∈ n.nodes → su.bindings.find? tag.label = some decl →
    P decl.label

theorem NamesAt.part {su : Setup} {P : Label → Prop} {n p : Node} (h : NamesAt su P n)
    (hp : p ∈ n.parts) : NamesAt su P p :=
  fun tag name decl hm => h tag name decl (Node.mem_nodes_of_part hp hm)

/-- The variable is declared elsewhere than at the labels, and its slot holds its value. -/
def Given (fin : State) (vars : Vars V) (L : List Label) (slots : Slot → Option V) (l : Label) :
    Prop :=
  l ∉ L ∧ ∀ k, fin.slots.slot? (some l) = some k → ∃ v, vars l = some v ∧ slots k = some v

/-- What the labels do leaves the variables as they are. -/
theorem NamesAt.same {su : Setup} {fin : State} {vars : Vars V} {L M : List Label}
    {slots slots' : Slot → Option V} {n : Node} (h : NamesAt su (Given fin vars L slots) n)
    (hsame : SameBut fin M slots slots') (hsub : M ⊆ L) :
    NamesAt su (Given fin vars L slots') n := by
  intro tag name decl hm hbound
  obtain ⟨hout, hholds⟩ := h tag name decl hm hbound
  refine ⟨hout, fun k hk => ?_⟩
  obtain ⟨v, hv, hs⟩ := hholds k hk
  exact ⟨v, hv, ((hsame.mono hsub).slot hk hout).trans hs⟩

variable (H : Host V W) (su : Setup) (fin : State) (vars : Vars V) (L : List Label)

/-- The code of the expression leaves its value in its slot and the world as evaluation does. -/
def Computes (n : Node) : Prop :=
  ∀ (st : Store V) (w : W) (slot : Slot) (code : List Instr), ExprCode su fin n slot code →
    n.labels ⊆ L → n.labels.Nodup → Suits H fin n → NamesAt su (Given fin vars L st.slots) n →
      ∃ v st' w', evalIn (reading H.toMeaning su) H.call vars n w = some (v, w') ∧
        runIn H fin.module code (st, w) = some (st', w') ∧ st'.stack = st.stack ∧
        SameBut fin n.labels st.slots st'.slots ∧
        (HasValue (IsVoid fin) n → st'.slots slot = some v)

variable {H su fin vars L}

theorem computes_single {i : Instr} {st : Store V} {w : W} {slot : Slot} {v : V} {l : Label}
    {M : List Label} {P : Prop} (hi : i.op ≠ .call)
    (heff : effect H.toMeaning fin.module i st = some (st.write slot v))
    (hslot : fin.slots.slot? (some l) = some slot) (hl : l ∈ M) :
    runIn H fin.module [i] (st, w) = some (st.write slot v, w) ∧
      (st.write slot v).stack = st.stack ∧ SameBut fin M st.slots (st.write slot v).slots ∧
      (P → (st.write slot v).slots slot = some v) :=
  ⟨runIn_effect hi heff w, rfl, sameBut_write hslot hl, fun _ => Store.write_slots_self ..⟩

/-- The slot of an expression is none of other labels'. -/
theorem SameBut.result {n : Node} {slot : Slot} {code : List Instr} {M : List Label}
    {slots slots' : Slot → Option V} (h : SameBut fin M slots slots')
    (hcode : ExprCode su fin n slot code) (hdisj : ∀ l ∈ n.labels, l ∉ M) :
    slots' slot = slots slot := by
  obtain ⟨tag, htag, hslot⟩ := slot?_of_exprCode hcode
  exact h.slot hslot (hdisj _ (Node.label_mem_labels htag))

/-- Arguments are computed from left to right, and what is computed stays. -/
theorem args_compute : ∀ ns : List Node, (∀ n ∈ ns, Computes H su fin vars L n) →
    ∀ (st : Store V) (w : W) (slots : List Slot) (code : List Instr),
      ArgsCode su fin ns slots code → ns.flatMap Node.labels ⊆ L →
      (ns.flatMap Node.labels).Nodup →
      (∀ n ∈ ns, Suits H fin n ∧ HasValue (IsVoid fin) n ∧
        NamesAt su (Given fin vars L st.slots) n) →
        ∃ vs st' w', evalArgs (reading H.toMeaning su) H.call vars ns w = some (vs, w') ∧
          runIn H fin.module code (st, w) = some (st', w') ∧ st'.stack = st.stack ∧
          SameBut fin (ns.flatMap Node.labels) st.slots st'.slots ∧
          List.Forall₂ (fun k v => st'.slots k = some v) slots vs ∧ vs.length = ns.length := by
  intro ns
  induction ns with
  | nil =>
    intro _ st w slots code h _ _ _
    rw [ArgsCode] at h
    obtain ⟨rfl, rfl⟩ := h
    exact ⟨[], st, w, by rw [evalArgs], rfl, rfl, fun _ _ => rfl, .nil, rfl⟩
  | cons n ns ih =>
    intro hns st w slots code h hsub hnodup hall
    rw [ArgsCode] at h
    obtain ⟨slot, c, ss, cs, hn, hrest, rfl, rfl⟩ := h
    rw [List.forall_mem_cons] at hns hall
    rw [List.flatMap_cons, List.append_subset] at hsub
    rw [List.flatMap_cons, List.nodup_append'] at hnodup
    obtain ⟨hsuits, hvalue, hgiven⟩ := hall.1
    obtain ⟨v, st₁, w₁, heval₁, hrun₁, hstack₁, hsame₁, hslot⟩ :=
      hns.1 st w slot c hn hsub.1 hnodup.1 hsuits hgiven
    obtain ⟨vs, st₂, w₂, heval₂, hrun₂, hstack₂, hsame₂, hslots, hlength⟩ :=
      ih hns.2 st₁ w₁ ss cs hrest hsub.2 hnodup.2.1 fun m hm =>
        ⟨(hall.2 m hm).1, (hall.2 m hm).2.1, (hall.2 m hm).2.2.same hsame₁ hsub.1⟩
    refine ⟨v :: vs, st₂, w₂, ?_, ?_, hstack₂.trans hstack₁, ?_, .cons ?_ hslots, by simp [hlength]⟩
    · rw [evalArgs, heval₁, Option.bind_some]
      dsimp only
      rw [heval₂]
      rfl
    · rw [runIn_trans hrun₁, hrun₂]
    · rw [List.flatMap_cons]
      exact (hsame₁.mono (List.subset_append_left ..)).trans
        (hsame₂.mono (List.subset_append_right ..))
    · exact (hsame₂.result hn fun l hl hl' => hnodup.2.2 hl hl').trans (hslot hvalue)

theorem binary_computes {tag : Tag} {op : Token} {left right : Node}
    (ihl : Computes H su fin vars L left) (ihr : Computes H su fin vars L right) :
    Computes H su fin vars L (.binary tag op left right) := by
  intro st w slot code h hsub hu hsuits hgiven
  have hl : left ∈ (Node.binary tag op left right).parts := by simp [Node.parts]
  have hr : right ∈ (Node.binary tag op left right).parts := by simp [Node.parts]
  have hvalue := fun p => hsuits.void.hasValue (p := p) rfl (by simp)
  have hsubl := Node.labels_part_subset hl
  have hsubr := Node.labels_part_subset hr
  rw [ExprCode] at h
  obtain ⟨hslot, lhs, rhs, c, d, opcode, hleft, hright, hop, rfl⟩ := h
  obtain ⟨v, st₁, w₁, heval₁, hrun₁, hstack₁, hsame₁, hlhs⟩ :=
    ihl st w lhs c hleft (List.Subset.trans hsubl hsub) (Node.nodup_part hu hl) (hsuits.part hl)
      (hgiven.part hl)
  obtain ⟨v', st₂, w₂, heval₂, hrun₂, hstack₂, hsame₂, hrhs⟩ :=
    ihr st₁ w₁ rhs d hright (List.Subset.trans hsubr hsub) (Node.nodup_part hu hr) (hsuits.part hr)
      ((hgiven.part hr).same hsame₁ (List.Subset.trans hsubl hsub))
  have hdisj : ∀ l ∈ left.labels, l ∉ right.labels := by
    have hnodup := Node.nodup_parts hu
    simp only [Node.parts, List.flatMap_cons, List.flatMap_nil, List.append_nil,
      List.nodup_append'] at hnodup
    exact fun l hl hl' => hnodup.2.2 hl hl'
  have hlhs' := (hsame₂.result hleft hdisj).trans (hlhs (hvalue left hl))
  obtain ⟨heff, -⟩ :=
    effect_binary (M := H.toMeaning) (d := slot) hop fin.module hlhs' (hrhs (hvalue right hr))
  have hnocall : opcode ≠ .call := by
    rintro rfl
    exact absurd (mem_binaryOpcodes hop) (by decide)
  obtain ⟨hrun₃, hstack₃, hsame₃, hval⟩ := computes_single (w := w₂)
    (M := (Node.binary tag op left right).labels) (P := True) hnocall heff hslot
    (Node.label_mem_labels rfl)
  refine ⟨_, _, w₂, ?_, ?_, hstack₃.trans (hstack₂.trans hstack₁), ?_, fun _ => hval trivial⟩
  · rw [evalIn, heval₁, Option.bind_some]
    dsimp only
    rw [heval₂, Option.bind_some]
    show (opcodeFor? su op).map _ = _
    rw [hop]
    rfl
  · rw [List.append_assoc, runIn_trans hrun₁, runIn_trans hrun₂, hrun₃]
  · exact (hsame₁.mono hsubl).trans ((hsame₂.mono hsubr).trans hsame₃)

theorem call_computes (hc : su.hooks.convention = .stack) (hfin : Underway su fin) {tag : Tag}
    {callee : String} {args : List Node} (ih : ∀ a ∈ args, Computes H su fin vars L a) :
    Computes H su fin vars L (.call tag callee args) := by
  intro st w slot code h hsub hu hsuits hgiven
  have hparts : args.flatMap Node.labels ⊆ (Node.call tag callee args).labels :=
    (Node.parts_sublist (.call tag callee args)).subset
  rw [ExprCode] at h
  obtain ⟨hslot, slots, c, out, f, result, hargs, hout, hf, ⟨sig, hsig, hsname, hresult⟩, rfl⟩ := h
  obtain ⟨vs, st₁, w₁, heval, hrun, hstack, hsame, hslots, hlength⟩ :=
    args_compute args ih st w slots c hargs (List.Subset.trans hparts hsub) (Node.nodup_parts hu)
      fun n hn => ⟨hsuits.part hn, hsuits.void.hasValue rfl (by simp) hn, hgiven.part hn⟩
  obtain rfl : f.name = callee := by simpa using List.find?_some hf
  have harity : vs.length = H.arity f.name :=
    hlength.trans (hsuits.fits tag f.name args (Node.mem_nodes_self rfl))
  -- The arguments are pushed, and the call takes them from the stack.
  have hpush : runIn H fin.module (Hook.stackInstrs (.argsOut slots)) (st₁, w₁) =
      some (⟨st₁.slots, vs.reverse ++ st₁.stack⟩, w₁) := runIn_pushes hslots st₁.stack w₁
  have hcall := runIn_call (i := callTo f) rfl
    (hfin.functionAt? (List.mem_of_find?_eq_some hf)) harity st₁.slots st₁.stack w₁
  have heval' : evalIn (reading H.toMeaning su) H.call vars (.call tag f.name args) w =
      some (H.call f.name vs w₁) := by
    rw [evalIn, heval]
    rfl
  have hcode : ∀ x, runIn H fin.module result
      (⟨st₁.slots, if H.returns f.name then (H.call f.name vs w₁).1 :: st₁.stack else st₁.stack⟩,
        (H.call f.name vs w₁).2) = some x →
      runIn H fin.module (c ++ out ++ callTo f :: result) (st, w) = some x := by
    intro x hx
    rw [argsOut_stack hc hout, List.append_assoc, runIn_trans hrun, runIn_trans hpush,
      ← List.singleton_append, runIn_trans hcall, hx]
  have hvoid : IsVoid fin f.name ↔ sig.result = .void := by
    constructor
    · rintro ⟨sig', hsig', hname, hvoid⟩
      rw [hfin.signature_eq hsig hsig' (hsname.trans hname.symm), hvoid]
    · exact fun hvoid => ⟨sig, hsig, hsname, hvoid⟩
  by_cases hres : sig.result = .void
  · -- Nothing arrives, and nothing is said of the slot.
    rw [if_pos hres] at hresult
    subst hresult
    have hnone : H.returns f.name = false := by
      rw [← Bool.not_eq_true, hsuits.returns, not_not]
      exact hvoid.mpr hres
    refine ⟨_, _, _, heval', hcode _ rfl, ?_, hsame.mono hparts, fun hvalue => ?_⟩
    · simp [hnone, hstack]
    · exact absurd (hvoid.mpr hres) (hvalue tag f.name args rfl)
  · -- The result is on top of the stack, and is popped into the slot.
    rw [if_neg hres] at hresult
    obtain rfl := answered_stack hc rfl hresult
    have hsome : H.returns f.name = true := by
      rw [hsuits.returns, hvoid]
      exact hres
    have hpop : effect H.toMeaning fin.module ⟨.pop, [.slot slot]⟩
        ⟨st₁.slots, (H.call f.name vs w₁).1 :: st₁.stack⟩ =
        some (st₁.write slot (H.call f.name vs w₁).1) := rfl
    rw [hsome, if_pos rfl] at hcode
    refine ⟨_, _, _, heval', hcode _ (runIn_effect (by simp) hpop _), hstack, ?_,
      fun _ => Store.write_slots_self ..⟩
    exact (hsame.mono hparts).trans (sameBut_write hslot (Node.label_mem_labels rfl))

/-- **The code of an expression computes it.** -/
theorem expr_computes (hc : su.hooks.convention = .stack) (hfin : Underway su fin) :
    ∀ n : Node, Computes H su fin vars L n := by
  intro n
  induction n using Node.parts_induction with
  | _ n ih _ =>
  cases n with
  | number tag value | boolean tag value =>
    intro st w slot code h _ _ _ _
    rw [ExprCode] at h
    obtain ⟨hslot, rfl⟩ := h
    exact ⟨_, _, w, by rw [evalIn]; rfl,
      computes_single (by simp) rfl hslot (Node.label_mem_labels rfl)⟩
  | string tag bytes =>
    intro st w slot code h _ _ _ _
    rw [ExprCode] at h
    obtain ⟨hslot, k, l, hl, rfl, rfl⟩ := h
    refine ⟨_, _, w, by rw [evalIn],
      computes_single (by simp) ?_ hslot (Node.label_mem_labels rfl)⟩
    show (fin.module.literals[k]?).map _ = _
    rw [hl]
    rfl
  | ident tag name =>
    intro st w slot code h _ _ _ hgiven
    rw [ExprCode] at h
    obtain ⟨hslot, decl, source, hbound, hsource, rfl⟩ := h
    obtain ⟨v, hv, hs⟩ :=
      (hgiven tag name decl (Node.mem_nodes_self rfl) hbound).2 source hsource
    refine ⟨v, st.write slot v, w, ?_,
      computes_single (by simp) ?_ hslot (Node.label_mem_labels rfl)⟩
    · rw [evalIn]
      show ((su.bindings.find? tag.label).bind _).map _ = _
      rw [hbound, Option.bind_some, hv]
      rfl
    · show (st.slots source).map _ = _
      rw [hs]
      rfl
  | binary tag op left right =>
    exact binary_computes (ih left (by simp [Node.parts])) (ih right (by simp [Node.parts]))
  | call tag callee args => exact call_computes hc hfin ih
  | _ =>
    intro st w slot code h
    simp [ExprCode] at h

end Computes

/-! ## Selection computes -/

section Selection

variable {su : Setup} {pt : Point} {e : Node} {s s' : State} {slot : Slot}

/-- A slot that a label gets behind a state is none of those handed out before. -/
theorem Grows.count_le {fin : State} (h : Grows s fin) {l : Label} {k : Slot}
    (hfree : s.slots.slot? (some l) = none) (hk : fin.slots.slot? (some l) = some k) :
    s.slots.count ≤ k := by
  obtain ⟨rest, hrest⟩ := h.owners
  rw [Slots.slot?] at hfree hk
  rw [← hrest, List.findIdx?_append, hfree, Option.none_or, Option.map_eq_some_iff] at hk
  obtain ⟨j, -, rfl⟩ := hk
  exact Nat.le_add_left ..

/-- The values that the variables have in their slots. -/
def State.vars {V : Type} (s : State) (st : Store V) : Vars V :=
  fun l => (s.slots.slot? (some l)).bind st.slots

/-- **Selection computes expressions**, with all the calls in them.  The code that is appended, run
in the module of any later state, gives the slot of the expression its value and leaves the world of
evaluation from left to right; the stack and the slots handed out before are as they were. -/
theorem selectExpr_computes (hc : su.hooks.convention = .stack) (hs : Underway su s)
    (hv : pt.Valid s.module) (hout : NamesAt su (· ∉ e.labels) e)
    (h : selectExpr su pt e s = .ok slot s') :
    ∃ code, Appended pt code s.module s'.module ∧
      ∀ (V W : Type) (H : Host V W) (fin : State), Grows s' fin → Underway su fin →
        Suits H fin e → ∀ (st : Store V) (w : W), NamesAt su (fun l => (s.vars st l).isSome) e →
          ∃ v w' st', evalIn (reading H.toMeaning su) H.call (s.vars st) e w = some (v, w') ∧
            runIn H fin.module code (st, w) = some (st', w') ∧ st'.stack = st.stack ∧
            (∀ k, k < s.slots.count → st'.slots k = st.slots k) ∧
            (HasValue (IsVoid fin) e → st'.slots slot = some v) := by
  have hd := hs.declared
  obtain ⟨code, hemit, -, hcode⟩ := selectExpr_laid e pt s s' slot h hv hd
  have htaken := selectExpr_taken e pt s s' slot h hv hd
  refine ⟨code, appended_of_writes ((writing_selectExpr pt e).writes s slot s' h) hemit, ?_⟩
  intro V W H fin hgrow hfin hsuits st w hvalues
  have hall := hemit.grows.trans hgrow
  have hgiven : NamesAt su (Given fin (s.vars st) e.labels st.slots) e := by
    intro tag name decl hm hbound
    refine ⟨hout tag name decl hm hbound, fun k hk => ?_⟩
    obtain ⟨v, hv⟩ := Option.isSome_iff_exists.mp (hvalues tag name decl hm hbound)
    obtain ⟨k', hk', hslot⟩ := Option.bind_eq_some_iff.mp hv
    cases (hall.slot? hk').symm.trans hk
    exact ⟨v, hv, hslot⟩
  obtain ⟨v, st', w', heval, hrun, hstack, hsame, hvalue⟩ :=
    expr_computes hc hfin e st w slot code (hcode fin hgrow) (List.Subset.refl _) htaken.nodup
      hsuits hgiven
  refine ⟨v, w', st', heval, hrun, hstack, fun k hk => ?_, hvalue⟩
  -- A slot of the expression was handed out later.
  refine hsame k fun l hl hk' => ?_
  have hle := hall.count_le (htaken.free l hl) hk'
  omega

end Selection

/-- Functions that count how often they are called: one gives the count, one adds. -/
def counting : Host Int Nat where
  toMeaning := adding
  arity f := if f = "add" then 2 else 0
  returns _ := true
  call f args w := (if f = "add" then args.sum else w, w + 1)

/-- A counter, a sum, and a variable that both start from. -/
def tallyDecls : List Node :=
  [.function (.nowhere 1 .functionDecl) "tick" [] .int
    (.compound (.nowhere 2 .compoundStmt)
      [.ret (.nowhere 3 .returnStmt) (.number (.nowhere 4 .numberExpr) 0)]),
   .function (.nowhere 5 .functionDecl) "add"
    [.param (.nowhere 6 .paramDecl) "a" .int, .param (.nowhere 7 .paramDecl) "b" .int] .int
    (.compound (.nowhere 8 .compoundStmt)
      [.ret (.nowhere 9 .returnStmt)
        (.binary (.nowhere 10 .binaryExpr) .plus (.ident (.nowhere 11 .identExpr) "a")
          (.ident (.nowhere 12 .identExpr) "b"))]),
   .var (.nowhere 13 .varDecl) "g" .int (.number (.nowhere 14 .numberExpr) 2)]

/-- A sum of sums, where the arguments of a call are calls. -/
def tallyExpr : Node :=
  .call (.nowhere 20 .callExpr) "add"
    [.binary (.nowhere 21 .binaryExpr) .minus (.call (.nowhere 22 .callExpr) "tick" [])
      (.ident (.nowhere 23 .identExpr) "g"),
     .call (.nowhere 24 .callExpr) "add"
      [.call (.nowhere 25 .callExpr) "tick" [], .ident (.nowhere 26 .identExpr) "g"]]

def tallySetup : Setup where
  isGlobal name := name == "g"
  bindings := ⟨[(11, ⟨6, .paramDecl, "a"⟩), (12, ⟨7, .paramDecl, "b"⟩), (23, ⟨13, .varDecl, "g"⟩),
    (26, ⟨13, .varDecl, "g"⟩)]⟩
  hooks := ⟨.stack, .refuse⟩

/-- The expression is lowered in the last block of the sum, behind the declarations. -/
def tallied? : Option (State × Slot × State) :=
  match selectDone tallySetup tallyDecls tallyDecls {} with
  | .error .. => none
  | .ok _ s => match selectExpr tallySetup (.block ⟨1, 1⟩) tallyExpr s with
    | .error .. => none
    | .ok slot s' => some (s, slot, s')

theorem tallyExpr_computes : ∃ s slot s' code st',
    selectDone tallySetup tallyDecls tallyDecls {} = .ok () s ∧
      selectExpr tallySetup (.block ⟨1, 1⟩) tallyExpr s = .ok slot s' ∧
      Appended (.block ⟨1, 1⟩) code s.module s'.module ∧
      runIn counting s'.module code (⟨fun _ => some 7, [8]⟩, 1) = some (st', 5) ∧
      st'.stack = [8] ∧ st'.slots slot = some (1 + 7 + (2 + 7)) := by
  have hfacts : tallied?.any (fun (s, _, s') => decide (1 < s.module.count 1) &&
      (s.slots.slot? (some 13)).isSome &&
      s'.signatures.all fun sig => decide (sig.result ≠ .void)) = true := by
    decide +kernel
  cases hresult : tallied? with
  | none => simp [hresult] at hfacts
  | some result =>
  obtain ⟨s, slot, s'⟩ := result
  have hruns : selectDone tallySetup tallyDecls tallyDecls {} = .ok () s ∧
      selectExpr tallySetup (.block ⟨1, 1⟩) tallyExpr s = .ok slot s' := by
    rw [tallied?] at hresult
    split at hresult
    · cases hresult
    · next hdone =>
      split at hresult
      · cases hresult
      · next hexpr =>
        cases hresult
        exact ⟨hdone, hexpr⟩
  obtain ⟨hdone, hexpr⟩ := hruns
  simp only [hresult, Option.any_some, Bool.and_eq_true, decide_eq_true_eq, List.all_eq_true]
    at hfacts
  obtain ⟨⟨hcount, hheld⟩, hsigs⟩ := hfacts
  have hs := Underway.of_selectDone hdone
  have hvoid : ∀ callee, ¬IsVoid s' callee := by
    rintro callee ⟨sig, hsig, -, hvoid⟩
    exact hsigs sig hsig hvoid
  have hsuits : Suits counting s' tallyExpr := by
    refine ⟨fun callee => by simp [counting, hvoid], fun m _ tag callee args _ h =>
      absurd h (hvoid callee), fun tag callee args hm => ?_⟩
    simp [tallyExpr, Node.nodes, Node.walk, Node.walkAll] at hm
    rcases hm with ⟨-, rfl, rfl⟩ | ⟨-, rfl, rfl⟩ | ⟨-, rfl, rfl⟩ | ⟨-, rfl, rfl⟩ <;> rfl
  have hnames : ∀ P : Label → Prop, P 13 → NamesAt tallySetup P tallyExpr := by
    intro P hP tag name decl hm hbound
    simp [tallyExpr, Node.nodes, Node.walk, Node.walkAll] at hm
    rcases hm with ⟨rfl, -⟩ | ⟨rfl, -⟩ <;> cases hbound <;> exact hP
  obtain ⟨k, hk⟩ := Option.isSome_iff_exists.mp hheld
  have hvar : s.vars (⟨fun _ => some 7, [8]⟩ : Store Int) 13 = some 7 := by
    rw [State.vars, hk, Option.bind_some]
  have hvalid : (Point.block ⟨1, 1⟩).Valid s.module := hcount
  obtain ⟨code, happ, hcomputes⟩ :=
    selectExpr_computes rfl hs hvalid (hnames _ (by decide)) hexpr
  obtain ⟨v, w', st', heval, hrun, hstack, -, hvalue⟩ :=
    hcomputes Int Nat counting s' (Grows.refl s') (hs.selectExpr hexpr) hsuits
      ⟨fun _ => some 7, [8]⟩ 1 (hnames _ (by rw [hvar]; rfl))
  have hvalues : evalIn (reading counting.toMeaning tallySetup) counting.call
      (s.vars ⟨fun _ => some 7, [8]⟩) tallyExpr 1 = some (1 + 7 + (2 + 7), 5) := by
    have hop : opcodeFor? tallySetup .minus = some .sub := rfl
    have hfirst : tallySetup.bindings.find? 23 = some ⟨13, .varDecl, "g"⟩ := rfl
    have hsecond : tallySetup.bindings.find? 26 = some ⟨13, .varDecl, "g"⟩ := rfl
    simp [tallyExpr, evalIn, evalArgs, reading, Tag.nowhere, hvar, hop, hfirst, hsecond, counting,
      adding]
  obtain ⟨rfl, rfl⟩ := Prod.mk.inj (Option.some.inj (heval.symm.trans hvalues))
  exact ⟨s, slot, s', code, st', hdone, hexpr, happ, hrun, hstack,
    hvalue fun _ callee _ _ => hvoid callee⟩

end Isel.Select
