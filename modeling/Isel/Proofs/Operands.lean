import Isel.Proofs.Construction
import Isel.Proofs.Packing

/-!
# The operands that selection makes

Selection puts in only instructions whose operands are of the kinds that their opcodes take
(`Instr.Shaped`), and names only blocks that are there.  Constants are the numbers of the
program, `0` and `1`; a number that is too large for an immediate field is loaded all the same,
with a remark.

`Logs su vs log s s'` is the account of a part of a program in which the numbers `vs` are
lowered: the instructions it put in (`log`), and the remarks on numbers that it made.  It is
taken for each construct, and for one after the other by `Logged.trans`; `select_logged` is the
account of a program.  As in the making of a module by steps, nodes may be shared.
-/

namespace Isel.Syntax.Node

mutual

/-- The numbers that are lowered with a tree, in order.  Parameters and the target of a scan are
not lowered. -/
def numbers : Node → List (Tag × Int)
  | .absent | .bare _ | .param .. | .boolean .. | .ident .. | .string .. | .scan .. => []
  | .number tag value => [(tag, value)]
  | .program _ decls => numbersAll decls
  | .function _ _ _ _ body => numbers body
  | .var _ _ _ init => numbers init
  | .binary _ _ left right => numbers left ++ numbers right
  | .call _ _ args => numbersAll args
  | .compound _ stmts => numbersAll stmts
  | .ifThen _ cond body | .loop _ cond body => numbers cond ++ numbers body
  | .print _ expr | .ret _ expr => numbers expr

def numbersAll : List Node → List (Tag × Int)
  | [] => []
  | n :: rest => numbers n ++ numbersAll rest

end

end Isel.Syntax.Node

namespace Isel.Select

open Isel.Flow Isel.Syntax Isel.Proofs
open Isel.Syntax.Node (numbers numbersAll)

/-! ## Instructions of a module -/

/-- The instruction stands somewhere in the module. -/
def Has (m : Module) (i : Instr) : Prop := ∃ pt : Point, i ∈ pt.code m

theorem Emitted.has {pt : Point} {code : List Instr} {s s' : State} (h : Emitted pt code s s')
    (i : Instr) : Has s'.module i ↔ Has s.module i ∨ i ∈ code := by
  constructor
  · rintro ⟨q, hi⟩
    by_cases hq : q = pt
    · subst hq
      rw [h.here, List.mem_append] at hi
      exact hi.imp_left fun hi => ⟨q, hi⟩
    · rw [h.elsewhere q hq] at hi
      exact .inl ⟨q, hi⟩
  · rintro (⟨q, hi⟩ | hi)
    · by_cases hq : q = pt
      · subst hq
        refine ⟨q, ?_⟩
        rw [h.here, List.mem_append]
        exact .inl hi
      · refine ⟨q, ?_⟩
        rw [h.elsewhere q hq]
        exact hi
    · refine ⟨pt, ?_⟩
      rw [h.here, List.mem_append]
      exact .inr hi

theorem has_of_code {m m' : Module} (h : ∀ q : Point, q.code m' = q.code m) (i : Instr) :
    Has m' i ↔ Has m i := by
  unfold Has
  simp only [h]

/-! ## Hooks -/

/-- Values cross a call on the stack, if at all, and input and output put in simple instructions
only. -/
structure SimpleHooks (su : Setup) : Prop where
  convention : su.hooks.convention = .refuse ∨ su.hooks.convention = .stack
  io : ∀ served request out, request.isIO = true → su.hooks.io served request = .ok out →
    ∀ i ∈ out, Simple i

theorem SimpleHooks.emit {su : Setup} (hh : SimpleHooks su) : HooksEmit su Simple := by
  rintro i ⟨request, out, hout, hi⟩
  cases hio : request.isIO with
  | true =>
    obtain ⟨served, hout⟩ := hout
    rw [Hooks.answer, if_pos hio] at hout
    exact hh.io served request out hio hout i hi
  | false =>
    rw [answered_stack_or_refuse hh.convention.symm hio hout] at hi
    exact simple_stackInstrs request i hi

/-! ## The account of a part of a program -/

/-- The remark on a number that is too large for an immediate field. -/
def rangeRemark (n : Tag × Int) : Remark :=
  ⟨.immRange, n.1.pos, "Literal " ++ toString n.2 ++ " does not fit a 16-bit immediate."⟩

def rangeRemarks (su : Setup) (vs : List (Tag × Int)) : List Remark :=
  if su.config.warns .immRange then (vs.filter fun n => !fits16 n.2).map rangeRemark else []

def State.rangeRemarks (s : State) : List Remark :=
  s.remarks.filter fun r => r.warning = .immRange

/-- Between the states the instructions of `log` were put in and the numbers `vs` were lowered:
all operands are of the kinds that their opcodes take, all blocks that are named are there, and
the constants that are too large, and the remarks on them, are those of the numbers. -/
structure Logs (su : Setup) (vs : List (Tag × Int)) (log : List Instr) (s s' : State) : Prop where
  has : ∀ i, Has s'.module i ↔ Has s.module i ∨ i ∈ log
  shaped : ∀ i ∈ log, i.Shaped
  targets : ∀ i ∈ log, ∀ t, .block (some t) ∈ i.args → t.index < s'.module.count t.graph
  constants : ∀ v, fits16 v = false →
    ((∃ i ∈ log, .imm v ∈ i.args) ↔ ∃ tag, (tag, v) ∈ vs)
  remarks : s'.rangeRemarks = s.rangeRemarks ++ rangeRemarks su vs

/-- The numbers `vs` were lowered between the states, and there is an account of it. -/
def Logged (su : Setup) (vs : List (Tag × Int)) (s s' : State) : Prop := ∃ log, Logs su vs log s s'

section Logged

variable {su : Setup} {vs ws : List (Tag × Int)} {s s₁ s' : State}

theorem rangeRemarks_append (su : Setup) (vs ws : List (Tag × Int)) :
    rangeRemarks su (vs ++ ws) = rangeRemarks su vs ++ rangeRemarks su ws := by
  unfold rangeRemarks
  split
  · rw [List.filter_append, List.map_append]
  · rfl

/-- **One part behind another.** -/
theorem Logged.trans (h₁ : Logged su vs s s₁) (h₂ : Logged su ws s₁ s')
    (hcount : ∀ g, s₁.module.count g ≤ s'.module.count g) : Logged su (vs ++ ws) s s' := by
  obtain ⟨log, h₁⟩ := h₁
  obtain ⟨more, h₂⟩ := h₂
  refine ⟨log ++ more, ?_, ?_, ?_, ?_, ?_⟩
  · intro i
    rw [h₂.has, h₁.has, List.mem_append, or_assoc]
  · exact List.forall_mem_append.mpr ⟨h₁.shaped, h₂.shaped⟩
  · intro i hi t ht
    rcases List.mem_append.mp hi with hi | hi
    · exact Nat.lt_of_lt_of_le (h₁.targets i hi t ht) (hcount t.graph)
    · exact h₂.targets i hi t ht
  · intro v hv
    simp only [List.mem_append, or_and_right, exists_or, h₁.constants v hv, h₂.constants v hv]
  · rw [h₂.remarks, h₁.remarks, rangeRemarks_append, List.append_assoc]

theorem logged_nil (hcode : ∀ q : Point, q.code s'.module = q.code s.module)
    (hremarks : s'.rangeRemarks = s.rangeRemarks) : Logged su [] s s' := by
  refine ⟨[], ?_, by simp, by simp, by simp, ?_⟩
  · intro i
    rw [has_of_code hcode]
    simp
  · rw [hremarks]
    unfold rangeRemarks
    simp

theorem logged_same (hm : s'.module = s.module) (hremarks : s'.rangeRemarks = s.rangeRemarks) :
    Logged su [] s s' := logged_nil (fun q => by rw [hm]) hremarks

theorem Emitted.logged {pt : Point} {code : List Instr} (h : Emitted pt code s s')
    (hshaped : ∀ i ∈ code, i.Shaped)
    (htargets : ∀ i ∈ code, ∀ t, .block (some t) ∈ i.args → t.index < s.module.count t.graph)
    (hconstants : ∀ i ∈ code, ∀ v, .imm v ∈ i.args → fits16 v = true)
    (hremarks : s'.rangeRemarks = s.rangeRemarks) : Logged su [] s s' := by
  refine ⟨code, h.has, hshaped, ?_, ?_, ?_⟩
  · intro i hi t ht
    rw [h.count]
    exact htargets i hi t ht
  · intro v hv
    constructor
    · rintro ⟨i, hi, hmem⟩
      rw [hconstants i hi v hmem] at hv
      cases hv
    · rintro ⟨tag, hmem⟩
      cases hmem
  · rw [hremarks]
    unfold rangeRemarks
    simp

theorem Emitted.logged_number {pt : Point} {slot : Slot} {n : Tag × Int}
    (h : Emitted pt [⟨.loadImm, [.slot slot, .imm n.2]⟩] s s')
    (hremarks : s'.rangeRemarks = s.rangeRemarks ++ rangeRemarks su [n]) : Logged su [n] s s' := by
  refine ⟨_, h.has, ?_, by simp, ?_, hremarks⟩
  · intro i hi
    rw [List.mem_singleton.mp hi]
    exact .immediate rfl rfl rfl
  · intro v _
    simp [Prod.ext_iff]

end Logged

/-! ## Computations that stay at a point -/

theorem Point.Valid.mono {pt : Point} {m m' : Module} (h : pt.Valid m)
    (hcount : ∀ g, m.count g ≤ m'.count g) : pt.Valid m' := by
  cases pt with
  | globals => exact trivial
  | block r => exact Nat.lt_of_lt_of_le h (hcount r.graph)

/-- The computation only writes, and lowers the numbers `vs`. -/
structure Logging {α : Type} (su : Setup) (pt : Point) (vs : List (Tag × Int))
    (x : Selection α) : Prop where
  writing : Writing su x
  logged : ∀ s a s', pt.Valid s.module → Rooted s.module → x s = .ok a s' → Logged su vs s s'

section Logging

variable {α β : Type} {su : Setup} {pt : Point} {vs ws : List (Tag × Int)}

theorem Logging.bind_of_run {x : Selection α} {f : α → Selection β} (hx : Logging su pt vs x)
    (hf : ∀ s a s', x s = .ok a s' → Logging su pt ws (f a)) :
    Logging su pt (vs ++ ws) (x >>= f) := by
  refine ⟨hx.writing.bind_of_run fun s a s' h => (hf s a s' h).writing, ?_⟩
  intro s b s' hv hroot h
  rw [bind_eq_ok] at h
  obtain ⟨a, s₁, hrun, h⟩ := h
  have h₁ := hx.writing.steps hrun
  have hf := hf s a s₁ hrun
  have hlog := hf.logged s₁ b s' (hv.mono h₁.count_le) (hroot.steps h₁) h
  exact (hx.logged s a s₁ hv hroot hrun).trans hlog (hf.writing.steps h).count_le

theorem Logging.bind {x : Selection α} {f : α → Selection β} (hx : Logging su pt vs x)
    (hf : ∀ a, Logging su pt ws (f a)) : Logging su pt (vs ++ ws) (x >>= f) :=
  hx.bind_of_run fun _ a _ _ => hf a

theorem Logging.before {x : Selection α} {f : α → Selection β} (hx : Logging su pt [] x)
    (hf : ∀ a, Logging su pt ws (f a)) : Logging su pt ws (x >>= f) := hx.bind hf

theorem Logging.behind {x : Selection α} {f : α → Selection β} (hx : Logging su pt vs x)
    (hf : ∀ a, Logging su pt [] (f a)) : Logging su pt vs (x >>= f) := by
  have h := hx.bind hf
  rwa [List.append_nil] at h

theorem Logging.ite {c : Prop} [Decidable c] {x y : Selection α} (hx : Logging su pt vs x)
    (hy : Logging su pt vs y) : Logging su pt vs (if c then x else y) := by
  split
  · exact hx
  · exact hy

theorem logging_same {x : Selection α} (hx : Writing su x)
    (h : ∀ s a s', x s = .ok a s' → s'.module = s.module ∧ s'.remarks = s.remarks) :
    Logging su pt [] x := by
  refine ⟨hx, fun s a s' _ _ hrun => ?_⟩
  obtain ⟨hm, hremarks⟩ := h s a s' hrun
  apply logged_same hm
  unfold State.rangeRemarks
  rw [hremarks]

theorem logging_pure (a : α) : Logging su pt [] (pure a : Selection α) := by
  apply logging_same (writing_pure a)
  rintro s _ _ ⟨⟩
  exact ⟨rfl, rfl⟩

theorem logging_throw (e : Stop) : Logging su pt vs (throw e : Selection α) :=
  ⟨writing_throw e, fun _ _ _ _ _ h => nomatch h⟩

theorem logging_fail (pos : Source.Position) (cause : Cause) :
    Logging su pt vs (fail pos cause : Selection α) := logging_throw _

theorem logging_allocate (tag : Tag) : Logging su pt [] (allocate tag) := by
  apply logging_same (writing_allocate tag)
  intro s a s' h
  rw [allocate_eq_ok] at h
  rw [h.2.2]
  exact ⟨rfl, rfl⟩

theorem logging_claimSlot (tag : Tag) : Logging su pt [] (claimSlot tag) :=
  .ite (logging_allocate tag) (logging_fail ..)

theorem logging_lookup (pos : Source.Position) (decl : Decl) :
    Logging su pt [] (lookup pos decl) := by
  apply logging_same (writing_lookup pos decl)
  intro s a s' h
  rw [(lookup_eq_ok.mp h).2]
  exact ⟨rfl, rfl⟩

theorem logging_literalFor (bytes : List UInt8) : Logging su pt [] (literalFor su bytes) := by
  refine ⟨writing_literalFor bytes, fun s k s' _ _ h => ?_⟩
  rw [literalFor_apply] at h
  cases h
  obtain ⟨-, more, index, hmore⟩ := literalEntry_spec su bytes s.module
  apply logged_nil
  · intro q
    dsimp only
    rw [hmore]
    cases q <;> rfl
  · rfl

theorem logging_remark {w : Settings.Warning} (hw : w ≠ .immRange) (pos : Source.Position)
    (message : String) : Logging su pt [] (remark su w pos message) := by
  refine ⟨writing_remark w pos message, fun s a s' _ _ h => ?_⟩
  rw [remark_apply] at h
  cases h
  apply logged_same (remarked_module ..)
  unfold State.rangeRemarks State.remarked
  split
  · simp [hw]
  · rfl

theorem logging_operatorOpcode (pos : Source.Position) (op : Token) :
    Logging su pt [] (operatorOpcode su pos op) := by
  rw [operatorOpcode]
  split
  · exact logging_fail ..
  · refine .ite ?_ (logging_pure _)
    exact (logging_remark (by decide) ..).before fun _ => logging_pure _

theorem logging_emit {q : Point} {op : Machine.Opcode} {args : List Operand}
    (hop : op ∈ writtenOpcodes) (hq : ∀ m, pt.Valid m → q.Valid m)
    (hshaped : Instr.Shaped ⟨op, args⟩) (htargets : ∀ t, .block t ∉ args)
    (hconstants : ∀ v, .imm v ∈ args → fits16 v = true) : Logging su pt [] (emit q op args) := by
  refine ⟨writing_emit q args hop, fun s a s' hv _ h => ?_⟩
  rw [emit_apply] at h
  cases h
  refine (emitted_emit (hq _ hv) ⟨op, args⟩).logged ?_ ?_ ?_ rfl
  · intro i hi
    rw [List.mem_singleton.mp hi]
    exact hshaped
  · intro i hi t ht
    rw [List.mem_singleton.mp hi] at ht
    exact absurd ht (htargets _)
  · intro i hi v hv
    rw [List.mem_singleton.mp hi] at hv
    exact hconstants v hv

theorem logging_serve (hh : HooksEmit su Simple) (pos : Source.Position) (request : Request) :
    Logging su pt [] (serve su pos pt request) := by
  refine ⟨writing_serve pos pt request, fun s a s' hv _ h => ?_⟩
  obtain ⟨out, hout, hemit, -⟩ := emitted_serve hv h
  have hsimple : ∀ i ∈ out, Simple i := fun i hi => hh i ⟨request, out, ⟨_, hout⟩, hi⟩
  refine hemit.logged ?_ ?_ ?_ ?_
  · intro i hi
    cases hsimple i hi with
    | noOp => exact .none rfl rfl
    | push s => exact .registers [s] rfl rfl rfl
    | pop s => exact .registers [s] rfl rfl rfl
  · intro i hi t ht
    cases hsimple i hi <;> simp at ht
  · intro i hi v hv
    cases hsimple i hi <;> simp at hv
  · obtain ⟨_, -, rfl⟩ := serve_eq_ok.mp h
    rfl

theorem logging_hasResult (callee : String) : Logging su pt [] (hasResult callee) := by
  have hw : Writing su (hasResult callee) := writing_get.bind fun _ => writing_pure _
  apply logging_same hw
  intro s a s' h
  rw [hasResult_apply] at h
  cases h
  exact ⟨rfl, rfl⟩

theorem emitCall_logged (hh : HooksEmit su Simple) {tag : Tag} {callee : String} {t : BlockRef}
    {args : List Slot} {slot : Slot} {s s' : State} {u : Unit} (hv : pt.Valid s.module)
    (hroot : Rooted s.module) (ht : t.index < s.module.count t.graph)
    (h : emitCall su pt tag callee (some t) args slot s = .ok u s') : Logged su [] s s' := by
  have hresult : Logging su pt [] (do
      if ← hasResult callee then serve su tag.pos pt (.resultIn slot) : Selection Unit) :=
    (logging_hasResult callee).before fun _ => .ite (logging_serve hh ..) (logging_pure _)
  have hemit : Writing su (emit pt .call [.block (some t)]) := writing_emit pt _ (by decide)
  have hcall : ∀ s : State, pt.Valid s.module → Rooted s.module →
      t.index < s.module.count t.graph → (do
        emit pt .call [.block (some t)]
        if ← hasResult callee then serve su tag.pos pt (.resultIn slot) : Selection Unit) s =
          .ok u s' → Logged su [] s s' := by
    intro s hv hroot ht h
    have hsteps := hemit.steps (emit_apply pt .call [.block (some t)] s)
    have hlog : Logged su [] s (s.emit pt ⟨.call, [.block (some t)]⟩) := by
      refine (emitted_emit hv _).logged ?_ ?_ (by simp) rfl
      · intro i hi
        rw [List.mem_singleton.mp hi]
        exact .target rfl rfl
      · intro i hi t' ht'
        rw [List.mem_singleton.mp hi] at ht'
        cases List.mem_singleton.mp ht'
        exact ht
    exact hlog.trans (hresult.logged _ u s' (hv.mono hsteps.count_le) (hroot.steps hsteps) h)
      (hresult.writing.steps h).count_le
  rw [emitCall] at h
  split at h
  · rw [bind_eq_ok] at h
    obtain ⟨_, s₁, hserve, h⟩ := h
    have hargs : Logging su pt [] (serve su tag.pos pt (.argsOut args)) := logging_serve hh ..
    have hsteps := hargs.writing.steps hserve
    have hlog := hcall s₁ (hv.mono hsteps.count_le) (hroot.steps hsteps)
      (Nat.lt_of_lt_of_le ht (hsteps.count_le t.graph)) h
    have hrest := (hemit.bind fun _ => hresult.writing).steps h
    exact (hargs.logged s _ s₁ hv hroot hserve).trans hlog hrest.count_le
  · exact hcall s hv hroot ht h

theorem logging_selectArgs : ∀ ns : List Node,
    (∀ n ∈ ns, Logging su pt (numbers n) (selectExpr su pt n)) →
      Logging su pt (numbersAll ns) (selectArgs su pt ns) := by
  intro ns
  induction ns with
  | nil =>
    intro _
    rw [selectArgs, numbersAll]
    exact logging_pure _
  | cons n ns ih =>
    intro h
    rw [List.forall_mem_cons] at h
    rw [selectArgs, numbersAll]
    exact h.1.bind fun _ => (ih h.2).behind fun _ => logging_pure _

theorem rangeRemarks_remarked {value : Int} (h : fits16 value = false) (tag : Tag) (s : State) :
    (s.remarked su .immRange tag.pos
        ("Literal " ++ toString value ++ " does not fit a 16-bit immediate.")).rangeRemarks =
      s.rangeRemarks ++ rangeRemarks su [(tag, value)] := by
  unfold State.remarked rangeRemarks State.rangeRemarks
  by_cases hw : su.config.warns .immRange = true
  · simp [hw, h, rangeRemark]
  · simp [hw]

theorem logging_number (tag : Tag) (value : Int) :
    Logging su pt [(tag, value)] (selectExpr su pt (.number tag value)) := by
  rw [selectExpr]
  refine (logging_claimSlot tag).before fun slot => ?_
  have hload : Writing su (do
      emit pt .loadImm [.slot slot, .imm value]
      return slot : Selection Slot) :=
    (writing_emit pt _ (by decide)).bind fun _ => writing_pure _
  by_cases hfits : fits16 value = true
  · rw [hfits]
    refine ⟨hload, fun s a s' hv _ h => ?_⟩
    cases h
    apply (emitted_emit hv ⟨.loadImm, [.slot slot, .imm value]⟩).logged_number
    show s.rangeRemarks = s.rangeRemarks ++ rangeRemarks su [(tag, value)]
    simp [rangeRemarks, hfits]
  · rw [Bool.not_eq_true] at hfits
    rw [hfits]
    refine ⟨(writing_remark ..).bind fun _ => hload, fun s a s' hv _ h => ?_⟩
    simp only [Bool.not_false, if_true, remark_bind_apply, emit_bind_apply] at h
    cases h
    -- The remark is made first, and the number is loaded all the same.
    have hremark := emitted_remarked su .immRange tag.pos
      ("Literal " ++ toString value ++ " does not fit a 16-bit immediate.") s pt
    have hemit := emitted_emit (hremark.valid hv) ⟨.loadImm, [.slot slot, .imm value]⟩
    apply (hremark.trans hemit).logged_number
    exact rangeRemarks_remarked hfits tag s

theorem info_of_mem_binaryOpcodes {op : Machine.Opcode} (h : op ∈ binaryOpcodes) :
    ∃ info, op.info? = some info ∧ info.form = .reg ∧ info.operands = 3 := by
  simp only [binaryOpcodes, List.mem_cons, List.not_mem_nil, or_false] at h
  rcases h with rfl | rfl | rfl | rfl | rfl | rfl | rfl | rfl | rfl | rfl | rfl | rfl <;>
    exact ⟨_, rfl, rfl, rfl⟩

/-- A call has the numbers of its arguments: the code that passes them on has none. -/
theorem logging_call (hh : HooksEmit su Simple) (tag : Tag) (callee : String) {args : List Node}
    (hargs : ∀ n ∈ args, Logging su pt (numbers n) (selectExpr su pt n)) :
    Logging su pt (numbersAll args) (selectExpr su pt (.call tag callee args)) := by
  refine ⟨writing_selectExpr pt _, fun s slot' s' hv hroot h => ?_⟩
  rw [selectExpr, bind_eq_ok] at h
  obtain ⟨slot, s₁, hclaim, h⟩ := h
  rw [bind_eq_ok] at h
  obtain ⟨entry, s₂, hentry, h⟩ := h
  obtain ⟨rfl, f, hf, rfl⟩ := calleeEntry_eq_ok.mp hentry
  rw [bind_eq_ok] at h
  obtain ⟨slots, s₃, hslots, h⟩ := h
  rw [bind_eq_ok] at h
  obtain ⟨_, s₄, hcall, h⟩ := h
  cases h
  have hslot : Logging su pt [] (claimSlot tag) := logging_claimSlot tag
  have h₁ := hslot.writing.steps hclaim
  have hv₁ := hv.mono h₁.count_le
  have hroot₁ := hroot.steps h₁
  have hpos := hroot₁ f (List.mem_of_find?_eq_some hf)
  rw [(entry?_of_count hpos).1] at hcall
  have hselect : Logging su pt (numbersAll args) (selectArgs su pt args) :=
    logging_selectArgs args hargs
  have h₂ := hselect.writing.steps hslots
  have hlog := emitCall_logged hh (hv₁.mono h₂.count_le) (hroot₁.steps h₂)
    (Nat.lt_of_lt_of_le hpos (h₂.count_le f.graph)) hcall
  have h₃ := (writing_emitCall ..).steps hcall
  have h₂₃ : Steps su s₂.module s'.module := h₂.trans h₃
  have hall := (hselect.logged s₂ slots s₃ hv₁ hroot₁ hslots).trans hlog h₃.count_le
  rw [List.append_nil] at hall
  exact (hslot.logged s _ s₂ hv hroot hclaim).trans hall h₂₃.count_le

/-- **Lowering an expression accounts for its numbers.** -/
theorem logging_selectExpr (hh : HooksEmit su Simple) :
    ∀ n : Node, Logging su pt (numbers n) (selectExpr su pt n) := by
  intro n
  induction n using Node.parts_induction with
  | _ n ih _ =>
  cases n with
  | absent =>
    rw [selectExpr]
    exact logging_fail ..
  | number tag value => exact logging_number tag value
  | boolean tag value =>
    rw [selectExpr, numbers]
    refine (logging_claimSlot tag).before fun slot => ?_
    refine Logging.before ?_ fun _ => logging_pure _
    refine logging_emit (by decide) (fun _ => id) (.immediate rfl rfl rfl) (by simp) ?_
    intro v hv
    simp only [List.mem_cons, Operand.imm.injEq, List.not_mem_nil, or_false, reduceCtorEq,
      false_or] at hv
    rw [hv]
    cases value <;> rfl
  | ident tag name =>
    rw [selectExpr, numbers]
    refine (logging_claimSlot tag).before fun slot => ?_
    split
    · exact logging_fail ..
    · refine (logging_lookup ..).before fun source => ?_
      refine Logging.before ?_ fun _ => logging_pure _
      exact logging_emit (by decide) (fun _ => id) (.registers [slot, source] rfl rfl rfl)
        (by simp) (by simp)
  | string tag bytes =>
    rw [selectExpr, numbers]
    refine (logging_claimSlot tag).before fun slot => ?_
    refine (logging_literalFor bytes).before fun literal => ?_
    refine Logging.before ?_ fun _ => logging_pure _
    exact logging_emit (by decide) (fun _ => id) (.immediate rfl rfl rfl) (by simp) (by simp)
  | binary tag op left right =>
    rw [selectExpr, numbers]
    refine (logging_claimSlot tag).before fun slot => ?_
    refine (ih left (by simp [Node.parts])).bind fun lhs => ?_
    refine (ih right (by simp [Node.parts])).behind fun rhs => ?_
    refine (logging_operatorOpcode ..).bind_of_run fun s opcode s' hrun => ?_
    have hmem := mem_binaryOpcodes (operatorOpcode_eq_ok hrun pt).1
    refine Logging.before ?_ fun _ => logging_pure _
    obtain ⟨info, hinfo, hform, hoperands⟩ := info_of_mem_binaryOpcodes hmem
    exact logging_emit (by simp [writtenOpcodes, exprOpcodes, hmem]) (fun _ => id)
      (.registers [slot, lhs, rhs] hinfo hform hoperands.symm) (by simp) (by simp)
  | call tag callee args => exact logging_call hh tag callee ih
  | bare | program | function | param | var | compound | ifThen | print | ret | scan | loop =>
    rw [selectExpr]
    exact (logging_claimSlot _).before fun _ => logging_fail ..

/-- The copy of a variable goes behind the code of its initializer, or to the global sequence. -/
theorem logging_selectVar (hh : HooksEmit su Simple) (tag : Tag) (name : String) (init : Node) :
    Logging su pt (numbers init) (selectVar su pt tag name init) := by
  have hmov : ∀ (q : Point) (slot source : Slot), (∀ m, pt.Valid m → q.Valid m) →
      Logging su pt [] (emit q .mov [.slot slot, .slot source]) :=
    fun q slot source hq => logging_emit (by decide) hq (.registers [slot, source] rfl rfl rfl)
      (by simp) (by simp)
  by_cases hinit : init = .absent
  · subst hinit
    rw [selectVar, numbers]
    exact logging_pure _
  · rw [selectVar_of_ne hinit]
    refine (logging_selectExpr hh init).behind fun source => ?_
    refine (logging_allocate tag).before fun slot => ?_
    refine .ite (hmov .globals slot source fun _ _ => trivial) ?_
    cases pt with
    | globals => exact logging_fail ..
    | block r => exact hmov _ slot source fun _ => id

theorem logging_scannedSlot (tag : Tag) (target : Node) :
    Logging su pt [] (scannedSlot su tag target) := by
  have hadd : ∀ decl : Decl, Logging su pt [] (lookupOrAdd decl) := by
    intro decl
    apply logging_same (writing_lookupOrAdd decl)
    intro s a s' h
    rw [lookupOrAdd, get_bind_apply] at h
    cases hslot : s.slots.slot? (some decl.label) with
    | none =>
      simp only [hslot] at h
      cases h
      exact ⟨rfl, rfl⟩
    | some slot =>
      simp only [hslot] at h
      cases h
      exact ⟨rfl, rfl⟩
  rw [scannedSlot]
  split
  · exact logging_fail ..
  · refine .ite (logging_fail ..) ?_
    split
    · split
      · exact logging_fail ..
      · exact hadd _
    · exact logging_fail ..

theorem logging_selectExprStmt (hh : HooksEmit su Simple) (n : Node) (r : BlockRef) :
    Logging su (.block r) (numbers n) (selectExprStmt su n r) := by
  rw [selectExprStmt]
  split
  · exact logging_throw _
  · have hexpr : Logging su (.block r) (numbers n) (selectExpr su (.block r) n) :=
      logging_selectExpr hh n
    have hend := hexpr.behind fun _ => logging_pure ()
    refine .ite (logging_fail ..) ?_
    exact .ite ((logging_remark (by decide) ..).before fun _ => hend) hend

theorem logging_selectStmt (hh : HooksEmit su Simple) {n : Node} (hn : hasBody n = false)
    (r : BlockRef) : Logging su (.block r) (numbers n) (selectStmt su n r) := by
  have hexpr : Logging su (.block r) (numbers n) (do
      selectExprStmt su n r
      return r : Selection BlockRef) :=
    (logging_selectExprStmt hh n r).behind fun _ => logging_pure _
  cases n with
  | compound | ifThen | loop => cases hn
  | var tag name type init =>
    rw [selectStmt, numbers]
    exact (logging_selectVar hh ..).behind fun _ => logging_pure _
  | ret tag expr =>
    rw [selectStmt, numbers]
    have hend : Logging su (.block r) [] (do
        emit (.block r) .ret []
        return r : Selection BlockRef) :=
      (logging_emit (by decide) (fun _ => id) (.none rfl rfl) (by simp) (by simp)).before
        fun _ => logging_pure _
    cases expr with
    | absent => exact hend
    | _ =>
      exact (logging_selectExpr hh _).behind fun _ => (logging_serve hh ..).before fun _ => hend
  | print tag expr =>
    rw [selectStmt, numbers]
    exact (logging_selectExpr hh expr).behind fun _ => (logging_serve hh ..).before fun _ =>
      logging_pure _
  | scan tag target =>
    rw [selectStmt, numbers]
    exact (logging_scannedSlot tag target).before fun _ => (logging_serve hh ..).before fun _ =>
      logging_pure _
  | _ =>
    simp only [selectStmt]
    exact hexpr

end Logging

/-! ## Statements -/

section Statements

variable {su : Setup} {s s' : State} {g : Nat} {r q t : BlockRef} {u : Unit}

theorem Inside.valid {m : Module} (hr : Inside m g r) : (Point.block r).Valid m := by
  obtain ⟨rfl, hlt⟩ := hr
  exact hlt

variable (su) in
theorem openBlock_logged (h : openBlock r s = .ok q s') (hr : Inside s.module g r) :
    Logged su [] s s' := by
  obtain ⟨rfl, hlt⟩ := hr
  have hopened := opened_openedModule (Nat.zero_lt_of_lt hlt)
  rw [openBlock_apply] at h
  cases h
  exact logged_nil hopened.code rfl

variable (su) in
theorem jump_logged (h : jump r t s = .ok u s') (hr : Inside s.module g r)
    (ht : Inside s.module g t) : Logged su [] s s' := by
  obtain ⟨s₁, hs₁, hemit, -⟩ := jump_spec hr.valid t
  rw [hs₁] at h
  cases h
  refine hemit.logged ?_ ?_ (by simp [jumpTo]) ?_
  · intro i hi
    rw [List.mem_singleton.mp hi]
    exact .target rfl rfl
  · intro i hi t' ht'
    rw [List.mem_singleton.mp hi] at ht'
    cases List.mem_singleton.mp ht'
    rw [ht.1]
    exact ht.2
  · cases hs₁
    rfl

variable (su) in
theorem emitBranch_logged {cond : Slot} {yes no : BlockRef}
    (h : emitBranch r cond yes no s = .ok u s') (hr : Inside s.module g r)
    (hyes : Behind s.module g yes) (hno : Behind s.module g no) (hroot : Rooted s.module) :
    Logged su [] s s' := by
  rw [emitBranch, bind_eq_ok] at h
  obtain ⟨_, s₁, htest, h⟩ := h
  rw [bind_eq_ok] at h
  obtain ⟨_, s₂, hjump, h⟩ := h
  have hemit : Logging su (.block r) [] (emit (.block r) .tst [.slot cond, .imm 1]) :=
    logging_emit (by decide) (fun _ => id) (.immediate rfl rfl rfl) (by simp)
      (by simp [fits16])
  have h₁ := hemit.writing.steps htest
  have h₂ := jump_steps su hjump (hr.mono h₁) (hyes.mono h₁)
  have h₁₂ : Steps su s.module s₂.module := h₁.trans h₂
  have h₃ := jump_steps su h (hr.mono h₁₂) (hno.mono h₁₂)
  have hlog₁ := hemit.logged s _ s₁ hr.valid hroot htest
  have hlog₂ := jump_logged su hjump (hr.mono h₁) (hyes.mono h₁).2
  have hlog₃ := jump_logged su h (hr.mono h₁₂) (hno.mono h₁₂).2
  exact (hlog₁.trans hlog₂ h₂.count_le).trans hlog₃ h₃.count_le

/-- Lowering the statement accounts for its numbers. -/
def Accounts (su : Setup) (n : Node) : Prop :=
  ∀ g r s q s', selectStmt su n r s = .ok q s' → Inside s.module g r → Rooted s.module →
    Logged su (numbers n) s s'

theorem selectStmts_logged : ∀ ns : List Node, (∀ n ∈ ns, Accounts su n) →
    ∀ (returned : Bool) (r : BlockRef) (s : State) (q : BlockRef) (s' : State),
      selectStmts su returned ns r s = .ok q s' → Inside s.module g r → Rooted s.module →
        Logged su (numbersAll ns) s s' := by
  intro ns
  induction ns with
  | nil =>
    intro _ returned r s q s' h _ _
    rw [selectStmts] at h
    cases h
    exact logged_same rfl rfl
  | cons n ns ih =>
    intro hstmt returned r s q s' h hr hroot
    rw [List.forall_mem_cons] at hstmt
    have hrest : ∀ (again : Bool) (s : State), Inside s.module g r → Rooted s.module →
        (selectStmt su n r >>= fun current => selectStmts su again ns current) s = .ok q s' →
          Steps su s.module s'.module ∧ Logged su (numbers n ++ numbersAll ns) s s' := by
      intro again s hr hroot h
      rw [bind_eq_ok] at h
      obtain ⟨mid, s₁, hn, hns⟩ := h
      obtain ⟨h₁, hmid⟩ := advances_selectStmt n g r s mid s₁ hn hr
      have h₂ := (selectStmts_steps ns (fun n _ => advances_selectStmt n) _ mid s₁ q s' hns hmid).1
      have hlog := ih hstmt.2 _ mid s₁ q s' hns hmid (hroot.steps h₁)
      exact ⟨h₁.trans h₂, (hstmt.1 g r s mid s₁ hn hr hroot).trans hlog h₂.count_le⟩
    rw [numbersAll]
    rw [selectStmts] at h
    split at h
    · rw [bind_eq_ok] at h
      obtain ⟨_, s₀, hremark, h⟩ := h
      have hunreachable : Logging su (.block r) [] (remarkUnreachable su n) := by
        rw [remarkUnreachable]
        split
        · exact logging_throw _
        · exact logging_remark (by decide) ..
      have h₀ := hunreachable.writing.steps hremark
      obtain ⟨h₁, hlog⟩ := hrest _ s₀ (hr.mono h₀) (hroot.steps h₀) h
      exact (hunreachable.logged s _ s₀ hr.valid hroot hremark).trans hlog h₁.count_le
    · exact (hrest _ s hr hroot h).2

theorem openBody_logged {tag : Tag} {stmts : List Node} {first last : BlockRef} {s₁ : State}
    (hstmts : ∀ n ∈ stmts, Accounts su n) (hopen : openBody tag r s = .ok first s₁)
    (h : selectStmts su false stmts first s₁ = .ok last s') (hr : Inside s.module g r)
    (hroot : Rooted s.module) : Logged su (numbersAll stmts) s s' := by
  rw [openBody] at hopen
  split at hopen
  · obtain ⟨h₁, hfirst⟩ := openBlock_steps su hopen hr
    have h₂ := (selectStmts_steps stmts (fun n _ => advances_selectStmt n) _ _ _ _ _ h hfirst.2).1
    have hlog := selectStmts_logged stmts hstmts false first s₁ last s' h hfirst.2 (hroot.steps h₁)
    exact (openBlock_logged su hopen hr).trans hlog h₂.count_le
  · cases hopen

theorem selectBody_logged {body : Node} {first last : BlockRef}
    (hparts : ∀ n ∈ body.parts, Accounts su n)
    (h : selectBody su body r s = .ok (first, last) s') (hr : Inside s.module g r)
    (hroot : Rooted s.module) : Logged su (numbers body) s s' := by
  cases body with
  | compound tag stmts =>
    rw [selectBody, bind_eq_ok] at h
    obtain ⟨entry, s₁, hopen, h⟩ := h
    rw [bind_eq_ok] at h
    obtain ⟨q, s₂, hstmts, h⟩ := h
    cases h
    rw [numbers]
    exact openBody_logged hparts hopen hstmts hr hroot
  | absent => simp [selectBody, Node.tag?] at h
  | _ =>
    simp only [selectBody, Node.tag?] at h
    rw [bind_eq_ok] at h
    obtain ⟨_, _, -, h⟩ := h
    cases h

theorem accounts_ifThen (hh : HooksEmit su Simple) {tag : Tag} {cond body : Node}
    (hparts : ∀ n ∈ body.parts, Accounts su n) : Accounts su (.ifThen tag cond body) := by
  intro g r s q s' h hr hroot
  rw [selectStmt, bind_eq_ok] at h
  obtain ⟨slot, s₁, hcond, h⟩ := h
  rw [bind_eq_ok] at h
  obtain ⟨⟨first, last⟩, s₂, hbody, h⟩ := h
  rw [bind_eq_ok] at h
  obtain ⟨exit, s₃, hopen, h⟩ := h
  rw [bind_eq_ok] at h
  obtain ⟨_, s₄, hbranch, h⟩ := h
  rw [bind_eq_ok] at h
  obtain ⟨_, s₅, hjump, h⟩ := h
  cases h
  have hexpr : Logging su (.block r) (numbers cond) (selectExpr su (.block r) cond) :=
    logging_selectExpr hh cond
  have h₁ := hexpr.writing.steps hcond
  have hr₁ := hr.mono h₁
  have hroot₁ := hroot.steps h₁
  obtain ⟨h₂, hfirst, hlast⟩ := selectBody_steps (fun n _ => advances_selectStmt n) hbody hr₁
  obtain ⟨h₃, hexit⟩ := openBlock_steps su hopen hlast
  have h₂₃ : Steps su s₁.module s₃.module := h₂.trans h₃
  have h₄ := emitBranch_steps su hbranch (hr₁.mono h₂₃) (hfirst.mono h₃) hexit
  have h₃₄ : Steps su s₂.module s₄.module := h₃.trans h₄
  have h₅ := jump_steps su hjump (hlast.mono h₃₄) (hexit.mono h₄)
  -- Only the condition and the body hold numbers.
  have hlog₁ := hexpr.logged s slot s₁ hr.valid hroot hcond
  have hlog₂ := selectBody_logged hparts hbody hr₁ hroot₁
  have hlog₃ := openBlock_logged su hopen hlast
  have hlog₄ := emitBranch_logged su hbranch (hr₁.mono h₂₃) (hfirst.mono h₃) hexit
    (hroot₁.steps h₂₃)
  have hlog₅ := jump_logged su hjump (hlast.mono h₃₄) (hexit.mono h₄).2
  have hlog := (((hlog₁.trans hlog₂ h₂.count_le).trans hlog₃ h₃.count_le).trans hlog₄
    h₄.count_le).trans hlog₅ h₅.count_le
  simpa [numbers] using hlog

theorem accounts_loop (hh : HooksEmit su Simple) {tag : Tag} {cond body : Node}
    (hparts : ∀ n ∈ body.parts, Accounts su n) : Accounts su (.loop tag cond body) := by
  intro g r s q s' h hr hroot
  rw [selectStmt, bind_eq_ok] at h
  obtain ⟨header, s₁, hheader, h⟩ := h
  rw [bind_eq_ok] at h
  obtain ⟨slot, s₂, hcond, h⟩ := h
  rw [bind_eq_ok] at h
  obtain ⟨⟨first, last⟩, s₃, hbody, h⟩ := h
  rw [bind_eq_ok] at h
  obtain ⟨_, s₄, hjump, h⟩ := h
  rw [bind_eq_ok] at h
  obtain ⟨exit, s₅, hopen, h⟩ := h
  rw [bind_eq_ok] at h
  obtain ⟨_, s₆, hbranch, h⟩ := h
  cases h
  have hexpr : Logging su (.block header) (numbers cond) (selectExpr su (.block header) cond) :=
    logging_selectExpr hh cond
  obtain ⟨h₁, hhead⟩ := openBlock_steps su hheader hr
  have hroot₁ := hroot.steps h₁
  have h₂ := hexpr.writing.steps hcond
  have hroot₂ := hroot₁.steps h₂
  obtain ⟨h₃, hfirst, hlast⟩ :=
    selectBody_steps (fun n _ => advances_selectStmt n) hbody (hhead.mono h₂).2
  have hhead₃ := (hhead.mono h₂).mono h₃
  have h₄ := jump_steps su hjump hlast hhead₃
  obtain ⟨h₅, hexit⟩ := openBlock_steps su hopen (hlast.mono h₄)
  have h₄₅ : Steps su s₃.module s₅.module := h₄.trans h₅
  have h₆ := emitBranch_steps su hbranch (hhead₃.mono h₄₅).2 (hfirst.mono h₄₅) hexit
  have hlog₁ := openBlock_logged su hheader hr
  have hlog₂ := hexpr.logged s₁ slot s₂ hhead.2.valid hroot₁ hcond
  have hlog₃ := selectBody_logged hparts hbody (hhead.mono h₂).2 hroot₂
  have hlog₄ := jump_logged su hjump hlast hhead₃.2
  have hlog₅ := openBlock_logged su hopen (hlast.mono h₄)
  have hlog₆ := emitBranch_logged su hbranch (hhead₃.mono h₄₅).2 (hfirst.mono h₄₅) hexit
    ((hroot₂.steps h₃).steps h₄₅)
  have hlog := ((((hlog₁.trans hlog₂ h₂.count_le).trans hlog₃ h₃.count_le).trans hlog₄
    h₄.count_le).trans hlog₅ h₅.count_le).trans hlog₆ h₆.count_le
  simpa [numbers] using hlog

/-- **Lowering a statement accounts for its numbers.** -/
theorem accounts_selectStmt (hh : HooksEmit su Simple) : ∀ n : Node, Accounts su n := by
  intro n
  induction n using Node.parts_induction with
  | _ n ih ih₂ =>
  cases n with
  | compound tag stmts =>
    intro g r s q s' h hr hroot
    rw [selectStmt, bind_eq_ok] at h
    obtain ⟨entry, s₁, hopen, h⟩ := h
    rw [numbers]
    exact openBody_logged ih hopen h hr hroot
  | ifThen tag cond body => exact accounts_ifThen hh (ih₂ body (by simp [Node.parts]))
  | loop tag cond body => exact accounts_loop hh (ih₂ body (by simp [Node.parts]))
  | _ =>
    intro g r s q s' h hr hroot
    exact (logging_selectStmt hh rfl r).logged s q s' hr.valid hroot h

end Statements

/-! ## Programs -/

section Program

variable {su : Setup} {s s' : State} {u : Unit}

theorem reserveFunction_logged {tag : Tag} {name : String} {result : ValueType} {g : Nat}
    (h : reserveFunction tag name result s = .ok g s') : Logged su [] s s' := by
  apply logged_nil (reserveFunction_eq_ok h).code
  rw [reserveFunction_apply] at h
  split at h
  · cases h
  · cases h
    rfl

theorem functionGraph_logged {tag : Tag} {name : String} {result : ValueType} {g : Nat}
    (h : functionGraph tag name result s = .ok g s') : Logged su [] s s' := by
  rcases functionGraph_cases h with ⟨rfl, -, -⟩ | hres
  · exact logged_same rfl rfl
  · exact reserveFunction_logged hres

theorem logging_selectParams {pt : Point} (function : String) : ∀ params : List Node,
    Logging su pt [] (selectParams function params) := by
  intro params
  induction params with
  | nil =>
    rw [selectParams]
    exact logging_pure _
  | cons p params ih =>
    rw [selectParams]
    split
    · exact logging_throw _
    · refine .ite (logging_fail ..) ?_
      exact (logging_allocate _).before fun slot => ih.before fun rest => logging_pure _

theorem params_logged (hh : HooksEmit su Simple) {name : String} {params : List Node}
    {slots : List Slot} {pos : Source.Position} {pt : Point} {s₁ : State}
    (hv : pt.Valid s.module) (hroot : Rooted s.module)
    (hparams : selectParams name params s = .ok slots s₁)
    (hserve : serve su pos pt (.paramsIn slots) s₁ = .ok u s') : Logged su [] s s' := by
  have hin : Logging su pt [] (do
      let slots ← selectParams name params
      serve su pos pt (.paramsIn slots)) :=
    (logging_selectParams name params).before fun _ => logging_serve hh ..
  exact hin.logged s u s' hv hroot (bind_eq_ok.mpr ⟨slots, s₁, hparams, hserve⟩)

theorem selectFunction_logged (hh : HooksEmit su Simple) {tag : Tag} {name : String}
    {params : List Node} {result : ValueType} {body : Node} (hroot : Rooted s.module)
    (h : selectFunction su tag name params result body s = .ok u s') :
    Logged su (numbers body) s s' := by
  obtain ⟨g, s₁, s₂, ⟨first, last⟩, hgraph, hparams, hbody⟩ := selectFunction_eq_ok h
  obtain ⟨h₁, hentry⟩ := functionGraph_steps su hroot hgraph
  have hroot₁ := hroot.steps h₁
  have hin : Steps su s₁.module s₂.module ∧ Logged su [] s₁ s₂ := by
    rcases hparams with ⟨-, rfl⟩ | ⟨slots, s₃, hparams, hserve⟩
    · exact ⟨.refl, logged_same rfl rfl⟩
    · exact ⟨params_steps hparams hserve,
        params_logged hh hentry.valid hroot₁ hparams hserve⟩
  obtain ⟨h₂, hlog₂⟩ := hin
  have hr := hentry.mono h₂
  have h₃ := (selectBody_steps (fun n _ => advances_selectStmt n) hbody hr).1
  have hlog₃ := selectBody_logged (fun n _ => accounts_selectStmt hh n) hbody hr (hroot₁.steps h₂)
  exact ((functionGraph_logged hgraph).trans hlog₂ h₂.count_le).trans hlog₃ h₃.count_le

theorem selectDecl_logged (hh : HooksEmit su Simple) {d : Node} (hroot : Rooted s.module)
    (h : selectDecl su d s = .ok u s') : Logged su (numbers d) s s' := by
  cases selectDecl_eq_ok h with
  | @function tag name params result body hk =>
    simp only [selectDecl, Node.tag?, hk] at h
    rw [numbers]
    exact selectFunction_logged hh hroot h
  | @var tag name type init hk =>
    simp only [selectDecl, Node.tag?, hk] at h
    have hvar : Logging su .globals (numbers init) (selectVar su .globals tag name init) :=
      logging_selectVar hh tag name init
    rw [numbers]
    exact hvar.logged s u s' trivial hroot h

theorem reserveDecl_logged {d : Node} (h : reserveDecl d s = .ok u s') : Logged su [] s s' := by
  rcases reserveDecl_cases h with rfl | ⟨_, _, _, _, _, _, -, hres⟩
  · exact logged_same rfl rfl
  · exact reserveFunction_logged hres

theorem forM_logged {f : Node → Selection Unit} (vs : Node → List (Tag × Int))
    (hsteps : ∀ d s s', Rooted s.module → f d s = .ok u s' → Steps su s.module s'.module)
    (hf : ∀ d s s', Rooted s.module → f d s = .ok u s' → Logged su (vs d) s s') :
    ∀ (ds : List Node) (s s' : State), Rooted s.module → ds.forM f s = .ok u s' →
      Logged su (ds.flatMap vs) s s' := by
  intro ds s s' hroot h
  refine (forM_induction (I := fun done t => Rooted t.module ∧ Logged su (done.flatMap vs) s t)
    (fun done d rest _ t t' ht hd => ?_) ⟨hroot, logged_same rfl rfl⟩ h).2
  have hd' := hsteps d t t' ht.1 hd
  rw [List.flatMap_append, List.flatMap_singleton]
  exact ⟨ht.1.steps hd', ht.2.trans (hf d t t' ht.1 hd) hd'.count_le⟩

theorem numbersAll_eq : ∀ ns : List Node, numbersAll ns = ns.flatMap numbers := by
  intro ns
  induction ns with
  | nil => rfl
  | cons n ns ih => rw [numbersAll, ih, List.flatMap_cons]

/-- **Selection accounts for the numbers of its program.** -/
theorem select_logged (hh : HooksEmit su Simple) {root : Node} {fin : State}
    (h : select su root = .ok u fin) : Logged su (numbers root) {} fin := by
  obtain ⟨tag, decls, rfl⟩ := select_program h
  have hempty : Rooted ({} : State).module := by simp [Rooted]
  have hdecls : ∀ s, Rooted s.module → decls.forM (selectDecl su) s = .ok u fin →
      Steps su s.module fin.module ∧ Logged su (numbers (.program tag decls)) s fin := by
    intro s hroot h
    rw [numbers, numbersAll_eq]
    exact ⟨forM_steps (fun d s s' => selectDecl_steps) decls s fin hroot h,
      forM_logged numbers (fun d s s' => selectDecl_steps) (fun d s s' => selectDecl_logged hh)
        decls s fin hroot h⟩
  rw [select_of_kind su (select_isDecl h).1, selectDecls] at h
  split at h
  · rw [bind_eq_ok] at h
    obtain ⟨_, s, hres, h⟩ := h
    have h₁ : Steps su {} s.module :=
      forM_steps (fun d s s' _ h => reserveDecl_steps su h) decls {} s hempty hres
    have hlog₁ : Logged su (decls.flatMap fun _ => []) {} s :=
      forM_logged _ (fun d s s' _ h => reserveDecl_steps su h)
        (fun d s s' _ h => reserveDecl_logged h) decls {} s hempty hres
    rw [List.flatMap_eq_nil_iff.mpr fun _ _ => rfl] at hlog₁
    obtain ⟨h₂, hlog₂⟩ := hdecls s (hempty.steps h₁) h
    exact hlog₁.trans hlog₂ h₂.count_le
  · exact (hdecls {} hempty h).2

/-- **Operands lead to blocks that are there.** -/
theorem select_targets (hh : HooksEmit su Simple) {root : Node} {fin : State}
    (h : select su root = .ok u fin) {i : Instr} (hi : Has fin.module i) {t : BlockRef}
    (ht : .block (some t) ∈ i.args) : t.index < fin.module.count t.graph := by
  obtain ⟨log, hlog⟩ := select_logged hh h
  rcases (hlog.has i).mp hi with ⟨pt, hi⟩ | hi
  · cases pt <;> cases hi
  · exact hlog.targets i hi t ht

end Program

end Isel.Select
