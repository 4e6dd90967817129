import Isel.Proofs.Control
import Isel.Proofs.Tree

/-!
# The code of expressions and statements

What selection makes of a tree can be said without running it.  `ExprCode su fin n slot
code` says that `code` computes the expression `n` into `slot`, where `fin` is a state
that holds the slots and the literals.  `StmtAt su fin g B n i rest j rest'` says that in
the graph `g`, whose blocks hold `B`, the code of the statement `n` begins with `rest` at
the end of block `i` and is left with `rest'` at the end of block `j`.

`selectExpr_laid` says that selection that ends well lays out the code of an expression in
this way.
-/

namespace Isel.Select

open Isel.Flow Isel.Syntax Isel.Proofs

/-! ## Expressions -/

/-- A hook answers the request with these instructions. -/
def Answered (su : Setup) (request : Request) (out : List Instr) : Prop :=
  ∃ served, su.hooks.answer served request = .ok out

theorem answered_stack {su : Setup} (hc : su.hooks.convention = .stack) {request : Request}
    {out : List Instr} (hr : request.isIO = false) (ho : Answered su request out) :
    out = Hook.stackInstrs request := by
  obtain ⟨served, ho⟩ := ho
  rw [Hooks.answer, if_neg (by simp [hr]), hc] at ho
  cases ho
  rfl

/-- Where values may also not cross a call at all, what is answered is the same. -/
theorem answered_stack_or_refuse {su : Setup}
    (hc : su.hooks.convention = .stack ∨ su.hooks.convention = .refuse) {request : Request}
    {out : List Instr} (hr : request.isIO = false) (ho : Answered su request out) :
    out = Hook.stackInstrs request := by
  rcases hc with hc | hc
  · exact answered_stack hc hr ho
  · obtain ⟨served, ho⟩ := ho
    rw [Hooks.answer, if_neg (by simp [hr]), hc] at ho
    cases ho

/-- The opcode that an operator is lowered to. -/
def opcodeFor? (su : Setup) (op : Token) : Option Machine.Opcode :=
  (opcodeOf? op).map fun opcode =>
    if isDirectional op && !su.config.uses .directionalOps then sharedOpcode opcode else opcode

/-- The opcodes that operators are lowered to. -/
def binaryOpcodes : List Machine.Opcode :=
  [.add, .sub, .mul, .div, .mod, .and, .or, .xor, .shift, .shiftR, .cmp, .cmpGt]

theorem mem_binaryOpcodes {su : Setup} {op : Token} {opcode : Machine.Opcode}
    (h : opcodeFor? su op = some opcode) : opcode ∈ binaryOpcodes := by
  obtain ⟨plain, hplain, rfl⟩ := Option.map_eq_some_iff.mp h
  have hboth : plain ∈ binaryOpcodes ∧ sharedOpcode plain ∈ binaryOpcodes := by
    cases op <;> cases hplain <;> decide
  split
  · exact hboth.2
  · exact hboth.1

def ArgsOut (su : Setup) (args : List Slot) (out : List Instr) : Prop :=
  if args = [] then out = [] else Answered su (.argsOut args) out

/-- The instructions that take over the result of a call, if the callee has one. -/
def ResultIn (su : Setup) (fin : State) (callee : String) (slot : Slot) (out : List Instr) :
    Prop :=
  ∃ sig ∈ fin.signatures, sig.name = callee ∧
    if sig.result = .void then out = [] else Answered su (.resultIn slot) out

section Hooks

variable {su : Setup} {P : Instr → Prop} {code : List Instr}

theorem ArgsOut.each {slots : List Slot} (h : ArgsOut su slots code)
    (hhook : ∀ out, Answered su (.argsOut slots) out → ∀ i ∈ out, P i) : ∀ i ∈ code, P i := by
  rw [ArgsOut] at h
  split at h
  · simp [h]
  · exact hhook code h

theorem ResultIn.each {fin : State} {callee : String} {slot : Slot}
    (h : ResultIn su fin callee slot code)
    (hhook : ∀ out, Answered su (.resultIn slot) out → ∀ i ∈ out, P i) : ∀ i ∈ code, P i := by
  obtain ⟨sig, -, -, h⟩ := h
  split at h
  · simp [h]
  · exact hhook code h

end Hooks

/-- The call of a function: of the first block of its graph. -/
def callTo (f : Function) : Instr := ⟨.call, [.block (some ⟨f.graph, 0⟩)]⟩

mutual

/-- The code computes the expression into the slot. -/
def ExprCode (su : Setup) (fin : State) : Node → Slot → List Instr → Prop
  | .number tag value, slot, code =>
    fin.slots.slot? (some tag.label) = some slot ∧ code = [⟨.loadImm, [.slot slot, .imm value]⟩]
  | .boolean tag value, slot, code =>
    fin.slots.slot? (some tag.label) = some slot ∧
      code = [⟨.loadImm, [.slot slot, .imm (if value then 1 else 0)]⟩]
  | .ident tag _, slot, code =>
    fin.slots.slot? (some tag.label) = some slot ∧
      ∃ decl source, su.bindings.find? tag.label = some decl ∧
        fin.slots.slot? (some decl.label) = some source ∧
        code = [⟨.mov, [.slot slot, .slot source]⟩]
  | .string tag bytes, slot, code =>
    fin.slots.slot? (some tag.label) = some slot ∧
      ∃ k l, fin.module.literals[k]? = some l ∧ l.bytes = bytes ∧
        code = [⟨.loadImm, [.slot slot, .literal k]⟩]
  | .binary tag op left right, slot, code =>
    fin.slots.slot? (some tag.label) = some slot ∧
      ∃ lhs rhs c d opcode, ExprCode su fin left lhs c ∧ ExprCode su fin right rhs d ∧
        opcodeFor? su op = some opcode ∧
        code = c ++ d ++ [⟨opcode, [.slot slot, .slot lhs, .slot rhs]⟩]
  | .call tag callee args, slot, code =>
    fin.slots.slot? (some tag.label) = some slot ∧
      ∃ slots c out f result, ArgsCode su fin args slots c ∧ ArgsOut su slots out ∧
        fin.module.function? callee = some f ∧ ResultIn su fin callee slot result ∧
        code = c ++ out ++ callTo f :: result
  | .absent, _, _ | .bare _, _, _ | .program .., _, _ | .function .., _, _ | .param .., _, _
  | .var .., _, _ | .compound .., _, _ | .ifThen .., _, _ | .print .., _, _ | .ret .., _, _
  | .scan .., _, _ | .loop .., _, _ => False

/-- The code computes the expressions into the slots, from left to right. -/
def ArgsCode (su : Setup) (fin : State) : List Node → List Slot → List Instr → Prop
  | [], slots, code => slots = [] ∧ code = []
  | n :: rest, slots, code =>
    ∃ slot c ss cs, ExprCode su fin n slot c ∧ ArgsCode su fin rest ss cs ∧
      slots = slot :: ss ∧ code = c ++ cs

end

theorem slot?_of_exprCode {su : Setup} {fin : State} {n : Node} {slot : Slot} {code : List Instr}
    (h : ExprCode su fin n slot code) :
    ∃ tag, n.tag? = some tag ∧ fin.slots.slot? (some tag.label) = some slot := by
  cases n with
  | number tag | boolean tag | string tag | ident tag | binary tag | call tag =>
    rw [ExprCode] at h
    exact ⟨tag, rfl, h.1⟩
  | _ => simp [ExprCode] at h

/-! ## Statements -/

/-- What is put into block `i` of the graph `g`: the code of the block in the end. -/
abbrev Blocks := Nat → List Instr

/-- The copy of its first value into a variable.  Where the variable is taken for one of the
program scope, the copy is not put into the block. -/
def localCopy (su : Setup) (name : String) (slot source : Slot) : List Instr :=
  if su.isGlobal name then [] else [⟨.mov, [.slot slot, .slot source]⟩]

mutual

/-- The code of the statement begins with `rest` at the end of block `i`, and what is
left behind it is `rest'` at the end of block `j`. -/
def StmtAt (su : Setup) (fin : State) (g : Nat) (B : Blocks) :
    Node → Nat → List Instr → Nat → List Instr → Prop
  | .var _ _ _ .absent, i, rest, j, rest' => j = i ∧ rest' = rest
  | .var tag name _ init, i, rest, j, rest' =>
    ∃ source slot c, ExprCode su fin init source c ∧
      fin.slots.slot? (some tag.label) = some slot ∧
      j = i ∧ rest = c ++ localCopy su name slot source ++ rest'
  | .compound _ stmts, i, rest, j, rest' =>
    rest = [] ∧ StmtsAt su fin g B stmts (i + 1) (B (i + 1)) j rest'
  | .ifThen _ cond (.compound _ stmts), i, rest, j, rest' =>
    ∃ slot c k, ExprCode su fin cond slot c ∧
      rest = c ++ branchTo slot ⟨g, i + 1⟩ ⟨g, k + 1⟩ ∧
      StmtsAt su fin g B stmts (i + 1) (B (i + 1)) k [jumpTo ⟨g, k + 1⟩] ∧
      j = k + 1 ∧ rest' = B (k + 1)
  | .loop _ cond (.compound _ stmts), i, rest, j, rest' =>
    rest = [] ∧ ∃ slot c k, ExprCode su fin cond slot c ∧
      B (i + 1) = c ++ branchTo slot ⟨g, i + 2⟩ ⟨g, k + 1⟩ ∧
      StmtsAt su fin g B stmts (i + 2) (B (i + 2)) k [jumpTo ⟨g, i + 1⟩] ∧
      j = k + 1 ∧ rest' = B (k + 1)
  | .ret _ .absent, i, rest, j, rest' => j = i ∧ rest = ⟨.ret, []⟩ :: rest'
  | .ret _ expr, i, rest, j, rest' =>
    ∃ slot c out, ExprCode su fin expr slot c ∧ Answered su (.resultOut slot) out ∧
      j = i ∧ rest = c ++ out ++ ⟨.ret, []⟩ :: rest'
  | .print _ expr, i, rest, j, rest' =>
    ∃ slot c out, ExprCode su fin expr slot c ∧ Answered su (.print slot) out ∧
      j = i ∧ rest = c ++ out ++ rest'
  | .scan _ (.ident tag _), i, rest, j, rest' =>
    ∃ decl slot out, su.bindings.find? tag.label = some decl ∧
      fin.slots.slot? (some decl.label) = some slot ∧ Answered su (.scan slot) out ∧
      j = i ∧ rest = out ++ rest'
  | .ifThen .., _, _, _, _ | .loop .., _, _, _, _ | .scan .., _, _, _, _ => False
  | n, i, rest, j, rest' => ∃ slot c, ExprCode su fin n slot c ∧ j = i ∧ rest = c ++ rest'

def StmtsAt (su : Setup) (fin : State) (g : Nat) (B : Blocks) :
    List Node → Nat → List Instr → Nat → List Instr → Prop
  | [], i, rest, j, rest' => j = i ∧ rest' = rest
  | n :: ns, i, rest, j, rest' =>
    ∃ k mid, StmtAt su fin g B n i rest k mid ∧ StmtsAt su fin g B ns k mid j rest'

end

section StmtAt

variable {su : Setup} {fin : State} {g : Nat} {B : Blocks} {i j : Nat} {rest rest' : List Instr}

theorem stmtAt_var {tag : Tag} {name : String} {type : ValueType} {init : Node}
    (h : init ≠ .absent) :
    StmtAt su fin g B (.var tag name type init) i rest j rest' ↔
      ∃ source slot c, ExprCode su fin init source c ∧
        fin.slots.slot? (some tag.label) = some slot ∧
        j = i ∧ rest = c ++ localCopy su name slot source ++ rest' := by
  cases init with
  | absent => exact absurd rfl h
  | _ => rw [StmtAt]; simp

theorem stmtAt_var_local {tag : Tag} {name : String} {type : ValueType} {init : Node}
    (h : init ≠ .absent) (hlocal : su.isGlobal name = false)
    (hat : StmtAt su fin g B (.var tag name type init) i rest j rest') :
    ∃ source slot c, ExprCode su fin init source c ∧
      fin.slots.slot? (some tag.label) = some slot ∧
      j = i ∧ rest = c ++ ⟨.mov, [.slot slot, .slot source]⟩ :: rest' := by
  obtain ⟨source, slot, c, hcode, hslot, hj, rfl⟩ := (stmtAt_var h).mp hat
  exact ⟨source, slot, c, hcode, hslot, hj, by simp [localCopy, hlocal]⟩

theorem stmtAt_ret {tag : Tag} {expr : Node} (h : expr ≠ .absent) :
    StmtAt su fin g B (.ret tag expr) i rest j rest' ↔
      ∃ slot c out, ExprCode su fin expr slot c ∧ Answered su (.resultOut slot) out ∧
        j = i ∧ rest = c ++ out ++ ⟨.ret, []⟩ :: rest' := by
  cases expr with
  | absent => exact absurd rfl h
  | _ => rw [StmtAt]; simp

end StmtAt

/-! ## Who gets a slot -/

/-- The label that lowering the node by itself may give a slot to: its own, unless it is a
variable without initializer, or that of the variable that it reads input into. -/
def claimed? (su : Setup) : Node → Option Label
  | .var _ _ _ .absent => none
  | .scan _ (.ident tag _) => (su.bindings.find? tag.label).map Decl.label
  | .scan .. => none
  | n => n.label?

/-- The labels that lowering the tree may give slots to. -/
def claims (su : Setup) (n : Node) : List Label := n.nodes.filterMap (claimed? su)

theorem claims_part {su : Setup} {n p : Node} (hp : p ∈ n.parts) {l : Label}
    (hl : l ∈ claims su p) : l ∈ claims su n := by
  obtain ⟨m, hm, hc⟩ := List.mem_filterMap.mp hl
  exact List.mem_filterMap.mpr ⟨m, Node.mem_nodes_of_part hp hm, hc⟩

theorem claims_self {su : Setup} {n : Node} {l : Label} (hc : claimed? su n = some l) :
    l ∈ claims su n := by
  refine List.mem_filterMap.mpr ⟨n, Node.mem_nodes_self ?_, hc⟩
  cases n with
  | absent => cases hc
  | _ => rfl

/-- All slots that were handed out between the states belong to these labels. -/
def Adds (L : List Label) (s s' : State) : Prop :=
  ∀ o ∈ s'.slots.owners, o ∈ s.slots.owners ∨ ∃ l ∈ L, o = some l

theorem Adds.of_slots {L : List Label} {s s' : State} (h : s'.slots = s.slots) :
    Adds L s s' := fun _ ho => .inl (h ▸ ho)

theorem Adds.mono {L L' : List Label} {s s' : State} (h : Adds L s s')
    (hsub : ∀ l ∈ L, l ∈ L') : Adds L' s s' := by
  intro o ho
  rcases h o ho with ho | ⟨l, hl, rfl⟩
  · exact .inl ho
  · exact .inr ⟨l, hsub l hl, rfl⟩

theorem Adds.trans {L : List Label} {s s₁ s₂ : State} (h₁ : Adds L s s₁) (h₂ : Adds L s₁ s₂) :
    Adds L s s₂ := by
  intro o ho
  rcases h₂ o ho with ho | hl
  · exact h₁ o ho
  · exact .inr hl

theorem adds_withOwner {L : List Label} {l : Label} (h : l ∈ L) (s : State) :
    Adds L s (s.withOwner l) := by
  intro o ho
  rcases List.mem_append.mp ho with ho | ho
  · exact .inl ho
  · exact .inr ⟨l, h, List.mem_singleton.mp ho⟩

/-! ## Expressions are laid out -/

/-- Every function of the module has an entry block and a signature. -/
def State.Declared (s : State) : Prop :=
  ∀ f ∈ s.module.functions,
    0 < s.module.count f.graph ∧ ∃ sig ∈ s.signatures, sig.name = f.name

theorem Emitted.declared {pt : Point} {code : List Instr} {s s' : State}
    (h : Emitted pt code s s') (hd : s.Declared) : s'.Declared := by
  rw [State.Declared, h.functions, h.signatures]
  intro f hf
  rw [h.count]
  exact hd f hf

theorem calleeEntry_eq_ok {tag : Tag} {callee : String} {s s' : State}
    {entry : Option BlockRef} :
    calleeEntry tag callee s = .ok entry s' ↔
      s' = s ∧ ∃ f, s.module.function? callee = some f ∧ entry = s.module.entry? f.graph := by
  cases h : s.module.function? callee with
  | none => simp [calleeEntry, h, fail]
  | some f =>
    simp only [calleeEntry, get_bind_apply, h, pure_apply, EStateM.Result.ok.injEq,
      Option.some.injEq, exists_eq_left']
    constructor
    · rintro ⟨rfl, rfl⟩
      exact ⟨rfl, rfl⟩
    · rintro ⟨rfl, rfl⟩
      exact ⟨rfl, rfl⟩

theorem operatorOpcode_eq_ok {su : Setup} {pos : Source.Position} {op : Token} {s s' : State}
    {opcode : Machine.Opcode} (h : operatorOpcode su pos op s = .ok opcode s') (pt : Point) :
    opcodeFor? su op = some opcode ∧ Emitted pt [] s s' ∧ s'.slots = s.slots ∧
      s'.served = s.served := by
  rw [operatorOpcode] at h
  cases hop : opcodeOf? op with
  | none => simp [hop, fail] at h
  | some plain =>
    rw [opcodeFor?, hop, Option.map_some]
    simp only [hop] at h
    by_cases hd : (isDirectional op && !su.config.uses .directionalOps) = true
    · rw [if_pos hd] at h ⊢
      rw [remark_bind_apply] at h
      cases h
      exact ⟨rfl, emitted_remarked .., remarked_slots .., remarked_served ..⟩
    · rw [if_neg hd] at h ⊢
      cases h
      exact ⟨rfl, emitted_same rfl rfl List.prefix_rfl, rfl, rfl⟩

theorem hasResult_apply (callee : String) (s : State) :
    hasResult callee s =
      .ok (s.signatures.any fun sig => sig.name == callee && sig.result != .void) s := rfl

theorem emitCall_laid {su : Setup} {pt : Point} {tag : Tag} {callee : String}
    {entry : Option BlockRef} {args : List Slot} {slot : Slot} {s s' : State} {u : Unit}
    (h : emitCall su pt tag callee entry args slot s = .ok u s') (hv : pt.Valid s.module)
    (hd : s.Declared) {f : Function} (hf : s.module.function? callee = some f) :
    ∃ out result, Emitted pt (out ++ ⟨.call, [.block entry]⟩ :: result) s s' ∧
      s'.slots = s.slots ∧ ArgsOut su args out ∧
      ∀ fin, Grows s' fin → ResultIn su fin callee slot result := by
  -- The arguments leave, if there are any.
  have hargs : ∃ out s₁, Emitted pt out s s₁ ∧ s₁.slots = s.slots ∧ ArgsOut su args out ∧
      (do
        emit pt .call [.block entry]
        if ← hasResult callee then serve su tag.pos pt (.resultIn slot) : Selection Unit) s₁ =
        .ok u s' := by
    rw [emitCall] at h
    by_cases hempty : args = []
    · subst hempty
      exact ⟨[], s, emitted_same rfl rfl List.prefix_rfl, rfl, by simp [ArgsOut], h⟩
    · have hne : (!args.isEmpty) = true := by simpa using hempty
      rw [if_pos hne] at h
      rw [bind_eq_ok] at h
      obtain ⟨_, s₁, hserve, h⟩ := h
      obtain ⟨out, hout, hemit, hslots⟩ := emitted_serve hv hserve
      refine ⟨out, s₁, hemit, hslots, ?_, h⟩
      rw [ArgsOut, if_neg hempty]
      exact ⟨_, hout⟩
  obtain ⟨out, s₁, hemit₁, hslots₁, hout, h⟩ := hargs
  have hv₁ := hemit₁.valid hv
  have hemit₂ := emitted_emit hv₁ ⟨.call, [.block entry]⟩
  have hv₂ := hemit₂.valid hv₁
  have hall := hemit₁.trans hemit₂
  obtain ⟨sig, hsig, hname⟩ : ∃ sig ∈ (s₁.emit pt ⟨.call, [.block entry]⟩).signatures,
      sig.name = callee := by
    obtain ⟨-, sig, hsig, hname⟩ := hd f (List.mem_of_find?_eq_some hf)
    have hfname : f.name = callee := by simpa using List.find?_some hf
    exact ⟨sig, by rwa [hall.signatures], hname.trans hfname⟩
  rw [emit_bind_apply, bind_of_ok (hasResult_apply ..)] at h
  -- Every signature of the callee says whether a result arrives.
  by_cases hres : ((s₁.emit pt ⟨.call, [.block entry]⟩).signatures.any fun sig =>
      sig.name == callee && sig.result != .void) = true
  · rw [if_pos hres] at h
    obtain ⟨result, hresult, hemit₃, hslots₃⟩ := emitted_serve hv₂ h
    refine ⟨out, result, ?_, hslots₃.trans hslots₁, hout, fun fin hfin => ?_⟩
    · simpa using hall.trans hemit₃
    · obtain ⟨sig, hsig, hmatch⟩ := List.any_eq_true.mp hres
      simp only [Bool.and_eq_true, beq_iff_eq, bne_iff_ne] at hmatch
      refine ⟨sig, (hemit₃.grows.trans hfin).signatures.subset hsig, hmatch.1, ?_⟩
      rw [if_neg hmatch.2]
      exact ⟨_, hresult⟩
  · rw [if_neg hres] at h
    cases h
    refine ⟨out, [], hall, hslots₁, hout, fun fin hfin => ?_⟩
    refine ⟨sig, hfin.signatures.subset hsig, hname, ?_⟩
    have hvoid : sig.result = .void := by
      rw [List.any_eq_true] at hres
      by_cases hvoid : sig.result = .void
      · exact hvoid
      · exact absurd ⟨sig, hsig, by simp [hname, hvoid]⟩ hres
    rw [if_pos hvoid]

/-- What selection of an expression comes to when it ends well. -/
def ExprLaid (su : Setup) (n : Node) : Prop :=
  ∀ (pt : Point) (s s' : State) (slot : Slot), selectExpr su pt n s = .ok slot s' →
    pt.Valid s.module → s.Declared →
      ∃ code, Emitted pt code s s' ∧ Adds (claims su n) s s' ∧
        ∀ fin, Grows s' fin → ExprCode su fin n slot code

theorem selectArgs_laid {su : Setup} {L : List Label} : ∀ (ns : List Node),
    (∀ n ∈ ns, ExprLaid su n) → (∀ n ∈ ns, ∀ l ∈ claims su n, l ∈ L) →
    ∀ (pt : Point) (s s' : State) (slots : List Slot), selectArgs su pt ns s = .ok slots s' →
      pt.Valid s.module → s.Declared →
        ∃ code, Emitted pt code s s' ∧ Adds L s s' ∧
          ∀ fin, Grows s' fin → ArgsCode su fin ns slots code := by
  intro ns
  induction ns with
  | nil =>
    intro _ _ pt s s' slots h _ _
    rw [selectArgs] at h
    cases h
    exact ⟨[], emitted_same rfl rfl List.prefix_rfl, Adds.of_slots rfl,
      fun fin _ => by rw [ArgsCode]; exact ⟨rfl, rfl⟩⟩
  | cons n ns ih =>
    intro hlaid hls pt s s' slots h hv hd
    rw [selectArgs, bind_eq_ok] at h
    obtain ⟨slot, s₁, hn, h⟩ := h
    rw [bind_eq_ok] at h
    obtain ⟨rest, s₂, hns, h⟩ := h
    cases h
    obtain ⟨c, hemit, hadds, hcode⟩ := hlaid n (by simp) pt s s₁ slot hn hv hd
    obtain ⟨d, hemit', hadds', hcode'⟩ := ih (fun m hm => hlaid m (by simp [hm]))
      (fun m hm => hls m (by simp [hm])) pt s₁ _ rest hns (hemit.valid hv) (hemit.declared hd)
    refine ⟨c ++ d, hemit.trans hemit', (hadds.mono (hls n (by simp))).trans hadds',
      fun fin hfin => ?_⟩
    rw [ArgsCode]
    exact ⟨slot, c, rest, d, hcode fin (hemit'.grows.trans hfin), hcode' fin hfin, rfl, rfl⟩

theorem claimSlot_laid (su : Setup) (n : Node) {tag : Tag} {s s' : State} {slot : Slot}
    (h : claimSlot tag s = .ok slot s') (hself : claimed? su n = some tag.label) (pt : Point) :
    Emitted pt [] s s' ∧ Adds (claims su n) s s' ∧
      ∀ fin, Grows s' fin → fin.slots.slot? (some tag.label) = some slot := by
  obtain ⟨-, halloc⟩ := claimSlot_eq_ok.mp h
  obtain ⟨hnone, rfl, rfl⟩ := allocate_eq_ok.mp halloc
  exact ⟨emitted_withOwner pt s _, adds_withOwner (claims_self hself) s,
    fun fin hfin => hfin.slot? (slot?_withOwner hnone)⟩

section Cases

-- All cases open these functions: their equations are made here, once for all of them.
attribute [local simp] selectExpr ExprCode

variable {su : Setup}

theorem number_laid (tag : Tag) (value : Int) : ExprLaid su (.number tag value) := by
  intro pt s s' slot h hv hd
  rw [selectExpr, bind_eq_ok] at h
  obtain ⟨slot', s₁, hclaim, h⟩ := h
  obtain ⟨hemit, hadds, hslot⟩ := claimSlot_laid su (.number tag value) hclaim rfl pt
  -- A remark on the way changes nothing that counts here.
  have hrest : ∃ s₂, Emitted pt [] s₁ s₂ ∧ s₂.slots = s₁.slots ∧ slot = slot' ∧
      s' = s₂.emit pt ⟨.loadImm, [.slot slot', .imm value]⟩ := by
    by_cases hfit : (!fits16 value) = true
    · simp only [if_pos hfit, remark_bind_apply, emit_bind_apply] at h
      cases h
      exact ⟨_, emitted_remarked .., remarked_slots .., rfl, rfl⟩
    · simp only [if_neg hfit, emit_bind_apply] at h
      cases h
      exact ⟨s₁, emitted_same rfl rfl List.prefix_rfl, rfl, rfl, rfl⟩
  obtain ⟨s₂, hemit₂, hslots, rfl, rfl⟩ := hrest
  have hemit₃ := emitted_emit (hemit₂.valid (hemit.valid hv))
    ⟨.loadImm, [.slot slot, .imm value]⟩
  refine ⟨_, hemit.trans (hemit₂.trans hemit₃), hadds.trans (Adds.of_slots hslots),
    fun fin hfin => ?_⟩
  rw [ExprCode]
  exact ⟨hslot fin ((hemit₂.trans hemit₃).grows.trans hfin), rfl⟩

theorem boolean_laid (tag : Tag) (value : Bool) : ExprLaid su (.boolean tag value) := by
  intro pt s s' slot h hv hd
  rw [selectExpr, bind_eq_ok] at h
  obtain ⟨slot', s₁, hclaim, h⟩ := h
  obtain ⟨hemit, hadds, hslot⟩ :=
    claimSlot_laid su (.boolean tag value) hclaim rfl pt
  rw [emit_bind_apply] at h
  cases h
  have hemit₂ := emitted_emit (hemit.valid hv)
    ⟨.loadImm, [.slot slot, .imm (if value then 1 else 0)]⟩
  refine ⟨_, hemit.trans hemit₂, hadds, fun fin hfin => ?_⟩
  rw [ExprCode]
  exact ⟨hslot fin (hemit₂.grows.trans hfin), rfl⟩

theorem ident_laid (tag : Tag) (name : String) : ExprLaid su (.ident tag name) := by
  intro pt s s' slot h hv hd
  rw [selectExpr, bind_eq_ok] at h
  obtain ⟨slot', s₁, hclaim, h⟩ := h
  obtain ⟨hemit, hadds, hslot⟩ :=
    claimSlot_laid su (.ident tag name) hclaim rfl pt
  cases hbound : su.bindings.find? tag.label with
  | none => simp [hbound, fail] at h
  | some decl =>
    simp only [hbound] at h
    rw [bind_eq_ok] at h
    obtain ⟨source, s₂, hlook, h⟩ := h
    obtain ⟨hsource, rfl⟩ := lookup_eq_ok.mp hlook
    rw [emit_bind_apply] at h
    cases h
    have hemit₂ := emitted_emit (hemit.valid hv) ⟨.mov, [.slot slot, .slot source]⟩
    refine ⟨_, hemit.trans hemit₂, hadds, fun fin hfin => ?_⟩
    rw [ExprCode]
    have hgrow := hemit₂.grows.trans hfin
    exact ⟨hslot fin hgrow, decl, source, hbound, hgrow.slot? hsource, rfl⟩

theorem string_laid (tag : Tag) (bytes : List UInt8) : ExprLaid su (.string tag bytes) := by
  intro pt s s' slot h hv hd
  rw [selectExpr, bind_eq_ok] at h
  obtain ⟨slot', s₁, hclaim, h⟩ := h
  obtain ⟨hemit, hadds, hslot⟩ :=
    claimSlot_laid su (.string tag bytes) hclaim rfl pt
  rw [bind_eq_ok] at h
  obtain ⟨k, s₂, hlit, h⟩ := h
  obtain ⟨hemit₂, hslots, l, hl, hbytes⟩ := emitted_literalFor pt hlit
  rw [emit_bind_apply] at h
  cases h
  have hemit₃ := emitted_emit (hemit₂.valid (hemit.valid hv))
    ⟨.loadImm, [.slot slot, .literal k]⟩
  refine ⟨_, hemit.trans (hemit₂.trans hemit₃), hadds.trans (Adds.of_slots hslots),
    fun fin hfin => ?_⟩
  rw [ExprCode]
  have hgrow := hemit₃.grows.trans hfin
  exact ⟨hslot fin (hemit₂.grows.trans hgrow), k, l, hgrow.literal hl, hbytes, rfl⟩

theorem binary_laid (tag : Tag) (op : Token) {left right : Node} (ihl : ExprLaid su left)
    (ihr : ExprLaid su right) : ExprLaid su (.binary tag op left right) := by
  intro pt s s' slot h hv hd
  rw [selectExpr, bind_eq_ok] at h
  obtain ⟨slot', s₁, hclaim, h⟩ := h
  obtain ⟨hemit, hadds, hslot⟩ :=
    claimSlot_laid su (.binary tag op left right) hclaim rfl pt
  rw [bind_eq_ok] at h
  obtain ⟨lhs, s₂, hleft, h⟩ := h
  rw [bind_eq_ok] at h
  obtain ⟨rhs, s₃, hright, h⟩ := h
  rw [bind_eq_ok] at h
  obtain ⟨opcode, s₄, hop, h⟩ := h
  rw [emit_bind_apply] at h
  cases h
  have hl : left ∈ (Node.binary tag op left right).parts := by simp [Node.parts]
  have hr : right ∈ (Node.binary tag op left right).parts := by simp [Node.parts]
  have hv₁ := hemit.valid hv
  have hd₁ := hemit.declared hd
  obtain ⟨c, hemit₂, hadds₂, hcode₂⟩ := ihl pt s₁ s₂ lhs hleft hv₁ hd₁
  have hv₂ := hemit₂.valid hv₁
  obtain ⟨d, hemit₃, hadds₃, hcode₃⟩ :=
    ihr pt s₂ s₃ rhs hright hv₂ (hemit₂.declared hd₁)
  obtain ⟨hopcode, hemit₄, hslots, -⟩ := operatorOpcode_eq_ok hop pt
  have hemit₅ := emitted_emit (hemit₄.valid (hemit₃.valid hv₂))
    ⟨opcode, [.slot slot, .slot lhs, .slot rhs]⟩
  refine ⟨c ++ d ++ [⟨opcode, [.slot slot, .slot lhs, .slot rhs]⟩], ?_, ?_, fun fin hfin => ?_⟩
  · simpa using hemit.trans (hemit₂.trans (hemit₃.trans (hemit₄.trans hemit₅)))
  · have hadds₂' := hadds₂.mono fun l => claims_part hl
    have hadds₃' := hadds₃.mono fun l => claims_part hr
    exact hadds.trans (hadds₂'.trans (hadds₃'.trans (Adds.of_slots hslots)))
  · rw [ExprCode]
    have hgrow₃ := (hemit₄.trans hemit₅).grows.trans hfin
    have hgrow₂ := hemit₃.grows.trans hgrow₃
    exact ⟨hslot fin (hemit₂.grows.trans hgrow₂), lhs, rhs, c, d, opcode, hcode₂ fin hgrow₂,
      hcode₃ fin hgrow₃, hopcode, rfl⟩

theorem call_laid (tag : Tag) (callee : String) {args : List Node}
    (ih : ∀ a ∈ args, ExprLaid su a) : ExprLaid su (.call tag callee args) := by
  intro pt s s' slot h hv hd
  rw [selectExpr, bind_eq_ok] at h
  obtain ⟨slot', s₁, hclaim, h⟩ := h
  obtain ⟨hemit, hadds, hslot⟩ :=
    claimSlot_laid su (.call tag callee args) hclaim rfl pt
  rw [bind_eq_ok] at h
  obtain ⟨entry, s₂, hentry, h⟩ := h
  obtain ⟨rfl, f, hf, hentry⟩ := calleeEntry_eq_ok.mp hentry
  rw [bind_eq_ok] at h
  obtain ⟨slots, s₃, hargs, h⟩ := h
  rw [bind_eq_ok] at h
  obtain ⟨_, s₄, hcall, h⟩ := h
  cases h
  have hv₁ := hemit.valid hv
  have hd₁ := hemit.declared hd
  rw [(entry?_of_count (hd₁ f (List.mem_of_find?_eq_some hf)).1).1] at hentry
  subst hentry
  obtain ⟨c, hemit₂, hadds₂, hcode₂⟩ :=
    selectArgs_laid (L := claims su (.call tag callee args)) args ih
      (fun n hn l => claims_part (n := .call tag callee args) hn) pt _ _ _ hargs hv₁ hd₁
  have hf₃ : s₃.module.function? callee = some f := by
    rw [Module.function?, hemit₂.functions]
    exact hf
  obtain ⟨out, result, hemit₃, hslots, hout, hresult⟩ :=
    emitCall_laid hcall (hemit₂.valid hv₁) (hemit₂.declared hd₁) hf₃
  refine ⟨c ++ out ++ callTo f :: result, ?_,
    hadds.trans (hadds₂.trans (Adds.of_slots hslots)), fun fin hfin => ?_⟩
  · simpa [callTo] using hemit.trans (hemit₂.trans hemit₃)
  · rw [ExprCode]
    have hgrow₂ := hemit₃.grows.trans hfin
    exact ⟨hslot fin (hemit₂.grows.trans hgrow₂), slots, c, out, f, result,
      hcode₂ fin hgrow₂, hout, hgrow₂.function? hf₃, hresult fin hfin, rfl⟩

end Cases

/-- **Selection lays out an expression** at its point. -/
theorem selectExpr_laid {su : Setup} : ∀ n : Node, ExprLaid su n := by
  intro n
  induction n using Node.parts_induction with
  | _ n ih _ =>
  cases n with
  | number tag value => exact number_laid tag value
  | boolean tag value => exact boolean_laid tag value
  | ident tag name => exact ident_laid tag name
  | string tag bytes => exact string_laid tag bytes
  | binary tag op left right =>
    exact binary_laid tag op (ih left (by simp [Node.parts])) (ih right (by simp [Node.parts]))
  | call tag callee args => exact call_laid tag callee ih
  | absent =>
    intro pt s s' slot h
    simp [selectExpr, fail] at h
  | bare | program | function | param | var | compound | ifThen | print | ret | scan | loop =>
    intro pt s s' slot h
    rw [selectExpr, bind_eq_ok] at h
    obtain ⟨_, _, -, h⟩ := h
    cases h

end Isel.Select
