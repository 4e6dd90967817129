import Isel.Proofs.Agreement
import Isel.Proofs.Control

/-!
# No slot is read before it is written

`Trace m r rest es` says that `es` are the instructions met on a way of control that
begins when `rest` is left of the block `r`, whichever way the tests go.  `Fed D es` says
that each of them reads only slots of `D` and slots that one before it wrote.

Lexical scope carries the argument: at every place of the tree, the variables of the open
scopes that have a slot have been written (`Covers`).  `select_definite` is the result for
the global sequence and for all functions of a module.
-/

namespace Isel.Flow

/-! ## Slots read and written -/

/-- The slots of `D` and those that the code writes. -/
def after (D : Slot → Prop) (code : List Instr) : Slot → Prop :=
  fun k => D k ∨ ∃ i ∈ code, i.def? = some k

/-- Every instruction reads only slots of `D` and slots that one before it wrote. -/
def Fed (D : Slot → Prop) (es : List Instr) : Prop :=
  ∀ pre i post, es = pre ++ i :: post → ∀ u ∈ i.uses, after D pre u

theorem after_nil (D : Slot → Prop) : after D [] = D := by
  funext k
  simp [after]

theorem after_append (D : Slot → Prop) (c d : List Instr) :
    after D (c ++ d) = after (after D c) d := by
  funext k
  simp only [after, List.mem_append, or_and_right, exists_or, or_assoc]

theorem after_mono {D D' : Slot → Prop} (h : ∀ k, D k → D' k) (code : List Instr) :
    ∀ k, after D code k → after D' code k := by
  rintro k (hk | hk)
  · exact .inl (h k hk)
  · exact .inr hk

theorem le_after (D : Slot → Prop) (code : List Instr) : ∀ k, D k → after D code k :=
  fun _ => .inl

theorem fed_nil (D : Slot → Prop) : Fed D [] := by
  intro pre i post h
  simp at h

theorem fed_cons {D : Slot → Prop} {i : Instr} {es : List Instr} :
    Fed D (i :: es) ↔ (∀ u ∈ i.uses, D u) ∧ Fed (after D [i]) es := by
  constructor
  · intro h
    refine ⟨fun u hu => ?_, fun pre j post he u hu => ?_⟩
    · rw [← after_nil D]
      exact h [] i es rfl u hu
    · rw [← after_append]
      exact h ([i] ++ pre) j post (by rw [he]; rfl) u hu
  · rintro ⟨hi, hes⟩ pre j post he u hu
    cases pre with
    | nil =>
      cases he
      rw [after_nil]
      exact hi u hu
    | cons k pre =>
      cases he
      rw [show i :: pre = [i] ++ pre from rfl, after_append]
      exact hes pre j post rfl u hu

theorem fed_append {D : Slot → Prop} {c d : List Instr} :
    Fed D (c ++ d) ↔ Fed D c ∧ Fed (after D c) d := by
  induction c generalizing D with
  | nil =>
    rw [List.nil_append, after_nil]
    exact ⟨fun h => ⟨fed_nil D, h⟩, fun h => h.2⟩
  | cons i c ih =>
    rw [List.cons_append, fed_cons, fed_cons, ih, and_assoc, ← after_append]
    rfl

theorem Fed.mono {D D' : Slot → Prop} {es : List Instr} (h : Fed D es) (hD : ∀ k, D k → D' k) :
    Fed D' es :=
  fun pre i post he u hu => after_mono hD pre u (h pre i post he u hu)

theorem fed_of_uses {D : Slot → Prop} {es : List Instr} (h : ∀ i ∈ es, ∀ u ∈ i.uses, D u) :
    Fed D es := by
  rintro pre i post rfl u hu
  exact le_after D pre u (h i (by simp) u hu)

/-! ## Ways of control -/

/-- The instructions met on a way of control that begins when `rest` is left of a block. -/
inductive Trace (m : Module) : BlockRef → List Instr → List Instr → Prop
  | stop {r : BlockRef} {rest : List Instr} : Trace m r rest []
  | step {r : BlockRef} {rest rest' es : List Instr} {i : Instr} :
      act rest = .step i rest' → Trace m r rest' es → Trace m r rest (i :: es)
  | ret {r : BlockRef} {rest : List Instr} {i : Instr} :
      act rest = .ret i → Trace m r rest [i]
  | jump {r q : BlockRef} {rest es : List Instr} {i : Instr} {b : Block} :
      act rest = .jump i → i.target? = some q → m.block? q = some b → Trace m q b.instrs es →
        Trace m r rest (i :: es)
  | yes {r q : BlockRef} {rest es : List Instr} {test yes no : Instr} {b : Block} :
      act rest = .branch test yes no → yes.target? = some q → m.block? q = some b →
        Trace m q b.instrs es → Trace m r rest (test :: yes :: es)
  | no {r q : BlockRef} {rest es : List Instr} {test yes no : Instr} {b : Block} :
      act rest = .branch test yes no → no.target? = some q → m.block? q = some b →
        Trace m q b.instrs es → Trace m r rest (test :: no :: es)
  | fall {r : BlockRef} {rest es : List Instr} {b : Block} :
      act rest = .fall → m.block? ⟨r.graph, r.index + 1⟩ = some b →
        Trace m ⟨r.graph, r.index + 1⟩ b.instrs es → Trace m r rest es

/-- Ways of at most `n` instructions read only what is there. -/
def Safe (m : Module) (n : Nat) (D : Slot → Prop) (r : BlockRef) (rest : List Instr) : Prop :=
  ∀ es, es.length ≤ n → Trace m r rest es → Fed D es

section Safe

variable {m : Module} {n : Nat} {D : Slot → Prop} {r : BlockRef}

/-- Code without part in control is met in order. -/
theorem safe_append {code rest : List Instr} (hplain : ∀ i ∈ code, i.isPlain = true)
    (hfed : Fed D code) (h : ∀ k, k ≤ n → Safe m k (after D code) r rest) :
    Safe m n D r (code ++ rest) := by
  induction code generalizing n D with
  | nil =>
    rw [after_nil] at h
    exact h n (Nat.le_refl n)
  | cons i code ih =>
    intro es hes htrace
    have hact := act_plain (hplain i (by simp)) (code ++ rest)
    obtain ⟨huses, hfed'⟩ := fed_cons.mp hfed
    -- The only way on is the instruction itself.
    cases htrace with
    | stop => exact fed_nil D
    | step ha hrest =>
      rw [List.cons_append, hact] at ha
      cases ha
      refine fed_cons.mpr ⟨huses, ?_⟩
      refine ih (fun j hj => hplain j (by simp [hj])) hfed' (fun k hk => ?_) _ (Nat.le_refl _) hrest
      rw [← after_append]
      refine h k ?_
      simp only [List.length_cons] at hes
      omega
    | ret ha | jump ha | yes ha | no ha | fall ha =>
      rw [List.cons_append, hact] at ha
      cases ha

theorem safe_cons {i : Instr} {rest : List Instr} (hplain : i.isPlain = true) (hfed : Fed D [i])
    (h : ∀ k, k ≤ n → Safe m k (after D [i]) r rest) : Safe m n D r (i :: rest) :=
  safe_append (List.forall_mem_singleton.mpr hplain) hfed h

/-- At the end of a block control is at the beginning of the next one. -/
theorem safe_nil (h : Safe m n D ⟨r.graph, r.index + 1⟩ (m.code ⟨r.graph, r.index + 1⟩)) :
    Safe m n D r [] := by
  intro es hes htrace
  cases htrace with
  | stop => exact fed_nil D
  | fall _ hb hrest =>
    rw [code_of_block? hb] at h
    exact h es hes hrest
  | step ha | ret ha | jump ha | yes ha | no ha => cases ha

/-- The end of the last block is the end of all ways. -/
theorem safe_end (h : m.block? ⟨r.graph, r.index + 1⟩ = none) : Safe m n D r [] := by
  intro es hes htrace
  cases htrace with
  | stop => exact fed_nil D
  | fall _ hb => rw [h] at hb; cases hb
  | step ha | ret ha | jump ha | yes ha | no ha => cases ha

theorem safe_ret {i : Instr} (hi : i.op = .ret) (huses : i.uses = []) (rest : List Instr) :
    Safe m n D r (i :: rest) := by
  intro es _ htrace
  have hact := act_ret hi rest
  cases htrace with
  | stop => exact fed_nil D
  | ret ha =>
    rw [hact] at ha
    cases ha
    exact fed_cons.mpr ⟨by simp [huses], fed_nil _⟩
  | step ha | jump ha | yes ha | no ha | fall ha => rw [hact] at ha; cases ha

end Safe

end Isel.Flow

namespace Isel.Select

open Isel.Flow Isel.Syntax Isel.Scope Isel.Proofs

/-! ## What the instructions read and write -/

section Instructions

variable (s s' : Slot)

@[simp] theorem uses_tst (v : Int) : (⟨.tst, [.slot s, .imm v]⟩ : Instr).uses = [s] := rfl
@[simp] theorem uses_jumpTo (q : BlockRef) : (jumpTo q).uses = [] := rfl
@[simp] theorem uses_noOp : (⟨.noOp, []⟩ : Instr).uses = [] := rfl
@[simp] theorem uses_call (q : Option BlockRef) : (⟨.call, [.block q]⟩ : Instr).uses = [] := rfl
@[simp] theorem uses_push : (⟨.push, [.slot s]⟩ : Instr).uses = [s] := rfl
@[simp] theorem uses_pop : (⟨.pop, [.slot s]⟩ : Instr).uses = [] := rfl
@[simp] theorem def?_pop : (⟨.pop, [.slot s]⟩ : Instr).def? = some s := rfl
@[simp] theorem uses_mov : (⟨.mov, [.slot s, .slot s']⟩ : Instr).uses = [s'] := rfl
@[simp] theorem def?_mov : (⟨.mov, [.slot s, .slot s']⟩ : Instr).def? = some s := rfl
@[simp] theorem def?_loadImm (o : Operand) :
    (⟨.loadImm, [.slot s, o]⟩ : Instr).def? = some s := rfl

theorem uses_loadImm {o : Operand} (h : o.slot? = none) :
    (⟨.loadImm, [.slot s, o]⟩ : Instr).uses = [] := by
  show [o].filterMap Operand.slot? = []
  rw [List.filterMap_cons_none h, List.filterMap_nil]

/-- The operation that an operator is lowered to writes its first slot and reads the other
two. -/
theorem binary_instr {su : Setup} {op : Token} {opcode : Machine.Opcode}
    (h : opcodeFor? su op = some opcode) (l r : Slot) :
    (⟨opcode, [.slot s, .slot l, .slot r]⟩ : Instr).def? = some s ∧
      (⟨opcode, [.slot s, .slot l, .slot r]⟩ : Instr).uses = [l, r] ∧
      (⟨opcode, [.slot s, .slot l, .slot r]⟩ : Instr).isPlain = true := by
  have hmem := mem_binaryOpcodes h
  simp only [binaryOpcodes, List.mem_cons, List.not_mem_nil, or_false] at hmem
  rcases hmem with rfl | rfl | rfl | rfl | rfl | rfl | rfl | rfl | rfl | rfl | rfl | rfl <;>
    exact ⟨rfl, rfl, rfl⟩

end Instructions

section Jumps

variable {m : Module} {n : Nat} {D : Slot → Prop} {r : BlockRef}

theorem safe_jumpTo {q : BlockRef} (h : ∀ k, k < n → Safe m k D q (m.code q))
    (rest : List Instr) : Safe m n D r (jumpTo q :: rest) := by
  intro es hes htrace
  cases htrace with
  | stop => exact fed_nil D
  | jump ha hq hb hrest =>
    rw [act_jumpTo] at ha
    cases ha
    cases hq
    refine fed_cons.mpr ⟨by simp, ?_⟩
    rw [← code_of_block? hb] at hrest
    exact (h _ hes _ (Nat.le_refl _) hrest).mono (le_after D _)
  | step ha | ret ha | yes ha | no ha | fall ha => cases ha

theorem safe_branchTo {cond : Slot} {yes no : BlockRef} (hcond : D cond)
    (hyes : ∀ k, k < n → Safe m k D yes (m.code yes))
    (hno : ∀ k, k < n → Safe m k D no (m.code no)) :
    Safe m n D r (branchTo cond yes no) := by
  intro es hes htrace
  have hact := act_branchTo cond yes no []
  rw [List.append_nil] at hact
  -- Both jumps are met behind the test, which reads the condition.
  have hfed : ∀ q es, Fed D es →
      Fed D (⟨.tst, [.slot cond, .imm 1]⟩ :: jumpTo q :: es) := by
    intro q es h
    refine fed_cons.mpr ⟨?_, fed_cons.mpr ⟨?_, ?_⟩⟩
    · simpa using hcond
    · simp
    · exact h.mono fun k hk => le_after _ _ k (le_after _ _ k hk)
  cases htrace with
  | stop => exact fed_nil D
  | yes ha hq hb hrest =>
    rw [hact] at ha
    cases ha
    cases hq
    rw [← code_of_block? hb] at hrest
    simp only [List.length_cons] at hes
    exact hfed _ _ (hyes _ (by omega) _ (Nat.le_refl _) hrest)
  | no ha hq hb hrest =>
    rw [hact] at ha
    cases ha
    cases hq
    rw [← code_of_block? hb] at hrest
    simp only [List.length_cons] at hes
    exact hfed _ _ (hno _ (by omega) _ (Nat.le_refl _) hrest)
  | step ha | ret ha | jump ha | fall ha =>
    rw [hact] at ha
    cases ha

end Jumps

/-! ## Hooks -/

/-- Values cross a call on the stack or not at all, and printing pushes the printed slot
or does nothing. -/
structure StackOrNone (su : Setup) : Prop where
  convention : su.hooks.convention = .stack ∨ su.hooks.convention = .refuse
  print : ∀ served slot out, su.hooks.io served (.print slot) = .ok out →
    ∀ i ∈ out, i = ⟨.noOp, []⟩ ∨ i = ⟨.push, [.slot slot]⟩

theorem StackOrNone.answered {su : Setup} (h : StackOrNone su) {request : Request}
    {out : List Instr} (hr : request.isIO = false) (ho : Answered su request out) :
    out = Hook.stackInstrs request := answered_stack_or_refuse h.convention hr ho

theorem StackOrNone.printed {su : Setup} (h : StackOrNone su) {slot : Slot} {out : List Instr}
    (ho : Answered su (.print slot) out) :
    ∀ i ∈ out, i = ⟨.noOp, []⟩ ∨ i = ⟨.push, [.slot slot]⟩ := by
  obtain ⟨served, ho⟩ := ho
  exact h.print served slot out ho

theorem fed_push {D : Slot → Prop} (slots : List Slot) (h : ∀ s ∈ slots, D s) :
    Fed D (slots.map fun s => ⟨.push, [.slot s]⟩) := by
  refine fed_of_uses fun i hi u hu => ?_
  obtain ⟨s, hs, rfl⟩ := List.mem_map.mp hi
  rw [uses_push, List.mem_singleton] at hu
  rw [hu]
  exact h s hs

/-! ## Expressions -/

/-- If the variable has a slot, it has been written. -/
def Covers (fin : State) (D : Slot → Prop) (x : Symbol) : Prop :=
  ∀ k, fin.slots.slot? (some x.decl.label) = some k → D k

theorem Covers.mono {fin : State} {D D' : Slot → Prop} (h : ∀ k, D k → D' k) (x : Symbol)
    (hx : Covers fin D x) : Covers fin D' x := fun k hk => h k (hx k hk)

/-- Once its slot is written, a variable joins those that are covered. -/
theorem covers_assigned {fin : State} {D D' : Slot → Prop} {env : Env} {tag : Tag} {slot : Slot}
    (hcov : env.Each (Covers fin D)) (hle : ∀ k, D k → D' k)
    (hslot : fin.slots.slot? (some tag.label) = some slot) (hdone : D' slot) (name : String) :
    (env.extend [varSymbol tag name]).Each (Covers fin D') := by
  refine (hcov.mono fun x => Covers.mono hle x).extend fun x hx k hk => ?_
  rw [List.mem_singleton] at hx
  subst hx
  cases hslot.symm.trans hk
  exact hdone

theorem covers_of_unheld {fin : State} {D : Slot → Prop} {env : Env} {tag : Tag}
    (hcov : env.Each (Covers fin D)) (hnone : fin.slots.slot? (some tag.label) = none)
    (name : String) : (env.extend [varSymbol tag name]).Each (Covers fin D) := by
  refine hcov.extend fun x hx k hk => ?_
  rw [List.mem_singleton] at hx
  subst hx
  cases hk.symm.trans hnone

/-- The function is declared without a result. -/
def IsVoid (fin : State) (callee : String) : Prop :=
  ∃ sig ∈ fin.signatures, sig.name = callee ∧ sig.result = .void

/-- Calls of functions without a result are statements. -/
def VoidApart (void : String → Prop) (n : Node) : Prop :=
  ∀ m ∈ n.nodes, ∀ tag callee args, .call tag callee args ∈ m.parts → void callee →
    ∃ ctag stmts, m = .compound ctag stmts

theorem VoidApart.part {void : String → Prop} {n p : Node} (h : VoidApart void n)
    (hp : p ∈ n.parts) : VoidApart void p :=
  fun m hm => h m (Node.mem_nodes_of_part hp hm)

/-- If the expression is a call, there is a result. -/
def HasValue (void : String → Prop) (n : Node) : Prop :=
  ∀ tag callee args, n = .call tag callee args → ¬void callee

theorem VoidApart.hasValue {void : String → Prop} {n p : Node} (h : VoidApart void n)
    (hn : n.isAbsent = false) (hc : ∀ ctag stmts, n ≠ .compound ctag stmts) (hp : p ∈ n.parts) :
    HasValue void p := by
  rintro tag callee args rfl hvoid
  obtain ⟨ctag, stmts, he⟩ := h n (Node.mem_nodes_self hn) tag callee args hp hvoid
  exact hc ctag stmts he

section Fed

variable {su : Setup} {fin : State}

/-- What an expression does: it reads only what is there, and writes its slot, unless it
is a call without a result. -/
def ExprFed (su : Setup) (fin : State) (n : Node) : Prop :=
  ∀ (env : Env) (D : Slot → Prop) (slot : Slot) (code : List Instr),
    ExprCode su fin n slot code → (∀ s ∈ sites env n, Seen su s) →
    env.Each (Covers fin D) → VoidApart (IsVoid fin) n →
      Fed D code ∧ (∀ i ∈ code, i.isPlain = true) ∧ (HasValue (IsVoid fin) n → after D code slot)

theorem args_fed : ∀ (ns : List Node), (∀ n ∈ ns, ExprFed su fin n) →
    ∀ (env : Env) (D : Slot → Prop) (slots : List Slot) (code : List Instr),
      ArgsCode su fin ns slots code → (∀ n ∈ ns, ∀ s ∈ sites env n, Seen su s) →
      env.Each (Covers fin D) → (∀ n ∈ ns, VoidApart (IsVoid fin) n ∧ HasValue (IsVoid fin) n) →
        Fed D code ∧ (∀ i ∈ code, i.isPlain = true) ∧ ∀ s ∈ slots, after D code s := by
  intro ns
  induction ns with
  | nil =>
    intro _ env D slots code h _ _ _
    rw [ArgsCode] at h
    obtain ⟨rfl, rfl⟩ := h
    exact ⟨fed_nil D, by simp, by simp⟩
  | cons n ns ih =>
    intro hfed env D slots code h hseen hcov hvoid
    rw [ArgsCode] at h
    obtain ⟨slot, c, ss, cs, hn, hns, rfl, rfl⟩ := h
    obtain ⟨hv, hvalue⟩ := hvoid n (by simp)
    obtain ⟨hfed₁, hplain₁, hslot⟩ :=
      hfed n (by simp) env D slot c hn (hseen n (by simp)) hcov hv
    obtain ⟨hfed₂, hplain₂, hslots⟩ := ih (fun m hm => hfed m (by simp [hm])) env (after D c) ss cs
      hns (fun m hm => hseen m (by simp [hm])) (hcov.mono fun x => Covers.mono (le_after D c) x)
      (fun m hm => hvoid m (by simp [hm]))
    rw [after_append]
    refine ⟨fed_append.mpr ⟨hfed₁, hfed₂⟩, List.forall_mem_append.mpr ⟨hplain₁, hplain₂⟩,
      List.forall_mem_cons.mpr ⟨le_after _ cs _ (hslot hvalue), hslots⟩⟩

theorem fed_single {D : Slot → Prop} {i : Instr} {slot : Slot} (huses : ∀ u ∈ i.uses, D u)
    (hdef : i.def? = some slot) : Fed D [i] ∧ after D [i] slot :=
  ⟨fed_cons.mpr ⟨huses, fed_nil _⟩, .inr ⟨i, by simp, hdef⟩⟩

theorem fed_loadImm (D : Slot → Prop) (slot : Slot) (o : Operand) (h : o.slot? = none) :
    Fed D [⟨.loadImm, [.slot slot, o]⟩] ∧ after D [⟨.loadImm, [.slot slot, o]⟩] slot :=
  fed_single (by rw [uses_loadImm slot h]; simp) (def?_loadImm slot o)

/-- The operands are written, left before right, when the instruction reads them. -/
theorem binary_fed {tag : Tag} {op : Token} {left right : Node} (ihl : ExprFed su fin left)
    (ihr : ExprFed su fin right) : ExprFed su fin (.binary tag op left right) := by
  intro env D slot code h hseen hcov hvoid
  have hl : left ∈ (Node.binary tag op left right).parts := by simp [Node.parts]
  have hr : right ∈ (Node.binary tag op left right).parts := by simp [Node.parts]
  have hpart := fun p hp => seen_part (p := p) h hseen hp
  rw [ExprCode] at h
  obtain ⟨-, lhs, rhs, c, d, opcode, hleft, hright, hop, rfl⟩ := h
  obtain ⟨hdef, huses, hplain⟩ := binary_instr slot hop lhs rhs
  obtain ⟨hfed₁, hplain₁, hslot₁⟩ :=
    ihl env D lhs c hleft (hpart left hl) hcov (hvoid.part hl)
  obtain ⟨hfed₂, hplain₂, hslot₂⟩ := ihr env (after D c) rhs d hright (hpart right hr)
    (hcov.mono fun x => Covers.mono (le_after D c) x) (hvoid.part hr)
  have hlhs := le_after _ d lhs (hslot₁ (hvoid.hasValue rfl (by simp) hl))
  have hrhs := hslot₂ (hvoid.hasValue rfl (by simp) hr)
  obtain ⟨hfed₃, hslot₃⟩ := fed_single (D := after (after D c) d) (by
    rw [huses]
    exact List.forall_mem_cons.mpr ⟨hlhs, List.forall_mem_singleton.mpr hrhs⟩) hdef
  rw [← after_append D c d] at hfed₃ hslot₃
  rw [after_append]
  refine ⟨fed_append.mpr ⟨fed_append.mpr ⟨hfed₁, hfed₂⟩, hfed₃⟩, ?_, fun _ => hslot₃⟩
  exact List.forall_mem_append.mpr ⟨List.forall_mem_append.mpr ⟨hplain₁, hplain₂⟩,
    List.forall_mem_singleton.mpr hplain⟩

theorem call_fed (hh : StackOrNone su) {tag : Tag} {callee : String} {args : List Node}
    (ih : ∀ n ∈ args, ExprFed su fin n) : ExprFed su fin (.call tag callee args) := by
  intro env D slot code h hseen hcov hvoid
  have hpart := fun p hp => seen_part (p := p) h hseen hp
  rw [ExprCode] at h
  obtain ⟨-, slots, c, out, f, result, hargs, hout, -, hresult, rfl⟩ := h
  obtain ⟨hfed₁, hplain₁, hslots⟩ := args_fed args ih env D slots c hargs hpart hcov
    fun p hp => ⟨hvoid.part (n := .call tag callee args) hp,
      hvoid.hasValue (n := .call tag callee args) rfl (by simp) hp⟩
  -- The arguments leave from slots that have been written.
  have hout' : out = slots.map fun s => ⟨.push, [.slot s]⟩ := by
    rw [ArgsOut] at hout
    split at hout
    · next he => rw [he, hout]; rfl
    · exact hh.answered rfl hout
  obtain ⟨sig, hsig, hname, hres⟩ := hresult
  have hres' : (∀ i ∈ result, i.uses = [] ∧ i.isPlain = true) ∧
      (sig.result ≠ .void → ∃ i ∈ result, i.def? = some slot) := by
    split at hres
    · next hv => exact ⟨by simp [hres], fun hne => absurd hv hne⟩
    · have hpop := hh.answered rfl hres
      rw [hpop]
      exact ⟨by simp [Hook.stackInstrs, Instr.isPlain],
        fun _ => ⟨_, List.mem_singleton.mpr rfl, rfl⟩⟩
  obtain ⟨hquiet, hwritten⟩ := hres'
  rw [hout', List.append_assoc]
  refine ⟨fed_append.mpr ⟨hfed₁, fed_append.mpr ⟨fed_push slots hslots, ?_⟩⟩, ?_,
    fun hvalue => ?_⟩
  · refine fed_of_uses fun i hi u hu => ?_
    rcases List.mem_cons.mp hi with rfl | hi
    · simp [callTo] at hu
    · rw [(hquiet i hi).1] at hu
      simp at hu
  · refine List.forall_mem_append.mpr ⟨hplain₁, List.forall_mem_append.mpr ⟨?_, ?_⟩⟩
    · simp [Instr.isPlain]
    · exact List.forall_mem_cons.mpr ⟨rfl, fun i hi => (hquiet i hi).2⟩
  · have hne : sig.result ≠ .void := fun hv => hvalue tag callee args rfl ⟨sig, hsig, hname, hv⟩
    obtain ⟨i, hi, hdef⟩ := hwritten hne
    exact .inr ⟨i, by simp [hi], hdef⟩

/-- **An expression reads only what has been written.** -/
theorem expr_fed (hh : StackOrNone su) : ∀ n : Node, ExprFed su fin n := by
  intro n
  induction n using Node.parts_induction with
  | _ n ih _ =>
  intro env D slot code h hseen hcov hvoid
  cases n with
  | number tag value | boolean tag value =>
    rw [ExprCode] at h
    obtain ⟨-, rfl⟩ := h
    obtain ⟨hfed, hslot⟩ := fed_loadImm D slot (.imm _) rfl
    exact ⟨hfed, by simp [Instr.isPlain], fun _ => hslot⟩
  | string tag bytes =>
    rw [ExprCode] at h
    obtain ⟨-, k, l, -, -, rfl⟩ := h
    obtain ⟨hfed, hslot⟩ := fed_loadImm D slot (.literal k) rfl
    exact ⟨hfed, by simp [Instr.isPlain], fun _ => hslot⟩
  | ident tag name =>
    rw [ExprCode] at h
    obtain ⟨-, decl, source, hbound, hsource, rfl⟩ := h
    -- The variable shows in an open scope, so its slot has been written.
    obtain ⟨x, hfind, hrole, hbound'⟩ := hseen ⟨.ident tag name, env⟩ (by simp [sites])
    cases hbound.symm.trans hbound'
    have hD : D source := hcov.find? hfind hrole source hsource
    obtain ⟨hfed, hslot⟩ := fed_single (D := D) (by simpa using hD) (def?_mov slot source)
    exact ⟨hfed, by simp [Instr.isPlain], fun _ => hslot⟩
  | binary tag op left right =>
    exact binary_fed (ih left (by simp [Node.parts])) (ih right (by simp [Node.parts]))
      env D slot code h hseen hcov hvoid
  | call tag callee args => exact call_fed hh ih env D slot code h hseen hcov hvoid
  | _ => simp [ExprCode] at h

end Fed

/-! ## Statements -/

/-- What a tree has to be like for its reads to be safe. -/
structure Tidy (fin : State) (n : Node) : Prop where
  void : VoidApart (IsVoid fin) n
  unheld : Unheld fin n
  scan : ScanFree n

theorem Tidy.part {fin : State} {n p : Node} (h : Tidy fin n) (hp : p ∈ n.parts) : Tidy fin p :=
  ⟨h.void.part hp, h.unheld.part hp, h.scan.part hp⟩

/-- A statement is safe if what comes behind it is, whatever it has written by then. -/
def StmtSafe (su : Setup) (fin : State) (m : Module) (g : Nat) (n : Node) : Prop :=
  ∀ (env : Env) (N : Nat) (D : Slot → Prop) (i j : Nat) (rest rest' : List Instr),
    StmtAt su fin g (fun k => m.code ⟨g, k⟩) n i rest j rest' → env.isNested = true →
    (∀ s ∈ sites env n, Seen su s) → env.Each (Covers fin D) → Tidy fin n →
    (∀ k, k ≤ N → ∀ D', (∀ s, D s → D' s) → (env.extend (declared n)).Each (Covers fin D') →
      Safe m k D' ⟨g, j⟩ rest') → Safe m N D ⟨g, i⟩ rest

section Safe

variable {su : Setup} {fin : State} {m : Module} {g : Nat}

theorem stmts_safe : ∀ (ns : List Node), (∀ n ∈ ns, StmtSafe su fin m g n) →
    ∀ (env : Env) (N : Nat) (D : Slot → Prop) (i j : Nat) (rest rest' : List Instr),
      StmtsAt su fin g (fun k => m.code ⟨g, k⟩) ns i rest j rest' → env.isNested = true →
      (∀ s ∈ sitesAll env ns, Seen su s) → env.Each (Covers fin D) → (∀ n ∈ ns, Tidy fin n) →
      (∀ k, k ≤ N → ∀ D', (∀ s, D s → D' s) →
        (env.extend (declaredAll ns)).Each (Covers fin D') → Safe m k D' ⟨g, j⟩ rest') →
      Safe m N D ⟨g, i⟩ rest := by
  intro ns
  induction ns with
  | nil =>
    intro _ env N D i j rest rest' hat _ _ hcov _ hk
    rw [StmtsAt] at hat
    obtain ⟨rfl, rfl⟩ := hat
    refine hk N (Nat.le_refl N) D (fun _ h => h) ?_
    rw [declaredAll, Env.extend_nil]
    exact hcov
  | cons n ns ih =>
    intro hsafe env N D i j rest rest' hat hnest hseen hcov htidy hk
    rw [StmtsAt] at hat
    obtain ⟨l, mid, hn, hns⟩ := hat
    rw [sitesAll, List.forall_mem_append] at hseen
    refine hsafe n (by simp) env N D i l rest mid hn hnest hseen.1 hcov (htidy n (by simp)) ?_
    intro k hkN D' hD hcov'
    refine ih (fun p hp => hsafe p (by simp [hp])) _ k D' l j mid rest' hns
      (by rwa [Env.extend_isNested]) hseen.2 hcov' (fun p hp => htidy p (by simp [hp])) ?_
    intro k' hk' D'' hD' hcov''
    refine hk k' (Nat.le_trans hk' hkN) D'' (fun s hs => hD' s (hD s hs)) ?_
    rw [declaredAll, Env.extend_append]
    exact hcov''

theorem expr_safe (hh : StackOrNone su) {n : Node} {env : Env} {N : Nat} {D : Slot → Prop}
    {r : BlockRef} {slot : Slot} {code rest : List Instr} (hcode : ExprCode su fin n slot code)
    (hseen : ∀ s ∈ sites env n, Seen su s) (hcov : env.Each (Covers fin D))
    (hvoid : VoidApart (IsVoid fin) n)
    (hk : ∀ k, k ≤ N → env.Each (Covers fin (after D code)) →
      (HasValue (IsVoid fin) n → after D code slot) → Safe m k (after D code) r rest) :
    Safe m N D r (code ++ rest) := by
  obtain ⟨hfed, hplain, hslot⟩ := expr_fed hh n env D slot code hcode hseen hcov hvoid
  refine safe_append hplain hfed fun k hkN => hk k hkN ?_ hslot
  exact hcov.mono fun x => Covers.mono (le_after D code) x

theorem compound_safe {ctag : Tag} {stmts : List Node} (hsafe : ∀ n ∈ stmts, StmtSafe su fin m g n)
    {env : Env} {N : Nat} {D : Slot → Prop} {i j : Nat} {rest rest' : List Instr}
    (hat : StmtsAt su fin g (fun k => m.code ⟨g, k⟩) stmts i rest j rest')
    (hseen : ∀ s ∈ sites env (.compound ctag stmts), Seen su s) (hcov : env.Each (Covers fin D))
    (htidy : Tidy fin (.compound ctag stmts))
    (hk : ∀ k, k ≤ N → ∀ D', (∀ s, D s → D' s) → env.Each (Covers fin D') →
      Safe m k D' ⟨g, j⟩ rest') : Safe m N D ⟨g, i⟩ rest := by
  rw [sites, List.forall_mem_cons] at hseen
  refine stmts_safe stmts hsafe (env.enter []) N D i j rest rest' hat rfl hseen.2
    (hcov.enter (by simp)) (fun p hp => htidy.part hp) ?_
  intro k hkN D' hD hcov'
  exact hk k hkN D' hD hcov'.of_enter

theorem ifThen_safe (hh : StackOrNone su) {tag ctag : Tag} {cond : Node} {stmts : List Node}
    (hsafe : ∀ n ∈ stmts, StmtSafe su fin m g n) :
    StmtSafe su fin m g (.ifThen tag cond (.compound ctag stmts)) := by
  intro env N D i j rest rest' hat _ hseen hcov htidy hk
  rw [StmtAt] at hat
  obtain ⟨slot, c, l, hcond, rfl, hbody, rfl, rfl⟩ := hat
  have hnone := declared_of_exprCode cond slot c hcond
  have hpart : cond ∈ (Node.ifThen tag cond (.compound ctag stmts)).parts := by simp [Node.parts]
  have hpart' : Node.compound ctag stmts ∈ (Node.ifThen tag cond (.compound ctag stmts)).parts := by
    simp [Node.parts]
  rw [declared, hnone, declared, List.append_nil, Env.extend_nil] at hk
  rw [sites, hnone, Env.extend_nil, List.forall_mem_cons, List.forall_mem_append] at hseen
  obtain ⟨-, hseenC, hseenB⟩ := hseen
  refine expr_safe hh hcond hseenC hcov (htidy.part hpart).void fun k hkN hcov' hvalue => ?_
  refine safe_branchTo (hvalue (htidy.void.hasValue rfl (by simp) hpart)) ?_ ?_
  · -- Into the body, and from its end to the exit.
    intro k' hk'
    refine compound_safe hsafe hbody hseenB hcov' (htidy.part hpart') ?_
    intro k'' hk'' D' hD hcovD
    refine safe_jumpTo (fun k₃ hk₃ => ?_) []
    exact hk k₃ (by omega) D' (fun s hs => hD s (le_after D c s hs)) hcovD
  · intro k' hk'
    exact hk k' (by omega) _ (le_after D c) hcov'

theorem loop_safe (hh : StackOrNone su) {tag ctag : Tag} {cond : Node} {stmts : List Node}
    (hsafe : ∀ n ∈ stmts, StmtSafe su fin m g n) :
    StmtSafe su fin m g (.loop tag cond (.compound ctag stmts)) := by
  intro env N D i j rest rest' hat _ hseen hcov htidy hk
  rw [StmtAt] at hat
  obtain ⟨rfl, slot, c, l, hcond, hheader, hbody, rfl, rfl⟩ := hat
  have hnone := declared_of_exprCode cond slot c hcond
  have hpart : cond ∈ (Node.loop tag cond (.compound ctag stmts)).parts := by simp [Node.parts]
  have hpart' : Node.compound ctag stmts ∈ (Node.loop tag cond (.compound ctag stmts)).parts := by
    simp [Node.parts]
  rw [declared, hnone, declared, List.append_nil, Env.extend_nil] at hk
  rw [sites, hnone, Env.extend_nil, List.forall_mem_cons, List.forall_mem_append] at hseen
  obtain ⟨-, hseenC, hseenB⟩ := hseen
  -- The header is safe however often it is met: every round is a way that is shorter.
  have header : ∀ k, k ≤ N → ∀ D', (∀ s, D s → D' s) → env.Each (Covers fin D') →
      Safe m k D' ⟨g, i + 1⟩ (m.code ⟨g, i + 1⟩) := by
    intro k
    induction k using Nat.strongRecOn with
    | _ k ih =>
    intro hkN D' hD hcovD
    rw [show m.code ⟨g, i + 1⟩ = _ from hheader]
    refine expr_safe hh hcond hseenC hcovD (htidy.part hpart).void fun k₁ hk₁ hcov' hvalue => ?_
    refine safe_branchTo (hvalue (htidy.void.hasValue rfl (by simp) hpart)) ?_ ?_
    · intro k₂ hk₂
      refine compound_safe hsafe hbody hseenB hcov' (htidy.part hpart') ?_
      intro k₃ hk₃ D₃ hD₃ hcov₃
      refine safe_jumpTo (fun k₄ hk₄ => ?_) []
      exact ih k₄ (by omega) (by omega) D₃
        (fun s hs => hD₃ s (le_after D' c s (hD s hs))) hcov₃
    · intro k₂ hk₂
      exact hk k₂ (by omega) _ (fun s hs => le_after D' c s (hD s hs)) hcov'
  exact safe_nil (header N (Nat.le_refl N) D (fun _ h => h) hcov)

theorem var_safe (hh : StackOrNone su) {tag : Tag} {name : String} {type : ValueType}
    {init : Node} : StmtSafe su fin m g (.var tag name type init) := by
  intro env N D i j rest rest' hat hnest hseen hcov htidy hk
  by_cases hinit : init = .absent
  · subst hinit
    rw [StmtAt] at hat
    obtain ⟨rfl, rfl⟩ := hat
    have hnone := htidy.unheld tag name type (Node.mem_nodes_self rfl)
    rw [declared, declared, List.nil_append] at hk
    exact hk N (Nat.le_refl N) D (fun _ h => h) (covers_of_unheld hcov hnone name)
  · rw [sites, List.forall_mem_cons] at hseen
    obtain ⟨source, slot, c, hcode, hslot, rfl, rfl⟩ :=
      stmtAt_var_local hinit (hseen.1 hnest) hat
    have hpart : init ∈ (Node.var tag name type init).parts := by simp [Node.parts]
    rw [declared, declared_of_exprCode init source c hcode, List.nil_append] at hk
    refine expr_safe hh hcode hseen.2 hcov (htidy.part hpart).void fun k hkN hcov' hvalue => ?_
    have hsource := hvalue (htidy.void.hasValue rfl (by simp) hpart)
    obtain ⟨hfed, hdone⟩ := fed_single (D := after D c) (by simpa using hsource)
      (def?_mov slot source)
    refine safe_cons rfl hfed fun k' hk' => ?_
    have hle := le_after (after D c) [⟨.mov, [.slot slot, .slot source]⟩]
    exact hk k' (by omega) _ (fun s hs => hle s (le_after D c s hs))
      (covers_assigned hcov' hle hslot hdone name)

theorem print_safe (hh : StackOrNone su) {tag : Tag} {expr : Node} :
    StmtSafe su fin m g (.print tag expr) := by
  intro env N D i j rest rest' hat _ hseen hcov htidy hk
  rw [StmtAt] at hat
  obtain ⟨slot, c, out, hcode, hout, rfl, rfl⟩ := hat
  have hpart : expr ∈ (Node.print tag expr).parts := by simp [Node.parts]
  rw [sites, List.forall_mem_cons] at hseen
  rw [declared, declared_of_exprCode expr slot c hcode, Env.extend_nil] at hk
  rw [List.append_assoc]
  refine expr_safe hh hcode hseen.2 hcov (htidy.part hpart).void fun k hkN hcov' hvalue => ?_
  have hslot := hvalue (htidy.void.hasValue rfl (by simp) hpart)
  have hprint := hh.printed hout
  refine safe_append (fun x hx => ?_) (fed_of_uses fun x hx u hu => ?_) fun k' hk' => ?_
  · rcases hprint x hx with rfl | rfl <;> rfl
  · rcases hprint x hx with rfl | rfl
    · simp at hu
    · rw [uses_push, List.mem_singleton] at hu
      rwa [hu]
  · have hle := le_after (after D c) out
    exact hk k' (by omega) _ (fun s hs => hle s (le_after D c s hs))
      (hcov'.mono fun x => Covers.mono hle x)

theorem returned_safe (hh : StackOrNone su) {tag : Tag} {expr : Node} :
    StmtSafe su fin m g (.ret tag expr) := by
  intro env N D i j rest rest' hat _ hseen hcov htidy _
  by_cases hexpr : expr = .absent
  · subst hexpr
    rw [StmtAt] at hat
    obtain ⟨rfl, rfl⟩ := hat
    exact safe_ret rfl rfl rest'
  · obtain ⟨slot, c, out, hcode, hout, rfl, rfl⟩ := (stmtAt_ret hexpr).mp hat
    have hpart : expr ∈ (Node.ret tag expr).parts := by simp [Node.parts]
    rw [sites, List.forall_mem_cons] at hseen
    rw [List.append_assoc, hh.answered rfl hout]
    refine expr_safe hh hcode hseen.2 hcov (htidy.part hpart).void fun k hkN hcov' hvalue => ?_
    have hslot := hvalue (htidy.void.hasValue rfl (by simp) hpart)
    refine safe_append (by simp [Hook.stackInstrs, Instr.isPlain]) (fed_push [slot] ?_)
      fun k' _ => safe_ret rfl rfl rest'
    simpa using hslot

/-- **A statement reads only what has been written.** -/
theorem stmt_safe (hh : StackOrNone su) : ∀ n : Node, StmtSafe su fin m g n := by
  intro n
  induction n using Node.parts_induction with
  | _ n ih ih₂ =>
  cases n with
  | var tag name type init => exact var_safe hh
  | print tag expr => exact print_safe hh
  | ret tag expr => exact returned_safe hh
  | compound ctag stmts =>
    intro env N D i j rest rest' hat _ hseen hcov htidy hk
    rw [StmtAt] at hat
    obtain ⟨rfl, hat⟩ := hat
    rw [declared, Env.extend_nil] at hk
    exact safe_nil (compound_safe ih hat hseen hcov htidy hk)
  | ifThen tag cond body =>
    cases body with
    | compound ctag stmts =>
      exact ifThen_safe hh fun p hp => ih₂ (.compound ctag stmts) (by simp [Node.parts]) p hp
    | _ =>
      intro env N D i j rest rest' hat
      simp [StmtAt] at hat
  | loop tag cond body =>
    cases body with
    | compound ctag stmts =>
      exact loop_safe hh fun p hp => ih₂ (.compound ctag stmts) (by simp [Node.parts]) p hp
    | _ =>
      intro env N D i j rest rest' hat
      simp [StmtAt] at hat
  | scan tag target =>
    intro env N D i j rest rest' _ _ _ _ htidy
    exact absurd (Node.mem_nodes_self rfl) (htidy.scan tag target)
  | _ =>
    intro env N D i j rest rest' hat _ hseen hcov htidy hk
    simp only [StmtAt] at hat
    obtain ⟨slot, c, hcode, rfl, rfl⟩ := hat
    rw [declared_of_exprCode _ slot c hcode, Env.extend_nil] at hk
    refine expr_safe hh hcode hseen hcov htidy.void fun k hkN hcov' _ => ?_
    exact hk k hkN _ (le_after D c) hcov'

end Safe

/-! ## Programs -/

theorem VoidApart.mono {void void' : String → Prop} {n : Node} (h : VoidApart void' n)
    (hv : ∀ callee, void callee → void' callee) : VoidApart void n :=
  fun m hm tag callee args hp hvoid => h m hm tag callee args hp (hv callee hvoid)

/-- The slots of the parameters are the ones that were asked for. -/
theorem covers_params {fin : State} {params : List Node} {slots : List Slot}
    (hslots : (params.map fun p => fin.slots.slot? p.label?) = slots.map some) :
    ∀ x ∈ paramSymbols params, Covers fin (fun k => k ∈ slots) x := by
  intro x hx k hk
  obtain ⟨p, hp, hlabel⟩ := label_of_paramSymbols hx
  have hmem : some k ∈ slots.map some := by
    rw [← hslots, List.mem_map]
    exact ⟨p, hp, by rw [hlabel]; exact hk⟩
  simpa using hmem

section Program

variable {su : Setup} {tag : Tag} {decls : List Node} {fin : State}

/-- The global sequence reads only what it has written, and in the end it has written every
variable of the program scope that has a slot. -/
theorem globals_fed (hh : StackOrNone su) (hacc : Accepted su decls fin)
    (hvoid : ∀ d ∈ decls, VoidApart (IsVoid fin) d)
    (hunheld : ∀ vtag name type, .var vtag name type .absent ∈ decls →
      fin.slots.slot? (some vtag.label) = none) :
    ∀ (rest before : List Node) (D : Slot → Prop) (code : List Instr), decls = before ++ rest →
      GlobalsCode su fin rest code → (envBehind decls before).Each (Covers fin D) →
        Fed D code ∧ (envBehind decls decls).Each (Covers fin (after D code)) := by
  intro rest
  induction rest with
  | nil =>
    intro before D code hsplit hcode hcov
    rw [GlobalsCode] at hcode
    rw [List.append_nil] at hsplit
    rw [hcode, after_nil]
    refine ⟨fed_nil D, ?_⟩
    rw [← hsplit] at hcov
    exact hcov
  | cons d rest ih =>
    intro before D code hsplit hcode hcov
    have hd : d ∈ decls := by rw [hsplit]; simp
    have hsplit' : decls = before ++ [d] ++ rest := by rw [List.append_assoc]; exact hsplit
    have hseen : ∀ s ∈ sites (envBehind decls before) d, Seen su s :=
      fun s hs => hacc.seen s (sites_of_split hsplit s hs)
    cases hacc.proper d hd with
    | function hk =>
      rw [GlobalsCode] at hcode
      obtain ⟨c, e, -, hnone, hrest, rfl⟩ := hcode
      rw [hnone (hacc.locals _ _ _ _ _ hd), List.nil_append]
      refine ih _ D e hsplit' hrest ?_
      rw [envBehind_concat, declared, Env.extend_nil]
      exact hcov
    | @var vtag name type init hk =>
      by_cases hinit : init = .absent
      · subst hinit
        rw [GlobalsCode] at hcode
        refine ih _ D code hsplit' hcode ?_
        rw [envBehind_concat, declared, declared, List.nil_append]
        exact covers_of_unheld hcov (hunheld vtag name type hd) name
      · obtain ⟨source, slot, c, d, hexpr, hslot, hrest, rfl⟩ := (globalsCode_var hinit).mp hcode
        have hpart : init ∈ (Node.var vtag name type init).parts := by simp [Node.parts]
        rw [sites, List.forall_mem_cons] at hseen
        obtain ⟨hfed, -, hvalue⟩ := expr_fed hh init _ D source c hexpr hseen.2 hcov
          ((hvoid _ hd).part hpart)
        have hsource := hvalue ((hvoid _ hd).hasValue rfl (by simp) hpart)
        obtain ⟨hfed', hdone⟩ := fed_single (D := after D c) (by simpa using hsource)
          (def?_mov slot source)
        have hmov : c ++ ⟨.mov, [.slot slot, .slot source]⟩ :: d =
            c ++ ([⟨.mov, [.slot slot, .slot source]⟩] ++ d) := rfl
        have hle : ∀ k, D k → after (after D c) [⟨.mov, [.slot slot, .slot source]⟩] k :=
          fun k hk => le_after _ _ k (le_after D c k hk)
        obtain ⟨hfed'', hcov''⟩ := ih _ _ d hsplit' hrest (by
          rw [envBehind_concat, declared, declared_of_exprCode init source c hexpr,
            List.nil_append]
          exact covers_assigned hcov hle hslot hdone name)
        rw [hmov, after_append, after_append]
        exact ⟨fed_append.mpr ⟨hfed, fed_append.mpr ⟨hfed', hfed''⟩⟩, hcov''⟩

/-- A function reads only what it has written, beside the variables of the program scope. -/
theorem function_safe (hh : StackOrNone su) (hacc : Accepted su decls fin) {D : Slot → Prop}
    (hcov : (envBehind decls decls).Each (Covers fin D)) {ftag : Tag} {name : String}
    {params : List Node} {result : ValueType} {body : Node}
    (hd : .function ftag name params result body ∈ decls) (htidy : Tidy fin body) {g : Nat}
    (hcode : FunctionCode su fin g (fun k => fin.module.code ⟨g, k⟩) (fin.module.count g) params
      body) (N : Nat) : Safe fin.module N D ⟨g, 0⟩ (fin.module.code ⟨g, 0⟩) := by
  obtain ⟨before, behind, hsplit⟩ := List.append_of_mem hd
  obtain ⟨ctag, stmts, slots, j, rfl, hslots, hparams, hat, hcount⟩ := hcode
  -- The parameters are popped first.
  have hpops : fin.module.code ⟨g, 0⟩ = slots.reverse.map fun s => ⟨.pop, [.slot s]⟩ := by
    rw [ParamsIn] at hparams
    split at hparams
    · next he => rw [he]; exact hparams
    · exact hh.answered rfl hparams
  rw [hpops, ← List.append_nil (slots.reverse.map _)]
  refine safe_append (by simp [Instr.isPlain]) (fed_of_uses (by simp)) fun k hk => safe_nil ?_
  have hle := le_after D (slots.reverse.map fun s => ⟨.pop, [.slot s]⟩)
  have hcov' : (envBehind decls before).Each (Covers fin D) := by
    rw [hsplit] at hcov ⊢
    exact envBehind_each hcov
  refine stmts_safe stmts (fun n _ => stmt_safe hh n) _ k _ 1 j _ _ hat rfl
    (seen_body hsplit hacc.seen) ?_ (fun p hp => htidy.part hp) fun k' hk' D' hD hcovD => ?_
  · refine (hcov'.mono fun x => Covers.mono hle x).enter fun x hx => ?_
    refine Covers.mono (fun s hs => .inr ?_) x (covers_params hslots x (List.mem_reverse.mp hx))
    exact ⟨_, List.mem_map_of_mem (List.mem_reverse.mpr hs), def?_pop s⟩
  · refine safe_end ?_
    rw [Module.block?, List.getElem?_eq_none]
    exact Nat.le_of_eq hcount

/-- **No slot is read before it is written**: not in the global sequence, and not on any way
of control through a function, where the global sequence has been run before. -/
theorem select_definite {su : Setup} {tag : Tag} {decls : List Node} {t : Table}
    {b₀ b : Bindings} {u : Unit} {fin : State} (hh : StackOrNone su)
    (hu : (Node.program tag decls).Unshared)
    (hres : resolveProgram (.program tag decls) b₀ = .ok t b) (hb : su.bindings = b)
    (hg : su.isGlobal = t.isGlobal) (hsel : select su (.program tag decls) = .ok u fin)
    (hscan : ScanFree (.program tag decls))
    (hvoid : VoidApart (fun callee => ∃ ftag params body,
      .function ftag callee params .void body ∈ decls) (.program tag decls)) :
    Fed (fun _ => False) fin.module.globals ∧
      ∀ f ∈ fin.module.functions, ∀ entry block es, fin.module.entry? f.graph = some entry →
        fin.module.block? entry = some block → Trace fin.module entry block.instrs es →
          Fed (fun k => ∃ i ∈ fin.module.globals, i.def? = some k) es := by
  have hacc := accepted hu hres hb hg hsel
  have hlow := hacc.lowered
  have hvoid' : VoidApart (IsVoid fin) (.program tag decls) := by
    refine hvoid.mono ?_
    rintro callee ⟨sig, hsig, rfl, hresult⟩
    obtain ⟨ftag, params, body, hd⟩ := hlow.sources sig hsig
    exact ⟨ftag, params, body, hresult ▸ hd⟩
  obtain ⟨hfed, hcov⟩ := globals_fed hh hacc (fun d hd => hvoid'.part hd)
    (fun vtag name type hd => by
      obtain ⟨before, behind, hsplit⟩ := List.append_of_mem hd
      exact unheld_global hlow hu hscan hsplit)
    decls [] _ _ rfl (hlow.globals fin (Grows.refl fin)) (programEnv_each decls _)
  refine ⟨hfed, fun f hf entry block es hentry hblock htrace => ?_⟩
  -- The function was declared in the program, under its name.
  obtain ⟨sig, hsig, hname⟩ := hlow.declared f hf
  obtain ⟨ftag, params, body, hd⟩ := hlow.sources sig hsig
  obtain ⟨g, hmem, hcode⟩ := hlow.functions ftag _ params _ body hd
  cases List.inj_on_of_nodup_map hlow.names hf hmem hname.symm
  have hbody : body ∈ (Node.function ftag sig.name params sig.result body).parts := by
    simp [Node.parts]
  have htidy : Tidy fin body :=
    ⟨(hvoid'.part hd).part hbody, unheld_body hlow hu hscan hd, (hscan.part hd).part hbody⟩
  have hentry' : entry = ⟨g, 0⟩ := entry?_eq hentry
  subst hentry'
  have hsafe := function_safe hh hacc hcov hd htidy (hcode fin (Grows.refl fin)) es.length
  rw [code_of_block? hblock] at hsafe
  refine (hsafe es (Nat.le_refl _) htrace).mono ?_
  rintro k (hk | hk)
  · exact hk.elim
  · exact hk

end Program

/-- A loop that reads a variable of the program scope and hands its own over to a function
without a result. -/
def loopingDecls : List Node :=
  [.var (.nowhere 1 .varDecl) "g" .int (.number (.nowhere 2 .numberExpr) 1),
   .function (.nowhere 3 .functionDecl) "show" [.param (.nowhere 4 .paramDecl) "v" .int] .void
    (.compound (.nowhere 5 .compoundStmt)
      [.print (.nowhere 6 .printStmt) (.ident (.nowhere 7 .identExpr) "v")]),
   .function (.nowhere 8 .functionDecl) "f" [.param (.nowhere 9 .paramDecl) "n" .int] .int
    (.compound (.nowhere 10 .compoundStmt)
      [.loop (.nowhere 11 .whileStmt)
        (.binary (.nowhere 12 .binaryExpr) .lt (.ident (.nowhere 13 .identExpr) "g")
          (.ident (.nowhere 14 .identExpr) "n"))
        (.compound (.nowhere 15 .compoundStmt)
          [.var (.nowhere 16 .varDecl) "x" .int (.ident (.nowhere 17 .identExpr) "n"),
           .call (.nowhere 18 .callExpr) "show" [.ident (.nowhere 19 .identExpr) "x"]]),
       .ret (.nowhere 20 .returnStmt) (.ident (.nowhere 21 .identExpr) "n")])]

theorem loopingDecls_definite : ∃ t b fin,
    resolveProgram (.program (.nowhere 0 .program) loopingDecls) {} = .ok t b ∧
      select (stackSetup t b) (.program (.nowhere 0 .program) loopingDecls) = .ok () fin ∧
      Fed (fun _ => False) fin.module.globals ∧
      ∀ f ∈ fin.module.functions, ∀ entry block es, fin.module.entry? f.graph = some entry →
        fin.module.block? entry = some block → Trace fin.module entry block.instrs es →
          Fed (fun k => ∃ i ∈ fin.module.globals, i.def? = some k) es := by
  have hlowers : lowers stackSetup (.program (.nowhere 0 .program) loopingDecls) = true := by
    decide +kernel
  obtain ⟨t, b, fin, hres, hsel⟩ := exists_of_lowers hlowers
  have hh : StackOrNone (stackSetup t b) := by
    refine ⟨.inl rfl, ?_⟩
    rintro served slot out ho i hi
    cases ho
    exact .inr (List.mem_singleton.mp hi)
  have hu : (Node.program (.nowhere 0 .program) loopingDecls).Unshared := by
    unfold Node.Unshared
    decide
  have hscan : ScanFree (.program (.nowhere 0 .program) loopingDecls) := by
    intro tag target hm
    simp [loopingDecls, Node.nodes, Node.walk, Node.walkAll] at hm
  -- The only call stands in a compound.
  have hvoid : VoidApart (fun callee => ∃ ftag params body,
      .function ftag callee params .void body ∈ loopingDecls)
      (.program (.nowhere 0 .program) loopingDecls) := by
    intro m hm tag callee args hp
    simp only [loopingDecls, Node.nodes, Node.walk, Node.walkAll, if_true, List.append_nil,
      List.cons_append, List.nil_append, List.mem_cons, List.not_mem_nil, or_false] at hm
    rcases hm with rfl | rfl | rfl | rfl | rfl | rfl | rfl | rfl | rfl | rfl | rfl | rfl | rfl |
      rfl | rfl | rfl | rfl | rfl | rfl | rfl | rfl | rfl <;> simp_all [Node.parts]
  exact ⟨t, b, fin, hres, hsel, select_definite hh hu hres rfl rfl hsel hscan hvoid⟩

end Isel.Select
