import Mathlib.Algebra.Ring.Int.Defs
import Isel.Proofs.Successors

/-!
# The stack over a function

Where values cross a call on the stack, a push lifts it by one and a pop lowers it by one.  A
call is counted by its callee: it takes the arguments away and leaves the result
(`stackEffect`).  `height` is the sum along the instructions of a way of control.

* `Walks`: what straight code does to the height; the code of an expression is `Level`.
* `Steady`: what is left of a block keeps the stack at the height that the function works at.
* `SteadyGraph.way`: so do all ways of control through a function, block after block.

Since a way through a function comes to a `RET` with its arguments gone and its result left,
counting a call in this way is right: `Depth` runs the callees, and `SteadyAll.way` says that
it comes to the same.  `select_balanced` puts this together for the functions of a program.

This needs hooks for input and output that do not move control either (`QuietIO`): a `RET`, a
`CALL` or a `JUMP` from such a hook is enough for the stack to get out of balance
(`loudAnswers_unbalanced`).
-/

namespace Isel.Syntax

/-- The node declares the function of that name. -/
def Node.declares (name : String) : Node → Bool
  | .function _ other _ _ _ => other == name
  | _ => false

def functionNamed? (decls : List Node) (name : String) : Option Node :=
  decls.find? (Node.declares name)

/-- How many values a function takes. -/
def Node.arity : Node → Nat
  | .function _ _ params _ _ => params.length
  | _ => 0

/-- How many values a function with that result leaves. -/
def ValueType.results (result : ValueType) : Nat := if result = .void then 0 else 1

def Node.results : Node → Nat
  | .function _ _ _ result _ => result.results
  | _ => 0

/-- A call passes as many arguments as its callee takes. -/
def Node.fits (decls : List Node) : Node → Bool
  | .call _ callee args => (functionNamed? decls callee).all fun d => d.arity == args.length
  | _ => true

/-- A return carries a value exactly if there is a result. -/
def Node.returnsAs (result : ValueType) : Node → Bool
  | .ret _ expr => expr.isAbsent == (result == .void)
  | _ => true

end Isel.Syntax

namespace Isel.Flow

open Isel.Syntax

/-! ## Heights -/

/-- What an instruction that calls nothing does to the height of the stack. -/
def stackMove (i : Instr) : Int :=
  match i.op with
  | .push => 1
  | .pop => -1
  | _ => 0

/-- What an instruction does to the height of the stack, if calls do what the declarations of
their callees say. -/
def stackEffect (decls : List Node) (m : Module) (i : Instr) : Int :=
  if i.op = .call then
    ((m.functionAt? i.target?).bind fun f => functionNamed? decls f.name).elim 0
      fun d => d.results - d.arity
  else stackMove i

/-- What instructions do to the height of the stack, one after the other. -/
def height (decls : List Node) (m : Module) (es : List Instr) : Int :=
  (es.map (stackEffect decls m)).sum

/-- The opcodes that move the stack or turn control away. -/
def loudOpcodes : List Machine.Opcode := [.push, .pop, .call, .ret, .jump]

section Height

variable {decls : List Node} {m : Module}

@[simp] theorem height_nil : height decls m [] = 0 := rfl

@[simp] theorem height_cons (i : Instr) (es : List Instr) :
    height decls m (i :: es) = stackEffect decls m i + height decls m es := by simp [height]

@[simp] theorem height_append (es fs : List Instr) :
    height decls m (es ++ fs) = height decls m es + height decls m fs := by simp [height]

theorem stackEffect_push {i : Instr} (h : i.op = .push) : stackEffect decls m i = 1 := by
  simp [stackEffect, stackMove, h]

theorem stackEffect_pop {i : Instr} (h : i.op = .pop) : stackEffect decls m i = -1 := by
  simp [stackEffect, stackMove, h]

theorem stackEffect_jump {i : Instr} (h : i.op = .jump) : stackEffect decls m i = 0 := by
  simp [stackEffect, stackMove, h]

theorem stackEffect_tst {i : Instr} (h : i.op = .tst) : stackEffect decls m i = 0 := by
  simp [stackEffect, stackMove, h]

theorem stackEffect_quiet {i : Instr} (h : i.op ∉ loudOpcodes) : stackEffect decls m i = 0 := by
  simp only [loudOpcodes, List.mem_cons, List.not_mem_nil, or_false, not_or] at h
  obtain ⟨hpush, hpop, hcall, -, -⟩ := h
  rw [stackEffect, if_neg hcall, stackMove]
  split
  · next hop => exact absurd hop hpush
  · next hop => exact absurd hop hpop
  · rfl

end Height

/-! ## Ways of control -/

/-- When `rest` is left of the block `r`, control leaves it for the block `q`, past the
instructions `out`. -/
inductive Leaves (r : BlockRef) : List Instr → List Instr → BlockRef → Prop
  | jump {rest : List Instr} {i : Instr} {q : BlockRef} : act rest = .jump i →
      i.target? = some q → Leaves r rest [i] q
  | yes {rest : List Instr} {test yes no : Instr} {q : BlockRef} :
      act rest = .branch test yes no → yes.target? = some q → Leaves r rest [test, yes] q
  | no {rest : List Instr} {test yes no : Instr} {q : BlockRef} :
      act rest = .branch test yes no → no.target? = some q → Leaves r rest [test, no] q
  | fall {rest : List Instr} : act rest = .fall → Leaves r rest [] ⟨r.graph, r.index + 1⟩

/-- A way of control from the beginning of the block `r₀`, past the instructions `es`, to where
`rest` is left of the block `r`. -/
inductive Way (m : Module) (r₀ : BlockRef) : BlockRef → List Instr → List Instr → Prop
  | start : Way m r₀ r₀ (m.code r₀) []
  | step {r : BlockRef} {rest rest' es : List Instr} {i : Instr} : Way m r₀ r rest es →
      act rest = .step i rest' → Way m r₀ r rest' (es ++ [i])
  | enter {r q : BlockRef} {rest es out : List Instr} {b : Block} : Way m r₀ r rest es →
      Leaves r rest out q → m.block? q = some b → Way m r₀ q (m.code q) (es ++ out)

/-- A run from the beginning of the block `r₀`, when the stack has the depth `d₀`, to where
`rest` is left of the block `r` and the stack has the depth `d`.  Calls run their callees up to
a `RET`. -/
inductive Depth (m : Module) : BlockRef → Int → BlockRef → List Instr → Int → Prop
  | start {r : BlockRef} {d : Int} : Depth m r d r (m.code r) d
  | step {r₀ r : BlockRef} {d₀ d : Int} {rest rest' : List Instr} {i : Instr} :
      Depth m r₀ d₀ r rest d → act rest = .step i rest' → i.op ≠ .call →
        Depth m r₀ d₀ r rest' (d + stackMove i)
  | call {r₀ r entry q : BlockRef} {d₀ d d' : Int} {rest rest' left : List Instr} {i j : Instr} :
      Depth m r₀ d₀ r rest d → act rest = .step i rest' → i.op = .call →
      i.target? = some entry → Depth m entry d q left d' → act left = .ret j →
        Depth m r₀ d₀ r rest' d'
  | enter {r₀ r q : BlockRef} {d₀ d : Int} {rest out : List Instr} {b : Block} :
      Depth m r₀ d₀ r rest d → Leaves r rest out q → m.block? q = some b →
        Depth m r₀ d₀ q (m.code q) d

section Way

variable {m : Module} {r₀ r q : BlockRef} {rest es out : List Instr}

/-- Blocks are run from their beginning. -/
theorem Way.inBlock (h : Way m r₀ r rest es) :
    ∃ before done, m.code r = done ++ rest ∧ es = before ++ done := by
  induction h with
  | start => exact ⟨[], [], rfl, rfl⟩
  | @step r rest rest' es i _ ha ih =>
    obtain ⟨before, done, hcode, rfl⟩ := ih
    have hinv := act_inv rest
    rw [ha] at hinv
    obtain ⟨rfl, -, -⟩ := hinv
    exact ⟨before, done ++ [i], by rw [hcode, List.append_assoc]; rfl, List.append_assoc ..⟩
  | @enter r q rest es out b _ _ _ => exact ⟨es ++ out, [], rfl, (List.append_nil _).symm⟩

end Way

end Isel.Flow

namespace Isel.Select

open Isel.Flow Isel.Syntax Isel.Scope Isel.Proofs

/-! ## Straight code -/

/-- The code leads from one height to another and never below `lo`, without turning away. -/
inductive Walks (decls : List Node) (m : Module) (lo : Int) : Int → List Instr → Int → Prop
  | nil {h : Int} : lo ≤ h → Walks decls m lo h [] h
  | cons {h d : Int} {i : Instr} {rest : List Instr} : lo ≤ h → i.op ≠ .ret → i.op ≠ .jump →
      Walks decls m lo (h + stackEffect decls m i) rest d → Walks decls m lo h (i :: rest) d

section Walks

variable {decls : List Node} {m : Module} {lo h k d : Int} {c c' : List Instr}

theorem Walks.append (hc : Walks decls m lo h c k) (hc' : Walks decls m lo k c' d) :
    Walks decls m lo h (c ++ c') d := by
  induction hc with
  | nil => exact hc'
  | cons hlo hret hjump _ ih => exact .cons hlo hret hjump (ih hc')

theorem Walks.height_eq (hc : Walks decls m lo h c k) : k = h + height decls m c := by
  induction hc with
  | nil => simp
  | cons _ _ _ _ ih => rw [ih, height_cons, Int.add_assoc]

theorem Walks.ne_jump (hc : Walks decls m lo h c k) : ∀ i ∈ c, i.op ≠ .jump := by
  induction hc with
  | nil => simp
  | cons _ _ hjump _ ih => exact List.forall_mem_cons.mpr ⟨hjump, ih⟩

theorem walks_quiet (hc : ∀ i ∈ c, i.op ∉ loudOpcodes) (hlo : lo ≤ h) :
    Walks decls m lo h c h := by
  induction c with
  | nil => exact .nil hlo
  | cons i c ih =>
    rw [List.forall_mem_cons] at hc
    refine .cons hlo (fun hop => hc.1 (by simp [hop, loudOpcodes]))
      (fun hop => hc.1 (by simp [hop, loudOpcodes])) ?_
    rw [stackEffect_quiet hc.1, Int.add_zero]
    exact ih hc.2

theorem walks_push (hc : ∀ i ∈ c, i.op = .push) (hlo : lo ≤ h) :
    Walks decls m lo h c (h + c.length) := by
  induction c generalizing h with
  | nil => simpa using Walks.nil hlo
  | cons i c ih =>
    rw [List.forall_mem_cons] at hc
    refine .cons hlo (by simp [hc.1]) (by simp [hc.1]) ?_
    rw [stackEffect_push hc.1, List.length_cons,
      show h + ((c.length + 1 : Nat) : Int) = h + 1 + c.length by omega]
    exact ih hc.2 (by omega)

theorem walks_pop (hc : ∀ i ∈ c, i.op = .pop) (hlo : lo ≤ h - c.length) :
    Walks decls m lo h c (h - c.length) := by
  induction c generalizing h with
  | nil => simpa using Walks.nil (by simpa using hlo)
  | cons i c ih =>
    rw [List.forall_mem_cons] at hc
    rw [List.length_cons] at hlo ⊢
    refine .cons (by omega) (by simp [hc.1]) (by simp [hc.1]) ?_
    rw [stackEffect_pop hc.1, show h - ((c.length + 1 : Nat) : Int) = h + -1 - c.length by omega]
    exact ih hc.2 (by omega)

end Walks

/-! ## Calls in their frames -/

/-- The instruction calls a function, `out` pushes as many values as it takes and `result` pops
as many as it leaves. -/
structure Frame (decls : List Node) (m : Module) (out : List Instr) (i : Instr)
    (result : List Instr) : Prop where
  callee : ∃ f ∈ m.functions, ∃ d, i = callTo f ∧ functionNamed? decls f.name = some d ∧
    out.length = d.arity ∧ result.length = d.results
  pushes : ∀ j ∈ out, j.op = .push
  pops : ∀ j ∈ result, j.op = .pop

/-- Every call in the code stands between what pushes its arguments and what pops its
result. -/
def Framed (decls : List Node) (m : Module) (code : List Instr) : Prop :=
  ∀ pre i post, code = pre ++ i :: post → i.op = .call →
    ∃ pre' out result post', pre = pre' ++ out ∧ post = result ++ post' ∧
      Frame decls m out i result

section Framed

variable {decls : List Node} {m : Module} {c d out result : List Instr} {i : Instr}

theorem framed_of_ne_call (h : ∀ i ∈ c, i.op ≠ .call) : Framed decls m c := by
  rintro pre i post rfl hop
  exact absurd hop (h i (by simp))

theorem Framed.append (hc : Framed decls m c) (hd : Framed decls m d) :
    Framed decls m (c ++ d) := by
  intro pre i post he hop
  rcases List.append_eq_append_iff.mp he with ⟨more, rfl, hmore⟩ | ⟨more, hmore, hpost⟩
  · obtain ⟨pre', out, result, post', rfl, hpost, hframe⟩ := hd more i post hmore hop
    exact ⟨c ++ pre', out, result, post', (List.append_assoc ..).symm, hpost, hframe⟩
  · cases more with
    | nil =>
      -- The call is the first instruction of `d`.
      obtain ⟨pre', out, result, post', hnil, hpost', hframe⟩ := hd [] i post hpost.symm hop
      obtain ⟨rfl, rfl⟩ := List.append_eq_nil_iff.mp hnil.symm
      exact ⟨pre, [], result, post', (List.append_nil pre).symm, hpost', hframe⟩
    | cons j more =>
      obtain ⟨rfl, rfl⟩ := List.cons.inj hpost
      obtain ⟨pre', out, result, post', hpre, rfl, hframe⟩ := hc pre i more hmore hop
      exact ⟨pre', out, result, post' ++ d, hpre, List.append_assoc .., hframe⟩

theorem Frame.framed (h : Frame decls m out i result) : Framed decls m (out ++ i :: result) := by
  have hpush : ∀ j ∈ out, j.op ≠ .call := fun j hj => by simp [h.pushes j hj]
  have hpop : ∀ j ∈ result, j.op ≠ .call := fun j hj => by simp [h.pops j hj]
  intro pre j post he hop
  rcases List.append_eq_append_iff.mp he with ⟨more, rfl, hmore⟩ | ⟨more, rfl, hpost⟩
  · cases more with
    | nil =>
      obtain ⟨rfl, rfl⟩ := List.cons.inj hmore
      exact ⟨[], out, result, [], List.append_nil out, (List.append_nil result).symm, h⟩
    | cons k more =>
      obtain ⟨-, rfl⟩ := List.cons.inj hmore
      exact absurd hop (hpop j (by simp))
  · cases more with
    | nil =>
      obtain ⟨rfl, rfl⟩ := List.cons.inj hpost
      rw [List.append_nil] at h
      exact ⟨[], pre, post, [], rfl, (List.append_nil post).symm, h⟩
    | cons k more =>
      obtain ⟨rfl, -⟩ := List.cons.inj hpost
      exact absurd hop (hpush j (by simp))

end Framed

/-! ## Callees -/

section Callees

variable {decls : List Node} {s : State}

theorem Tables.functionAt?_eq {done : List Node} (h : Tables decls done s) {f : Function}
    (hf : f ∈ s.module.functions) : s.module.functionAt? (some ⟨f.graph, 0⟩) = some f :=
  functionAt?_of_mem hf h.rooted h.graphs

theorem Tables.functionNamed?_eq (h : Tables decls decls s) {tag : Tag} {name : String}
    {params : List Node} {result : ValueType} {body : Node}
    (hd : .function tag name params result body ∈ decls) :
    functionNamed? decls name = some (.function tag name params result body) := by
  refine find?_eq_of_unique hd (beq_self_eq_true name) fun d' hd' he => ?_
  cases d' with
  | function tag' name' params' result' body' =>
    obtain rfl : name' = name := beq_iff_eq.mp he
    exact eq_of_nodup_filterMap h.apart hd' hd rfl rfl
  | _ => cases he

theorem Tables.stackEffect_callTo {done : List Node} (h : Tables decls done s) {f : Function}
    (hf : f ∈ s.module.functions) {d : Node} (hd : functionNamed? decls f.name = some d) :
    stackEffect decls s.module (callTo f) = d.results - d.arity := by
  have htarget : (callTo f).target? = some ⟨f.graph, 0⟩ := rfl
  rw [stackEffect, if_pos (show (callTo f).op = .call from rfl), htarget, h.functionAt?_eq hf,
    Option.bind_some, hd]
  rfl

end Callees

/-! ## Expressions are level -/

/-- The code leads back to the height that it began at, and never below it. -/
structure Level (decls : List Node) (m : Module) (c : List Instr) : Prop where
  walks : ∀ lo h, lo ≤ h → Walks decls m lo h c h
  framed : Framed decls m c

section Level

variable {decls : List Node} {m : Module} {c d : List Instr}

theorem Level.append (hc : Level decls m c) (hd : Level decls m d) : Level decls m (c ++ d) :=
  ⟨fun lo h hlo => (hc.walks lo h hlo).append (hd.walks lo h hlo), hc.framed.append hd.framed⟩

theorem level_quiet (h : ∀ i ∈ c, i.op ∉ loudOpcodes) : Level decls m c := by
  refine ⟨fun lo k hlo => walks_quiet h hlo, framed_of_ne_call fun i hi hop => ?_⟩
  exact h i hi (by simp [hop, loudOpcodes])

theorem Frame.level {s : State} {done : List Node} (ht : Tables decls done s)
    {out result : List Instr} {i : Instr} (h : Frame decls s.module out i result) :
    Level decls s.module (out ++ i :: result) := by
  refine ⟨fun lo k hlo => (walks_push h.pushes hlo).append ?_, h.framed⟩
  obtain ⟨f, hf, d, rfl, hd, hout, hresult⟩ := h.callee
  have hpops : Walks decls s.module lo (k + result.length) result
      (k + result.length - result.length) := walks_pop h.pops (by omega)
  rw [Int.add_sub_cancel] at hpops
  refine .cons (by omega) (fun he => by cases he) (fun he => by cases he) ?_
  rw [ht.stackEffect_callTo hf hd, ← hout, ← hresult,
    show k + out.length + ((result.length : Int) - out.length) = k + result.length by omega]
  exact hpops

end Level

section Expr

variable {su : Setup} {decls : List Node} {fin : State}

theorem argsOut_stack (hc : su.hooks.convention = .stack) {slots : List Slot} {out : List Instr}
    (h : ArgsOut su slots out) : out = Hook.stackInstrs (.argsOut slots) := by
  rw [ArgsOut] at h
  split at h
  · next hnil => rw [h, hnil]; rfl
  · exact answered_stack hc rfl h

theorem argsCode_level : ∀ ns : List Node,
    (∀ n ∈ ns, ∀ slot code, ExprCode su fin n slot code → Level decls fin.module code) →
    ∀ slots code, ArgsCode su fin ns slots code →
      Level decls fin.module code ∧ slots.length = ns.length := by
  intro ns
  induction ns with
  | nil =>
    intro _ slots code h
    rw [ArgsCode] at h
    obtain ⟨rfl, rfl⟩ := h
    exact ⟨level_quiet (by simp), rfl⟩
  | cons n ns ih =>
    intro hexpr slots code h
    rw [ArgsCode] at h
    obtain ⟨slot, c, ss, cs, hn, hns, rfl, rfl⟩ := h
    obtain ⟨hlevel, hlen⟩ := ih (fun m hm => hexpr m (by simp [hm])) ss cs hns
    refine ⟨(hexpr n (by simp) slot c hn).append hlevel, ?_⟩
    rw [List.length_cons, List.length_cons, hlen]

/-- What hands over arguments, calls and takes over the result is a frame, if the call fits
its callee. -/
theorem call_frame (hlow : Lowered su decls decls fin) (hc : su.hooks.convention = .stack)
    {tag : Tag} {callee : String} {args : List Node} {slots : List Slot} {slot : Slot}
    {out result : List Instr} {f : Function} (hlen : slots.length = args.length)
    (hout : ArgsOut su slots out) (hf : fin.module.function? callee = some f)
    (hresult : ResultIn su fin callee slot result)
    (hfits : (Node.call tag callee args).fits decls = true) :
    Frame decls fin.module out (callTo f) result := by
  obtain ⟨sig, hsig, rfl, hresult⟩ := hresult
  obtain ⟨ftag, params, body, hd⟩ := hlow.sources sig hsig
  have hname : f.name = sig.name := by
    have hfound := List.find?_some hf
    exact beq_iff_eq.mp hfound
  have hnamed := hlow.functionNamed?_eq hd
  rw [Node.fits, hnamed, Option.all_some, beq_iff_eq] at hfits
  rw [← hname] at hnamed
  rw [argsOut_stack hc hout]
  refine ⟨⟨f, List.mem_of_find?_eq_some hf, _, rfl, hnamed, ?_, ?_⟩, ?_, ?_⟩
  · rw [← hlen] at hfits
    exact (List.length_map ..).trans hfits.symm
  · rw [Node.results, ValueType.results]
    split at hresult
    · next hvoid => rw [hresult, if_pos hvoid]; rfl
    · next hvoid => rw [answered_stack hc rfl hresult, if_neg hvoid]; rfl
  · intro j hj
    obtain ⟨slot, -, rfl⟩ := List.mem_map.mp hj
    rfl
  · intro j hj
    split at hresult
    · rw [hresult] at hj
      cases hj
    · rw [answered_stack hc rfl hresult] at hj
      rw [List.mem_singleton.mp hj]

/-- **The code of an expression is level**, if the calls in it fit their callees. -/
theorem exprCode_level (hlow : Lowered su decls decls fin) (hc : su.hooks.convention = .stack) :
    ∀ n : Node, (∀ m ∈ n.nodes, m.fits decls = true) → ∀ slot code,
      ExprCode su fin n slot code → Level decls fin.module code := by
  have hleaf : ∀ {op args}, op ∉ loudOpcodes →
      Level decls fin.module [(⟨op, args⟩ : Instr)] :=
    fun hop => level_quiet (List.forall_mem_singleton.mpr hop)
  intro n
  induction n using Node.parts_induction with
  | _ n ih _ =>
  intro hfits slot code h
  have hpart : ∀ p ∈ n.parts, ∀ slot code, ExprCode su fin p slot code →
      Level decls fin.module code :=
    fun p hp => ih p hp (forall_nodes_part hfits hp)
  cases n with
  | number | boolean =>
    rw [ExprCode] at h
    rw [h.2]
    exact hleaf (by decide)
  | string =>
    rw [ExprCode] at h
    obtain ⟨-, k, l, -, -, rfl⟩ := h
    exact hleaf (by decide)
  | ident =>
    rw [ExprCode] at h
    obtain ⟨-, decl, source, -, -, rfl⟩ := h
    exact hleaf (by decide)
  | binary tag op left right =>
    rw [ExprCode] at h
    obtain ⟨-, lhs, rhs, c, d, opcode, hl, hr, hop, rfl⟩ := h
    have hquiet : ∀ o ∈ binaryOpcodes, o ∉ loudOpcodes := by decide
    exact ((hpart left (by simp [Node.parts]) lhs c hl).append
      (hpart right (by simp [Node.parts]) rhs d hr)).append
        (hleaf (hquiet opcode (mem_binaryOpcodes hop)))
  | call tag callee args =>
    rw [ExprCode] at h
    obtain ⟨-, slots, c, out, f, result, hargs, hout, hf, hresult, rfl⟩ := h
    obtain ⟨hlevel, hlen⟩ := argsCode_level args hpart slots c hargs
    have hframe := call_frame hlow hc hlen hout hf hresult
      (hfits (.call tag callee args) (Node.mem_nodes_self rfl))
    rw [List.append_assoc]
    exact hlevel.append (hframe.level hlow.toTables)
  | _ => simp [ExprCode] at h

end Expr

/-! ## Steady blocks -/

/-- Run from the height `h`, the code never leads below `low`.  Control leaves it at the height
`low`, or at `high` by a `RET`. -/
def Keeps (decls : List Node) (m : Module) (low high : Int) : Int → List Instr → Prop
  | h, [] => h = low
  | h, i :: rest => low ≤ h ∧
    if i.op = .ret then h = high
    else if i.op = .jump then h = low
    else Keeps decls m low high (h + stackEffect decls m i) rest

/-- What is left of a block of the graph `g` keeps the stack, and its jumps stay in the graph,
behind the entry. -/
structure Steady (decls : List Node) (m : Module) (g : Nat) (low high h : Int)
    (code : List Instr) : Prop where
  keeps : Keeps decls m low high h code
  targets : ∀ i ∈ code, i.op = .jump → ∃ t, i.target? = some ⟨g, t⟩ ∧ 0 < t

section Steady

variable {decls : List Node} {m : Module} {g : Nat} {low high h k : Int}
  {c rest : List Instr} {i : Instr}

theorem Keeps.le (hk : Keeps decls m low high h rest) : low ≤ h := by
  cases rest with
  | nil => exact Int.le_of_eq (Eq.symm hk)
  | cons i rest => exact hk.1

theorem Walks.keeps (hc : Walks decls m low h c k) (hk : Keeps decls m low high k rest) :
    Keeps decls m low high h (c ++ rest) := by
  induction hc with
  | nil => exact hk
  | cons hlo hret hjump _ ih =>
    refine ⟨hlo, ?_⟩
    rw [if_neg hret, if_neg hjump]
    exact ih hk

theorem Walks.steady (hc : Walks decls m low h c k) (hs : Steady decls m g low high k rest) :
    Steady decls m g low high h (c ++ rest) := by
  refine ⟨hc.keeps hs.keeps, fun i hi hop => ?_⟩
  rcases List.mem_append.mp hi with hi | hi
  · exact absurd hop (hc.ne_jump i hi)
  · exact hs.targets i hi hop

theorem Steady.step (hs : Steady decls m g low high h rest) {rest' : List Instr}
    (ha : act rest = .step i rest') :
    Steady decls m g low high (h + stackEffect decls m i) rest' := by
  have hinv := act_inv rest
  rw [ha] at hinv
  obtain ⟨rfl, hret, hjump⟩ := hinv
  obtain ⟨⟨-, hkeeps⟩, htargets⟩ := hs
  rw [if_neg hret, if_neg hjump] at hkeeps
  exact ⟨hkeeps, fun j hj => htargets j (List.mem_cons_of_mem i hj)⟩

/-- A `RET` is met when the stack holds the result in place of the arguments. -/
theorem Steady.ret (hs : Steady decls m g low high h rest) (ha : act rest = .ret i) :
    h = high := by
  have hinv := act_inv rest
  rw [ha] at hinv
  obtain ⟨rest', rfl, hop⟩ := hinv
  have hkeeps := hs.keeps.2
  rwa [if_pos hop] at hkeeps

/-- Control leaves a block for another one of its graph, at the height that the function
works at. -/
theorem Steady.leaves (hs : Steady decls m g low high h rest) {r q : BlockRef}
    {out : List Instr} (hr : r.graph = g) (hl : Leaves r rest out q) :
    h = low ∧ height decls m out = 0 ∧ q.graph = g ∧ 0 < q.index := by
  have htarget : ∀ {j : Instr}, j ∈ rest → j.op = .jump → j.target? = some q →
      q.graph = g ∧ 0 < q.index := by
    intro j hj hop hq
    obtain ⟨t, ht, hpos⟩ := hs.targets j hj hop
    cases hq.symm.trans ht
    exact ⟨rfl, hpos⟩
  have hjumps : ∀ {j rest'}, Keeps decls m low high h (j :: rest') → j.op = .jump → h = low := by
    intro j rest' hkeeps hop
    have hlow := hkeeps.2
    rwa [if_neg (by simp [hop]), if_pos hop] at hlow
  have hinv := act_inv rest
  cases hl with
  | jump ha hq =>
    rw [ha] at hinv
    obtain ⟨rest', rfl, hop⟩ := hinv
    exact ⟨hjumps hs.keeps hop, by simp [stackEffect_jump hop], htarget (by simp) hop hq⟩
  | yes ha hq | no ha hq =>
    rw [ha] at hinv
    obtain ⟨rest', rfl, htst, hyes, hno⟩ := hinv
    have hkeeps := hs.keeps.2
    rw [if_neg (by simp [htst]), if_neg (by simp [htst]), stackEffect_tst htst, Int.add_zero]
      at hkeeps
    refine ⟨hjumps hkeeps hyes, ?_, htarget (by simp) (by assumption) hq⟩
    simp [stackEffect_tst htst, stackEffect_jump hyes, stackEffect_jump hno]
  | fall ha =>
    rw [ha] at hinv
    obtain rfl := hinv
    exact ⟨hs.keeps, rfl, hr, Nat.succ_pos _⟩

end Steady

/-! ## Ways through a function -/

/-- The blocks of the graph `g` keep the stack at the height `low`, which the entry brings it
to. -/
structure SteadyGraph (decls : List Node) (m : Module) (g : Nat) (low high : Int) : Prop where
  entry : Steady decls m g low high 0 (m.code ⟨g, 0⟩)
  blocks : ∀ k, 0 < k → k < m.count g → Steady decls m g low high low (m.code ⟨g, k⟩)
  framed : ∀ k, k < m.count g → Framed decls m (m.code ⟨g, k⟩)

section SteadyGraph

variable {decls : List Node} {m : Module} {g : Nat} {low high : Int} {r : BlockRef}
  {rest es : List Instr}

/-- **A way of control keeps the stack.** -/
theorem SteadyGraph.way (hg : SteadyGraph decls m g low high) (h : Way m ⟨g, 0⟩ r rest es) :
    r.graph = g ∧ Steady decls m g low high (height decls m es) rest := by
  induction h with
  | start => exact ⟨rfl, hg.entry⟩
  | step _ ha ih =>
    obtain ⟨hr, hs⟩ := ih
    refine ⟨hr, ?_⟩
    rw [height_append, height_cons, height_nil, Int.add_zero]
    exact hs.step ha
  | @enter r q rest es out b _ hl hb ih =>
    obtain ⟨hr, hs⟩ := ih
    obtain ⟨hlow, hout, rfl, hpos⟩ := hs.leaves hr hl
    refine ⟨rfl, ?_⟩
    rw [height_append, hout, Int.add_zero, hlow]
    exact hg.blocks q.index hpos (lt_count_of_block? hb)

/-- All blocks but the entry begin at the same height. -/
theorem SteadyGraph.height_start (hg : SteadyGraph decls m g low high)
    (h : Way m ⟨g, 0⟩ r (m.code r) es) (hr : r ≠ ⟨g, 0⟩) : height decls m es = low := by
  generalize hcode : m.code r = code at h
  cases h with
  | start => exact absurd rfl hr
  | @step _ rest _ _ i h ha =>
    -- Past an instruction less than the whole block is left.
    obtain ⟨before, done, hblock, -⟩ := h.inBlock
    have hinv := act_inv rest
    rw [ha] at hinv
    obtain ⟨rfl, -, -⟩ := hinv
    have hlen := congrArg List.length (hcode.symm.trans hblock)
    simp only [List.length_append, List.length_cons] at hlen
    omega
  | @enter r' _ _ es out b h hl _ =>
    obtain ⟨hr', hs⟩ := hg.way h
    obtain ⟨hlow, hout, -, -⟩ := hs.leaves hr' hl
    rw [height_append, hout, Int.add_zero, hlow]

theorem SteadyGraph.frame (hg : SteadyGraph decls m g low high) {i : Instr}
    (h : Way m ⟨g, 0⟩ r (i :: rest) es) (hop : i.op = .call) :
    ∃ before out result rest', es = before ++ out ∧ rest = result ++ rest' ∧
      Frame decls m out i result := by
  obtain ⟨before, done, hcode, rfl⟩ := h.inBlock
  obtain ⟨rfl, -⟩ := hg.way h
  have hlt : r.index < m.count r.graph := by
    by_contra hge
    have hnil : m.code r = [] := Module.code_of_count_le (Nat.le_of_not_lt hge)
    rw [hcode] at hnil
    simp at hnil
  obtain ⟨pre', out, result, post', rfl, rfl, hframe⟩ :=
    hg.framed r.index hlt done i rest hcode hop
  exact ⟨before ++ pre', out, result, post', (List.append_assoc ..).symm, rfl, hframe⟩

end SteadyGraph

/-- All functions of a state keep the stack as they are declared. -/
def SteadyAll (decls : List Node) (s : State) : Prop :=
  ∀ f ∈ s.module.functions, ∀ d, functionNamed? decls f.name = some d →
    SteadyGraph decls s.module f.graph (-d.arity) (-d.arity + d.results)

section Depth

variable {decls done : List Node} {s : State}

/-- **Calls are counted right**: where callees are run, the stack has the depth that counting
gives. -/
theorem SteadyAll.way (hall : SteadyAll decls s) (ht : Tables decls done s)
    (hnamed : ∀ f ∈ s.module.functions, ∃ d, functionNamed? decls f.name = some d)
    {r₀ r : BlockRef} {d₀ d : Int} {rest : List Instr} (h : Depth s.module r₀ d₀ r rest d)
    (hr₀ : ∃ f ∈ s.module.functions, r₀ = ⟨f.graph, 0⟩) :
    ∃ es, Way s.module r₀ r rest es ∧ d = d₀ + height decls s.module es := by
  induction h with
  | start => exact ⟨[], .start, by simp⟩
  | @step r₀ r d₀ d rest rest' i _ ha hop ih =>
    obtain ⟨es, hway, rfl⟩ := ih hr₀
    refine ⟨es ++ [i], hway.step ha, ?_⟩
    rw [height_append, height_cons, height_nil, stackEffect, if_neg hop]
    omega
  | @call r₀ r entry q d₀ d d' rest rest' left i j _ ha hop htarget _ hret ih₁ ih₂ =>
    obtain ⟨es, hway, rfl⟩ := ih₁ hr₀
    obtain ⟨f₀, hf₀, rfl⟩ := hr₀
    obtain ⟨n₀, hn₀⟩ := hnamed f₀ hf₀
    -- The call is that of a declared function, and its entry is run.
    have hinv := act_inv rest
    rw [ha] at hinv
    obtain ⟨rfl, -, -⟩ := hinv
    obtain ⟨before, out, result, rest'', -, -, hframe⟩ := (hall f₀ hf₀ n₀ hn₀).frame hway hop
    obtain ⟨f, hf, n, rfl, hn, -, -⟩ := hframe.callee
    cases htarget
    obtain ⟨es', hway', rfl⟩ := ih₂ ⟨f, hf, rfl⟩
    -- It comes back without the arguments and with the result.
    have hback := ((hall f hf n hn).way hway').2.ret hret
    refine ⟨es ++ [callTo f], hway.step ha, ?_⟩
    rw [height_append, height_cons, height_nil, ht.stackEffect_callTo hf hn, hback]
    omega
  | @enter r₀ r q d₀ d rest out b _ hl hb ih =>
    obtain ⟨es, hway, rfl⟩ := ih hr₀
    obtain ⟨f₀, hf₀, rfl⟩ := hr₀
    obtain ⟨n₀, hn₀⟩ := hnamed f₀ hf₀
    obtain ⟨hr, hs⟩ := (hall f₀ hf₀ n₀ hn₀).way hway
    obtain ⟨-, hout, -, -⟩ := hs.leaves hr hl
    refine ⟨es ++ out, hway.enter hl hb, ?_⟩
    rw [height_append, hout, Int.add_zero]

end Depth

/-! ## Functions -/

/-- Input and output do not touch the stack: they push and pop nothing and call nothing, and
they do not turn control away by a `RET` or a `JUMP` of their own. -/
def QuietIO (su : Setup) : Prop :=
  ∀ request out, request.isIO = true → Answered su request out → ∀ i ∈ out, i.op ∉ loudOpcodes

section Function

variable {su : Setup} {decls : List Node} {fin : State} {g : Nat} {low : Int}
  {result : ValueType} {c rest : List Instr}

/-- The code that is left of a block keeps the stack from the height `low` on, and its calls
stand in their frames. -/
def SteadyFrom (decls : List Node) (m : Module) (g : Nat) (low high : Int)
    (code : List Instr) : Prop :=
  Steady decls m g low high low code ∧ Framed decls m code

theorem SteadyFrom.level {m : Module} {high : Int} (hs : SteadyFrom decls m g low high rest)
    (hc : Level decls m c) : SteadyFrom decls m g low high (c ++ rest) :=
  ⟨(hc.walks low low (Int.le_refl low)).steady hs.1, hc.framed.append hs.2⟩

theorem steadyFrom_jumpTo {m : Module} {high : Int} {t : Nat} (ht : 0 < t) :
    SteadyFrom decls m g low high [jumpTo ⟨g, t⟩] := by
  refine ⟨⟨⟨Int.le_refl low, rfl⟩, fun i hi _ => ?_⟩, framed_of_ne_call (by simp [jumpTo])⟩
  rw [List.mem_singleton.mp hi]
  exact ⟨t, rfl, ht⟩

theorem steadyFrom_branchTo {m : Module} {high : Int} (slot : Slot) {yes no : Nat}
    (hyes : 0 < yes) (hno : 0 < no) :
    SteadyFrom decls m g low high (branchTo slot ⟨g, yes⟩ ⟨g, no⟩) := by
  have htest : ∀ i ∈ [(⟨.tst, [.slot slot, .imm 1]⟩ : Instr)], i.op ∉ loudOpcodes :=
    List.forall_mem_singleton.mpr (by decide : Machine.Opcode.tst ∉ loudOpcodes)
  have hjumps : SteadyFrom decls m g low high [jumpTo ⟨g, yes⟩, jumpTo ⟨g, no⟩] := by
    refine ⟨⟨⟨Int.le_refl low, rfl⟩, fun i hi _ => ?_⟩, framed_of_ne_call (by simp [jumpTo])⟩
    rcases List.mem_pair.mp hi with rfl | rfl
    · exact ⟨yes, rfl, hyes⟩
    · exact ⟨no, rfl, hno⟩
  exact hjumps.level (level_quiet htest)

theorem steady_ret {m : Module} {high k : Int} (hle : low ≤ high)
    (hs : Steady decls m g low high k rest) :
    Steady decls m g low high high (⟨.ret, []⟩ :: rest) := by
  refine ⟨⟨hle, by rw [if_pos rfl]⟩, fun i hi hop => ?_⟩
  rcases List.mem_cons.mp hi with rfl | hi
  · cases hop
  · exact hs.targets i hi hop

theorem piece_steady (hlow : Lowered su decls decls fin) (hc : su.hooks.convention = .stack)
    (hio : QuietIO su) {n : Node} (hfits : ∀ m ∈ n.nodes, m.fits decls = true)
    (hret : ∀ m ∈ n.nodes, m.returnsAs result = true) (h : Piece su fin n c)
    (hs : SteadyFrom decls fin.module g low (low + result.results) rest) :
    SteadyFrom decls fin.module g low (low + result.results) (c ++ rest) := by
  have hexpr : ∀ p ∈ n.parts, ∀ slot code, ExprCode su fin p slot code →
      Level decls fin.module code :=
    fun p hp => exprCode_level hlow hc p (forall_nodes_part hfits hp)
  cases h with
  | noVar => exact hs
  | @var tag name type init source slot c hcode _ =>
    refine hs.level ((hexpr init (by simp [Node.parts]) _ _ hcode).append (level_quiet ?_))
    rw [localCopy]
    split
    · simp
    · exact List.forall_mem_singleton.mpr (by decide : Machine.Opcode.mov ∉ loudOpcodes)
  | @leave tag =>
    have hvoid := hret (.ret tag .absent) (Node.mem_nodes_self rfl)
    rw [Node.returnsAs, beq_iff_eq] at hvoid
    have hnone : result.results = 0 := if_pos (beq_iff_eq.mp hvoid.symm)
    refine ⟨?_, (framed_of_ne_call (by simp)).append hs.2⟩
    have hend := steady_ret (by omega) hs.1
    rwa [hnone, Int.natCast_zero, Int.add_zero] at hend ⊢
  | @ret tag expr slot c out hcode hout =>
    have hvalue := hret (.ret tag expr) (Node.mem_nodes_self rfl)
    have hpresent : expr.isAbsent = false := by
      obtain ⟨etag, htag, -⟩ := slot?_of_exprCode hcode
      exact Node.isAbsent_of_tag? htag
    rw [Node.returnsAs, hpresent, beq_iff_eq] at hvalue
    have hone : result.results = 1 := if_neg fun hv => by simp [hv] at hvalue
    rw [answered_stack hc rfl hout]
    have hlevel := hexpr expr (by simp [Node.parts]) _ _ hcode
    have hpush : Walks decls fin.module low low (Hook.stackInstrs (.resultOut slot)) (low + 1) :=
      walks_push (c := [⟨.push, [.slot slot]⟩]) (by simp) (Int.le_refl low)
    have hend := steady_ret (by omega) hs.1
    rw [hone] at hend ⊢
    refine ⟨?_, ?_⟩
    · rw [List.append_assoc]
      exact ((hlevel.walks low low (Int.le_refl low)).append hpush).steady hend
    · refine ((hlevel.framed.append (framed_of_ne_call ?_)).append
        (framed_of_ne_call (by simp))).append hs.2
      simp [Hook.stackInstrs]
  | @print tag expr slot c out hcode hout =>
    exact hs.level ((hexpr expr (by simp [Node.parts]) _ _ hcode).append
      (level_quiet (hio _ out rfl hout)))
  | scan _ _ hout => exact hs.level (level_quiet (hio _ _ rfl hout))
  | expr hcode => exact hs.level (exprCode_level hlow hc n hfits _ _ hcode)

theorem paramsIn_stack (hc : su.hooks.convention = .stack) {slots : List Slot}
    {out : List Instr} (h : ParamsIn su slots out) : out = Hook.stackInstrs (.paramsIn slots) := by
  rw [ParamsIn] at h
  split at h
  · next hnil => rw [h, hnil]; rfl
  · exact answered_stack hc rfl h

/-- **A function keeps the stack.** -/
theorem FunctionCode.steady (hlow : Lowered su decls decls fin)
    (hc : su.hooks.convention = .stack) (hio : QuietIO su) {params : List Node} {body : Node}
    (hfits : ∀ m ∈ body.nodes, m.fits decls = true)
    (hret : ∀ m ∈ body.nodes, m.returnsAs result = true)
    (h : FunctionCode su fin g (fun k => fin.module.code ⟨g, k⟩) (fin.module.count g) params
      body) :
    SteadyGraph decls fin.module g (-params.length) (-params.length + result.results) := by
  obtain ⟨tag, stmts, slots, j, rfl, hslots, hparams, hat, hcount⟩ := h
  generalize hlow' : -(params.length : Int) = low
  have hempty : SteadyFrom decls fin.module g low (low + result.results) [] :=
    ⟨⟨rfl, by simp⟩, framed_of_ne_call (by simp)⟩
  obtain ⟨hfirst, hblocks⟩ := Laid.blocks
    (P := SteadyFrom decls fin.module g low (low + result.results))
    (Q := fun m => m.fits decls = true ∧ m.returnsAs result = true) (N := j) hempty
    (fun t hpos _ => steadyFrom_jumpTo hpos)
    (fun n cond slot c yes no htests hn hexpr hyes _ hno _ =>
      (steadyFrom_branchTo slot hyes hno).level
        (exprCode_level hlow hc cond (fun m hm => (hn m (htests.mem_nodes hm)).1) slot c hexpr))
    (fun n c rest hn hp hs => piece_steady hlow hc hio (fun m hm => (hn m hm).1)
      (fun m hm => (hn m hm).2) hp hs)
    (laid_of_stmtsAt hat) (Nat.le_refl j)
    (fun n hn m hm => ⟨hfits m (Node.mem_nodes_of_part hn hm),
      hret m (Node.mem_nodes_of_part hn hm)⟩) hempty
  have hall := forall_next hfirst hblocks
  -- The entry pops the parameters.
  have hlen : slots.length = params.length := by simpa using (congrArg List.length hslots).symm
  have hentry : fin.module.code ⟨g, 0⟩ = Hook.stackInstrs (.paramsIn slots) :=
    paramsIn_stack hc hparams
  have hpops : Walks decls fin.module low 0 (fin.module.code ⟨g, 0⟩) low := by
    have hpop : ∀ i ∈ Hook.stackInstrs (.paramsIn slots), i.op = .pop := by
      simp [Hook.stackInstrs]
    have hcount : (Hook.stackInstrs (.paramsIn slots)).length = params.length := by
      simp [Hook.stackInstrs, hlen]
    have hwalk : Walks decls fin.module low 0 (Hook.stackInstrs (.paramsIn slots)) _ :=
      walks_pop hpop (by rw [hcount]; omega)
    rwa [hcount, Int.zero_sub, hlow', ← hentry] at hwalk
  constructor
  case entry =>
    have hsteady := hpops.steady hempty.1
    rwa [List.append_nil] at hsteady
  case blocks =>
    intro k hpos hk
    exact (hall k hpos (by omega)).1
  case framed =>
    intro k hk
    rcases Nat.eq_zero_or_pos k with rfl | hpos
    · rw [hentry]
      exact framed_of_ne_call (by simp [Hook.stackInstrs])
    · exact (hall k hpos (by omega)).2

end Function

/-! ## Programs -/

/-- The ways of control from `entry` on are those of a function that takes `n` values from the
stack and leaves `v`. -/
structure Balanced (decls : List Node) (m : Module) (entry : BlockRef) (n v : Nat) : Prop where
  low : ∀ r rest es, Way m entry r rest es → -n ≤ height decls m es
  start : ∀ r es, Way m entry r (m.code r) es → r ≠ entry → height decls m es = -n
  ret : ∀ r rest es i, Way m entry r rest es → act rest = .ret i → height decls m es = -n + v
  /-- A call leaves the stack as it was before the first argument was pushed. -/
  call : ∀ r i rest es, Way m entry r (i :: rest) es → i.op = .call →
    ∃ before out result rest', es = before ++ out ∧ rest = result ++ rest' ∧
      Frame decls m out i result ∧
      height decls m (before ++ out ++ i :: result) = height decls m before
  /-- It does so where its callee is run. -/
  depth : ∀ r rest d d', Depth m entry d r rest d' →
    ∃ es, Way m entry r rest es ∧ d' = d + height decls m es

section Program

variable {su : Setup} {fin : State} {tag : Tag} {decls : List Node} {u : Unit}

theorem Lowered.steadyAll (hlow : Lowered su decls decls fin)
    (hc : su.hooks.convention = .stack) (hio : QuietIO su)
    (hfits : ∀ n ∈ (Node.program tag decls).nodes, n.fits decls = true)
    (hret : ∀ ftag name params result body, .function ftag name params result body ∈ decls →
      ∀ n ∈ body.nodes, n.returnsAs result = true) :
    SteadyAll decls fin ∧
      ∀ f ∈ fin.module.functions, ∃ d, functionNamed? decls f.name = some d := by
  have hgraph : ∀ f ∈ fin.module.functions, ∃ d, functionNamed? decls f.name = some d ∧
      SteadyGraph decls fin.module f.graph (-d.arity) (-d.arity + d.results) := by
    intro f hf
    obtain ⟨ftag, name, params, result, body, hd, hmem, hcode, -⟩ :=
      hlow.graph (hlow.there f hf)
    have hname : f = ⟨name, f.graph⟩ := List.inj_on_of_nodup_map hlow.graphs hf hmem rfl
    have hin : ∀ n ∈ body.nodes, n ∈ (Node.program tag decls).nodes := fun n hn =>
      Node.mem_nodes_of_part hd (Node.mem_nodes_of_part (by simp [Node.parts]) hn)
    rw [hname]
    exact ⟨_, hlow.functionNamed?_eq hd, hcode.steady hlow hc hio (fun n hn => hfits n (hin n hn))
      (hret ftag name params result body hd)⟩
  refine ⟨fun f hf d hd => ?_, fun f hf => ?_⟩
  · obtain ⟨d', hd', hsteady⟩ := hgraph f hf
    cases hd.symm.trans hd'
    exact hsteady
  · obtain ⟨d, hd, -⟩ := hgraph f hf
    exact ⟨d, hd⟩

/-- **Functions that pass values on the stack keep it balanced.** -/
theorem select_balanced (hc : su.hooks.convention = .stack) (hio : QuietIO su)
    (hu : (Node.program tag decls).Unshared) (hsel : select su (.program tag decls) = .ok u fin)
    (hfits : ∀ n ∈ (Node.program tag decls).nodes, n.fits decls = true)
    (hret : ∀ ftag name params result body, .function ftag name params result body ∈ decls →
      ∀ n ∈ body.nodes, n.returnsAs result = true) :
    ∀ ftag name params result body, .function ftag name params result body ∈ decls →
      ∃ f entry, fin.module.function? name = some f ∧ fin.module.entry? f.graph = some entry ∧
        Balanced decls fin.module entry params.length result.results := by
  intro ftag name params result body hd
  have hlow := select_laid hu hsel
  obtain ⟨hall, hnamed⟩ := hlow.steadyAll hc hio hfits hret
  obtain ⟨g, hmem, -⟩ := hlow.functions ftag name params result body hd
  have hg : SteadyGraph decls fin.module g (-params.length) (-params.length + result.results) :=
    hall _ hmem _ (hlow.functionNamed?_eq hd)
  refine ⟨⟨name, g⟩, ⟨g, 0⟩, function?_of_mem hmem hlow.names,
    (entry?_of_count (hlow.rooted _ hmem)).1, ?_⟩
  constructor
  case low => exact fun r rest es h => (hg.way h).2.keeps.le
  case start => exact fun r es h hr => hg.height_start h hr
  case ret => exact fun r rest es i h ha => (hg.way h).2.ret ha
  case call =>
    intro r i rest es h hop
    obtain ⟨before, out, result', rest', rfl, rfl, hframe⟩ := hg.frame h hop
    have hzero := ((hframe.level hlow.toTables).walks 0 0 (Int.le_refl 0)).height_eq
    refine ⟨before, out, result', rest', rfl, rfl, hframe, ?_⟩
    rw [List.append_assoc, height_append]
    omega
  case depth => exact fun r rest d d' h => hall.way hlow.toTables hnamed h ⟨_, hmem, rfl⟩

end Program

/-- Selection behind resolution, with values that cross a call on the stack, and with printing
that only marks its place. -/
def markingSetup (t : Table) (b : Bindings) : Setup :=
  { stackSetup t b with hooks := ⟨.stack, fun _ _ => .ok [⟨.noOp, []⟩]⟩ }

theorem quietIO_markingSetup (t : Table) (b : Bindings) : QuietIO (markingSetup t b) := by
  rintro request out hr ⟨served, ho⟩ i hi
  rw [Hooks.answer, if_pos hr] at ho
  cases ho
  rw [List.mem_singleton.mp hi]
  decide

/-- A function that calls itself with the result of a call, from inside a loop. -/
def recursingDecls : List Node :=
  [.function (.nowhere 1 .functionDecl) "less"
    [.param (.nowhere 2 .paramDecl) "a" .int, .param (.nowhere 3 .paramDecl) "b" .int] .int
    (.compound (.nowhere 4 .compoundStmt)
      [.ret (.nowhere 5 .returnStmt)
        (.binary (.nowhere 6 .binaryExpr) .minus (.ident (.nowhere 7 .identExpr) "a")
          (.ident (.nowhere 8 .identExpr) "b"))]),
   .function (.nowhere 9 .functionDecl) "f" [.param (.nowhere 10 .paramDecl) "n" .int] .void
    (.compound (.nowhere 11 .compoundStmt)
      [.loop (.nowhere 12 .whileStmt) (.ident (.nowhere 13 .identExpr) "n")
        (.compound (.nowhere 14 .compoundStmt)
          [.print (.nowhere 15 .printStmt) (.ident (.nowhere 16 .identExpr) "n"),
           .call (.nowhere 17 .callExpr) "f"
            [.call (.nowhere 18 .callExpr) "less"
              [.ident (.nowhere 19 .identExpr) "n", .number (.nowhere 20 .numberExpr) 1]],
           .ret (.nowhere 21 .returnStmt) .absent])])]

theorem recursingDecls_balanced : ∃ t b fin,
    resolveProgram (.program (.nowhere 0 .program) recursingDecls) {} = .ok t b ∧
      select (markingSetup t b) (.program (.nowhere 0 .program) recursingDecls) = .ok () fin ∧
      ∀ ftag name params result body, .function ftag name params result body ∈ recursingDecls →
        ∃ f entry, fin.module.function? name = some f ∧
          fin.module.entry? f.graph = some entry ∧
          Balanced recursingDecls fin.module entry params.length result.results := by
  have hlowers : lowers markingSetup (.program (.nowhere 0 .program) recursingDecls) = true := by
    decide +kernel
  obtain ⟨t, b, fin, hres, hsel⟩ := exists_of_lowers hlowers
  have hu : (Node.program (.nowhere 0 .program) recursingDecls).Unshared := by decide
  have hret : ∀ ftag name params result body,
      .function ftag name params result body ∈ recursingDecls →
        ∀ n ∈ body.nodes, n.returnsAs result = true := by
    intro ftag name params result body hd
    simp only [recursingDecls, List.mem_cons, List.not_mem_nil, or_false] at hd
    rcases hd with hd | hd
    · cases hd
      decide
    · cases hd
      decide
  exact ⟨t, b, fin, hres, hsel,
    select_balanced rfl (quietIO_markingSetup t b) hu hsel (by decide) hret⟩

/-- A function that takes two values, prints one of its own and leaves another one. -/
def takingDecls : List Node :=
  [.function (.nowhere 1 .functionDecl) "f"
    [.param (.nowhere 2 .paramDecl) "a" .int, .param (.nowhere 3 .paramDecl) "b" .int] .int
    (.compound (.nowhere 4 .compoundStmt)
      [.print (.nowhere 5 .printStmt) (.number (.nowhere 6 .numberExpr) 7),
       .ret (.nowhere 7 .returnStmt) (.number (.nowhere 8 .numberExpr) 1)])]

/-- The number that it prints is loaded. -/
def sevenLoaded : Instr := ⟨.loadImm, [.slot 2, .imm 7]⟩

/-- Returns, calls the function again, and jumps back to its beginning. -/
def loudAnswers : List Instr := [⟨.ret, []⟩, callTo ⟨"f", 0⟩, jumpTo ⟨0, 0⟩]

/-- An answer in the middle of the function that returns, calls it or jumps back to its beginning
brings the stack out of balance. -/
theorem not_balanced_of_loud {m : Module} {entry block : Block} {i : Instr} {rest : List Instr}
    (hentry : m.block? ⟨0, 0⟩ = some entry)
    (hpops : entry.instrs = Hook.stackInstrs (.paramsIn [0, 1]))
    (hblock : m.block? ⟨0, 1⟩ = some block) (hcode : block.instrs = sevenLoaded :: i :: rest)
    (hf : m.functionAt? (some ⟨0, 0⟩) = some ⟨"f", 0⟩) (hi : i ∈ loudAnswers) :
    ¬Balanced takingDecls m ⟨0, 0⟩ 2 1 := by
  intro h
  have hcode₀ : m.code ⟨0, 0⟩ = Hook.stackInstrs (.paramsIn [0, 1]) := by
    rw [Module.code, hentry]
    exact hpops
  have hcode₁ : m.code ⟨0, 1⟩ = sevenLoaded :: i :: rest := by
    rw [Module.code, hblock]
    exact hcode
  -- The way from the beginning up to the answer leads past two pops.
  have hstart : Way m ⟨0, 0⟩ ⟨0, 0⟩ (Hook.stackInstrs (.paramsIn [0, 1])) [] := hcode₀ ▸ .start
  have hway : Way m ⟨0, 0⟩ ⟨0, 1⟩ (i :: rest)
      (Hook.stackInstrs (.paramsIn [0, 1]) ++ [sevenLoaded]) := by
    have hbody := ((hstart.step rfl).step rfl).enter (.fall rfl) hblock
    rw [hcode₁] at hbody
    exact hbody.step (act_plain rfl _)
  have hheight :
      height takingDecls m (Hook.stackInstrs (.paramsIn [0, 1]) ++ [sevenLoaded]) = -2 := rfl
  simp only [loudAnswers, List.mem_cons, List.not_mem_nil, or_false] at hi
  rcases hi with rfl | rfl | rfl
  · have hret := h.ret _ _ _ _ hway rfl
    rw [hheight] at hret
    exact absurd hret (by decide)
  · have hlow := h.low _ _ _ (hway.step (act_plain rfl _))
    have heffect : stackEffect takingDecls m (callTo ⟨"f", 0⟩) = -1 := by
      show ((m.functionAt? (some ⟨0, 0⟩)).bind _).elim 0 _ = _
      rw [hf]
      rfl
    rw [height_append, hheight, height_cons, heffect, height_nil] at hlow
    exact absurd hlow (by decide)
  · have hback := hway.enter (.jump rfl rfl) hentry
    rw [hcode₀] at hback
    have hlow : -((2 : Nat) : Int) ≤ -3 := h.low _ _ _ (hback.step rfl)
    exact absurd hlow (by decide)

/-- **Hooks that move control** bring the stack out of balance though they push and pop nothing. -/
theorem loudAnswers_unbalanced :
    (Node.program (.nowhere 0 .program) takingDecls).Unshared ∧
    (∀ n ∈ (Node.program (.nowhere 0 .program) takingDecls).nodes,
      n.fits takingDecls = true ∧ n.returnsAs .int = true) ∧
    ∀ i ∈ loudAnswers, i.op ≠ .push ∧ i.op ≠ .pop ∧ ∃ t b fin,
      resolveProgram (.program (.nowhere 0 .program) takingDecls) {} = .ok t b ∧
      select (printingSetup [i] t b) (.program (.nowhere 0 .program) takingDecls) = .ok () fin ∧
      fin.module.function? "f" = some ⟨"f", 0⟩ ∧ ¬Balanced takingDecls fin.module ⟨0, 0⟩ 2 1 := by
  have hlowered : ∀ i ∈ loudAnswers,
      (lowered? (printingSetup [i]) (.program (.nowhere 0 .program) takingDecls)).any (fun s =>
        decide (s.module.function? "f" = some ⟨"f", 0⟩) &&
        decide (s.module.functionAt? (some ⟨0, 0⟩) = some ⟨"f", 0⟩) &&
        decide ((s.module.block? ⟨0, 0⟩).map Block.instrs =
          some (Hook.stackInstrs (.paramsIn [0, 1]))) &&
        decide ((s.module.block? ⟨0, 1⟩).map Block.instrs = some [sevenLoaded, i,
          ⟨.loadImm, [.slot 3, .imm 1]⟩, ⟨.push, [.slot 3]⟩, ⟨.ret, []⟩])) = true := by
    decide +kernel
  have hquiet : ∀ i ∈ loudAnswers, i.op ≠ .push ∧ i.op ≠ .pop := by decide
  refine ⟨by decide, by decide, fun i hi => ⟨(hquiet i hi).1, (hquiet i hi).2, ?_⟩⟩
  obtain ⟨fin, hfin, hcheck⟩ := (Option.any_eq_true _ _).mp (hlowered i hi)
  obtain ⟨t, b, hres, hsel⟩ := exists_of_lowered? hfin
  simp only [Bool.and_eq_true, decide_eq_true_iff, Option.map_eq_some_iff] at hcheck
  obtain ⟨⟨⟨hf, hat⟩, entry, hentry, hpops⟩, block, hblock, hcode⟩ := hcheck
  exact ⟨t, b, fin, hres, hsel, hf, not_balanced_of_loud hentry hpops hblock hcode hat hi⟩

end Isel.Select
