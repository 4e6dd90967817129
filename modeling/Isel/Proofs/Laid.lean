import Isel.Proofs.StmtLayout

/-!
# Bodies block by block

`Laid su fin g B ns i rest j rest'` lists the ways in which the statements `ns` can stand in
the blocks `B` of a graph: `rest` is left of block `i` when they begin, and `rest'` is left of
block `j` behind them.  A statement without a body is a `Piece` of code in its block.

What is to be said of every block of a function is proved by induction on `Laid`; where it
only depends on the code that is left of a block, `Laid.blocks` is that induction.
-/

namespace Isel.Select

open Isel.Flow Isel.Syntax Isel.Proofs

/-! ## Pieces -/

/-- The code of a statement without a body. -/
inductive Piece (su : Setup) (fin : State) : Node → List Instr → Prop
  | noVar {tag : Tag} {name : String} {type : ValueType} :
      Piece su fin (.var tag name type .absent) []
  | var {tag : Tag} {name : String} {type : ValueType} {init : Node} {source slot : Slot}
      {c : List Instr} : ExprCode su fin init source c →
      fin.slots.slot? (some tag.label) = some slot →
        Piece su fin (.var tag name type init) (c ++ localCopy su name slot source)
  | leave {tag : Tag} : Piece su fin (.ret tag .absent) [⟨.ret, []⟩]
  | ret {tag : Tag} {expr : Node} {slot : Slot} {c out : List Instr} :
      ExprCode su fin expr slot c → Answered su (.resultOut slot) out →
        Piece su fin (.ret tag expr) (c ++ out ++ [⟨.ret, []⟩])
  | print {tag : Tag} {expr : Node} {slot : Slot} {c out : List Instr} :
      ExprCode su fin expr slot c → Answered su (.print slot) out →
        Piece su fin (.print tag expr) (c ++ out)
  | scan {tag t : Tag} {name : String} {decl : Decl} {slot : Slot} {out : List Instr} :
      su.bindings.find? t.label = some decl → fin.slots.slot? (some decl.label) = some slot →
      Answered su (.scan slot) out → Piece su fin (.scan tag (.ident t name)) out
  | expr {n : Node} {slot : Slot} {c : List Instr} : ExprCode su fin n slot c → Piece su fin n c

def exprOpcodes : List Machine.Opcode := [.loadImm, .mov, .call] ++ binaryOpcodes

/-- The instructions that expressions are lowered to, beside what the convention puts in. -/
inductive ExprInstr (m : Module) : Instr → Prop
  | load (dst : Slot) (x : Operand) : ExprInstr m ⟨.loadImm, [.slot dst, x]⟩
  | mov (dst source : Slot) : ExprInstr m ⟨.mov, [.slot dst, .slot source]⟩
  | binary {op : Machine.Opcode} (dst lhs rhs : Slot) : op ∈ binaryOpcodes →
      ExprInstr m ⟨op, [.slot dst, .slot lhs, .slot rhs]⟩
  | call {f : Flow.Function} : f ∈ m.functions → ExprInstr m (callTo f)

theorem ExprInstr.op_mem {m : Module} {i : Instr} (h : ExprInstr m i) : i.op ∈ exprOpcodes := by
  cases h with
  | load | mov | call => simp [exprOpcodes, callTo]
  | binary _ _ _ hop => exact List.mem_append_right _ hop

section Each

variable {su : Setup} {fin : State} {P : Instr → Prop}

theorem argsCode_each : ∀ ns : List Node,
    (∀ n ∈ ns, ∀ slot code, ExprCode su fin n slot code → ∀ i ∈ code, P i) →
    ∀ slots code, ArgsCode su fin ns slots code → ∀ i ∈ code, P i := by
  intro ns
  induction ns with
  | nil =>
    intro _ slots code h
    rw [ArgsCode] at h
    simp [h.2]
  | cons n ns ih =>
    intro hexpr slots code h
    rw [ArgsCode] at h
    obtain ⟨slot, c, ss, cs, hn, hns, -, rfl⟩ := h
    exact List.forall_mem_append.mpr ⟨hexpr n (by simp) slot c hn,
      ih (fun m hm => hexpr m (by simp [hm])) ss cs hns⟩

/-- What holds of the instructions of expressions, and of what the convention puts in, holds of
the code of an expression. -/
theorem exprCode_each (hown : ∀ i, ExprInstr fin.module i → P i)
    (hhook : ∀ request out, request.isIO = false → Answered su request out → ∀ i ∈ out, P i) :
    ∀ n slot code, ExprCode su fin n slot code → ∀ i ∈ code, P i := by
  have hleaf : ∀ {i}, ExprInstr fin.module i → ∀ j ∈ [i], P j :=
    fun hi => List.forall_mem_singleton.mpr (hown _ hi)
  intro n
  induction n using Node.parts_induction with
  | _ n ih _ =>
  intro slot code h
  cases n with
  | number | boolean =>
    rw [ExprCode] at h
    rw [h.2]
    exact hleaf (.load _ _)
  | string =>
    rw [ExprCode] at h
    obtain ⟨-, k, l, -, -, rfl⟩ := h
    exact hleaf (.load _ _)
  | ident =>
    rw [ExprCode] at h
    obtain ⟨-, decl, source, -, -, rfl⟩ := h
    exact hleaf (.mov _ _)
  | binary tag op left right =>
    rw [ExprCode] at h
    obtain ⟨-, lhs, rhs, c, d, opcode, hl, hr, hop, rfl⟩ := h
    rw [List.forall_mem_append, List.forall_mem_append]
    exact ⟨⟨ih left (by simp [Node.parts]) lhs c hl, ih right (by simp [Node.parts]) rhs d hr⟩,
      hleaf (.binary _ _ _ (mem_binaryOpcodes hop))⟩
  | call tag callee args =>
    rw [ExprCode] at h
    obtain ⟨-, slots, c, out, f, result, hargs, hout, hf, hresult, rfl⟩ := h
    rw [List.forall_mem_append, List.forall_mem_append, List.forall_mem_cons]
    exact ⟨⟨argsCode_each args ih slots c hargs, hout.each fun out => hhook _ out rfl⟩,
      hown _ (.call (List.mem_of_find?_eq_some hf)), hresult.each fun out => hhook _ out rfl⟩
  | _ => simp [ExprCode] at h

end Each

section Opcodes

variable {su : Setup} {fin : State} {P : Machine.Opcode → Prop}

/-- The code of an expression has the opcodes of expressions, beside what the convention
puts in. -/
theorem exprCode_ops (hown : ∀ op ∈ exprOpcodes, P op)
    (hhook : ∀ request out, request.isIO = false → Answered su request out → ∀ i ∈ out, P i.op) :
    ∀ n slot code, ExprCode su fin n slot code → ∀ i ∈ code, P i.op :=
  exprCode_each (fun _ hi => hown _ hi.op_mem) hhook

/-- The code of a piece has the opcodes of expressions, beside what hooks put in and the
`RET` of a return. -/
theorem piece_ops (hown : ∀ op ∈ exprOpcodes, P op)
    (hhook : ∀ request out, Answered su request out → ∀ i ∈ out, P i.op) {n : Node}
    {c : List Instr} (h : Piece su fin n c) (hret : (∃ tag expr, n = .ret tag expr) → P .ret) :
    ∀ i ∈ c, P i.op := by
  have hexpr : ∀ n slot code, ExprCode su fin n slot code → ∀ i ∈ code, P i.op :=
    exprCode_ops hown fun request out _ ho => hhook request out ho
  cases h with
  | noVar => simp
  | var hcode _ =>
    rw [List.forall_mem_append]
    refine ⟨hexpr _ _ _ hcode, ?_⟩
    rw [localCopy]
    split
    · simp
    · exact List.forall_mem_singleton.mpr (hown .mov (by decide))
  | leave => exact List.forall_mem_singleton.mpr (hret ⟨_, _, rfl⟩)
  | ret hcode hout =>
    rw [List.forall_mem_append, List.forall_mem_append]
    exact ⟨⟨hexpr _ _ _ hcode, hhook _ _ hout⟩,
      List.forall_mem_singleton.mpr (hret ⟨_, _, rfl⟩)⟩
  | print hcode hout =>
    exact List.forall_mem_append.mpr ⟨hexpr _ _ _ hcode, hhook _ _ hout⟩
  | scan _ _ hout => exact hhook _ _ hout
  | expr hcode => exact hexpr _ _ _ hcode

end Opcodes

/-- The statement opens blocks. -/
def hasBody : Node → Bool
  | .compound .. | .ifThen .. | .loop .. => true
  | _ => false

/-- The statements stand in the blocks `B`, from where `rest` is left of block `i` to where
`rest'` is left of block `j`. -/
inductive Laid (su : Setup) (fin : State) (g : Nat) (B : Blocks) :
    List Node → Nat → List Instr → Nat → List Instr → Prop
  | nil {i : Nat} {rest : List Instr} : Laid su fin g B [] i rest i rest
  | piece {n : Node} {ns : List Node} {c rest rest' : List Instr} {i j : Nat} :
      Piece su fin n c → Laid su fin g B ns i rest j rest' →
        Laid su fin g B (n :: ns) i (c ++ rest) j rest'
  | compound {tag : Tag} {stmts ns : List Node} {mid rest' : List Instr} {i k j : Nat} :
      Laid su fin g B stmts (i + 1) (B (i + 1)) k mid → Laid su fin g B ns k mid j rest' →
        Laid su fin g B (.compound tag stmts :: ns) i [] j rest'
  | ifThen {tag btag : Tag} {cond : Node} {stmts ns : List Node} {slot : Slot}
      {c rest' : List Instr} {i k j : Nat} : ExprCode su fin cond slot c →
      Laid su fin g B stmts (i + 1) (B (i + 1)) k [jumpTo ⟨g, k + 1⟩] →
      Laid su fin g B ns (k + 1) (B (k + 1)) j rest' →
        Laid su fin g B (.ifThen tag cond (.compound btag stmts) :: ns) i
          (c ++ branchTo slot ⟨g, i + 1⟩ ⟨g, k + 1⟩) j rest'
  | loop {tag btag : Tag} {cond : Node} {stmts ns : List Node} {slot : Slot}
      {c rest' : List Instr} {i k j : Nat} : ExprCode su fin cond slot c →
      B (i + 1) = c ++ branchTo slot ⟨g, i + 2⟩ ⟨g, k + 1⟩ →
      Laid su fin g B stmts (i + 2) (B (i + 2)) k [jumpTo ⟨g, i + 1⟩] →
      Laid su fin g B ns (k + 1) (B (k + 1)) j rest' →
        Laid su fin g B (.loop tag cond (.compound btag stmts) :: ns) i [] j rest'

section Laid

variable {su : Setup} {fin : State} {g : Nat} {B : Blocks}

/-- A statement without a body is a piece of code at the end of its block. -/
theorem stmtAt_piece {n : Node} {i j : Nat} {rest rest' : List Instr} (hn : hasBody n = false)
    (h : StmtAt su fin g B n i rest j rest') :
    ∃ c, Piece su fin n c ∧ j = i ∧ rest = c ++ rest' := by
  cases n with
  | compound | ifThen | loop => cases hn
  | var tag name type init =>
    by_cases hinit : init = .absent
    · subst hinit
      rw [StmtAt] at h
      exact ⟨[], .noVar, h.1, h.2.symm⟩
    · obtain ⟨source, slot, c, hcode, hslot, hj, hrest⟩ := (stmtAt_var hinit).mp h
      exact ⟨_, .var hcode hslot, hj, hrest⟩
  | ret tag expr =>
    by_cases hexpr : expr = .absent
    · subst hexpr
      rw [StmtAt] at h
      exact ⟨_, .leave, h.1, h.2⟩
    · obtain ⟨slot, c, out, hcode, hout, hj, hrest⟩ := (stmtAt_ret hexpr).mp h
      exact ⟨_, .ret hcode hout, hj, by rw [hrest, List.append_assoc _ [_]]; rfl⟩
  | print tag expr =>
    rw [StmtAt] at h
    obtain ⟨slot, c, out, hcode, hout, hj, hrest⟩ := h
    exact ⟨_, .print hcode hout, hj, hrest⟩
  | scan tag target =>
    cases target with
    | ident t name =>
      rw [StmtAt] at h
      obtain ⟨decl, slot, out, hbound, hslot, hout, hj, hrest⟩ := h
      exact ⟨_, .scan hbound hslot hout, hj, hrest⟩
    | _ => simp [StmtAt] at h
  | absent | bare | program | function | param | binary | boolean | call | ident | number
  | string =>
    simp only [StmtAt] at h
    obtain ⟨slot, c, hcode, hj, hrest⟩ := h
    exact ⟨c, .expr hcode, hj, hrest⟩

theorem laid_of_stmtsAt_of : ∀ ns : List Node,
    (∀ n ∈ ns, ∀ (ms : List Node) (i k j : Nat) (rest mid rest' : List Instr),
      StmtAt su fin g B n i rest k mid → Laid su fin g B ms k mid j rest' →
        Laid su fin g B (n :: ms) i rest j rest') →
    ∀ (i j : Nat) (rest rest' : List Instr), StmtsAt su fin g B ns i rest j rest' →
      Laid su fin g B ns i rest j rest' := by
  intro ns
  induction ns with
  | nil =>
    intro _ i j rest rest' h
    rw [StmtsAt] at h
    obtain ⟨rfl, rfl⟩ := h
    exact .nil
  | cons n ns ih =>
    intro hstmt i j rest rest' h
    rw [StmtsAt] at h
    obtain ⟨k, mid, hn, hns⟩ := h
    exact hstmt n (by simp) ns i k j rest mid rest' hn
      (ih (fun m hm => hstmt m (by simp [hm])) k j mid rest' hns)

theorem laid_cons : ∀ (n : Node) (ms : List Node) (i k j : Nat) (rest mid rest' : List Instr),
    StmtAt su fin g B n i rest k mid → Laid su fin g B ms k mid j rest' →
      Laid su fin g B (n :: ms) i rest j rest' := by
  intro n
  induction n using Node.parts_induction with
  | _ n ih ih₂ =>
  intro ms i k j rest mid rest' h hms
  cases n with
  | compound tag stmts =>
    rw [StmtAt] at h
    obtain ⟨rfl, hstmts⟩ := h
    exact .compound (laid_of_stmtsAt_of stmts ih _ _ _ _ hstmts) hms
  | ifThen tag cond body =>
    cases body with
    | compound btag stmts =>
      rw [StmtAt] at h
      obtain ⟨slot, c, l, hcond, rfl, hstmts, rfl, rfl⟩ := h
      have hbody := ih₂ (.compound btag stmts) (by simp [Node.parts])
      exact .ifThen hcond (laid_of_stmtsAt_of stmts hbody _ _ _ _ hstmts) hms
    | _ => simp [StmtAt] at h
  | loop tag cond body =>
    cases body with
    | compound btag stmts =>
      rw [StmtAt] at h
      obtain ⟨rfl, slot, c, l, hcond, hheader, hstmts, rfl, rfl⟩ := h
      have hbody := ih₂ (.compound btag stmts) (by simp [Node.parts])
      exact .loop hcond hheader (laid_of_stmtsAt_of stmts hbody _ _ _ _ hstmts) hms
    | _ => simp [StmtAt] at h
  | _ =>
    obtain ⟨c, hpiece, rfl, rfl⟩ := stmtAt_piece rfl h
    exact .piece hpiece hms

theorem laid_of_stmtsAt {ns : List Node} {i j : Nat} {rest rest' : List Instr}
    (h : StmtsAt su fin g B ns i rest j rest') : Laid su fin g B ns i rest j rest' :=
  laid_of_stmtsAt_of ns (fun n _ => laid_cons n) i j rest rest' h

/-! ## Block by block -/

variable {ns : List Node} {i j : Nat} {rest rest' : List Instr}

theorem Laid.le (h : Laid su fin g B ns i rest j rest') : i ≤ j := by
  induction h with
  | nil => exact Nat.le_refl _
  | piece _ _ ih => exact ih
  | compound _ _ ih₁ ih₂ => omega
  | ifThen _ _ _ ih₁ ih₂ => omega
  | loop _ _ _ _ ih₁ ih₂ => omega

theorem Laid.suffix (h : Laid su fin g B ns i rest j rest') (hi : rest <:+ B i) :
    rest' <:+ B j := by
  induction h with
  | nil => exact hi
  | piece _ _ ih => exact ih ((List.suffix_append _ _).trans hi)
  | compound _ _ ih₁ ih₂ => exact ih₂ (ih₁ List.suffix_rfl)
  | ifThen _ _ _ _ ih₂ => exact ih₂ List.suffix_rfl
  | loop _ _ _ _ _ ih₂ => exact ih₂ List.suffix_rfl

theorem forall_between {P : Nat → Prop} {i k j : Nat} (h₁ : ∀ l, i < l → l ≤ k → P l)
    (h₂ : ∀ l, k < l → l ≤ j → P l) : ∀ l, i < l → l ≤ j → P l := by
  intro l hil hlj
  rcases Nat.lt_or_ge k l with hkl | hlk
  · exact h₂ l hkl hlj
  · exact h₁ l hil hlk

theorem forall_next {P : Nat → Prop} {i j : Nat} (hnext : P (i + 1))
    (h : ∀ l, i + 1 < l → l ≤ j → P l) : ∀ l, i < l → l ≤ j → P l := by
  intro l hil hlj
  rcases Nat.eq_or_lt_of_le hil with rfl | hlt
  · exact hnext
  · exact h l hlt hlj

/-- The node is an `if` or a loop with the condition. -/
inductive Tests (cond : Node) : Node → Prop
  | ifThen {tag : Tag} {body : Node} : Tests cond (.ifThen tag cond body)
  | loop {tag : Tag} {body : Node} : Tests cond (.loop tag cond body)

theorem Tests.mem_nodes {cond n m : Node} (h : Tests cond n) (hm : m ∈ cond.nodes) :
    m ∈ n.nodes := by
  cases h <;> exact Node.mem_nodes_of_part (by simp [Node.parts]) hm

theorem forall_nodes_part {Q : Node → Prop} {n p : Node} (h : ∀ m ∈ n.nodes, Q m)
    (hp : p ∈ n.parts) : ∀ m ∈ p.nodes, Q m :=
  fun m hm => h m (Node.mem_nodes_of_part hp hm)

/-- **Block by block.**  Let `P` be said of what is left of a block.  If it holds at the end
of a block, and in front of a piece of code if it holds behind it, then it holds of all blocks
that statements stand in. -/
theorem Laid.blocks {P : List Instr → Prop} {Q : Node → Prop} {N : Nat} (hempty : P [])
    (hjump : ∀ t, 0 < t → t ≤ N → P [jumpTo ⟨g, t⟩])
    (hbranch : ∀ n cond slot c yes no, Tests cond n → (∀ m ∈ n.nodes, Q m) →
      ExprCode su fin cond slot c → 0 < yes → yes ≤ N → 0 < no → no ≤ N →
        P (c ++ branchTo slot ⟨g, yes⟩ ⟨g, no⟩))
    (hpiece : ∀ n c rest, (∀ m ∈ n.nodes, Q m) → Piece su fin n c → P rest → P (c ++ rest))
    (h : Laid su fin g B ns i rest j rest') (hj : j ≤ N) (hQ : ∀ n ∈ ns, ∀ m ∈ n.nodes, Q m)
    (hend : P rest') : P rest ∧ ∀ k, i < k → k ≤ j → P (B k) := by
  induction h with
  | nil => exact ⟨hend, fun k hik hki => absurd hik (by omega)⟩
  | piece hp _ ih =>
    rw [List.forall_mem_cons] at hQ
    obtain ⟨hrest, hblocks⟩ := ih hj hQ.2 hend
    exact ⟨hpiece _ _ _ hQ.1 hp hrest, hblocks⟩
  | @compound tag stmts ns mid rest' i k j h₁ h₂ ih₁ ih₂ =>
    rw [List.forall_mem_cons] at hQ
    have hk := h₂.le
    obtain ⟨hmid, hblocks₂⟩ := ih₂ hj hQ.2 hend
    obtain ⟨hfirst, hblocks₁⟩ := ih₁ (by omega) (fun n hn => forall_nodes_part hQ.1 hn) hmid
    exact ⟨hempty, forall_between (forall_next hfirst hblocks₁) hblocks₂⟩
  | @ifThen tag btag cond stmts ns slot c rest' i k j hcond h₁ h₂ ih₁ ih₂ =>
    rw [List.forall_mem_cons] at hQ
    have hik := h₁.le
    have hkj := h₂.le
    obtain ⟨hexit, hblocks₂⟩ := ih₂ hj hQ.2 hend
    have hbody : ∀ m ∈ (Node.compound btag stmts).nodes, Q m :=
      forall_nodes_part hQ.1 (by simp [Node.parts])
    obtain ⟨hfirst, hblocks₁⟩ := ih₁ (by omega) (fun n hn => forall_nodes_part hbody hn)
      (hjump (k + 1) (by omega) (by omega))
    exact ⟨hbranch _ cond slot c _ _ .ifThen hQ.1 hcond (by omega) (by omega) (by omega)
      (by omega), forall_between (forall_next hfirst hblocks₁) (forall_next hexit hblocks₂)⟩
  | @loop tag btag cond stmts ns slot c rest' i k j hcond hheader h₁ h₂ ih₁ ih₂ =>
    rw [List.forall_mem_cons] at hQ
    have hik := h₁.le
    have hkj := h₂.le
    obtain ⟨hexit, hblocks₂⟩ := ih₂ hj hQ.2 hend
    have hbody : ∀ m ∈ (Node.compound btag stmts).nodes, Q m :=
      forall_nodes_part hQ.1 (by simp [Node.parts])
    obtain ⟨hfirst, hblocks₁⟩ := ih₁ (by omega) (fun n hn => forall_nodes_part hbody hn)
      (hjump (i + 1) (by omega) (by omega))
    have hhead : P (B (i + 1)) := by
      rw [hheader]
      exact hbranch _ cond slot c _ _ .loop hQ.1 hcond (by omega) (by omega) (by omega) (by omega)
    exact ⟨hempty, forall_next hhead
      (forall_between (forall_next hfirst hblocks₁) (forall_next hexit hblocks₂))⟩

end Laid

end Isel.Select
