import Isel.Proofs.Agreement

/-!
# Successor lists and control

`ways` says where control really goes from a block, by what its instructions do.  The
successor list of a block comes from the last instruction in front of its ending alone, so
the two agree where nothing stands behind a return: `select_successors`.  In general a block
has no successors exactly if it is the last one or a `RET` stands right in front of its
ending (`select_successors_eq_nil`); code between a `RET` and the ending brings back an edge
that control never takes.
-/

namespace Isel.Syntax.Node

mutual

/-- Nothing behind the statement is ever reached in its list: it is a return, or a compound
whose last statement is of this kind. -/
def closes : Node → Bool
  | .ret .. => true
  | .compound _ stmts => lastCloses false stmts
  | .absent | .bare _ | .program .. | .function .. | .param .. | .var .. | .binary ..
  | .boolean .. | .call .. | .ident .. | .number .. | .string .. | .ifThen .. | .print ..
  | .scan .. | .loop .. => false

/-- The last statement of a list closes it; `before` is the answer for an empty list. -/
def lastCloses (before : Bool) : List Node → Bool
  | [] => before
  | n :: rest => lastCloses n.closes rest

end

theorem lastCloses_of_false {ns : List Node} (h : lastCloses false ns = true) (before : Bool) :
    lastCloses before ns = true := by
  cases ns with
  | nil => cases h
  | cons n ns => exact h

def stmts : Node → List Node
  | .compound _ stmts => stmts
  | _ => []

/-- In every list of statements only the last one closes. -/
def ReturnsLast (n : Node) : Prop := ∀ m ∈ n.nodes, ∀ s ∈ m.stmts.dropLast, s.closes = false

instance (n : Node) : Decidable n.ReturnsLast :=
  inferInstanceAs (Decidable (∀ m ∈ n.nodes, ∀ s ∈ m.stmts.dropLast, s.closes = false))

theorem ReturnsLast.part {n p : Node} (h : n.ReturnsLast) (hp : p ∈ n.parts) : p.ReturnsLast :=
  fun m hm => h m (mem_nodes_of_part hp hm)

end Isel.Syntax.Node

namespace Isel.Flow

open Isel.Machine

/-! ## Where control goes -/

/-- Where control goes when `rest` is left of a block, and `next` is the block behind it. -/
def ways (next : Option BlockRef) : List Instr → List BlockRef
  | [] => next.toList
  | i :: rest =>
    match act (i :: rest) with
    | .ret _ => []
    | .jump j => j.target?.toList
    | .branch _ yes no => yes.target?.toList ++ no.target?.toList
    | .step .. | .fall => ways next rest

theorem ways_plain {i : Instr} (h : i.isPlain = true) (next : Option BlockRef)
    (rest : List Instr) : ways next (i :: rest) = ways next rest := by
  rw [ways, act_plain h]

@[simp] theorem ways_nil (next : Option BlockRef) : ways next [] = next.toList := rfl

@[simp] theorem ways_jumpTo (next : Option BlockRef) (t : BlockRef) (rest : List Instr) :
    ways next (Select.jumpTo t :: rest) = [t] := rfl

@[simp] theorem ways_branchTo (next : Option BlockRef) (slot : Slot) (yes no : BlockRef) :
    ways next (Select.branchTo slot yes no) = [yes, no] := rfl

theorem ways_ret {i : Instr} (h : i.op = .ret) (next : Option BlockRef) (rest : List Instr) :
    ways next (i :: rest) = [] := by rw [ways, act_ret h]

/-! ## Returns at the end -/

/-- The code ends in a `RET`, or in a `RET` and one jump. -/
def returnsAtEnd (code : List Instr) : Bool :=
  endsInRet code || (code.getLast?.any fun i => i.op == .jump) && endsInRet code.dropLast

theorem returnsAtEnd_concat (code : List Instr) (i : Instr) :
    returnsAtEnd (code ++ [i]) = (i.op == .ret || i.op == .jump && endsInRet code) := by
  rw [returnsAtEnd, endsInRet_concat, List.getLast?_concat, List.dropLast_concat]
  rfl

theorem returnsAtEnd_of_endsInRet {code : List Instr} (h : endsInRet code = true) :
    returnsAtEnd code = true := by rw [returnsAtEnd, h, Bool.true_or]

theorem endsTerminated_of_returnsAtEnd {code : List Instr} (h : returnsAtEnd code = true) :
    endsTerminated code = true := by
  rcases List.eq_nil_or_concat' code with rfl | ⟨init, i, rfl⟩
  · cases h
  · rw [returnsAtEnd_concat, Bool.or_eq_true, Bool.and_eq_true, beq_iff_eq, beq_iff_eq] at h
    rw [endsTerminated_concat, Instr.isTerminator]
    rcases h with h | ⟨h, -⟩ <;> rw [h] <;> rfl

/-- Nothing is left but the ending of a body. -/
def AtEnd (rest : List Instr) : Prop := rest = [] ∨ ∃ t, rest = [Select.jumpTo t]

/-- Behind a `RET` nothing is left but the ending of a body. -/
def RetAtEnd : List Instr → Prop
  | [] => True
  | i :: rest => (i.op = .ret → AtEnd rest) ∧ RetAtEnd rest

theorem retAtEnd_append {c rest : List Instr} (hc : ∀ i ∈ c, i.op ≠ .ret)
    (hrest : RetAtEnd rest) : RetAtEnd (c ++ rest) := by
  induction c with
  | nil => exact hrest
  | cons i c ih =>
    rw [List.forall_mem_cons] at hc
    exact ⟨fun hi => absurd hi hc.1, ih hc.2⟩

theorem atEnd_of_endsInRet {code tail : List Instr} (h : RetAtEnd (code ++ tail))
    (hend : endsInRet code = true) : AtEnd tail := by
  induction code with
  | nil => cases hend
  | cons i code ih =>
    cases code with
    | nil => exact h.1 (by simpa using hend)
    | cons j code => exact ih h.2 (by simpa using hend)

/-- Straight code passes control on to what is behind it, unless it ends in a `RET`. -/
theorem ways_straight {next : Option BlockRef} {code tail : List Instr} (hs : Straight code)
    (hret : RetAtEnd (code ++ tail)) :
    ways next (code ++ tail) = if endsInRet code then [] else ways next tail := by
  induction code with
  | nil => rfl
  | cons i code ih =>
    obtain ⟨hi, hcode⟩ := List.forall_mem_cons.mp hs
    by_cases hop : i.op = .ret
    · -- Behind the return there is only the ending, so it stands at the end.
      have hnil : code = [] := by
        rcases hret.1 hop with hempty | ⟨t, ht⟩
        · exact (List.append_eq_nil_iff.mp hempty).1
        · rcases List.append_eq_singleton_iff.mp ht with ⟨hnil, -⟩ | ⟨rfl, -⟩
          · exact hnil
          · exact absurd (List.forall_mem_singleton.mp hcode) Bool.false_ne_true
      subst hnil
      rw [List.cons_append, ways_ret hop, if_pos (by simp [hop])]
    · have hplain : i.isPlain = true := by
        simp only [Instr.isStraight, Bool.and_eq_true, decide_eq_true_eq] at hi
        simp [Instr.isPlain, hop, hi.1, hi.2]
      rw [List.cons_append, ways_plain hplain, ih hcode hret.2]
      cases code with
      | nil => simp [hop]
      | cons j code => simp

theorem ways_straight_end {next : Option BlockRef} {code : List Instr} (hs : Straight code)
    (hret : RetAtEnd code) : ways next code = if endsInRet code then [] else next.toList := by
  rw [← List.append_nil code] at hret
  have h : ways next (code ++ []) = _ := ways_straight hs hret
  rwa [List.append_nil] at h

end Isel.Flow

namespace Isel.Select

open Isel.Flow Isel.Syntax Isel.Scope Isel.Proofs

/-- The hooks put in no part of control. -/
def PlainHooks (su : Setup) : Prop :=
  ∀ request out, Answered su request out → ∀ i ∈ out, i.isPlain = true

theorem PlainHooks.straight {su : Setup} (hh : PlainHooks su) : StraightHooks su := by
  intro request out ho i hi
  have hplain := hh request out ho i hi
  simp only [Instr.isPlain, Bool.and_eq_true, decide_eq_true_eq] at hplain
  simp [Instr.isStraight, hplain.1.2, hplain.2]

theorem PlainHooks.ne_ret {su : Setup} (hh : PlainHooks su) {request : Request}
    {out : List Instr} (ho : Answered su request out) : ∀ i ∈ out, i.op ≠ .ret := by
  intro i hi he
  have hplain := hh request out ho i hi
  simp [Instr.isPlain, he] at hplain

/-! ## Returns in a body -/

theorem retAtEnd_branch {c : List Instr} (hc : ∀ i ∈ c, i.op ≠ .ret) {slot : Slot}
    {yes no : BlockRef} : RetAtEnd (c ++ branchTo slot yes no) := by
  refine retAtEnd_append hc ⟨?_, ?_, ?_, trivial⟩ <;> intro he <;> cases he

section Returns

variable {su : Setup} {fin : State} {g : Nat}

theorem piece_ne_ret (hh : PlainHooks su) {n : Node} {c : List Instr} (h : Piece su fin n c)
    (hn : n.closes = false) : ∀ i ∈ c, i.op ≠ .ret := by
  refine piece_ops (P := fun op => op ≠ .ret) (by decide) (fun _ _ => hh.ne_ret) h ?_
  rintro ⟨tag, expr, rfl⟩
  cases hn

theorem piece_ret (hh : PlainHooks su) {n : Node} {c : List Instr} (h : Piece su fin n c)
    (hn : n.closes = true) : ∃ d, c = d ++ [⟨.ret, []⟩] ∧ ∀ i ∈ d, i.op ≠ .ret := by
  have hexpr : ∀ n slot code, ExprCode su fin n slot code → ∀ i ∈ code, i.op ≠ .ret :=
    exprCode_ops (P := fun op => op ≠ .ret) (by decide) fun _ _ _ => hh.ne_ret
  cases h with
  | leave => exact ⟨[], rfl, by simp⟩
  | ret hcode hout =>
    exact ⟨_, rfl, List.forall_mem_append.mpr ⟨hexpr _ _ _ hcode, hh.ne_ret hout⟩⟩
  | expr hcode =>
    cases n with
    | ret | compound => simp [ExprCode] at hcode
    | _ => cases hn
  | _ => cases hn

/-- Returns come last in the statements `ns`, and behind them only the ending of a body is left
if they close with one. -/
structure ReturnsInto (ns : List Node) (rest : List Instr) : Prop where
  each : ∀ n ∈ ns, n.ReturnsLast
  inner : ∀ n ∈ ns.dropLast, n.closes = false
  ending : RetAtEnd rest
  closing : Node.lastCloses false ns = true → AtEnd rest

theorem returnsInto_body {tag : Tag} {stmts : List Node} {rest : List Instr}
    (h : (Node.compound tag stmts).ReturnsLast) (hrest : RetAtEnd rest)
    (hclose : (Node.compound tag stmts).closes = true → AtEnd rest) : ReturnsInto stmts rest where
  each _ hn := h.part hn
  inner := h _ (Node.mem_nodes_self rfl)
  ending := hrest
  closing hlast := hclose hlast

theorem returnsInto_jump {tag : Tag} {stmts : List Node}
    (h : (Node.compound tag stmts).ReturnsLast) (t : BlockRef) :
    ReturnsInto stmts [jumpTo t] :=
  returnsInto_body h ⟨fun he => (by cases he), trivial⟩ fun _ => .inr ⟨t, rfl⟩

section Into

variable {n : Node} {ns : List Node} {rest : List Instr}

theorem ReturnsInto.head (h : ReturnsInto (n :: ns) rest) : n.ReturnsLast :=
  h.each n List.mem_cons_self

theorem ReturnsInto.tail (h : ReturnsInto (n :: ns) rest) : ReturnsInto ns rest where
  each m hm := h.each m (List.mem_cons_of_mem _ hm)
  inner m hm := by
    have hne : ns ≠ [] := by
      rintro rfl
      cases hm
    exact h.inner m (by rw [List.dropLast_cons_of_ne_nil hne]; exact List.mem_cons_of_mem _ hm)
  ending := h.ending
  closing hlast := h.closing (Node.lastCloses_of_false hlast _)

theorem ReturnsInto.last (h : ReturnsInto (n :: ns) rest) (hn : n.closes = true) :
    ns = [] ∧ AtEnd rest := by
  have hnil : ns = [] := by
    by_contra hne
    have hin : n ∈ (n :: ns).dropLast := by simp [List.dropLast_cons_of_ne_nil hne]
    rw [h.inner n hin] at hn
    cases hn
  subst hnil
  exact ⟨rfl, h.closing hn⟩

theorem ReturnsInto.lastCloses (h : ReturnsInto (n :: ns) rest) (hn : n.closes = true) :
    Node.lastCloses false (n :: ns) = true := by
  obtain ⟨rfl, -⟩ := h.last hn
  exact hn

theorem ReturnsInto.atEnd {B : Blocks} {i j : Nat} {mid : List Instr}
    (h : ReturnsInto (n :: ns) rest) (hlaid : Laid su fin g B ns i mid j rest)
    (hn : n.closes = true) : AtEnd mid := by
  obtain ⟨rfl, hend⟩ := h.last hn
  cases hlaid
  exact hend

end Into

/-- Where returns come last, every block has them in front of its ending. -/
theorem Laid.retAtEnd (hh : PlainHooks su) {B : Blocks} {ns : List Node} {i j : Nat}
    {rest rest' : List Instr} (h : Laid su fin g B ns i rest j rest')
    (hinto : ReturnsInto ns rest') : RetAtEnd rest ∧ ∀ k, i < k → k ≤ j → RetAtEnd (B k) := by
  have hexpr : ∀ n slot code, ExprCode su fin n slot code → ∀ i ∈ code, i.op ≠ .ret :=
    exprCode_ops (P := fun op => op ≠ .ret) (by decide) fun _ _ _ => hh.ne_ret
  induction h with
  | nil => exact ⟨hinto.ending, fun k hik hki => absurd hik (by omega)⟩
  | @piece n ns c rest rest' i j hp hns ih =>
    obtain ⟨hrest, hblocks⟩ := ih hinto.tail
    refine ⟨?_, hblocks⟩
    by_cases hn : n.closes = true
    · -- The return is the last statement, so what is left behind it is the ending.
      obtain ⟨rfl, hend⟩ := hinto.last hn
      obtain ⟨d, rfl, hd⟩ := piece_ret hh hp hn
      cases hns
      rw [List.append_assoc]
      exact retAtEnd_append hd ⟨fun _ => hend, hrest⟩
    · exact retAtEnd_append (piece_ne_ret hh hp (Bool.eq_false_iff.mpr hn)) hrest
  | @compound tag stmts ns mid rest' i k j h₁ h₂ ih₁ ih₂ =>
    obtain ⟨hmid, hblocks₂⟩ := ih₂ hinto.tail
    obtain ⟨hfirst, hblocks₁⟩ := ih₁ (returnsInto_body hinto.head hmid (hinto.atEnd h₂))
    exact ⟨trivial, forall_between (forall_next hfirst hblocks₁) hblocks₂⟩
  | @ifThen tag btag cond stmts ns slot c rest' i k j hcond h₁ h₂ ih₁ ih₂ =>
    have hbody : (Node.compound btag stmts).ReturnsLast := hinto.head.part (by simp [Node.parts])
    obtain ⟨hexit, hblocks₂⟩ := ih₂ hinto.tail
    obtain ⟨hfirst, hblocks₁⟩ := ih₁ (returnsInto_jump hbody _)
    exact ⟨retAtEnd_branch (hexpr _ _ _ hcond),
      forall_between (forall_next hfirst hblocks₁) (forall_next hexit hblocks₂)⟩
  | @loop tag btag cond stmts ns slot c rest' i k j hcond hheader h₁ h₂ ih₁ ih₂ =>
    have hbody : (Node.compound btag stmts).ReturnsLast := hinto.head.part (by simp [Node.parts])
    obtain ⟨hexit, hblocks₂⟩ := ih₂ hinto.tail
    obtain ⟨hfirst, hblocks₁⟩ := ih₁ (returnsInto_jump hbody _)
    have hhead : RetAtEnd (B (i + 1)) := by
      rw [hheader]
      exact retAtEnd_branch (hexpr _ _ _ hcond)
    exact ⟨trivial, forall_next hhead
      (forall_between (forall_next hfirst hblocks₁) (forall_next hexit hblocks₂))⟩

/-- In a function where returns come last, every block has them in front of its ending. -/
theorem FunctionCode.retAtEnd (hh : PlainHooks su) {B : Blocks} {n : Nat} {params : List Node}
    {body : Node} (h : FunctionCode su fin g B n params body) (hlast : body.ReturnsLast) {k : Nat}
    (hk : k < n) : RetAtEnd (B k) := by
  obtain ⟨tag, stmts, slots, j, rfl, -, hparams, hat, rfl⟩ := h
  obtain ⟨hfirst, hblocks⟩ := (laid_of_stmtsAt hat).retAtEnd hh
    (returnsInto_body hlast trivial fun _ => .inl rfl)
  rcases Nat.eq_zero_or_pos k with rfl | hpos
  · rw [← List.append_nil (B 0)]
    exact retAtEnd_append (hparams.each fun _ => hh.ne_ret) trivial
  · exact forall_next hfirst hblocks k hpos (by omega)

end Returns

/-! ## Successors -/

section Successors

variable {su : Setup} {root : Node} {u : Unit} {fin : State} {r : BlockRef} {b : Block}

/-- The edges of a linked block are where control goes, if its returns stand in front of its
ending. -/
theorem Linked.edges_eq {g k : Nat} {code : List Instr} {edges : List (Option BlockRef)}
    (h : Linked su g k code edges) (hh : StraightHooks su) (hret : RetAtEnd code) :
    edges = (ways (some ⟨g, k + 1⟩) code).map some ∧ edges.Nodup := by
  cases h with
  | fall hs =>
    rw [ways_straight_end (hs hh) hret, fallEdges, (hs hh).endsTerminated]
    split <;> simp
  | @jump body t hs =>
    rw [ways_straight (hs hh) hret, jumpEdges]
    split <;> simp
  | @branch body slot yes no hs hne =>
    have hend : endsInRet body = false := by
      by_contra hend
      rcases atEnd_of_endsInRet hret (Bool.not_eq_false _ ▸ hend) with h | ⟨t, h⟩ <;> cases h
    rw [ways_straight (hs hh) hret, hend]
    refine ⟨rfl, ?_⟩
    simpa using hne

theorem blockAt?_succ {m : Module} {g k : Nat} (h : k + 1 < m.count g) :
    m.blockAt? g (k + 1) = some ⟨g, k + 1⟩ := by
  rw [Module.blockAt?, if_pos ⟨by omega, h⟩]
  rfl

theorem blockAt?_eq_none {m : Module} {g k : Nat} (h : m.count g ≤ k + 1) :
    m.blockAt? g (k + 1) = none := if_neg fun hlt => absurd hlt.2 (Nat.not_lt.mpr h)

/-- **Successor lists are where control goes**, if nothing stands behind a return. -/
theorem select_successors (hh : PlainHooks su) (hu : root.Unshared) (hlast : root.ReturnsLast)
    (hsel : select su root = .ok u fin) (hb : fin.module.block? r = some b) :
    b.successors.Nodup ∧ ∀ q, q ∈ b.successors ↔
      ∃ t ∈ ways (fin.module.blockAt? r.graph (r.index + 1)) b.instrs, q = some t := by
  obtain ⟨tag, decls, rfl⟩ := select_program hsel
  have hlt : r.index < fin.module.count r.graph := lt_count_of_block? hb
  obtain ⟨ftag, name, params, result, body, hd, -, hcode, hlinked⟩ :=
    (select_laid hu hsel).graph (lt_graphs_of_block? hb)
  have hbody : body.ReturnsLast := (hlast.part hd).part (by simp [Node.parts])
  have hret : RetAtEnd (fin.module.code r) := hcode.retAtEnd hh hbody hlt
  rw [← Module.edges_of_block? hb, ← code_of_block? hb]
  rcases Nat.lt_or_ge (r.index + 1) (fin.module.count r.graph) with hnext | hend
  · obtain ⟨hedges, hnodup⟩ := (hlinked.links r.index hnext).edges_eq hh.straight hret
    refine ⟨hnodup, fun q => ?_⟩
    rw [blockAt?_succ hnext, hedges, List.mem_map]
    simp only [eq_comm]
  · -- Nothing leads on from the last block, which is straight.
    obtain ⟨hedges, hs⟩ := hlinked.last r.index (by omega)
    have hways : ways none (fin.module.code r) = [] := by
      rw [ways_straight_end (hs hh.straight) hret]
      exact ite_self []
    rw [blockAt?_eq_none hend, hways, hedges]
    exact ⟨List.nodup_nil, by simp⟩

end Successors

theorem plainHooks_stackSetup (t : Table) (b : Bindings) : PlainHooks (stackSetup t b) := by
  intro request out ho i hi
  rw [Instr.isPlain]
  cases simple_of_stack rfl ho i hi <;> rfl

/-- A loop that is left by a return in a body, and goes on behind another one. -/
def leavingDecls : List Node :=
  [.function (.nowhere 1 .functionDecl) "f" [] .void
    (.compound (.nowhere 2 .compoundStmt)
      [.loop (.nowhere 3 .whileStmt) (.boolean (.nowhere 4 .booleanExpr) true)
        (.compound (.nowhere 5 .compoundStmt)
          [.ifThen (.nowhere 6 .ifStmt) (.boolean (.nowhere 7 .booleanExpr) false)
            (.compound (.nowhere 8 .compoundStmt) [.ret (.nowhere 9 .returnStmt) .absent]),
           .compound (.nowhere 10 .compoundStmt)
            [.number (.nowhere 11 .numberExpr) 1, .ret (.nowhere 12 .returnStmt) .absent]])])]

theorem leavingDecls_successors : ∃ t b fin block,
    resolveProgram (.program (.nowhere 0 .program) leavingDecls) {} = .ok t b ∧
      select (stackSetup t b) (.program (.nowhere 0 .program) leavingDecls) = .ok () fin ∧
      fin.module.block? ⟨0, 2⟩ = some block ∧ block.successors.Nodup ∧
      ∀ q, q ∈ block.successors ↔
        ∃ t ∈ ways (fin.module.blockAt? 0 3) block.instrs, q = some t := by
  have hlowers : ((lowered? stackSetup (.program (.nowhere 0 .program) leavingDecls)).bind
      fun s => s.module.block? ⟨0, 2⟩).isSome = true := by decide +kernel
  obtain ⟨block, hblock⟩ := Option.isSome_iff_exists.mp hlowers
  obtain ⟨fin, hfin, hb⟩ := Option.bind_eq_some_iff.mp hblock
  obtain ⟨t, b, hres, hsel⟩ := exists_of_lowered? hfin
  have hu : (Node.program (.nowhere 0 .program) leavingDecls).Unshared := by decide
  obtain ⟨hnodup, hways⟩ :=
    select_successors (plainHooks_stackSetup t b) hu (by decide) hsel hb
  exact ⟨t, b, fin, block, hres, hsel, hb, hnodup, hways⟩

section Successors

variable {su : Setup} {root : Node} {u : Unit} {fin : State} {r : BlockRef} {b : Block}

/-- The edges of a linked block are gone exactly if a `RET` stands right in front of its
ending. -/
theorem Linked.edges_eq_nil {g k : Nat} {code : List Instr} {edges : List (Option BlockRef)}
    (h : Linked su g k code edges) :
    (returnsAtEnd code = true → edges = []) ∧
      (StraightHooks su → edges = [] → returnsAtEnd code = true) := by
  cases h with
  | fall hs =>
    refine ⟨fun hret => ?_, fun hh hnone => ?_⟩
    · rw [fallEdges, if_pos (endsTerminated_of_returnsAtEnd hret)]
    · rw [fallEdges, (hs hh).endsTerminated] at hnone
      split at hnone
      · next hend => exact returnsAtEnd_of_endsInRet hend
      · cases hnone
  | @jump body t hs =>
    rw [returnsAtEnd_concat, jumpEdges]
    cases endsInRet body <;> simp [jumpTo]
  | @branch body slot yes no hs hne =>
    have hcode : body ++ branchTo slot ⟨g, yes⟩ ⟨g, no⟩ =
        body ++ [⟨.tst, [.slot slot, .imm 1]⟩] ++ [jumpTo ⟨g, yes⟩] ++ [jumpTo ⟨g, no⟩] := by
      simp [branchTo]
    rw [hcode, returnsAtEnd_concat, endsInRet_concat]
    simp [jumpTo]

/-- **When a block has no successors.**  The last block of a graph has none, and a `RET` right
in front of the ending of a block takes them away.  Unless hooks put in jumps or tests, nothing
else does: a `RET` with more code behind it does not. -/
theorem select_successors_eq_nil (hu : root.Unshared) (hsel : select su root = .ok u fin)
    (hb : fin.module.block? r = some b) :
    (r.index + 1 = fin.module.count r.graph ∨ returnsAtEnd b.instrs = true →
      b.successors = []) ∧
    (StraightHooks su → b.successors = [] →
      r.index + 1 = fin.module.count r.graph ∨ returnsAtEnd b.instrs = true) := by
  obtain ⟨tag, decls, rfl⟩ := select_program hsel
  have hlt : r.index < fin.module.count r.graph := lt_count_of_block? hb
  obtain ⟨-, -, -, -, -, -, -, -, hlinked⟩ :=
    (select_laid hu hsel).graph (lt_graphs_of_block? hb)
  rw [← Module.edges_of_block? hb, ← code_of_block? hb]
  rcases Nat.lt_or_ge (r.index + 1) (fin.module.count r.graph) with hnext | hend
  · obtain ⟨hgone, hkept⟩ := (hlinked.links r.index hnext).edges_eq_nil
    refine ⟨fun h => hgone (h.resolve_left (by omega)), fun hh hnone => .inr (hkept hh hnone)⟩
  · have hlast : r.index + 1 = fin.module.count r.graph := by omega
    exact ⟨fun _ => (hlinked.last r.index hlast).1, fun _ _ => .inl hlast⟩

end Successors

theorem leavingDecls_left : ∃ t b fin block,
    resolveProgram (.program (.nowhere 0 .program) leavingDecls) {} = .ok t b ∧
      select (stackSetup t b) (.program (.nowhere 0 .program) leavingDecls) = .ok () fin ∧
      fin.module.block? ⟨0, 4⟩ = some block ∧ returnsAtEnd block.instrs = true ∧
      block.successors = [] := by
  have hlowers : ((lowered? stackSetup (.program (.nowhere 0 .program) leavingDecls)).bind
      fun s => s.module.block? ⟨0, 4⟩).any (fun block => returnsAtEnd block.instrs) = true := by
    decide +kernel
  obtain ⟨block, hblock, hret⟩ := (Option.any_eq_true _ _).mp hlowers
  obtain ⟨fin, hfin, hb⟩ := Option.bind_eq_some_iff.mp hblock
  obtain ⟨t, b, hres, hsel⟩ := exists_of_lowered? hfin
  have hu : (Node.program (.nowhere 0 .program) leavingDecls).Unshared := by decide
  exact ⟨t, b, fin, block, hres, hsel, hb, hret,
    (select_successors_eq_nil hu hsel hb).1 (.inr hret)⟩

/-- A loop whose body has a statement behind its return. -/
def strandedDecls : List Node :=
  [.function (.nowhere 1 .functionDecl) "f" [] .void
    (.compound (.nowhere 2 .compoundStmt)
      [.loop (.nowhere 3 .whileStmt) (.boolean (.nowhere 4 .booleanExpr) true)
        (.compound (.nowhere 5 .compoundStmt)
          [.ret (.nowhere 6 .returnStmt) .absent, .number (.nowhere 7 .numberExpr) 1])])]

/-- An edge leads on from a block with a `RET`: the jump at its end does not see the `RET`
past the code between them. -/
theorem strandedDecls_edge : ∃ t b fin block,
    resolveProgram (.program (.nowhere 0 .program) strandedDecls) {} = .ok t b ∧
      select (stackSetup t b) (.program (.nowhere 0 .program) strandedDecls) = .ok () fin ∧
      fin.module.block? ⟨0, 3⟩ = some block ∧ (∃ i ∈ block.instrs, i.op = .ret) ∧
      block.successors = [some ⟨0, 2⟩] := by
  have hlowers : ((lowered? stackSetup (.program (.nowhere 0 .program) strandedDecls)).bind
      fun s => s.module.block? ⟨0, 3⟩).any (fun block =>
        block.instrs.any (fun i => i.op == .ret) && block.successors == [some ⟨0, 2⟩]) = true := by
    decide +kernel
  obtain ⟨block, hblock, hcheck⟩ := (Option.any_eq_true _ _).mp hlowers
  obtain ⟨fin, hfin, hb⟩ := Option.bind_eq_some_iff.mp hblock
  obtain ⟨t, b, hres, hsel⟩ := exists_of_lowered? hfin
  rw [Bool.and_eq_true, List.any_eq_true, beq_iff_eq] at hcheck
  obtain ⟨⟨i, hi, hop⟩, hedge⟩ := hcheck
  exact ⟨t, b, fin, block, hres, hsel, hb, ⟨i, hi, beq_iff_eq.mp hop⟩, hedge⟩

end Isel.Select
