import Mathlib.Data.List.Forall2
import Isel.Proofs.Successors

/-!
# Well-formed modules

What the later stages take for granted of a module, read off the layout of its functions.

* `Formed`: a block is straight code with one of three endings, and its jumps stay in its
  graph, behind the entry.
* `Calls`: the calls of a graph, block by block, are those of the tree in the order of
  evaluation, each of the entry of the function that it names.
* `LoopForm`: the header of a loop leads to its body and to its exit, and the body leads back
  to the header.

`select_wellFormed` says so of all functions of a module and of its global sequence.
-/

namespace Isel.Syntax.Node

mutual

/-- The names that a tree calls, in the order of evaluation: a call stands behind its
arguments. -/
def callees : Node → List String
  | .call _ callee args => calleesAll args ++ [callee]
  | .program _ ns | .compound _ ns => calleesAll ns
  | .var _ _ _ n | .print _ n | .ret _ n | .scan _ n | .function _ _ _ _ n => n.callees
  | .binary _ _ m n | .ifThen _ m n | .loop _ m n => m.callees ++ n.callees
  | .absent | .bare _ | .param .. | .boolean .. | .ident .. | .number .. | .string .. => []

def calleesAll : List Node → List String
  | [] => []
  | n :: rest => n.callees ++ calleesAll rest

end

mutual

/-- The parts of a statement that have their code in one block, in order: statements without a
body, and conditions. -/
def pieces : Node → List Node
  | .compound _ stmts => piecesAll stmts
  | .ifThen _ cond body | .loop _ cond body => cond :: body.pieces
  | n => [n]

def piecesAll : List Node → List Node
  | [] => []
  | n :: rest => n.pieces ++ piecesAll rest

end

/-- What the variables of a program call for their first values. -/
def initCallees : List Node → List String
  | [] => []
  | .var _ _ _ init :: rest => init.callees ++ initCallees rest
  | _ :: rest => initCallees rest

end Isel.Syntax.Node

namespace Isel.Flow

def calls (code : List Instr) : List Instr := code.filter fun i => i.op == .call

@[simp] theorem calls_nil : calls [] = [] := rfl

@[simp] theorem calls_append (c d : List Instr) : calls (c ++ d) = calls c ++ calls d :=
  List.filter_append ..

theorem calls_eq_nil {code : List Instr} (h : ∀ i ∈ code, i.op ≠ .call) : calls code = [] := by
  rw [calls, List.filter_eq_nil_iff]
  intro i hi hcall
  exact h i hi (beq_iff_eq.mp hcall)

/-- The instruction calls the entry of the function of that name. -/
def Calls (m : Module) (name : String) (i : Instr) : Prop :=
  ∃ f entry, m.function? name = some f ∧ m.entry? f.graph = some entry ∧
    i = ⟨.call, [.block (some entry)]⟩

end Isel.Flow

namespace Isel.Select

open Isel.Flow Isel.Syntax Isel.Scope Isel.Proofs

/-- The hooks put in no part of control and no call. -/
def FlatHooks (su : Setup) : Prop :=
  ∀ request out, Answered su request out → ∀ i ∈ out, i.isPlain = true ∧ i.op ≠ .call

section Hooks

variable {su : Setup} (hh : FlatHooks su)
include hh

theorem FlatHooks.plain : PlainHooks su := fun request out ho i hi => (hh request out ho i hi).1

theorem FlatHooks.ne_call {request : Request} {out : List Instr}
    (ho : Answered su request out) : ∀ i ∈ out, i.op ≠ .call :=
  fun i hi => (hh request out ho i hi).2

end Hooks

/-! ## Calls -/

section Calls

variable {su : Setup} {fin : State}

theorem calls_callTo {f : Function} {callee : String} (hd : fin.Declared)
    (hf : fin.module.function? callee = some f) : Calls fin.module callee (callTo f) := by
  have hmem : f ∈ fin.module.functions := List.mem_of_find?_eq_some hf
  exact ⟨f, ⟨f.graph, 0⟩, hf, (entry?_of_count (hd f hmem).1).1, rfl⟩

theorem argsCode_calls : ∀ ns : List Node,
    (∀ n ∈ ns, ∀ slot code, ExprCode su fin n slot code →
      List.Forall₂ (Calls fin.module) n.callees (calls code)) →
    ∀ slots code, ArgsCode su fin ns slots code →
      List.Forall₂ (Calls fin.module) (Node.calleesAll ns) (calls code) := by
  intro ns
  induction ns with
  | nil =>
    intro _ slots code h
    rw [ArgsCode] at h
    rw [Node.calleesAll, h.2]
    exact .nil
  | cons n ns ih =>
    intro hexpr slots code h
    rw [ArgsCode] at h
    obtain ⟨slot, c, ss, cs, hn, hns, -, rfl⟩ := h
    rw [Node.calleesAll, calls_append]
    exact List.rel_append (hexpr n (by simp) slot c hn)
      (ih (fun m hm => hexpr m (by simp [hm])) ss cs hns)

theorem exprCode_calls (hh : FlatHooks su) (hd : fin.Declared) :
    ∀ n slot code, ExprCode su fin n slot code →
      List.Forall₂ (Calls fin.module) n.callees (calls code) := by
  intro n
  induction n using Node.parts_induction with
  | _ n ih _ =>
  intro slot code h
  cases n with
  | number | boolean =>
    rw [ExprCode] at h
    rw [h.2]
    exact .nil
  | string =>
    rw [ExprCode] at h
    obtain ⟨-, k, l, -, -, rfl⟩ := h
    exact .nil
  | ident =>
    rw [ExprCode] at h
    obtain ⟨-, decl, source, -, -, rfl⟩ := h
    exact .nil
  | binary tag op left right =>
    rw [ExprCode] at h
    obtain ⟨-, lhs, rhs, c, d, opcode, hl, hr, hop, rfl⟩ := h
    have hne : ∀ o ∈ binaryOpcodes, o ≠ .call := by decide
    have hown : calls [⟨opcode, [.slot slot, .slot lhs, .slot rhs]⟩] = [] :=
      calls_eq_nil (List.forall_mem_singleton.mpr (hne opcode (mem_binaryOpcodes hop)))
    rw [Node.callees, calls_append, calls_append, hown, List.append_nil]
    exact List.rel_append (ih left (by simp [Node.parts]) lhs c hl)
      (ih right (by simp [Node.parts]) rhs d hr)
  | call tag callee args =>
    rw [ExprCode] at h
    obtain ⟨-, slots, c, out, f, result, hargs, hout, hf, hresult, rfl⟩ := h
    have hnone : calls out = [] := calls_eq_nil (hout.each fun _ => hh.ne_call)
    have hnone' : calls result = [] := calls_eq_nil (hresult.each fun _ => hh.ne_call)
    have hcall : calls (callTo f :: result) = [callTo f] := by
      rw [← List.singleton_append, calls_append, hnone']
      rfl
    rw [Node.callees, calls_append, calls_append, hnone, List.append_nil, hcall]
    exact List.rel_append (argsCode_calls args ih slots c hargs)
      (.cons (calls_callTo hd hf) .nil)
  | _ => simp [ExprCode] at h

theorem piece_calls (hh : FlatHooks su) (hd : fin.Declared) {n : Node} {c : List Instr}
    (h : Piece su fin n c) : List.Forall₂ (Calls fin.module) n.callees (calls c) := by
  have hexpr := exprCode_calls hh hd
  cases h with
  | noVar | leave => exact .nil
  | @var tag name type init source slot c hcode _ =>
    have hcopy : calls (localCopy su name slot source) = [] := by
      rw [localCopy]
      split <;> rfl
    rw [Node.callees, calls_append, hcopy, List.append_nil]
    exact hexpr _ _ _ hcode
  | ret hcode hout =>
    rw [Node.callees, calls_append, calls_append, calls_eq_nil (hh.ne_call hout), List.append_nil]
    exact (List.append_nil (calls _)).symm ▸ hexpr _ _ _ hcode
  | print hcode hout =>
    rw [Node.callees, calls_append, calls_eq_nil (hh.ne_call hout), List.append_nil]
    exact hexpr _ _ _ hcode
  | scan _ _ hout =>
    rw [calls_eq_nil (hh.ne_call hout)]
    exact .nil
  | expr hcode => exact hexpr _ _ _ hcode

end Calls

/-! ## The code of several blocks -/

/-- The code of the blocks behind block `i`, up to block `j`. -/
def between (B : Blocks) (i j : Nat) : List Instr := (List.range' (i + 1) (j - i)).flatMap B

theorem between_self (B : Blocks) (i : Nat) : between B i i = [] := by simp [between]

theorem between_next (B : Blocks) {i j : Nat} (h : i < j) :
    between B i j = B (i + 1) ++ between B (i + 1) j := by
  obtain ⟨d, rfl⟩ := Nat.exists_eq_add_of_lt h
  rw [between, between, show i + d + 1 - i = d + 1 by omega,
    show i + d + 1 - (i + 1) = d by omega, List.range'_succ, List.flatMap_cons]

theorem between_append (B : Blocks) {i k j : Nat} (hik : i ≤ k) (hkj : k ≤ j) :
    between B i k ++ between B k j = between B i j := by
  rw [between, between, between, ← List.flatMap_append]
  congr 1
  have h := @List.range'_append_1 (i + 1) (k - i) (j - k)
  rwa [show i + 1 + (k - i) = k + 1 by omega, show k - i + (j - k) = j - i by omega] at h

theorem flatMap_eq_range {α β : Type} (f : α → List β) : ∀ l : List α,
    l.flatMap f = (List.range l.length).flatMap fun k => l[k]?.elim [] f := by
  intro l
  induction l with
  | nil => rfl
  | cons a l ih =>
    rw [List.flatMap_cons, ih, List.length_cons, List.range_succ_eq_map, List.flatMap_cons,
      List.flatMap_map]
    rfl

theorem instrs_graph {m : Module} {g j : Nat} (h : m.count g = j + 1) :
    (m.graph g).instrs = m.code ⟨g, 0⟩ ++ between (fun k => m.code ⟨g, k⟩) 0 j := by
  have hlen : (m.graph g).blocks.length = j + 1 := h
  rw [Graph.instrs, flatMap_eq_range, hlen, List.range_eq_range', List.range'_succ,
    List.flatMap_cons]
  rfl

section Pieces

variable {su : Setup} {fin : State} {g : Nat} {B : Blocks}

theorem Piece.hasBody {n : Node} {c : List Instr} (h : Piece su fin n c) : hasBody n = false := by
  cases h with
  | @expr n slot c hcode =>
    cases n with
    | compound | ifThen | loop => simp [ExprCode] at hcode
    | _ => rfl
  | _ => rfl

theorem pieces_of_hasBody {n : Node} (h : hasBody n = false) : n.pieces = [n] := by
  cases n with
  | compound | ifThen | loop => cases h
  | _ => rfl

/-- The code stands in what is left of block `i`, or in a block behind it, up to block `j`. -/
def Lies (B : Blocks) (rest : List Instr) (i j : Nat) (c : List Instr) : Prop :=
  c <:+: rest ∨ ∃ k, i < k ∧ k ≤ j ∧ c <:+: B k

theorem Lies.behind {rest rest' c : List Instr} {i k l j : Nat} (h : Lies B rest k l c)
    (hrest : rest <:+ B k) (hik : i < k) (hkj : k ≤ j) (hlj : l ≤ j) : Lies B rest' i j c := by
  rcases h with h | ⟨k', hk', hle, h⟩
  · exact .inr ⟨k, hik, hkj, h.trans hrest.isInfix⟩
  · exact .inr ⟨k', by omega, by omega, h⟩

/-- **Pieces in order.**  Tests and jumps apart, the code of statements is that of their pieces,
each in one block. -/
theorem Laid.pieces {ns : List Node} {i j : Nat} {rest rest' : List Instr}
    (h : Laid su fin g B ns i rest j rest') :
    ∃ cs, List.Forall₂ (fun n c => Piece su fin n c ∧ Lies B rest i j c)
        (Node.piecesAll ns) cs ∧
      ∀ p : Instr → Bool, (∀ t, p (jumpTo t) = false) →
        (∀ slot, p ⟨.tst, [.slot slot, .imm 1]⟩ = false) →
          (rest ++ between B i j).filter p = cs.flatten.filter p ++ rest'.filter p := by
  induction h with
  | nil =>
    refine ⟨[], .nil, fun p _ _ => ?_⟩
    rw [between_self, List.append_nil]
    rfl
  | @piece n ns c rest rest' i j hp _ ih =>
    obtain ⟨cs, hcs, hcode⟩ := ih
    refine ⟨c :: cs, ?_, fun p hjump htest => ?_⟩
    · rw [Node.piecesAll, pieces_of_hasBody hp.hasBody]
      refine .cons ⟨hp, .inl (List.prefix_append c rest).isInfix⟩ (hcs.imp fun _ _ h => ⟨h.1, ?_⟩)
      exact h.2.imp_left fun hin => hin.trans (List.suffix_append c rest).isInfix
    · rw [List.append_assoc, List.filter_append, hcode p hjump htest, List.flatten_cons,
        List.filter_append, List.append_assoc]
  | @compound tag stmts ns mid rest' i k j h₁ h₂ ih₁ ih₂ =>
    have hik := h₁.le
    have hkj := h₂.le
    obtain ⟨cs₁, hcs₁, hcode₁⟩ := ih₁
    obtain ⟨cs₂, hcs₂, hcode₂⟩ := ih₂
    have hcut : between B i j = B (i + 1) ++ between B (i + 1) k ++ between B k j := by
      rw [← between_next B (by omega), between_append B (by omega) h₂.le]
    refine ⟨cs₁ ++ cs₂, ?_, fun p hjump htest => ?_⟩
    · rw [Node.piecesAll, Node.pieces]
      refine List.rel_append (hcs₁.imp fun _ _ h => ⟨h.1, ?_⟩) (hcs₂.imp fun _ _ h => ⟨h.1, ?_⟩)
      · exact h.2.behind List.suffix_rfl (Nat.lt_succ_self i) (by omega) hkj
      · exact h.2.behind (h₁.suffix List.suffix_rfl) (by omega) hkj (Nat.le_refl j)
    · rw [List.nil_append, hcut, List.filter_append, hcode₁ p hjump htest, List.append_assoc,
        ← List.filter_append, hcode₂ p hjump htest, List.flatten_append, List.filter_append,
        List.append_assoc]
  | @ifThen tag btag cond stmts ns slot c rest' i k j hcond h₁ h₂ ih₁ ih₂ =>
    have hik := h₁.le
    have hkj := h₂.le
    obtain ⟨cs₁, hcs₁, hcode₁⟩ := ih₁
    obtain ⟨cs₂, hcs₂, hcode₂⟩ := ih₂
    have hcut : between B i j =
        B (i + 1) ++ between B (i + 1) k ++ (B (k + 1) ++ between B (k + 1) j) := by
      rw [← between_next B (by omega), ← between_next B (by omega),
        between_append B (by omega) (by omega)]
    refine ⟨c :: (cs₁ ++ cs₂), ?_, fun p hjump htest => ?_⟩
    · rw [Node.piecesAll, Node.pieces, Node.pieces]
      refine .cons ⟨.expr hcond, .inl (List.prefix_append c _).isInfix⟩
        (List.rel_append (hcs₁.imp fun _ _ h => ⟨h.1, ?_⟩) (hcs₂.imp fun _ _ h => ⟨h.1, ?_⟩))
      · exact h.2.behind List.suffix_rfl (Nat.lt_succ_self i) (by omega) (by omega)
      · exact h.2.behind List.suffix_rfl (by omega) hkj (Nat.le_refl j)
    · rw [hcut, List.filter_append, List.filter_append, List.filter_append,
        hcode₁ p hjump htest, hcode₂ p hjump htest]
      simp [branchTo, hjump, htest]
  | @loop tag btag cond stmts ns slot c rest' i k j hcond hheader h₁ h₂ ih₁ ih₂ =>
    have hik := h₁.le
    have hkj := h₂.le
    obtain ⟨cs₁, hcs₁, hcode₁⟩ := ih₁
    obtain ⟨cs₂, hcs₂, hcode₂⟩ := ih₂
    have hcut : between B i j = B (i + 1) ++
        (B (i + 2) ++ between B (i + 2) k ++ (B (k + 1) ++ between B (k + 1) j)) := by
      rw [← between_next B (show k < j by omega), ← between_next B (show i + 1 < k by omega),
        between_append B (by omega) (by omega), ← between_next B (by omega)]
    have hhead : Lies B [] i j c :=
      .inr ⟨i + 1, Nat.lt_succ_self i, by omega, hheader ▸ (List.prefix_append c _).isInfix⟩
    refine ⟨c :: (cs₁ ++ cs₂), ?_, fun p hjump htest => ?_⟩
    · rw [Node.piecesAll, Node.pieces, Node.pieces]
      refine .cons ⟨.expr hcond, hhead⟩
        (List.rel_append (hcs₁.imp fun _ _ h => ⟨h.1, ?_⟩) (hcs₂.imp fun _ _ h => ⟨h.1, ?_⟩))
      · exact h.2.behind List.suffix_rfl (by omega) (by omega) (by omega)
      · exact h.2.behind List.suffix_rfl (by omega) hkj (Nat.le_refl j)
    · rw [List.nil_append, hcut, hheader, List.filter_append, List.filter_append,
        List.filter_append, hcode₁ p hjump htest, hcode₂ p hjump htest]
      simp [branchTo, hjump, htest]

theorem piecesAll_eq : ∀ ns : List Node, Node.piecesAll ns = ns.flatMap Node.pieces := by
  intro ns
  induction ns with
  | nil => rfl
  | cons n ns ih => rw [Node.piecesAll, ih, List.flatMap_cons]

theorem flatMap_pieces {α : Type} {f : Node → List α}
    (hcompound : ∀ tag ns, f (.compound tag ns) = ns.flatMap f)
    (hifThen : ∀ tag cond body, f (.ifThen tag cond body) = f cond ++ f body)
    (hloop : ∀ tag cond body, f (.loop tag cond body) = f cond ++ f body) :
    ∀ n : Node, n.pieces.flatMap f = f n := by
  intro n
  induction n using Node.parts_induction with
  | _ n ih _ =>
  cases n with
  | compound tag stmts =>
    rw [Node.pieces, piecesAll_eq, hcompound, List.flatMap_assoc]
    exact List.flatMap_congr fun n hn => ih n hn
  | ifThen tag cond body =>
    rw [Node.pieces, List.flatMap_cons, ih body (by simp [Node.parts]), hifThen]
  | loop tag cond body =>
    rw [Node.pieces, List.flatMap_cons, ih body (by simp [Node.parts]), hloop]
  | _ =>
    rw [pieces_of_hasBody rfl]
    exact List.flatMap_singleton ..

end Pieces

section Calls

variable {su : Setup} {fin : State} {g : Nat} {B : Blocks}

theorem calleesAll_eq : ∀ ns : List Node, Node.calleesAll ns = ns.flatMap Node.callees := by
  intro ns
  induction ns with
  | nil => rfl
  | cons n ns ih => rw [Node.calleesAll, ih, List.flatMap_cons]

theorem calleesAll_pieces (ns : List Node) :
    Node.calleesAll ns = (Node.piecesAll ns).flatMap Node.callees := by
  rw [calleesAll_eq, piecesAll_eq, List.flatMap_assoc]
  refine List.flatMap_congr fun n _ => (flatMap_pieces (fun tag ns => ?_) ?_ ?_ n).symm
  · rw [Node.callees, calleesAll_eq]
  · exact fun _ _ _ => by rw [Node.callees]
  · exact fun _ _ _ => by rw [Node.callees]

theorem Laid.calls (hh : FlatHooks su) (hd : fin.Declared) {ns : List Node} {i j : Nat}
    {rest rest' : List Instr} (h : Laid su fin g B ns i rest j rest') :
    ∃ cs, calls (rest ++ between B i j) = cs ++ Flow.calls rest' ∧
      List.Forall₂ (Calls fin.module) (Node.calleesAll ns) cs := by
  obtain ⟨cs, hcs, hcode⟩ := h.pieces
  refine ⟨Flow.calls cs.flatten, hcode _ (fun _ => rfl) fun _ => rfl, ?_⟩
  rw [calleesAll_pieces]
  clear hcode
  generalize Node.piecesAll ns = ps at hcs
  induction hcs with
  | nil => exact .nil
  | cons hp _ ih =>
    rw [List.flatMap_cons, List.flatten_cons, calls_append]
    exact List.rel_append (piece_calls hh hd hp.1) ih

end Calls

/-! ## The form of a block -/

/-- The code of a block of the graph `g`, which has `count` blocks and the code of `body`.
Jumps and tests stand at its end only. -/
inductive Formed (su : Setup) (fin : State) (g count : Nat) (body : Node) : List Instr → Prop
  | fall {code : List Instr} : Straight code → Formed su fin g count body code
  | jump {code : List Instr} {t : Nat} : Straight code → 0 < t → t < count →
      Formed su fin g count body (code ++ [jumpTo ⟨g, t⟩])
  | branch {code c : List Instr} {n cond : Node} {slot : Slot} {yes no : Nat} :
      Straight code → Straight c → n ∈ body.nodes → Tests cond n → ExprCode su fin cond slot c →
      fin.slots.slot? cond.label? = some slot → 0 < yes → yes < count → 0 < no → no < count →
      Formed su fin g count body (code ++ c ++ branchTo slot ⟨g, yes⟩ ⟨g, no⟩)

section Formed

variable {su : Setup} {fin : State} {g count : Nat} {body : Node} {code c : List Instr}

theorem Formed.append (hc : Straight c) (h : Formed su fin g count body code) :
    Formed su fin g count body (c ++ code) := by
  cases h with
  | fall hs => exact .fall (hc.append hs)
  | jump hs hpos hlt =>
    rw [← List.append_assoc]
    exact .jump (hc.append hs) hpos hlt
  | branch hs hcond hn htests hexpr hslot hyes hyes' hno hno' =>
    rw [← List.append_assoc, ← List.append_assoc]
    exact .branch (hc.append hs) hcond hn htests hexpr hslot hyes hyes' hno hno'

theorem Formed.target (h : Formed su fin g count body code) {i : Instr} (hi : i ∈ code)
    (hop : i.op = .jump) : ∃ t, i.target? = some ⟨g, t⟩ ∧ 0 < t ∧ t < count := by
  have hstraight : ∀ {d : List Instr}, Straight d → i ∉ d := by
    intro d hd hmem
    have hno := hd i hmem
    simp [Instr.isStraight, hop] at hno
  cases h with
  | fall hs => exact absurd hi (hstraight hs)
  | @jump d t hs hpos hlt =>
    rcases List.mem_append.mp hi with hi | hi
    · exact absurd hi (hstraight hs)
    · rw [List.mem_singleton.mp hi]
      exact ⟨t, rfl, hpos, hlt⟩
  | @branch d c n cond slot yes no hs hcond _ _ _ _ hyes hyes' hno hno' =>
    rcases List.mem_append.mp hi with hi | hi
    · exact absurd hi (hstraight (hs.append hcond))
    · simp only [branchTo, List.mem_cons, List.not_mem_nil, or_false] at hi
      rcases hi with rfl | rfl | rfl
      · cases hop
      · exact ⟨yes, rfl, hyes, hyes'⟩
      · exact ⟨no, rfl, hno, hno'⟩

theorem label?_of_exprCode {n : Node} {slot : Slot} (h : ExprCode su fin n slot code) :
    fin.slots.slot? n.label? = some slot := by
  obtain ⟨tag, htag, hslot⟩ := slot?_of_exprCode h
  rw [Node.label?, htag]
  exact hslot

theorem FunctionCode.formed (hh : PlainHooks su) {B : Blocks} {params : List Node}
    (h : FunctionCode su fin g B count params body) {k : Nat} (hk : k < count) :
    Formed su fin g count body (B k) := by
  obtain ⟨tag, stmts, slots, j, rfl, -, hparams, hat, rfl⟩ := h
  obtain ⟨hfirst, hblocks⟩ :=
    Laid.blocks (P := Formed su fin g (j + 1) (.compound tag stmts))
      (Q := fun m => m ∈ (Node.compound tag stmts).nodes) (N := j) (.fall straight_nil)
      (fun t hpos hle => .jump straight_nil hpos (by omega))
      (fun n cond slot c yes no htests hn hexpr hyes hyes' hno hno' =>
        .branch straight_nil (piece_straight (.expr hexpr) hh.straight)
          (hn n (Node.mem_nodes_self (by cases htests <;> rfl))) htests hexpr
          (label?_of_exprCode hexpr) hyes (by omega) hno (by omega))
      (fun n c rest _ hp hrest => hrest.append (piece_straight hp hh.straight))
      (laid_of_stmtsAt hat) (Nat.le_refl j)
      (fun n hn m hm => Node.mem_nodes_of_part hn hm) (.fall straight_nil)
  rcases Nat.eq_zero_or_pos k with rfl | hpos
  · exact .fall (hparams.each fun out ho => hh.straight _ out ho)
  · exact forall_next hfirst hblocks k hpos (by omega)

end Formed

/-! ## Loops -/

/-- The node stands in a list of statements in or below `ns`, in front of `behind`. -/
def StandsBefore (ns : List Node) (n : Node) (behind : List Node) : Prop :=
  (∃ before, ns = before ++ n :: behind) ∨
    ∃ m ∈ ns, ∃ tag before, .compound tag (before ++ n :: behind) ∈ m.nodes

/-- The blocks of a loop, from its header to the last block of its body.  The statements
`behind` the loop begin in its exit. -/
structure LoopForm (su : Setup) (fin : State) (g : Nat) (B : Blocks) (cond : Node)
    (stmts behind : List Node) (header last : Nat) : Prop where
  test : ∃ slot c, ExprCode su fin cond slot c ∧
    B header = c ++ branchTo slot ⟨g, header + 1⟩ ⟨g, last + 1⟩
  body : Laid su fin g B stmts (header + 1) (B (header + 1)) last [jumpTo ⟨g, header⟩]
  back : [jumpTo ⟨g, header⟩] <:+ B last
  exit : ∃ j rest, Laid su fin g B behind (last + 1) (B (last + 1)) j rest

/-- The loop among or below the statements `ns` has its blocks behind block `i`, up to
block `j`. -/
def Looped (su : Setup) (fin : State) (g : Nat) (B : Blocks) (ns : List Node) (i j : Nat)
    (tag : Tag) (cond body : Node) : Prop :=
  ∃ btag stmts behind header last, body = .compound btag stmts ∧
    StandsBefore ns (.loop tag cond body) behind ∧ i < header ∧ last < j ∧
    LoopForm su fin g B cond stmts behind header last

section Loops

variable {su : Setup} {fin : State} {g : Nat} {B : Blocks} {ns : List Node} {i k j : Nat}
  {tag : Tag} {cond body : Node}

theorem Looped.tail {n : Node} (h : Looped su fin g B ns k j tag cond body) (hik : i ≤ k) :
    Looped su fin g B (n :: ns) i j tag cond body := by
  obtain ⟨btag, stmts, behind, header, last, hbody, hstands, hlt, hlast, hform⟩ := h
  refine ⟨btag, stmts, behind, header, last, hbody, ?_, by omega, hlast, hform⟩
  rcases hstands with ⟨before, rfl⟩ | ⟨m, hm, hin⟩
  · exact .inl ⟨n :: before, rfl⟩
  · exact .inr ⟨m, List.mem_cons_of_mem n hm, hin⟩

theorem Looped.inside {n : Node} {inner : List Node} {l : Nat}
    (h : Looped su fin g B inner l k tag cond body) (ctag : Tag) (hil : i ≤ l) (hkj : k ≤ j)
    (hin : ∀ m ∈ (Node.compound ctag inner).nodes, m ∈ n.nodes) :
    Looped su fin g B (n :: ns) i j tag cond body := by
  obtain ⟨btag, stmts, behind, header, last, hbody, hstands, hlt, hlast, hform⟩ := h
  refine ⟨btag, stmts, behind, header, last, hbody, .inr ⟨n, List.mem_cons_self, ?_⟩, by omega,
    by omega, hform⟩
  rcases hstands with ⟨before, rfl⟩ | ⟨m, hm, ptag, before, hmem⟩
  · exact ⟨ctag, before, hin _ (Node.mem_nodes_self rfl)⟩
  · exact ⟨ptag, before, hin _ (Node.mem_nodes_of_part hm hmem)⟩

theorem mem_nodes_cases {n m : Node} (h : m ∈ n.nodes) : m = n ∨ ∃ p ∈ n.parts, m ∈ p.nodes := by
  rw [Node.nodes_eq, List.mem_append, List.mem_flatMap] at h
  rcases h with h | h
  · split at h
    · cases h
    · exact .inl (List.mem_singleton.mp h)
  · exact .inr h

theorem isExpr_of_mem_nodes : ∀ n : Node, n.IsExpr → ∀ m ∈ n.nodes, m.IsExpr := by
  intro n
  induction n using Node.parts_induction with
  | _ n ih _ =>
  intro hn m hm
  rcases mem_nodes_cases hm with rfl | ⟨p, hp, hm⟩
  · exact hn
  · refine ih p hp ?_ m hm
    cases hn with
    | number | boolean | string | ident => cases hp
    | binary _ hl hr =>
      simp only [Node.parts, List.mem_cons, List.not_mem_nil, or_false] at hp
      rcases hp with rfl | rfl
      · exact hl
      · exact hr
    | call hargs => exact hargs p hp

theorem loop_notMem_expr {n : Node} {slot : Slot} {c : List Instr}
    (h : ExprCode su fin n slot c) : .loop tag cond body ∉ n.nodes := by
  intro hm
  cases isExpr_of_mem_nodes n (isExpr_of_exprCode n slot c h) _ hm

theorem loop_notMem_piece {n : Node} {c : List Instr} (h : Piece su fin n c) :
    .loop tag cond body ∉ n.nodes := by
  intro hm
  cases h with
  | expr hcode => exact loop_notMem_expr hcode hm
  | noVar | leave => simp [Node.nodes, Node.walk] at hm
  | scan => simp [Node.nodes, Node.walk] at hm
  | var hcode | ret hcode | print hcode =>
    rcases mem_nodes_cases hm with he | ⟨p, hp, hm⟩
    · cases he
    · rw [List.mem_singleton.mp hp] at hm
      exact loop_notMem_expr hcode hm

/-- A loop in a statement with a condition is the statement itself or stands in its body. -/
theorem loop_mem_body {n test : Node} {btag : Tag} {stmts : List Node} {slot : Slot}
    {c : List Instr} (hparts : n.parts = [test, .compound btag stmts])
    (htest : ExprCode su fin test slot c) (hm : .loop tag cond body ∈ n.nodes) :
    .loop tag cond body = n ∨ ∃ p ∈ stmts, .loop tag cond body ∈ p.nodes := by
  rcases mem_nodes_cases hm with he | ⟨p, hp, hm⟩
  · exact .inl he
  · rw [hparts, List.mem_cons, List.mem_singleton] at hp
    rcases hp with rfl | rfl
    · exact absurd hm (loop_notMem_expr htest)
    · rcases mem_nodes_cases hm with he | hin
      · cases he
      · exact .inr hin

/-- **Every loop has its form.** -/
theorem Laid.loops {rest rest' : List Instr} (h : Laid su fin g B ns i rest j rest') :
    ∀ n ∈ ns, .loop tag cond body ∈ n.nodes → Looped su fin g B ns i j tag cond body := by
  induction h with
  | nil => intro n hn; cases hn
  | piece hp _ ih =>
    intro n hn hm
    rcases List.mem_cons.mp hn with rfl | hn
    · exact absurd hm (loop_notMem_piece hp)
    · exact (ih n hn hm).tail (Nat.le_refl _)
  | @compound ctag stmts ns mid rest' i k j h₁ h₂ ih₁ ih₂ =>
    have hik := h₁.le
    intro n hn hm
    rcases List.mem_cons.mp hn with rfl | hn
    · rcases mem_nodes_cases hm with he | ⟨p, hp, hm⟩
      · cases he
      · exact (ih₁ p hp hm).inside ctag (Nat.le_succ i) h₂.le fun _ h => h
    · exact (ih₂ n hn hm).tail (by omega)
  | @ifThen ctag btag test stmts ns slot c rest' i k j htest h₁ h₂ ih₁ ih₂ =>
    have hik := h₁.le
    have hkj := h₂.le
    intro n hn hm
    rcases List.mem_cons.mp hn with rfl | hn
    · rcases loop_mem_body rfl htest hm with he | ⟨p, hp, hm⟩
      · cases he
      · exact (ih₁ p hp hm).inside btag (Nat.le_succ i) (by omega) fun _ h =>
          Node.mem_nodes_of_part (by simp [Node.parts]) h
    · exact (ih₂ n hn hm).tail (by omega)
  | @loop ctag btag test stmts ns slot c rest' i k j htest hheader h₁ h₂ ih₁ ih₂ =>
    have hik := h₁.le
    have hkj := h₂.le
    intro n hn hm
    rcases List.mem_cons.mp hn with rfl | hn
    · rcases loop_mem_body rfl htest hm with he | ⟨p, hp, hm⟩
      · cases he
        exact ⟨btag, stmts, ns, i + 1, k, rfl, .inl ⟨[], rfl⟩, Nat.lt_succ_self i, by omega,
          ⟨slot, c, htest, hheader⟩, h₁, h₁.suffix List.suffix_rfl, j, rest', h₂⟩
      · exact (ih₁ p hp hm).inside btag (by omega) (by omega) fun _ h =>
          Node.mem_nodes_of_part (by simp [Node.parts]) h
    · exact (ih₂ n hn hm).tail (by omega)

end Loops

/-! ## Modules -/

/-- The graph `g` is formed as that of a function with this body. -/
structure GraphFormed (su : Setup) (fin : State) (g : Nat) (body : Node) : Prop where
  blocks : ∀ k b, fin.module.block? ⟨g, k⟩ = some b →
    Formed su fin g (fin.module.count g) body b.instrs
  targets : ∀ k b, fin.module.block? ⟨g, k⟩ = some b → ∀ i ∈ b.instrs, i.op = .jump →
    ∃ t, i.target? = some ⟨g, t⟩ ∧ 0 < t ∧ t < fin.module.count g
  calls : List.Forall₂ (Calls fin.module) body.callees (calls (fin.module.graph g).instrs)
  loops : ∀ tag cond loopBody, .loop tag cond loopBody ∈ body.nodes →
    ∃ btag stmts ctag before behind header last, loopBody = .compound btag stmts ∧
      .compound ctag (before ++ .loop tag cond loopBody :: behind) ∈ body.nodes ∧
      0 < header ∧ last + 1 < fin.module.count g ∧
      LoopForm su fin g (fun k => fin.module.code ⟨g, k⟩) cond stmts behind header last

section Module

variable {su : Setup} {fin : State}

theorem FunctionCode.graphFormed (hh : FlatHooks su) (hd : fin.Declared) {g : Nat}
    {params : List Node} {body : Node}
    (h : FunctionCode su fin g (fun k => fin.module.code ⟨g, k⟩) (fin.module.count g) params
      body) : GraphFormed su fin g body := by
  have hformed : ∀ k b, fin.module.block? ⟨g, k⟩ = some b →
      Formed su fin g (fin.module.count g) body b.instrs := by
    intro k b hb
    rw [← code_of_block? hb]
    exact h.formed hh.plain (lt_count_of_block? hb)
  obtain ⟨tag, stmts, slots, j, rfl, -, hparams, hat, hcount⟩ := h
  have hlaid := laid_of_stmtsAt hat
  have hj := hlaid.le
  constructor
  case blocks => exact hformed
  case targets => exact fun k b hb i hi hop => (hformed k b hb).target hi hop
  case calls =>
    -- The entry takes over the parameters, and the body stands in the other blocks.
    obtain ⟨cs, hcs, hcalls⟩ := hlaid.calls hh hd
    have hentry : Flow.calls (fin.module.code ⟨g, 0⟩) = [] :=
      calls_eq_nil (hparams.each fun _ => hh.ne_call)
    rw [calls_nil, List.append_nil] at hcs
    rw [Node.callees, instrs_graph hcount, between_next _ (by omega), calls_append, hentry,
      List.nil_append, hcs]
    exact hcalls
  case loops =>
    intro ltag cond loopBody hm
    obtain ⟨p, hp, hm⟩ : ∃ p ∈ stmts, .loop ltag cond loopBody ∈ p.nodes := by
      rcases mem_nodes_cases hm with he | hin
      · cases he
      · exact hin
    obtain ⟨btag, inner, behind, header, last, hbody, hstands, hlt, hlast, hform⟩ :=
      hlaid.loops p hp hm
    obtain ⟨ctag, before, hin⟩ : ∃ ctag before,
        .compound ctag (before ++ .loop ltag cond loopBody :: behind) ∈
          (Node.compound tag stmts).nodes := by
      rcases hstands with ⟨before, rfl⟩ | ⟨m, hm, ctag, before, hmem⟩
      · exact ⟨tag, before, Node.mem_nodes_self rfl⟩
      · exact ⟨ctag, before, Node.mem_nodes_of_part hm hmem⟩
    exact ⟨btag, inner, ctag, before, behind, header, last, hbody, hin, by omega, by omega, hform⟩

/-- The global sequence has no part in control, and calls what first values call. -/
theorem globalsCode_formed (hh : FlatHooks su) (hd : fin.Declared) :
    ∀ (ds : List Node) (code : List Instr), GlobalsCode su fin ds code →
      (∀ i ∈ code, i.isPlain = true) ∧
        List.Forall₂ (Calls fin.module) (Node.initCallees ds) (calls code) := by
  intro ds
  induction ds with
  | nil =>
    intro code h
    rw [GlobalsCode] at h
    rw [h]
    exact ⟨by simp, .nil⟩
  | cons d ds ih =>
    intro code h
    cases d with
    | var tag name type init =>
      by_cases hinit : init = .absent
      · subst hinit
        rw [GlobalsCode] at h
        exact ih code h
      · obtain ⟨source, slot, c, rest, hcode, -, hrest, rfl⟩ := (globalsCode_var hinit).mp h
        obtain ⟨hplain, hcalls⟩ := ih rest hrest
        have hc : ∀ i ∈ c, i.isPlain = true := by
          refine exprCode_ops (P := fun op => (op ≠ .ret && op ≠ .jump && op ≠ .tst) = true)
            (by decide) ?_ _ _ _ hcode
          exact fun request out _ ho => hh.plain request out ho
        refine ⟨?_, ?_⟩
        · rw [List.forall_mem_append, List.forall_mem_cons]
          exact ⟨hc, rfl, hplain⟩
        · rw [Node.initCallees, calls_append]
          exact List.rel_append (exprCode_calls hh hd _ _ _ hcode) hcalls
    | function tag name params result body =>
      rw [GlobalsCode] at h
      obtain ⟨c, rest, hcopies, -, hrest, rfl⟩ := h
      obtain ⟨hplain, hcalls⟩ := ih rest hrest
      have hnone : Flow.calls c = [] := calls_eq_nil fun i hi => by
        obtain ⟨slot, source, rfl⟩ := hcopies i hi
        exact (by decide : Machine.Opcode.mov ≠ .call)
      refine ⟨List.forall_mem_append.mpr ⟨fun i hi => ?_, hplain⟩, ?_⟩
      · obtain ⟨slot, source, rfl⟩ := hcopies i hi
        rfl
      · rw [calls_append, hnone]
        exact hcalls
    | _ =>
      simp only [GlobalsCode] at h
      exact ih code h

/-- **Every module that selection makes is well formed.** -/
theorem select_wellFormed {tag : Tag} {decls : List Node} {u : Unit} (hh : FlatHooks su)
    (hu : (Node.program tag decls).Unshared)
    (hsel : select su (.program tag decls) = .ok u fin) :
    (∀ g, g < fin.module.graphs.length → ∃ ftag name params result body,
      .function ftag name params result body ∈ decls ∧ ⟨name, g⟩ ∈ fin.module.functions ∧
      GraphFormed su fin g body) ∧
    (∀ i ∈ fin.module.globals, i.isPlain = true) ∧
    List.Forall₂ (Calls fin.module) (Node.initCallees decls) (calls fin.module.globals) := by
  have hlow := select_laid hu hsel
  refine ⟨fun g hg => ?_, globalsCode_formed hh hlow.ready _ _ (hlow.globals fin (Grows.refl fin))⟩
  obtain ⟨ftag, name, params, result, body, hd, hmem, hcode, -⟩ := hlow.graph hg
  exact ⟨ftag, name, params, result, body, hd, hmem, hcode.graphFormed hh hlow.ready⟩

end Module

theorem flatHooks_stackSetup (t : Table) (b : Bindings) : FlatHooks (stackSetup t b) := by
  intro request out ho i hi
  refine ⟨plainHooks_stackSetup t b request out ho i hi, ?_⟩
  cases simple_of_stack rfl ho i hi <;> simp

/-- A variable whose first value is that of a call, and a loop over nested calls. -/
def callingDecls : List Node :=
  [.function (.nowhere 1 .functionDecl) "next" [.param (.nowhere 2 .paramDecl) "v" .int] .int
    (.compound (.nowhere 3 .compoundStmt)
      [.ret (.nowhere 4 .returnStmt) (.ident (.nowhere 5 .identExpr) "v")]),
   .var (.nowhere 6 .varDecl) "g" .int
    (.call (.nowhere 7 .callExpr) "next" [.number (.nowhere 8 .numberExpr) 1]),
   .function (.nowhere 9 .functionDecl) "f" [] .void
    (.compound (.nowhere 10 .compoundStmt)
      [.loop (.nowhere 11 .whileStmt)
        (.call (.nowhere 12 .callExpr) "next"
          [.call (.nowhere 13 .callExpr) "next" [.ident (.nowhere 14 .identExpr) "g"]])
        (.compound (.nowhere 15 .compoundStmt)
          [.ifThen (.nowhere 16 .ifStmt) (.boolean (.nowhere 17 .booleanExpr) true)
            (.compound (.nowhere 18 .compoundStmt)
              [.call (.nowhere 19 .callExpr) "f" []])])])]

theorem callingDecls_wellFormed : ∃ t b fin,
    resolveProgram (.program (.nowhere 0 .program) callingDecls) {} = .ok t b ∧
      select (stackSetup t b) (.program (.nowhere 0 .program) callingDecls) = .ok () fin ∧
      (∀ g, g < fin.module.graphs.length → ∃ ftag name params result body,
        .function ftag name params result body ∈ callingDecls ∧
        ⟨name, g⟩ ∈ fin.module.functions ∧ GraphFormed (stackSetup t b) fin g body) ∧
      (∀ i ∈ fin.module.globals, i.isPlain = true) ∧
      List.Forall₂ (Calls fin.module) ["next"] (calls fin.module.globals) := by
  have hlowers : lowers stackSetup (.program (.nowhere 0 .program) callingDecls) = true := by
    decide +kernel
  obtain ⟨t, b, fin, hres, hsel⟩ := exists_of_lowers hlowers
  have hu : (Node.program (.nowhere 0 .program) callingDecls).Unshared := by decide
  exact ⟨t, b, fin, hres, hsel, select_wellFormed (flatHooks_stackSetup t b) hu hsel⟩

end Isel.Select
