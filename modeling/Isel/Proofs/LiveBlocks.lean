import Isel.Proofs.Reachable
import Isel.Proofs.Successors

/-!
# No block is dead

Control comes to every block of a function in which returns come last: `select_reachable`.

The argument follows the layout of the body.  Statements begin where control comes (`Open`), and
control comes behind them unless the last one closes the list.  A compound and the header of a
loop are entered from the block in front of them, the branches of a test from the block that has
the test, and so is what stands behind an `if` or a loop, whatever their bodies do.
-/

namespace Isel.Flow

open Isel.Select (jumpTo)

/-- Control goes from the code, which is that of block `k`, to block `t` of the graph `g`. -/
inductive Passes (g k : Nat) (code : List Instr) : Nat → Prop
  | fall : endsTerminated code = false → Passes g k code (k + 1)
  | jump {t : Nat} : jumpTo ⟨g, t⟩ ∈ code → Passes g k code t

theorem Passes.leads {m : Module} {g k t : Nat} {b : Block} (hb : m.block? ⟨g, k⟩ = some b)
    (h : Passes g k (m.code ⟨g, k⟩) t) : Leads ⟨g, k⟩ b ⟨g, t⟩ := by
  rw [code_of_block? hb] at h
  cases h with
  | fall hopen => exact .fall (Block.isTerminated_eq_false.mp hopen)
  | jump hmem =>
    have hargs : (jumpTo ⟨g, t⟩).args = [] ++ .block (some ⟨g, t⟩) :: [] := rfl
    exact .target hmem (.inl rfl) hargs (by simp)

theorem endsTerminated_append {c d : List Instr} (hc : endsTerminated c = false)
    (hd : ∀ i ∈ d, i.isPlain = true) : endsTerminated (c ++ d) = false := by
  rcases List.eq_nil_or_concat' d with rfl | ⟨init, i, rfl⟩
  · rwa [List.append_nil]
  · have hplain := hd i (by simp)
    rw [← List.append_assoc, endsTerminated_concat, Instr.isTerminator,
      Machine.Opcode.isTerminator]
    simp only [Instr.isPlain, Bool.and_eq_true, decide_eq_true_eq] at hplain
    simp [hplain.1.1, hplain.1.2]

end Isel.Flow

namespace Isel.Select

open Isel.Flow Isel.Syntax Isel.Scope Isel.Proofs

/-- Control that enters block `i` comes to where `rest` is left of it. -/
def Open (B : Blocks) (i : Nat) (rest : List Instr) : Prop :=
  ∃ before, B i = before ++ rest ∧ endsTerminated before = false

section Open

variable {su : Setup} {fin : State} {g : Nat} {B : Blocks} {i : Nat} {c rest : List Instr}

theorem Open.whole (B : Blocks) (i : Nat) : Open B i (B i) := ⟨[], rfl, rfl⟩

theorem Open.behind (h : Open B i (c ++ rest)) (hc : ∀ i ∈ c, i.isPlain = true) :
    Open B i rest := by
  obtain ⟨before, hcode, hopen⟩ := h
  refine ⟨before ++ c, ?_, endsTerminated_append hopen hc⟩
  rw [hcode, List.append_assoc]

theorem Open.fall (h : Open B i []) : Passes g i (B i) (i + 1) := by
  obtain ⟨before, hcode, hopen⟩ := h
  rw [hcode, List.append_nil]
  exact .fall hopen

theorem piece_plain (hh : PlainHooks su) {n : Node} (h : Piece su fin n c)
    (hn : n.closes = false) : ∀ i ∈ c, i.isPlain = true := by
  refine piece_ops (P := fun op => (op ≠ .ret && op ≠ .jump && op ≠ .tst) = true) (by decide)
    (fun request out ho => hh request out ho) h ?_
  rintro ⟨tag, expr, rfl⟩
  cases hn

end Open

section Reached

variable {su : Setup} {fin : State} {g N : Nat} {B : Blocks} {R : Nat → Prop}

/-- **Control comes to all blocks of statements** that begin where it comes, and behind them
unless they close with a return. -/
theorem Laid.reached (hh : PlainHooks su)
    (hnext : ∀ k t, R k → Passes g k (B k) t → t ≤ N → R t) {ns : List Node} {i j : Nat}
    {rest rest' : List Instr} (h : Laid su fin g B ns i rest j rest') (hj : j ≤ N)
    (hinto : ReturnsInto ns rest') (hopen : Open B i rest) (hi : R i) :
    (∀ k, i < k → k ≤ j → R k) ∧ (Node.lastCloses false ns = false → Open B j rest') := by
  induction h with
  | nil => exact ⟨fun k hik hki => absurd hik (by omega), fun _ => hopen⟩
  | @piece n ns c rest rest' i j hp hns ih =>
    cases hn : n.closes with
    | true =>
      rw [hinto.lastCloses hn]
      obtain ⟨rfl, -⟩ := hinto.last hn
      cases hns
      exact ⟨fun k hik hki => absurd hik (by omega), fun hlast => (by cases hlast)⟩
    | false =>
      rw [Node.lastCloses, hn]
      exact ih hj hinto.tail (hopen.behind (piece_plain hh hp hn)) hi
  | @compound tag stmts ns mid rest' i k j h₁ h₂ ih₁ ih₂ =>
    have hik := h₁.le
    have hkj := h₂.le
    have hfirst : R (i + 1) := hnext i (i + 1) hi hopen.fall (by omega)
    obtain ⟨hbody, hbehind⟩ := ih₁ (by omega)
      (returnsInto_body hinto.head (h₂.retAtEnd hh hinto.tail).1 (hinto.atEnd h₂))
      (Open.whole B (i + 1)) hfirst
    have hall := forall_next hfirst hbody
    cases hn : (Node.compound tag stmts).closes with
    | true =>
      rw [hinto.lastCloses hn]
      obtain ⟨rfl, -⟩ := hinto.last hn
      cases h₂
      exact ⟨hall, fun hlast => (by cases hlast)⟩
    | false =>
      rw [Node.lastCloses, hn]
      obtain ⟨hrest, hend⟩ := ih₂ hj hinto.tail (hbehind hn) (hall k (by omega) (by omega))
      exact ⟨forall_between hall hrest, hend⟩
  | @ifThen tag btag cond stmts ns slot c rest' i k j hcond h₁ h₂ ih₁ ih₂ =>
    have hik := h₁.le
    have hkj := h₂.le
    have hbody : (Node.compound btag stmts).ReturnsLast := hinto.head.part (by simp [Node.parts])
    obtain ⟨before, hcode, -⟩ := hopen
    have hyes : R (i + 1) := hnext i (i + 1) hi (.jump (by simp [hcode, branchTo])) (by omega)
    have hno : R (k + 1) := hnext i (k + 1) hi (.jump (by simp [hcode, branchTo])) (by omega)
    obtain ⟨hinner, -⟩ := ih₁ (by omega) (returnsInto_jump hbody _) (Open.whole B (i + 1)) hyes
    obtain ⟨hrest, hend⟩ := ih₂ hj hinto.tail (Open.whole B (k + 1)) hno
    exact ⟨forall_between (forall_next hyes hinner) (forall_next hno hrest), hend⟩
  | @loop tag btag cond stmts ns slot c rest' i k j hcond hheader h₁ h₂ ih₁ ih₂ =>
    have hik := h₁.le
    have hkj := h₂.le
    have hbody : (Node.compound btag stmts).ReturnsLast := hinto.head.part (by simp [Node.parts])
    have hhead : R (i + 1) := hnext i (i + 1) hi hopen.fall (by omega)
    have hyes : R (i + 2) :=
      hnext (i + 1) (i + 2) hhead (.jump (by simp [hheader, branchTo])) (by omega)
    have hno : R (k + 1) :=
      hnext (i + 1) (k + 1) hhead (.jump (by simp [hheader, branchTo])) (by omega)
    obtain ⟨hinner, -⟩ := ih₁ (by omega) (returnsInto_jump hbody _) (Open.whole B (i + 2)) hyes
    obtain ⟨hrest, hend⟩ := ih₂ hj hinto.tail (Open.whole B (k + 1)) hno
    exact ⟨forall_next hhead (forall_between (forall_next hyes hinner) (forall_next hno hrest)),
      hend⟩

theorem FunctionCode.reached (hh : PlainHooks su) {n : Nat} {params : List Node} {body : Node}
    (h : FunctionCode su fin g B n params body) (hlast : body.ReturnsLast)
    (hnext : ∀ k t, R k → Passes g k (B k) t → t < n → R t) (hentry : R 0) :
    ∀ k, k < n → R k := by
  obtain ⟨tag, stmts, slots, j, rfl, -, hparams, hat, rfl⟩ := h
  have hlaid := laid_of_stmtsAt hat
  have hj := hlaid.le
  have hplain : ∀ i ∈ B 0, i.isPlain = true := hparams.each fun out ho => hh _ out ho
  have hfall : Open B 0 [] :=
    ⟨B 0, (List.append_nil _).symm, endsTerminated_append endsTerminated_nil hplain⟩
  have hfirst : R 1 := hnext 0 1 hentry hfall.fall (by omega)
  obtain ⟨hbody, -⟩ := hlaid.reached (N := j) hh
    (fun k t hk hpass ht => hnext k t hk hpass (by omega)) (Nat.le_refl j)
    (returnsInto_body hlast trivial fun _ => .inl rfl) (Open.whole B 1) hfirst
  intro k hk
  rcases Nat.eq_zero_or_pos k with rfl | hpos
  · exact hentry
  · exact forall_next hfirst hbody k hpos (by omega)

end Reached

/-! ## Modules -/

section Module

variable {su : Setup} {root : Node} {u : Unit} {fin : State}

/-- **Every block of every function is reachable**, if nothing stands behind a return. -/
theorem select_reachable (hh : PlainHooks su) (hu : root.Unshared) (hlast : root.ReturnsLast)
    (hsel : select su root = .ok u fin) {f : Flow.Function} (hf : f ∈ fin.module.functions) :
    fin.module.reachable f.graph = List.range (fin.module.graph f.graph).blocks.length ∧
      (fin.module.reachable f.graph).length = (fin.module.graph f.graph).blocks.length := by
  obtain ⟨tag, decls, rfl⟩ := select_program hsel
  have hlow := select_laid hu hsel
  obtain ⟨ftag, name, params, result, body, hd, -, hcode, -⟩ := hlow.graph (hlow.there f hf)
  have hbody : body.ReturnsLast := (hlast.part hd).part (by simp [Node.parts])
  have hall : ∀ k, k < fin.module.count f.graph → k ∈ fin.module.reachable f.graph := by
    refine hcode.reached hh hbody (fun k t hk hpass ht => ?_)
      (Module.zero_mem_reachable (hlow.rooted f hf))
    obtain ⟨b, hb⟩ := Module.exists_block? (Module.mem_reachable.mp hk).1
    exact Module.mem_reachable_of_leads hk hb (hpass.leads hb) ht
  have hrange := Module.reachable_eq_range hall
  exact ⟨hrange, by rw [hrange, List.length_range]; rfl⟩

end Module

theorem leavingDecls_reachable : ∃ t b fin f,
    resolveProgram (.program (.nowhere 0 .program) leavingDecls) {} = .ok t b ∧
      select (stackSetup t b) (.program (.nowhere 0 .program) leavingDecls) = .ok () fin ∧
      f ∈ fin.module.functions ∧ (fin.module.graph f.graph).blocks.length = 8 ∧
      fin.module.reachable f.graph = List.range (fin.module.graph f.graph).blocks.length ∧
      (fin.module.reachable f.graph).length = (fin.module.graph f.graph).blocks.length := by
  have hlowers : (lowered? stackSetup (.program (.nowhere 0 .program) leavingDecls)).any
      (fun s => s.module.functions.any fun f => (s.module.graph f.graph).blocks.length == 8) =
        true := by decide +kernel
  obtain ⟨fin, hfin, hany⟩ := (Option.any_eq_true _ _).mp hlowers
  obtain ⟨f, hf, hcount⟩ := List.any_eq_true.mp hany
  obtain ⟨t, b, hres, hsel⟩ := exists_of_lowered? hfin
  have hu : (Node.program (.nowhere 0 .program) leavingDecls).Unshared := by decide
  exact ⟨t, b, fin, f, hres, hsel, hf, beq_iff_eq.mp hcount,
    select_reachable (plainHooks_stackSetup t b) hu (by decide) hsel hf⟩

end Isel.Select
