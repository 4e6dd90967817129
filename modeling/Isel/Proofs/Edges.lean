import Isel.Proofs.Writing

/-!
# Recorded edges

`Module.edges` reads off the successor list of a block.  Only two steps of a selection
record edges: a block that is opened, for control that falls through to it
(`openBlock_edges`), and a jump (`jump_edges`).  Both look at the last instruction of the
block that control leaves, and at nothing before it.

All other steps only write, and record nothing (`Writing.edges`).
-/

namespace Isel.Flow

def endsTerminated (code : List Instr) : Bool := code.getLast?.any Instr.isTerminator

def endsInRet (code : List Instr) : Bool := code.getLast?.any fun i => i.op == .ret

@[simp] theorem endsTerminated_nil : endsTerminated [] = false := rfl

@[simp] theorem endsInRet_nil : endsInRet [] = false := rfl

theorem endsTerminated_of_endsInRet {code : List Instr} (h : endsInRet code = true) :
    endsTerminated code = true := by
  rw [endsInRet] at h
  rw [endsTerminated]
  cases hlast : code.getLast? with
  | none => simp [hlast] at h
  | some i =>
    rw [hlast, Option.any_some, beq_iff_eq] at h
    rw [Option.any_some, Instr.isTerminator, h]
    rfl

@[simp] theorem endsTerminated_concat (code : List Instr) (i : Instr) :
    endsTerminated (code ++ [i]) = i.isTerminator := by simp [endsTerminated]

@[simp] theorem endsInRet_singleton (i : Instr) : endsInRet [i] = (i.op == .ret) := rfl

@[simp] theorem endsInRet_cons_cons (i j : Instr) (code : List Instr) :
    endsInRet (i :: j :: code) = endsInRet (j :: code) := by
  rw [endsInRet, endsInRet, List.getLast?_cons_cons]

@[simp] theorem endsInRet_concat (code : List Instr) (i : Instr) :
    endsInRet (code ++ [i]) = (i.op == .ret) := by simp [endsInRet]

namespace Module

/-! ## The edges of a block -/

/-- The recorded edges of a block; a block that is not there has none. -/
def edges (m : Module) (r : BlockRef) : List (Option BlockRef) :=
  (m.block? r).elim [] Block.successors

theorem edges_of_block? {m : Module} {r : BlockRef} {b : Block} (h : m.block? r = some b) :
    m.edges r = b.successors := by
  rw [edges, h]
  rfl

theorem edges_of_count_le {m : Module} {g k : Nat} (h : m.count g ≤ k) : m.edges ⟨g, k⟩ = [] := by
  rw [edges, block?, List.getElem?_eq_none h]
  rfl

theorem edges_of_graphs {m m' : Module} (h : m'.graphs = m.graphs) (r : BlockRef) :
    m'.edges r = m.edges r := by
  simp only [edges, block?, graph, h]

@[simp] theorem edges_emit (m : Module) (r : BlockRef) (i : Instr) (q : BlockRef) :
    (m.emit r i).edges q = m.edges q := by
  rw [edges, emit, block?_modifyBlock, edges]
  by_cases hq : q = r
  · subst hq
    rw [if_pos rfl]
    cases m.block? q <;> rfl
  · rw [if_neg hq]

theorem edges_connect {m : Module} {r : BlockRef} (h : r.index < m.count r.graph)
    (t : Option BlockRef) (q : BlockRef) :
    (m.connect r t).edges q = if q = r then m.edges q ++ [t] else m.edges q := by
  rw [edges, connect, block?_modifyBlock]
  by_cases hq : q = r
  · subst hq
    have hblock : m.block? q = some ((m.graph q.graph).blocks[q.index]) :=
      List.getElem?_eq_getElem h
    rw [if_pos rfl, if_pos rfl, edges, hblock]
    rfl
  · rw [if_neg hq, if_neg hq]
    rfl

theorem edges_addBlock {m : Module} {g : Nat} (h : g < m.graphs.length) (q : BlockRef) :
    (m.addBlock g "" []).1.edges q = m.edges q := by
  rw [edges, block?, blocks_addBlock h, edges, block?]
  split
  · rcases Nat.lt_trichotomy q.index (m.graph q.graph).blocks.length with hlt | heq | hgt
    · rw [List.getElem?_append_left hlt]
    · rw [heq, List.getElem?_concat_length, List.getElem?_eq_none (Nat.le_refl _)]
      rfl
    · rw [List.getElem?_eq_none (by simp; omega), List.getElem?_eq_none (by omega)]
  · rfl

/-! ## The end of a block -/

theorem any_isTerminated (m : Module) (r : BlockRef) :
    (m.block? r).any Block.isTerminated = endsTerminated (m.code r) := by
  rw [code]
  cases m.block? r <;> rfl

theorem any_skips (m : Module) (r : BlockRef) (t : Option BlockRef) :
    ((m.block? r).any fun b => b.endsInRet || b.hasSuccessor t) =
      (endsInRet (m.code r) || (m.edges r).contains t) := by
  rw [code, edges]
  cases m.block? r <;> rfl

end Module

end Isel.Flow

namespace Isel.Select

open Isel.Flow Isel.Syntax Isel.Proofs

/-! ## Steps that record nothing -/

theorem Point.edges_emit (m : Module) (pt : Point) (i : Instr) (q : BlockRef) :
    (pt.emit m i).edges q = m.edges q := by
  cases pt with
  | globals => exact Module.edges_of_graphs rfl q
  | block r => exact m.edges_emit r i q

/-- **Writing records no edge.** -/
theorem Writes.edges {su : Setup} {m m' : Module} (h : Writes su m m') (q : BlockRef) :
    m'.edges q = m.edges q := by
  induction h with
  | refl => rfl
  | tail _ hw ih =>
    rw [← ih]
    cases hw with
    | own pt _ => exact pt.edges_emit _ _ q
    | hook pt _ _ => exact pt.edges_emit _ _ q
    | literal bytes =>
      obtain ⟨-, more, index, hmore⟩ := literalEntry_spec su bytes _
      exact Module.edges_of_graphs (by rw [hmore]) q

theorem Writing.edges {α : Type} {su : Setup} {x : Selection α} {s s' : State} {a : α}
    (hx : Writing su x) (h : x s = .ok a s') (q : BlockRef) :
    s'.module.edges q = s.module.edges q := (hx.writes s a s' h).edges q

/-! ## Steps that record edges -/

/-- The edge from the end of a block to the one behind it. -/
def fallEdges (code : List Instr) (next : BlockRef) : List (Option BlockRef) :=
  if endsTerminated code then [] else [some next]

/-- The edge of a jump behind the code of a block. -/
def jumpEdges (code : List Instr) (target : BlockRef) : List (Option BlockRef) :=
  if endsInRet code then [] else [some target]

theorem openBlock_edges {g i : Nat} {s s' : State} {r : BlockRef}
    (hcount : s.module.count g = i + 1) (h : openBlock ⟨g, i⟩ s = .ok r s') :
    s'.module.edges ⟨g, i⟩ =
        s.module.edges ⟨g, i⟩ ++ fallEdges (s.module.code ⟨g, i⟩) ⟨g, i + 1⟩ ∧
      ∀ q, q ≠ ⟨g, i⟩ → s'.module.edges q = s.module.edges q := by
  have hlt : g < s.module.graphs.length := Module.lt_of_count_pos (by omega)
  have hnew : (s.module.addBlock g "" []).2 = ⟨g, i + 1⟩ := by rw [Module.addBlock_eq, hcount]
  have hthere : i < (s.module.addBlock g "" []).1.count g := by
    rw [Module.count_addBlock hlt, if_pos rfl]
    omega
  have hmodule : s'.module = openedModule s.module ⟨g, i⟩ := by
    rw [openBlock_apply] at h
    cases h
    rfl
  simp only [openedModule, hnew, Module.any_isTerminated, Module.code_addBlock hlt] at hmodule
  rw [fallEdges]
  split at hmodule
  · next hterm =>
    rw [hmodule, if_pos hterm, List.append_nil]
    exact ⟨Module.edges_addBlock hlt _, fun q _ => Module.edges_addBlock hlt q⟩
  · next hterm =>
    rw [hmodule, if_neg hterm]
    refine ⟨?_, fun q hq => ?_⟩
    · rw [Module.edges_connect hthere, if_pos rfl, Module.edges_addBlock hlt]
    · rw [Module.edges_connect hthere, if_neg hq, Module.edges_addBlock hlt]

theorem jump_edges {r target : BlockRef} {s s' : State} {u : Unit}
    (hv : (Point.block r).Valid s.module) (h : jump r target s = .ok u s') :
    (s'.module.edges r =
        if endsInRet (s.module.code r) || (s.module.edges r).contains (some target) then
          s.module.edges r
        else s.module.edges r ++ [some target]) ∧
      ∀ q, q ≠ r → s'.module.edges q = s.module.edges q := by
  have hthere : r.index < (s.module.emit r (jumpTo target)).count r.graph := by
    rw [Module.emit, Module.count_modifyBlock]
    exact hv
  have hmodule : s'.module =
      if endsInRet (s.module.code r) || (s.module.edges r).contains (some target) then
        s.module.emit r (jumpTo target)
      else (s.module.emit r (jumpTo target)).connect r (some target) := by
    rw [← Module.any_skips]
    cases h
    rfl
  split at hmodule
  · next hskip =>
    rw [hmodule, if_pos hskip]
    exact ⟨Module.edges_emit .., fun q _ => Module.edges_emit ..⟩
  · next hskip =>
    rw [hmodule, if_neg hskip]
    refine ⟨?_, fun q hq => ?_⟩
    · rw [Module.edges_connect hthere, if_pos rfl, Module.edges_emit]
    · rw [Module.edges_connect hthere, if_neg hq, Module.edges_emit]

theorem jump_edges_first {r target : BlockRef} {s s' : State} {u : Unit}
    (hv : (Point.block r).Valid s.module) (h : jump r target s = .ok u s')
    (hnone : s.module.edges r = []) :
    s'.module.edges r = jumpEdges (s.module.code r) target := by
  rw [(jump_edges hv h).1, hnone, jumpEdges]
  simp

/-- A jump to the block that control would fall through to records its edge once. -/
theorem jump_edges_next {r target : BlockRef} {s s' : State} {u : Unit}
    (hv : (Point.block r).Valid s.module) (h : jump r target s = .ok u s')
    (hfall : s.module.edges r = fallEdges (s.module.code r) target) :
    s'.module.edges r = jumpEdges (s.module.code r) target := by
  rw [(jump_edges hv h).1, hfall, jumpEdges, fallEdges]
  by_cases hret : endsInRet (s.module.code r) = true
  · simp [hret, endsTerminated_of_endsInRet hret]
  · cases endsTerminated (s.module.code r) <;> simp [hret]

/-- A test and its two jumps behind the code of a block, which control would fall out of to
`yes`. -/
theorem emitBranch_edges {r yes no : BlockRef} {cond : Slot} {s s' : State} {u : Unit}
    (hv : (Point.block r).Valid s.module) (hne : yes ≠ no)
    (h : emitBranch r cond yes no s = .ok u s') {code : List Instr}
    (hfall : s.module.edges r = fallEdges code yes) :
    s'.module.edges r = [some yes, some no] ∧
      ∀ q, q ≠ r → s'.module.edges q = s.module.edges q := by
  have htest := emitted_emit hv ⟨.tst, [.slot cond, .imm 1]⟩
  have hv₁ := htest.valid hv
  obtain ⟨s₂, hrun₂, hemit₂, -⟩ := jump_spec hv₁ yes
  have hv₂ := hemit₂.valid hv₁
  rw [emitBranch, emit_bind_apply, bind_of_ok hrun₂] at h
  obtain ⟨hyes, hothers₂⟩ := jump_edges hv₁ hrun₂
  obtain ⟨hno, hothers₃⟩ := jump_edges hv₂ h
  have hsame : ∀ q, (s.emit (.block r) ⟨.tst, [.slot cond, .imm 1]⟩).module.edges q =
      s.module.edges q := fun q => Point.edges_emit s.module (.block r) _ q
  -- The test is no return, so the first jump has its edge, if only from falling through.
  have hyes' : s₂.module.edges r = [some yes] := by
    rw [hyes, hsame, hfall, htest.code_here, endsInRet_concat, fallEdges]
    cases endsTerminated code <;> simp
  refine ⟨?_, fun q hq => ?_⟩
  · rw [hno, hyes', hemit₂.code_here, endsInRet_concat]
    simp [jumpTo, hne.symm]
  · rw [hothers₃ q hq, hothers₂ q hq, hsame]

end Isel.Select
