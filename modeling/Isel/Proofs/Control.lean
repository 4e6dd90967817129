import Isel.Proofs.Emission

/-!
# Control

A block runs its instructions in order up to its first `RET`, its first `JUMP` or its
first test with two jumps; a block without any of these falls through to the block behind
it.  `act` says what comes next when a part of a block is left to run.
-/

namespace Isel.Flow

open Isel.Machine

inductive Act where
  /-- An instruction, and then the rest of the block. -/
  | step (i : Instr) (rest : List Instr)
  | ret (i : Instr)
  | jump (i : Instr)
  /-- A test, and then one of two jumps. -/
  | branch (test yes no : Instr)
  /-- The block behind. -/
  | fall
  deriving DecidableEq, Repr

/-- What comes next when `rest` is left of a block. -/
def act : List Instr → Act
  | [] => .fall
  | i :: rest =>
    if i.op = .ret then .ret i
    else if i.op = .jump then .jump i
    else match rest with
      | yes :: no :: _ =>
        if i.op = .tst ∧ yes.op = .jump ∧ no.op = .jump then .branch i yes no else .step i rest
      | _ => .step i rest

/-- The instruction has no part in control. -/
def Instr.isPlain (i : Instr) : Bool := i.op ≠ .ret && i.op ≠ .jump && i.op ≠ .tst

theorem act_plain {i : Instr} (h : i.isPlain = true) (rest : List Instr) :
    act (i :: rest) = .step i rest := by
  simp only [Instr.isPlain, Bool.and_eq_true, decide_eq_true_eq] at h
  obtain ⟨⟨hret, hjump⟩, htst⟩ := h
  rw [act.eq_def]
  simp only [if_neg hret, if_neg hjump]
  split
  · rw [if_neg fun hb => htst hb.1]
  · rfl

theorem act_ret {i : Instr} (h : i.op = .ret) (rest : List Instr) : act (i :: rest) = .ret i := by
  rw [act.eq_def]
  simp only [if_pos h]

theorem act_inv (rest : List Instr) : match act rest with
    | .step i rest' => rest = i :: rest' ∧ i.op ≠ .ret ∧ i.op ≠ .jump
    | .ret i => ∃ rest', rest = i :: rest' ∧ i.op = .ret
    | .jump i => ∃ rest', rest = i :: rest' ∧ i.op = .jump
    | .branch test yes no => ∃ rest', rest = test :: yes :: no :: rest' ∧ test.op = .tst ∧
        yes.op = .jump ∧ no.op = .jump
    | .fall => rest = [] := by
  cases rest with
  | nil => rfl
  | cons i rest =>
    by_cases hret : i.op = .ret
    · rw [act_ret hret]
      exact ⟨rest, rfl, hret⟩
    by_cases hjump : i.op = .jump
    · have hact : act (i :: rest) = .jump i := by
        rw [act.eq_def]
        simp only [if_neg hret, if_pos hjump]
      rw [hact]
      exact ⟨rest, rfl, hjump⟩
    -- Only two jumps behind a test make a branch.
    by_cases hbranch : ∃ yes no more, rest = yes :: no :: more ∧
        i.op = .tst ∧ yes.op = .jump ∧ no.op = .jump
    · obtain ⟨yes, no, more, rfl, htst⟩ := hbranch
      have hact : act (i :: yes :: no :: more) = .branch i yes no := by
        rw [act, if_neg hret, if_neg hjump]
        exact if_pos htst
      rw [hact]
      exact ⟨more, rfl, htst⟩
    · have hact : act (i :: rest) = .step i rest := by
        rw [act.eq_def]
        simp only [if_neg hret, if_neg hjump]
        split
        · next yes no more => exact if_neg fun h => hbranch ⟨yes, no, more, rfl, h⟩
        · rfl
      rw [hact]
      exact ⟨rfl, hret, hjump⟩

/-! ## Blocks -/

theorem code_of_block? {m : Module} {r : BlockRef} {b : Block} (h : m.block? r = some b) :
    m.code r = b.instrs := by
  rw [Module.code, h]
  rfl

theorem lt_count_of_block? {m : Module} {r : BlockRef} {b : Block} (h : m.block? r = some b) :
    r.index < m.count r.graph := (List.getElem?_eq_some_iff.mp h).1

theorem lt_graphs_of_block? {m : Module} {r : BlockRef} {b : Block} (h : m.block? r = some b) :
    r.graph < m.graphs.length :=
  Module.lt_of_count_pos (Nat.zero_lt_of_lt (lt_count_of_block? h))

theorem entry?_eq {m : Module} {g : Nat} {r : BlockRef} (h : m.entry? g = some r) :
    r = ⟨g, 0⟩ := by
  rw [Module.entry?] at h
  split at h
  · cases h
  · exact (Option.some.inj h).symm

theorem entry?_of_count {m : Module} {g : Nat} (h : 0 < m.count g) :
    m.entry? g = some ⟨g, 0⟩ ∧ ∃ b, m.block? ⟨g, 0⟩ = some b := by
  refine ⟨?_, _, List.getElem?_eq_getElem h⟩
  rw [Module.entry?, if_neg]
  rw [List.isEmpty_iff_length_eq_zero]
  exact Nat.ne_of_gt h

end Isel.Flow

namespace Isel.Select

open Isel.Flow

@[simp] theorem act_jumpTo (target : BlockRef) (rest : List Instr) :
    act (jumpTo target :: rest) = .jump (jumpTo target) := rfl

@[simp] theorem act_branchTo (cond : Slot) (yes no : BlockRef) (rest : List Instr) :
    act (branchTo cond yes no ++ rest) =
      .branch ⟨.tst, [.slot cond, .imm 1]⟩ (jumpTo yes) (jumpTo no) := rfl

end Isel.Select
