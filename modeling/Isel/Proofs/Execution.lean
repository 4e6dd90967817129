import Isel.Proofs.Control

/-!
# The machine

A machine with slots and a stack runs the blocks of a graph.  What the operations do with
values is left open (`Meaning`): any set of values, any meaning of the operations on two
slots, and any test of a slot will do.

`step` makes one step and `run` as many as it is told to.  The machine halts at a return
and at the end of the last block of a graph; it is stuck where an instruction cannot be
carried out, above all where a slot is read that holds nothing.
-/

namespace Isel.Flow

open Isel.Machine

/-- What constants, literals, operations on two slots and tests mean. -/
structure Meaning (V : Type) where
  imm : Int → V
  bytes : List UInt8 → V
  binary : Opcode → V → V → V
  truth : V → Bool

/-- What the machine keeps: a value in every slot that was written, and a stack, top
first. -/
structure Store (V : Type) where
  slots : Slot → Option V
  stack : List V

def Store.write {V : Type} (s : Store V) (k : Slot) (v : V) : Store V :=
  { s with slots := fun l => if l = k then some v else s.slots l }

section Machine

variable {V : Type} (M : Meaning V) (m : Module)

/-- What an instruction without part in control does. -/
def effect (i : Instr) (s : Store V) : Option (Store V) :=
  match i.op, i.args with
  | .noOp, [] => some s
  | .loadImm, [.slot d, .imm v] => some (s.write d (M.imm v))
  | .loadImm, [.slot d, .literal k] => m.literals[k]?.map fun l => s.write d (M.bytes l.bytes)
  | .mov, [.slot d, .slot a] => (s.slots a).map (s.write d)
  | .push, [.slot a] => (s.slots a).map fun v => { s with stack := v :: s.stack }
  | .pop, [.slot d] =>
    match s.stack with
    | [] => none
    | v :: rest => some { s.write d v with stack := rest }
  | op, [.slot d, .slot a, .slot b] =>
    (s.slots a).bind fun v => (s.slots b).map fun w => s.write d (M.binary op v w)
  | _, _ => none

def runCode : List Instr → Store V → Option (Store V)
  | [], s => some s
  | i :: rest, s => (effect M m i s).bind (runCode rest)

/-- Where the machine is: what is left of which block, and what it keeps. -/
structure Config (V : Type) where
  block : BlockRef
  rest : List Instr
  store : Store V

inductive Outcome (V : Type) where
  | running (c : Config V)
  | halted (s : Store V)
  | stuck

def Outcome.andThen (o : Outcome V) (f : Config V → Outcome V) : Outcome V :=
  match o with
  | .running c => f c
  | .halted s => .halted s
  | .stuck => .stuck

/-- The machine at the beginning of a block. -/
def enter (r : BlockRef) (s : Store V) : Outcome V :=
  (m.block? r).elim .stuck fun b => .running ⟨r, b.instrs, s⟩

def follow (i : Instr) (s : Store V) : Outcome V := i.target?.elim .stuck fun r => enter m r s

def holds (test : Instr) (s : Store V) : Option Bool :=
  match test.args with
  | [.slot k, .imm 1] => (s.slots k).map M.truth
  | _ => none

def step (c : Config V) : Outcome V :=
  match act c.rest with
  | .step i rest => (effect M m i c.store).elim .stuck fun s => .running { c with rest, store := s }
  | .ret _ => .halted c.store
  | .jump i => follow m i c.store
  | .branch test yes no =>
    (holds M test c.store).elim .stuck fun b => follow m (if b then yes else no) c.store
  | .fall =>
    (m.block? ⟨c.block.graph, c.block.index + 1⟩).elim (.halted c.store) fun b =>
      .running ⟨⟨c.block.graph, c.block.index + 1⟩, b.instrs, c.store⟩

def run : Nat → Config V → Outcome V
  | 0, c => .running c
  | k + 1, c => (step M m c).andThen (run k)

end Machine

/-! ## Runs -/

section Runs

variable {V : Type} {M : Meaning V} {m : Module}

@[simp] theorem Store.write_slots_self (s : Store V) (k : Slot) (v : V) :
    (s.write k v).slots k = some v := if_pos rfl

theorem Store.write_slots_ne {s : Store V} {k l : Slot} {v : V} (h : l ≠ k) :
    (s.write k v).slots l = s.slots l := if_neg h

theorem runCode_append (c d : List Instr) (s : Store V) :
    runCode M m (c ++ d) s = (runCode M m c s).bind (runCode M m d) := by
  induction c generalizing s with
  | nil => rfl
  | cons i c ih =>
    rw [List.cons_append, runCode, runCode, Option.bind_assoc]
    congr 1
    funext s'
    exact ih s'

theorem run_add (k l : Nat) (c : Config V) :
    run M m (k + l) c = (run M m k c).andThen (run M m l) := by
  induction k generalizing c with
  | zero => rw [Nat.zero_add, run, Outcome.andThen]
  | succ k ih =>
    rw [Nat.succ_add, run, run]
    cases step M m c with
    | running c' => exact ih c'
    | halted s => rfl
    | stuck => rfl

theorem run_trans {k l : Nat} {c c' : Config V} (h : run M m k c = .running c') :
    run M m (k + l) c = run M m l c' := by
  rw [run_add, h, Outcome.andThen]

theorem run_halted {k l : Nat} {c : Config V} {s : Store V} (h : run M m k c = .halted s)
    (hkl : k ≤ l) : run M m l c = .halted s := by
  obtain ⟨d, rfl⟩ := Nat.exists_eq_add_of_le hkl
  rw [run_add, h, Outcome.andThen]

theorem run_stuck {k l : Nat} {c : Config V} (h : run M m k c = .stuck) (hkl : k ≤ l) :
    run M m l c = .stuck := by
  obtain ⟨d, rfl⟩ := Nat.exists_eq_add_of_le hkl
  rw [run_add, h, Outcome.andThen]

theorem run_one (c : Config V) : run M m 1 c = step M m c := by
  rw [run]
  cases step M m c <;> rfl

theorem run_plain {r : BlockRef} {i : Instr} {rest : List Instr} {s s' : Store V}
    (hplain : i.isPlain = true) (h : effect M m i s = some s') :
    run M m 1 ⟨r, i :: rest, s⟩ = .running ⟨r, rest, s'⟩ := by
  rw [run_one, step, act_plain hplain]
  simp only [h, Option.elim_some]

/-- Code without part in control runs through in so many steps. -/
theorem run_code (r : BlockRef) {code : List Instr} (rest : List Instr) {s s' : Store V}
    (hplain : ∀ i ∈ code, i.isPlain = true) (h : runCode M m code s = some s') :
    run M m code.length ⟨r, code ++ rest, s⟩ = .running ⟨r, rest, s'⟩ := by
  induction code generalizing s with
  | nil =>
    cases h
    rfl
  | cons i code ih =>
    rw [runCode, Option.bind_eq_some_iff] at h
    obtain ⟨s₁, hi, h⟩ := h
    rw [List.length_cons, Nat.add_comm, List.cons_append,
      run_trans (run_plain (hplain i (by simp)) hi)]
    exact ih (fun j hj => hplain j (by simp [hj])) h

theorem enter_of_lt {g k : Nat} (h : k < m.count g) (s : Store V) :
    enter m ⟨g, k⟩ s = .running ⟨⟨g, k⟩, m.code ⟨g, k⟩, s⟩ := by
  have hblock : m.block? ⟨g, k⟩ = some ((m.graph g).blocks.get ⟨k, h⟩) :=
    List.getElem?_eq_getElem h
  rw [enter, Module.code, hblock]
  rfl

theorem run_ret {r : BlockRef} {i : Instr} {rest : List Instr} {s : Store V} (hi : i.op = .ret) :
    run M m 1 ⟨r, i :: rest, s⟩ = .halted s := by
  rw [run_one, step, act_ret hi]

/-- At the end of a block the machine is at the beginning of the next one. -/
theorem run_nil {g k : Nat} {s : Store V} (h : k + 1 < m.count g) :
    run M m 1 ⟨⟨g, k⟩, [], s⟩ = .running ⟨⟨g, k + 1⟩, m.code ⟨g, k + 1⟩, s⟩ := by
  have hblock : m.block? ⟨g, k + 1⟩ = some ((m.graph g).blocks.get ⟨k + 1, h⟩) :=
    List.getElem?_eq_getElem h
  rw [run_one, Module.code, hblock]
  show (m.block? ⟨g, k + 1⟩).elim _ _ = _
  rw [hblock]
  rfl

theorem run_end {g k : Nat} {s : Store V} (h : m.count g ≤ k + 1) :
    run M m 1 ⟨⟨g, k⟩, [], s⟩ = .halted s := by
  have hblock : m.block? ⟨g, k + 1⟩ = none := List.getElem?_eq_none h
  rw [run_one]
  show (m.block? ⟨g, k + 1⟩).elim _ _ = _
  rw [hblock]
  rfl

end Runs

end Isel.Flow

namespace Isel.Select

open Isel.Flow

variable {V : Type} {M : Meaning V} {m : Module}

theorem run_jump {r : BlockRef} {g k : Nat} {rest : List Instr} {s : Store V}
    (h : k < m.count g) :
    run M m 1 ⟨r, jumpTo ⟨g, k⟩ :: rest, s⟩ = .running ⟨⟨g, k⟩, m.code ⟨g, k⟩, s⟩ := by
  rw [run_one]
  exact enter_of_lt h s

/-- The machine follows a test into one of two blocks. -/
theorem run_branch {r : BlockRef} {g yes no k : Nat} {s : Store V} {slot : Slot} {v : V}
    (hv : s.slots slot = some v) (hk : (if M.truth v then yes else no) = k)
    (hlt : k < m.count g) :
    run M m 1 ⟨r, branchTo slot ⟨g, yes⟩ ⟨g, no⟩, s⟩ = .running ⟨⟨g, k⟩, m.code ⟨g, k⟩, s⟩ := by
  rw [run_one, ← enter_of_lt hlt]
  show ((s.slots slot).map M.truth).elim Outcome.stuck _ = _
  rw [hv, Option.map_some, Option.elim_some, ← hk]
  cases M.truth v <;> rfl

theorem run_push {r : BlockRef} {rest : List Instr} {slots : Slot → Option V} {stack : List V}
    {slot : Slot} {v : V} (hv : slots slot = some v) :
    run M m 1 ⟨r, ⟨.push, [.slot slot]⟩ :: rest, ⟨slots, stack⟩⟩ =
      .running ⟨r, rest, ⟨slots, v :: stack⟩⟩ := by
  refine run_plain rfl ?_
  show (slots slot).map _ = _
  rw [hv]
  rfl

end Isel.Select
