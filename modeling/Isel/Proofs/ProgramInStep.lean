import Isel.Proofs.ForwardCalls

/-!
# Programs in step

Where the functions that are declared and their signatures are the same in related states, and a
declaration keeps the relation, whole programs are lowered in step.
-/

namespace Isel.Select

open Isel.Flow Isel.Syntax Isel.Proofs

/-- The steps of two selections keep the relation, and so do declarations; related states have
declared the same. -/
structure ParallelDecls (su su' : Setup) (R : State → State → Prop) : Prop
    extends Parallel su su' R (fun _ => True) (fun _ => True) where
  forward : su'.config.uses .forwardCalls = su.config.uses .forwardCalls
  functions : ∀ {s t}, R s t → t.module.functions = s.module.functions
  signatures : ∀ {s t}, R s t → t.signatures = s.signatures
  graphs : ∀ {s t}, R s t → t.module.graphs.length = s.module.graphs.length
  declared : ∀ {s t}, R s t → ∀ sig, R (s.declare sig) (t.declare sig)

namespace ParallelDecls

variable {su su' : Setup} {R : State → State → Prop}

theorem function? (h : ParallelDecls su su' R) {s t : State} (hR : R s t) (name : String) :
    t.module.function? name = s.module.function? name := by
  rw [Module.function?, Module.function?, h.functions hR]

theorem reserveFunction (h : ParallelDecls su su' R) (tag : Tag) (name : String)
    (result : ValueType) :
    InStep R (Select.reserveFunction tag name result) (Select.reserveFunction tag name result) := by
  constructor
  intro s t g s' hR hrun
  obtain ⟨hnone, rfl, rfl⟩ := reserveFunction_iff.mp hrun
  refine ⟨_, reserveFunction_iff.mpr ⟨?_, (h.graphs hR).symm, rfl⟩, h.declared hR _, trivial⟩
  rw [h.function? hR, hnone]

theorem functionGraph (h : ParallelDecls su su' R) (tag : Tag) (name : String)
    (result : ValueType) :
    InStep R (Select.functionGraph tag name result) (Select.functionGraph tag name result) := by
  have hreserve := h.reserveFunction tag name result
  constructor
  intro s t g s' hR hrun
  rw [Select.functionGraph, get_bind_apply] at hrun ⊢
  rw [h.function? hR, h.signatures hR]
  cases hf : s.module.function? name with
  | none =>
    simp only [hf] at hrun
    exact hreserve.run s t g s' hR hrun
  | some f =>
    cases hsig : s.signatures.find? (fun sig => sig.name == name) with
    | none =>
      simp only [hf, hsig] at hrun
      exact hreserve.run s t g s' hR hrun
    | some sig =>
      simp only [hf, hsig] at hrun ⊢
      split at hrun
      · next hlabel =>
        cases hrun
        rw [if_pos hlabel]
        exact ⟨t, rfl, hR, trivial⟩
      · next hlabel =>
        rw [if_neg hlabel]
        exact hreserve.run s t g s' hR hrun

theorem reserveDecl (h : ParallelDecls su su' R) (n : Node) :
    InStep R (Select.reserveDecl n) (Select.reserveDecl n) := by
  rw [Select.reserveDecl]
  split
  · exact inStep_throw ..
  · refine .ite ?_ (inStep_pure trivial)
    split
    · exact (h.reserveFunction ..).bind fun _ _ => inStep_pure trivial
    · exact inStep_fail ..

theorem selectDecl (h : ParallelDecls su su' R) (n : Node) :
    InStep R (Select.selectDecl su n) (Select.selectDecl su' n) := by
  rw [Select.selectDecl, Select.selectDecl]
  split
  · exact inStep_throw ..
  · split
    · rw [selectFunction_eq, selectFunction_eq]
      exact (h.functionGraph ..).bind fun _ _ => h.toParallel.selectIn trivial ..
    · have hglobals : Point.globals.In fun _ => True := trivial
      exact h.toParallel.selectVar hglobals ..
    all_goals exact inStep_fail ..

theorem forM {f f' : Node → Selection Unit} (hf : ∀ n, InStep R (f n) (f' n)) :
    ∀ ns : List Node, InStep R (ns.forM f) (ns.forM f') := by
  intro ns
  induction ns with
  | nil => exact inStep_pure trivial
  | cons n ns ih => exact (hf n).bind fun _ _ => ih

/-- **Programs are lowered in step.** -/
theorem selectProgram (h : ParallelDecls su su' R) (root : Node) :
    InStep R (Select.selectProgram su root) (Select.selectProgram su' root) := by
  have hdecls : ∀ decls : List Node,
      InStep R (decls.forM (Select.selectDecl su)) (decls.forM (Select.selectDecl su')) :=
    forM h.selectDecl
  rw [Select.selectProgram, Select.selectProgram]
  split
  · exact inStep_fail ..
  · refine .ite (inStep_fail ..) ?_
    split
    · rw [selectDecls, selectDecls, h.forward]
      exact .ite ((forM h.reserveDecl _).bind fun _ _ => hdecls _) (hdecls _)
    · exact inStep_fail ..

end ParallelDecls

end Isel.Select
