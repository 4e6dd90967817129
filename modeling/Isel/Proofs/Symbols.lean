import Isel.Proofs.Construction
import Isel.Proofs.Temporaries
import Isel.Proofs.Written

/-!
# Symbols of a text

A text is a row of definitions (`Text.definitions`), each of a literal, a data cell or a
function, and all of them share one space of names.  Literals, cells and the function that runs
the global sequence have names that go with their numbers and never meet.  The names of the
other functions come from the program, where they differ from one another; they may still meet
the names that go with numbers.

So every symbol is defined once exactly if no function has such a name
(`select_definitions_nodup`).
-/

namespace Isel.Il

open Isel.Flow Isel.Proofs Isel.Select

/-! ## Definitions -/

def cellName (cell : Slot) : String := "g" ++ toString cell

/-- The definitions of a text, each with the symbol that it introduces. -/
def Text.definitions (w : WordFormat) (t : Text) : List (String × String) :=
  t.literals.map (fun l => (l.1, literalText l.1 l.2)) ++
    t.cells.map (fun cell => (cellName cell, cellData w cell)) ++
    t.functions.map fun f => (f.name, f.text w)

/-- The text begins as the definition of the symbol, by a data line or by a function line. -/
def Introduces (w : WordFormat) (name text : String) : Prop :=
  (∃ rest, text = "data $" ++ name ++ " = " ++ rest) ∨
    ∃ rest, text = "\nexport function " ++ w.type ++ " $" ++ name ++ "() \x7b\n" ++ rest

section Definitions

variable {w : WordFormat} {t : Text}

theorem render_eq_join (w : WordFormat) (t : Text) :
    t.render w = String.join ((t.definitions w).map Prod.snd) := by
  simp only [Text.render, Text.definitions, List.map_append, List.map_map, String.join_append]
  rfl

theorem introduces_of_mem {d : String × String} (h : d ∈ t.definitions w) :
    Introduces w d.1 d.2 := by
  rw [Text.definitions, List.mem_append, List.mem_append] at h
  rcases h with (h | h) | h
  · obtain ⟨l, -, rfl⟩ := List.mem_map.mp h
    refine .inl ⟨"\x7b " ++ dataText l.2 ++ " \x7d\n", ?_⟩
    have hsplit : " = \x7b " = " = " ++ "\x7b " := by decide
    simp only [literalText, hsplit, String.append_assoc]
  · obtain ⟨cell, -, rfl⟩ := List.mem_map.mp h
    refine .inl ⟨"align " ++ toString w.size ++ " \x7b " ++ w.type ++ " 0 \x7d\n", ?_⟩
    have hdata : "data $" = "data " ++ "$" := by decide
    have hcell : "$g" = "$" ++ "g" := by decide
    have halign : " = align " = " = " ++ "align " := by decide
    simp only [cellData, cellText, cellName, hdata, hcell, halign, String.append_assoc]
  · obtain ⟨f, -, rfl⟩ := List.mem_map.mp h
    right
    exact ⟨String.join (f.sections.map (Section.text w)) ++ "\x7d\n", String.append_assoc ..⟩

theorem map_fst_definitions : (t.definitions w).map Prod.fst =
    t.literals.map Prod.fst ++ t.cells.map cellName ++ t.functions.map Function.name := by
  simp [Text.definitions, Function.comp_def]

end Definitions

/-! ## Names that go with numbers -/

theorem literalName_injective : Function.Injective literalName :=
  fun _ _ h => toString_nat_injective ((String.append_right_inj "str").mp h)

theorem cellName_injective : Function.Injective cellName :=
  fun _ _ h => toString_nat_injective ((String.append_right_inj "g").mp h)

theorem literalName_ne_cellName (k : Nat) (s : Slot) : literalName k ≠ cellName s := by
  simp [literalName, cellName, ← String.toList_inj]

theorem literalName_ne_initFunction (k : Nat) : literalName k ≠ initFunction := by
  simp [literalName, initFunction, ← String.toList_inj]

theorem cellName_ne_initFunction (s : Slot) : cellName s ≠ initFunction := by
  simp [cellName, initFunction, ← String.toList_inj]

theorem nodup_eraseDups (l : List Slot) : l.eraseDups.Nodup := by
  induction hn : l.length using Nat.strongRecOn generalizing l with
  | ind n ih =>
    cases l with
    | nil => exact List.nodup_nil
    | cons s l =>
      have hle := List.length_filter_le (fun b => !b == s) l
      rw [List.length_cons] at hn
      rw [List.eraseDups_cons, List.nodup_cons]
      exact ⟨by simp [List.mem_eraseDups], ih _ (by omega) _ rfl⟩

/-- The name is that of a literal, of a data cell or of the function that runs the global
sequence. -/
def Taken (m : Module) (name : String) : Prop :=
  (∃ k < m.literals.length, name = literalName k) ∨ (∃ s ∈ globalSlots m, name = cellName s) ∨
    m.globals ≠ [] ∧ name = initFunction

section Names

variable {m : Module} {t : Text}

theorem map_name_functions (h : ofModule m = .ok t) : t.functions.map Function.name =
    (if m.globals.isEmpty then [] else [initFunction]) ++ m.functions.map Flow.Function.name := by
  have hnames : (sourcesOf m).map Prod.fst = t.functions.map Function.name := by
    rw [← List.forall₂_eq_eq_eq, List.forall₂_map_left_iff, List.forall₂_map_right_iff]
    refine (ofModule_eq_ok h).2.2.imp fun source f hf => ?_
    obtain ⟨flag, flag', hf⟩ := hf
    obtain ⟨sections, -, rfl⟩ := functionOf_eq_ok hf
    rfl
  rw [← hnames, sourcesOf, List.map_append, List.map_map]
  split <;> rfl

theorem mem_cells (h : ofModule m = .ok t) {s : Slot} : s ∈ t.cells ↔ s ∈ globalSlots m := by
  rw [(ofModule_eq_ok h).2.1, (List.mergeSort_perm _ _).mem_iff, List.mem_eraseDups]

theorem nodup_cells (h : ofModule m = .ok t) : t.cells.Nodup := by
  rw [(ofModule_eq_ok h).2.1, (List.mergeSort_perm _ _).nodup_iff]
  exact nodup_eraseDups _

/-- The names that go with numbers. -/
def takenNames (m : Module) (t : Text) : List String :=
  (List.range m.literals.length).map literalName ++ t.cells.map cellName ++
    if m.globals.isEmpty then [] else [initFunction]

theorem mem_takenNames (h : ofModule m = .ok t) {name : String} :
    name ∈ takenNames m t ↔ Taken m name := by
  rw [takenNames, List.mem_append, List.mem_append, or_assoc, Taken]
  refine or_congr ?_ (or_congr ?_ ?_)
  · simp [eq_comm]
  · simp [mem_cells h, eq_comm]
  · cases hglob : m.globals <;> simp

theorem nodup_takenNames (h : ofModule m = .ok t) : (takenNames m t).Nodup := by
  have hliterals : ((List.range m.literals.length).map literalName).Nodup :=
    List.nodup_range.map literalName_injective
  have hcells : (t.cells.map cellName).Nodup := (nodup_cells h).map cellName_injective
  rw [takenNames, List.nodup_append', List.nodup_append']
  refine ⟨⟨hliterals, hcells, ?_⟩, ?_, ?_⟩
  · rw [List.disjoint_left]
    intro name hk hs
    obtain ⟨k, -, rfl⟩ := List.mem_map.mp hk
    obtain ⟨s, -, hs⟩ := List.mem_map.mp hs
    exact literalName_ne_cellName k s hs.symm
  · split
    · exact List.nodup_nil
    · exact List.nodup_singleton _
  · split
    · exact List.disjoint_nil_right _
    · rw [List.disjoint_singleton, List.mem_append, not_or]
      refine ⟨fun hk => ?_, fun hs => ?_⟩
      · obtain ⟨k, -, hk⟩ := List.mem_map.mp hk
        exact literalName_ne_initFunction k hk
      · obtain ⟨s, -, hs⟩ := List.mem_map.mp hs
        exact cellName_ne_initFunction s hs

/-- The symbols are the names that go with numbers, and the names of the functions. -/
theorem symbols_eq {su : Setup} {w : WordFormat} (hsteps : Steps su {} m)
    (h : ofModule m = .ok t) : (t.definitions w).map Prod.fst =
      takenNames m t ++ m.functions.map Flow.Function.name := by
  have hliterals : t.literals.map Prod.fst = (List.range m.literals.length).map literalName := by
    rw [(ofModule_eq_ok h).1, List.map_map, ← hsteps.literals]
    rfl
  rw [map_fst_definitions, hliterals, map_name_functions h, takenNames]
  simp only [List.append_assoc]

end Names

/-- **Every symbol is defined once** exactly if no function has the name of a literal, of a
data cell or of the function that runs the global sequence. -/
theorem select_definitions_nodup {su : Setup} {root : Syntax.Node} {u : Unit} {fin : State}
    {t : Text} (hsel : select su root = .ok u fin) (ht : ofModule fin.module = .ok t)
    (w : WordFormat) :
    t.render w = String.join ((t.definitions w).map Prod.snd) ∧
      (∀ d ∈ t.definitions w, Introduces w d.1 d.2) ∧
      (((t.definitions w).map Prod.fst).Nodup ↔
        ∀ f ∈ fin.module.functions, ¬ Taken fin.module f.name) := by
  have hsteps := select_steps hsel
  refine ⟨render_eq_join w t, fun d => introduces_of_mem, ?_⟩
  rw [symbols_eq hsteps ht, List.nodup_append']
  constructor
  · rintro ⟨-, -, hdisjoint⟩ f hf htaken
    exact hdisjoint ((mem_takenNames ht).mpr htaken) (List.mem_map_of_mem hf)
  · intro hfree
    refine ⟨nodup_takenNames ht, hsteps.functions_nodup, List.disjoint_left.mpr ?_⟩
    intro name htaken hname
    obtain ⟨f, hf, rfl⟩ := List.mem_map.mp hname
    exact hfree f hf ((mem_takenNames ht).mp htaken)

section Programs

open Isel.Syntax Isel.Scope

/-- A variable, and a function with a string. -/
def hailingDecls : List Node :=
  [.var (.nowhere 1 .varDecl) "k" .int (.number (.nowhere 2 .numberExpr) 1),
   .function (.nowhere 3 .functionDecl) "f" [] .void
    (.compound (.nowhere 4 .compoundStmt) [.string (.nowhere 5 .stringExpr) [120]])]

theorem hailingDecls_definitions : ∃ t b fin text,
    resolveProgram (.program (.nowhere 0 .program) hailingDecls) {} = .ok t b ∧
      select (stackSetup t b) (.program (.nowhere 0 .program) hailingDecls) = .ok () fin ∧
      ofModule fin.module = .ok text ∧
      text.render ⟨"l", 8⟩ = String.join ((text.definitions ⟨"l", 8⟩).map Prod.snd) ∧
      ((text.definitions ⟨"l", 8⟩).map Prod.fst).Nodup := by
  have hlowers : (loweredText? stackSetup (.program (.nowhere 0 .program) hailingDecls)).any
      (fun p => p.1.module.functions.map Flow.Function.name == ["f"]) = true := by decide +kernel
  obtain ⟨⟨fin, text⟩, htext, hnames⟩ := (Option.any_eq_true _ _).mp hlowers
  obtain ⟨t, b, hres, hsel, hof⟩ := exists_of_loweredText? htext
  obtain ⟨hrender, -, hiff⟩ := select_definitions_nodup hsel hof ⟨"l", 8⟩
  refine ⟨t, b, fin, text, hres, hsel, hof, hrender, hiff.mpr fun f hf => ?_⟩
  have hname : f.name = "f" := by
    have hmem := List.mem_map_of_mem (f := Flow.Function.name) hf
    rwa [beq_iff_eq.mp hnames, List.mem_singleton] at hmem
  rw [hname, Taken]
  simp [literalName, cellName, initFunction, ← String.toList_inj]

/-- A function that has the name of its string. -/
def namesakeDecls : List Node :=
  [.function (.nowhere 1 .functionDecl) "str0" [] .void
    (.compound (.nowhere 2 .compoundStmt) [.string (.nowhere 3 .stringExpr) [120]])]

/-- The symbol `str0` is defined twice. -/
theorem namesakeDecls_twice : ∃ t b fin text,
    resolveProgram (.program (.nowhere 0 .program) namesakeDecls) {} = .ok t b ∧
      select (stackSetup t b) (.program (.nowhere 0 .program) namesakeDecls) = .ok () fin ∧
      ofModule fin.module = .ok text ∧
      ∀ w, ¬ ((text.definitions w).map Prod.fst).Nodup := by
  have hlowers : (loweredText? stackSetup (.program (.nowhere 0 .program) namesakeDecls)).any
      (fun p => p.2.literals.map Prod.fst == ["str0"] &&
        p.2.functions.map Function.name == ["str0"]) = true := by decide +kernel
  obtain ⟨⟨fin, text⟩, htext, hcheck⟩ := (Option.any_eq_true _ _).mp hlowers
  obtain ⟨t, b, hres, hsel, hof⟩ := exists_of_loweredText? htext
  rw [Bool.and_eq_true, beq_iff_eq, beq_iff_eq] at hcheck
  refine ⟨t, b, fin, text, hres, hsel, hof, fun w hnodup => ?_⟩
  rw [map_fst_definitions, hcheck.1, hcheck.2] at hnodup
  simp at hnodup

end Programs

end Isel.Il
