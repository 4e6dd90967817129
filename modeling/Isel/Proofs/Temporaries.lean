import Isel.Proofs.Agreement
import Isel.Proofs.Translation

/-!
# Temporaries of a text

Which temporaries the lines of a function read and write.  A function reads a temporary that
none of its lines writes in one case only (`ofModule_unwritten`): the temporary is that of a
slot which has no cell and which only instructions behind the end of the text of their block
define.  Such a slot counts as defined, so it does not start as zero, and its definition is
dropped.

What is shown about lines goes by `Accounted`, which says of some lines what they write and
where the things that they read come from, and holds of lines that are put behind one another
if it holds of each part.
-/

namespace Isel.Il

open Isel.Flow Isel.Proofs

/-! ## Reading and writing -/

def Value.temps : Value → List Temp
  | .temp t => [t]
  | .int _ | .symbol _ | .verbatim _ => []

def Rhs.temps : Rhs → List Temp
  | .copy v | .neg v => v.temps
  | .bin _ x y => x.temps ++ y.temps
  | .load _ => []

def Line.reads : Line → List Temp
  | .assign _ rhs => rhs.temps
  | .store src _ => [src]
  | .jnz cond _ _ => [cond]
  | .call _ | .jmp _ | .ret => []

def Line.writes : Line → List Temp
  | .assign dst _ => [dst]
  | .store .. | .call _ | .jmp _ | .jnz .. | .ret => []

def Function.lines (f : Function) : List Line := f.sections.flatMap Section.lines

def Function.reads (f : Function) : List Temp := f.lines.flatMap Line.reads

def Function.writes (f : Function) : List Temp := f.lines.flatMap Line.writes

def defined (instrs : List Instr) : List Slot := instrs.filterMap Instr.def?

section Transfers

variable {m : Module} {i : Instr}

theorem mem_writes_loadLines {s : Slot} : .slot s ∈ (loadLines m i).flatMap Line.writes ↔
    s ∈ i.uses ∧ s ∈ globalSlots m := by
  simp [loadLines, Line.writes, List.mem_flatMap]

theorem reads_loadLines : (loadLines m i).flatMap Line.reads = [] := by
  rw [loadLines, List.flatMap_map, List.flatMap_eq_nil_iff]
  exact fun _ _ => rfl

theorem writes_storeLines : (storeLines m i).flatMap Line.writes = [] := by
  rw [storeLines, List.flatMap_map, List.flatMap_eq_nil_iff]
  exact fun _ _ => rfl

theorem mem_reads_storeLines {x : Temp} (h : x ∈ (storeLines m i).flatMap Line.reads) :
    ∃ s, i.def? = some s ∧ x = .slot s := by
  rw [storeLines, List.flatMap_map] at h
  obtain ⟨s, hs, hx⟩ := List.mem_flatMap.mp h
  have hdef := (List.mem_filter.mp hs).1
  rw [Option.mem_toList] at hdef
  exact ⟨s, hdef, List.mem_singleton.mp hx⟩

end Transfers

/-! ## Lines that are accounted for -/

/-- The lines write the slots `defs`, and apart from them only slots with a cell.  What they
read and do not write are slots without a cell, among `uses`. -/
structure Accounted (m : Module) (defs uses : List Slot) (lines : List Line) : Prop where
  writes_of_def : ∀ s ∈ defs, .slot s ∈ lines.flatMap Line.writes
  def_of_writes : ∀ s, .slot s ∈ lines.flatMap Line.writes → s ∈ defs ∨ s ∈ globalSlots m
  source : ∀ x ∈ lines.flatMap Line.reads, x ∈ lines.flatMap Line.writes ∨
    ∃ s, x = .slot s ∧ s ∉ globalSlots m ∧ s ∈ uses

section Accounted

variable {m : Module} {fn : String} {flag : Nat} {i : Instr} {defs defs' uses uses' : List Slot}
  {lines lines' : List Line}

theorem Accounted.nil : Accounted m [] [] [] := by
  constructor <;> simp

theorem Accounted.append (h : Accounted m defs uses lines) (h' : Accounted m defs' uses' lines') :
    Accounted m (defs ++ defs') (uses ++ uses') (lines ++ lines') := by
  constructor
  · intro s hs
    rw [List.flatMap_append, List.mem_append]
    exact (List.mem_append.mp hs).imp (h.writes_of_def s) (h'.writes_of_def s)
  · intro s hs
    rw [List.flatMap_append, List.mem_append] at hs
    rw [List.mem_append]
    rcases hs with hs | hs
    · exact (h.def_of_writes s hs).imp_left .inl
    · exact (h'.def_of_writes s hs).imp_left .inr
  · intro x hx
    rw [List.flatMap_append, List.mem_append] at hx ⊢
    rcases hx with hx | hx
    · rcases h.source x hx with hw | ⟨s, rfl, hg, hs⟩
      · exact .inl (.inl hw)
      · exact .inr ⟨s, rfl, hg, List.mem_append_left _ hs⟩
    · rcases h'.source x hx with hw | ⟨s, rfl, hg, hs⟩
      · exact .inl (.inr hw)
      · exact .inr ⟨s, rfl, hg, List.mem_append_right _ hs⟩

theorem Accounted.mono (h : Accounted m defs uses lines) (hu : uses ⊆ uses') :
    Accounted m defs uses' lines where
  writes_of_def := h.writes_of_def
  def_of_writes := h.def_of_writes
  source x hx := (h.source x hx).imp_right fun ⟨s, heq, hg, hs⟩ => ⟨s, heq, hg, hu hs⟩

theorem Accounted.idle {l : Line} (hr : l.reads = []) (hw : l.writes = []) :
    Accounted m [] [] [l] := by
  constructor <;> simp [hr, hw]

theorem Accounted.load (hdefs : ∀ s ∈ defs, .slot s ∈ lines.flatMap Line.writes)
    (hwrites : ∀ s, .slot s ∈ lines.flatMap Line.writes → s ∈ defs)
    (hreads : ∀ x ∈ lines.flatMap Line.reads, x ∈ lines.flatMap Line.writes ∨
      ∃ s ∈ i.uses, x = .slot s) :
    Accounted m defs i.uses (loadLines m i ++ lines) := by
  constructor
  · intro s hs
    rw [List.flatMap_append, List.mem_append]
    exact .inr (hdefs s hs)
  · intro s hs
    rw [List.flatMap_append, List.mem_append] at hs
    exact hs.elim (fun hs => .inr (mem_writes_loadLines.mp hs).2) fun hs => .inl (hwrites s hs)
  · intro x hx
    rw [List.flatMap_append, reads_loadLines, List.nil_append] at hx
    rw [List.flatMap_append, List.mem_append]
    rcases hreads x hx with hw | ⟨s, hs, rfl⟩
    · exact .inl (.inr hw)
    · -- A slot with a cell is loaded; the others stay open.
      by_cases hg : s ∈ globalSlots m
      · exact .inl (.inl (mem_writes_loadLines.mpr ⟨hs, hg⟩))
      · exact .inr ⟨s, rfl, hg, hs⟩

end Accounted

/-! ## Instructions -/

section Instructions

variable {m : Module} {fn : String} {flag : Nat} {i : Instr}

theorem temps_valueOf {x : Operand} {y : Temp} (h : y ∈ (valueOf m x).temps) :
    ∃ s, x.slot? = some s ∧ y = .slot s := by
  cases x with
  | slot s => exact ⟨s, rfl, List.mem_singleton.mp h⟩
  | imm v => cases h
  | literal k =>
    rw [valueOf] at h
    split at h <;> cases h
  | block t => cases h

theorem mem_uses_of_source {x : Operand} {s : Slot} (hx : x ∈ i.sources) (hs : x.slot? = some s) :
    s ∈ i.uses := List.mem_filterMap.mpr ⟨x, hx, hs⟩

theorem mem_sources_of_tail {x y : Operand} {args : List Operand} (hargs : i.args = y :: args)
    (hx : x ∈ args) : x ∈ i.sources := by
  rw [Instr.sources, hargs]
  split
  · exact hx
  · exact List.mem_cons_of_mem _ hx

theorem sources_of_inplace (h : i.op.isInplace = true) : i.sources = i.args := by
  simp [Instr.sources, h]

theorem Computes.temps {dst : Slot} {rhs : Rhs} (h : Computes m dst i rhs)
    (hdst : i.def? = some dst) : ∀ x ∈ rhs.temps, ∃ s ∈ i.uses, x = .slot s := by
  have hvalue : ∀ y args, i.args = y :: args → ∀ z ∈ args, ∀ x ∈ (valueOf m z).temps,
      ∃ s ∈ i.uses, x = .slot s := by
    intro y args hargs z hz x hx
    obtain ⟨s, hs, rfl⟩ := temps_valueOf hx
    exact ⟨s, mem_uses_of_source (mem_sources_of_tail hargs hz) hs, rfl⟩
  intro x hx
  cases h with
  | copy => exact hvalue _ _ rfl _ List.mem_cons_self x hx
  | not =>
    rcases List.mem_append.mp hx with hx | hx
    · exact hvalue _ _ rfl _ List.mem_cons_self x hx
    · cases hx
  | neg => exact hvalue _ _ rfl _ List.mem_cons_self x hx
  | accumulate _ hin =>
    rcases List.mem_append.mp hx with hx | hx
    · -- The slot itself is the first operand, and read as well.
      obtain ⟨-, args, hargs⟩ := def?_eq_some hdst
      cases hargs
      refine ⟨dst, mem_uses_of_source (x := .slot dst) ?_ rfl, List.mem_singleton.mp hx⟩
      rw [sources_of_inplace hin]
      exact List.mem_cons_self
    · exact hvalue _ _ rfl _ List.mem_cons_self x hx
  | combine =>
    rcases List.mem_append.mp hx with hx | hx
    · exact hvalue _ _ rfl _ List.mem_cons_self x hx
    · exact hvalue _ _ rfl _ (List.mem_cons_of_mem _ List.mem_cons_self) x hx

theorem accounted_straightLines {lines : List Line} (h : straightLines m fn i = .ok lines) :
    Accounted m i.def?.toList i.uses lines := by
  obtain ⟨effect, heffect, rfl⟩ := straightLines_eq_ok.mp h
  have hplain : ∀ {op : Machine.Opcode}, op.defines = false → i.op = op → i.def? = none := by
    rintro op hop rfl
    rw [Instr.def?, if_neg (by simp [hop])]
  rw [List.append_assoc]
  rcases effectLines_eq_ok heffect with ⟨hop, rfl⟩ | ⟨hop, f, -, rfl⟩ | ⟨dst, rhs, hdst, hrhs, rfl⟩
  · have hdef := hplain rfl hop
    refine Accounted.load ?_ ?_ ?_ <;> simp [storeLines, hdef]
  · have hdef := hplain rfl hop
    refine Accounted.load ?_ ?_ ?_ <;> simp [storeLines, hdef, Line.writes, Line.reads]
  · have hwrites : ([Line.assign (.slot dst) rhs] ++ storeLines m i).flatMap Line.writes =
        [.slot dst] := by
      rw [List.flatMap_append, writes_storeLines]
      rfl
    refine Accounted.load ?_ ?_ ?_
    · simp only [hdst, hwrites]
      simp
    · simp only [hdst, hwrites]
      simp
    · intro x hx
      rw [List.flatMap_append, List.mem_append] at hx
      rw [hwrites]
      rcases hx with hx | hx
      · rw [List.flatMap_singleton] at hx
        exact .inr (hrhs.temps hdst x hx)
      · obtain ⟨s, hs, rfl⟩ := mem_reads_storeLines hx
        rw [hdst] at hs
        cases hs
        exact .inl List.mem_cons_self

theorem accounted_endLines {rest : List Instr} {lines : List Line} (hi : endsText i = true)
    (h : endLines m fn flag i rest = .ok lines) : Accounted m [] i.uses lines := by
  obtain ⟨last, hlast, rfl⟩ := endLines_eq_ok hi h
  cases hlast with
  | jump => refine Accounted.load ?_ ?_ ?_ <;> simp [Line.writes, Line.reads]
  | ret => refine Accounted.load ?_ ?_ ?_ <;> simp [Line.writes, Line.reads]
  | test hop hargs =>
    refine Accounted.load ?_ ?_ ?_
    · simp
    · simp [Line.writes]
    · intro y hy
      simp only [List.flatMap_cons, List.flatMap_nil, Line.reads, Rhs.temps, Value.temps,
        Line.writes, List.append_nil, List.mem_append, List.mem_singleton] at hy ⊢
      refine hy.symm.imp_right fun hy => ?_
      obtain ⟨s, hs, rfl⟩ := temps_valueOf hy
      refine ⟨s, mem_uses_of_source ?_ hs, rfl⟩
      have hdef : i.op.defines = false := by rw [hop]; rfl
      simp [Instr.sources, hdef, hargs]

end Instructions

/-! ## Blocks and functions -/

section Functions

variable {m : Module} {fn : String}

theorem accounted_bodyOf {flag : Nat} : ∀ {instrs : List Instr} {body : Body},
    bodyOf m fn flag instrs = .ok body →
      Accounted m (defined (lived instrs)) (instrs.flatMap Instr.uses) body.lines := by
  intro instrs
  induction instrs with
  | nil =>
    intro body h
    cases h
    exact .nil
  | cons i rest ih =>
    intro body h
    cases hi : endsText i with
    | true =>
      obtain ⟨lines, hlines, rfl⟩ := (bodyOf_cons_of_ends hi).mp h
      rw [lived_cons_of_ends hi]
      exact (accounted_endLines hi hlines).mono (List.subset_append_left _ _)
    | false =>
      obtain ⟨lines, body', hlines, hbody, rfl⟩ := (bodyOf_cons_of_straight hi).mp h
      have hboth := (accounted_straightLines hlines).append (ih hbody)
      rw [lived_cons_of_straight hi, defined, List.filterMap_cons]
      cases hdef : i.def? <;> simpa [hdef, defined] using hboth

/-- The slots that the blocks define in front of the ends of their texts. -/
def definedLived (blocks : List (String × List Instr)) : List Slot :=
  blocks.flatMap fun b => defined (lived b.2)

theorem accounted_sectionsOf : ∀ {blocks : List (String × List Instr)} {flag flag' : Nat}
    {sections : List Section}, sectionsOf m fn flag blocks = .ok (sections, flag') →
      Accounted m (definedLived blocks) ((blocks.flatMap Prod.snd).flatMap Instr.uses)
        (sections.flatMap Section.lines) := by
  intro blocks
  induction blocks with
  | nil =>
    intro flag flag' sections h
    cases h
    exact .nil
  | cons block blocks ih =>
    intro flag flag' sections h
    obtain ⟨body, more, hbody, hmore, rfl⟩ := sectionsOf_cons_eq_ok.mp h
    have hclose : Accounted m [] [] (if !body.ended && blocks.isEmpty then [Line.ret] else []) := by
      split
      · exact .idle rfl rfl
      · exact .nil
    have hsection := (accounted_bodyOf hbody).append hclose
    rw [List.append_nil, List.append_nil] at hsection
    have hall := hsection.append (ih hmore)
    rw [← List.flatMap_append] at hall
    exact hall

theorem mem_undefinedSlots {instrs : List Instr} {s : Slot} : s ∈ undefinedSlots m instrs ↔
    s ∈ instrs.flatMap Instr.uses ∧ s ∉ defined instrs ∧ s ∉ globalSlots m := by
  simp only [undefinedSlots, List.mem_filter, List.mem_eraseDups, Bool.not_eq_true',
    List.contains_eq_mem, decide_eq_false_iff_not, List.mem_append, not_or, defined]

theorem mem_writes_zeroLines {blocks : List (String × List Instr)} {s : Slot} :
    .slot s ∈ (zeroLines m blocks).flatMap Line.writes ↔
      s ∈ undefinedSlots m (blocks.flatMap Prod.snd) := by
  rw [zeroLines, List.flatMap_map]
  simp [Line.writes, List.mem_flatMap]

theorem reads_zeroLines {blocks : List (String × List Instr)} :
    (zeroLines m blocks).flatMap Line.reads = [] := by
  rw [zeroLines, List.flatMap_map, List.flatMap_eq_nil_iff]
  exact fun _ _ => rfl

theorem lines_prependLines {lines : List Line} {sections : List Section} (h : sections ≠ []) :
    (prependLines lines sections).flatMap Section.lines =
      lines ++ sections.flatMap Section.lines := by
  cases sections with
  | nil => exact absurd rfl h
  | cons s rest => simp [prependLines]

/-- **A temporary is read and not written** exactly if it belongs to a slot without a cell that
the function defines, but nowhere in front of the end of the text of a block. -/
theorem functionOf_unwritten {flag flag' : Nat} {blocks : List (String × List Instr)}
    {f : Function} (h : functionOf m fn flag blocks = .ok (f, flag')) :
    ∀ x ∈ f.reads, x ∉ f.writes ↔ ∃ s, x = .slot s ∧ s ∉ globalSlots m ∧
      s ∈ defined (blocks.flatMap Prod.snd) ∧ s ∉ definedLived blocks := by
  obtain ⟨sections, hsections, rfl⟩ := functionOf_eq_ok h
  have hacc := accounted_sectionsOf hsections
  intro x hx
  by_cases hnone : sections = []
  · subst hnone
    cases hx
  rw [Function.reads, Function.lines, lines_prependLines hnone, List.flatMap_append,
    reads_zeroLines, List.nil_append] at hx
  rw [Function.writes, Function.lines, lines_prependLines hnone, List.flatMap_append,
    List.mem_append, not_or]
  constructor
  · rintro ⟨hzero, hsection⟩
    rcases hacc.source x hx with hw | ⟨s, rfl, hg, hu⟩
    · exact absurd hw hsection
    · refine ⟨s, rfl, hg, ?_, fun hs => hsection (hacc.writes_of_def s hs)⟩
      -- Otherwise the slot would start as zero.
      by_contra hdef
      exact hzero (mem_writes_zeroLines.mpr (mem_undefinedSlots.mpr ⟨hu, hdef, hg⟩))
  · rintro ⟨s, rfl, hg, hdef, hlive⟩
    refine ⟨fun hzero => ?_, fun hsection => ?_⟩
    · exact (mem_undefinedSlots.mp (mem_writes_zeroLines.mp hzero)).2.1 hdef
    · exact (hacc.def_of_writes s hsection).elim hlive hg

end Functions

/-- **The functions of a text read what they write**, but for slots without a cell that are
defined behind the ends of the texts of their blocks only. -/
theorem ofModule_unwritten {m : Module} {t : Text} (h : ofModule m = .ok t) :
    List.Forall₂ (fun source f => ∀ x ∈ f.reads, x ∉ f.writes ↔
      ∃ s, x = .slot s ∧ s ∉ globalSlots m ∧ s ∈ defined (source.2.flatMap Prod.snd) ∧
        s ∉ definedLived source.2) (sourcesOf m) t.functions := by
  refine (ofModule_eq_ok h).2.2.imp fun source f hf => ?_
  obtain ⟨flag, flag', hf⟩ := hf
  exact functionOf_unwritten hf

/-! ## A slot that is never written -/

section Programs

open Isel.Syntax Isel.Scope Isel.Select

/-- What a program is lowered to, behind resolution, and its text. -/
def loweredText? (setup : Table → Bindings → Setup) (root : Node) : Option (State × Text) :=
  (lowered? setup root).bind fun s => (ofModule s.module).toOption.map fun text => (s, text)

theorem exists_of_loweredText? {setup : Table → Bindings → Setup} {root : Node} {fin : State}
    {text : Text} (h : loweredText? setup root = some (fin, text)) :
    ∃ t b, resolveProgram root {} = .ok t b ∧ select (setup t b) root = .ok () fin ∧
      ofModule fin.module = .ok text := by
  obtain ⟨s, hs, htext⟩ := Option.bind_eq_some_iff.mp h
  cases hof : ofModule s.module with
  | error e => simp [hof, Except.toOption] at htext
  | ok text' =>
    simp only [hof, Except.toOption, Option.map_some] at htext
    cases htext
    obtain ⟨t, b, hres, hsel⟩ := exists_of_lowered? hs
    exact ⟨t, b, hres, hsel, hof⟩

/-- A variable, and a function that reads it and another one behind a return. -/
def stowedDecls : List Node :=
  [.var (.nowhere 1 .varDecl) "k" .int (.number (.nowhere 2 .numberExpr) 1),
   .function (.nowhere 3 .functionDecl) "f" [] .void
    (.compound (.nowhere 4 .compoundStmt)
      [.ret (.nowhere 5 .returnStmt) .absent,
       .var (.nowhere 6 .varDecl) "x" .int (.number (.nowhere 7 .numberExpr) 1),
       .compound (.nowhere 8 .compoundStmt)
        [.ident (.nowhere 9 .identExpr) "x", .ident (.nowhere 10 .identExpr) "k"]])]

theorem stowedDecls_unwritten : ∃ t b fin text,
    resolveProgram (.program (.nowhere 0 .program) stowedDecls) {} = .ok t b ∧
      select (stackSetup t b) (.program (.nowhere 0 .program) stowedDecls) = .ok () fin ∧
      ofModule fin.module = .ok text ∧ text.functions.length = 2 ∧
      List.Forall₂ (fun source f => ∀ x ∈ f.reads, x ∉ f.writes ↔
        ∃ s, x = .slot s ∧ s ∉ globalSlots fin.module ∧
          s ∈ defined (source.2.flatMap Prod.snd) ∧ s ∉ definedLived source.2)
        (sourcesOf fin.module) text.functions := by
  have hlowers : (loweredText? stackSetup (.program (.nowhere 0 .program) stowedDecls)).any
      (fun p => p.2.functions.length == 2) = true := by decide +kernel
  obtain ⟨⟨fin, text⟩, htext, hlength⟩ := (Option.any_eq_true _ _).mp hlowers
  obtain ⟨t, b, hres, hsel, hof⟩ := exists_of_loweredText? htext
  exact ⟨t, b, fin, text, hres, hsel, hof, beq_iff_eq.mp hlength, ofModule_unwritten hof⟩

/-- A variable behind a return, and its use in a block of its own. -/
def buriedDecls : List Node :=
  [.function (.nowhere 1 .functionDecl) "f" [] .void
    (.compound (.nowhere 2 .compoundStmt)
      [.ret (.nowhere 3 .returnStmt) .absent,
       .var (.nowhere 4 .varDecl) "x" .int (.number (.nowhere 5 .numberExpr) 1),
       .compound (.nowhere 6 .compoundStmt) [.ident (.nowhere 7 .identExpr) "x"]])]

/-- The slot of the variable is read and never written: its definition is dropped with what
stands behind the return. -/
theorem buriedDecls_read : ∃ t b fin text f,
    resolveProgram (.program (.nowhere 0 .program) buriedDecls) {} = .ok t b ∧
      select (stackSetup t b) (.program (.nowhere 0 .program) buriedDecls) = .ok () fin ∧
      ofModule fin.module = .ok text ∧ f ∈ text.functions ∧ .slot 1 ∈ f.reads ∧
      .slot 1 ∉ f.writes := by
  have hlowers : (loweredText? stackSetup (.program (.nowhere 0 .program) buriedDecls)).any
      (fun p => p.2.functions.any fun f =>
        f.reads.contains (.slot 1) && !f.writes.contains (.slot 1)) = true := by decide +kernel
  obtain ⟨⟨fin, text⟩, htext, hcheck⟩ := (Option.any_eq_true _ _).mp hlowers
  obtain ⟨t, b, hres, hsel, hof⟩ := exists_of_loweredText? htext
  obtain ⟨f, hf, hcheck⟩ := List.any_eq_true.mp hcheck
  rw [Bool.and_eq_true, List.contains_iff_mem, Bool.not_eq_true', List.contains_eq_mem,
    decide_eq_false_iff_not] at hcheck
  exact ⟨t, b, fin, text, f, hres, hsel, hof, hf, hcheck⟩

end Programs

end Isel.Il
