import Isel.Proofs.Interning
import Isel.Proofs.ProgramInStep
import Mathlib.Data.List.Forall2

/-!
# Shared literals

Strings with the same bytes may share one entry of the table of literals.  A program that is
lowered with sharing is lowered without, and the other way round.  If the hooks do not name literals
by their slots, the modules are the same but for these slots (`SameModule`); a hook that does puts
in one and the same slot, which has other bytes in the other table (`literalHook_dedupLiterals`).

The strings of a program come to the table one after the other.  Without sharing the table has all
of them, and with sharing those that are new: in both cases it is made of the strings that are
`kept` of one and the same list.  What the digest is does not matter.
-/

namespace Isel.Select

open Isel.Flow Isel.Syntax Isel.Proofs

/-! ## Tables -/

/-- The strings that get an entry: all of them, or the first of its kind only. -/
def kept (shared : Bool) (strings : List (List UInt8)) : List (List UInt8) :=
  if shared then strings.eraseDups else strings

/-- The strings with the names of their places. -/
def namedStrings (strings : List (List UInt8)) : List (String × List UInt8) :=
  strings.mapIdx fun k bytes => (literalName k, bytes)

section Tables

variable {su : Setup} {m : Module} {strings : List (List UInt8)}

end Tables

/-! ## Modules that are the same but for literals -/

/-- The operands are the same, or literals with the same bytes. -/
inductive SameOperand (L L' : List Literal) : Operand → Operand → Prop
  | same {a : Operand} : (∀ k, a ≠ .literal k) → SameOperand L L' a a
  | literal {k k' : Nat} {l l' : Literal} : L[k]? = some l → L'[k']? = some l' →
      l'.bytes = l.bytes → SameOperand L L' (.literal k) (.literal k')

/-- The instructions are the same but for literals. -/
def SameInstr (L L' : List Literal) (i i' : Instr) : Prop :=
  i'.op = i.op ∧ List.Forall₂ (SameOperand L L') i.args i'.args

structure SameBlock (R : Instr → Instr → Prop) (b b' : Block) : Prop where
  name : b'.name = b.name
  successors : b'.successors = b.successors
  instrs : List.Forall₂ R b.instrs b'.instrs

structure SameGraph (R : Instr → Instr → Prop) (g g' : Graph) : Prop where
  ownNames : g'.ownNames = g.ownNames
  blocks : List.Forall₂ (SameBlock R) g.blocks g'.blocks

/-- The modules have the same functions, and instructions that are related and the same edges in
blocks of the same names.  The relation may depend on the literals of the modules. -/
structure SameModule (R : List Literal → List Literal → Instr → Instr → Prop) (m m' : Module) :
    Prop where
  functions : m'.functions = m.functions
  namesDrawn : m'.namesDrawn = m.namesDrawn
  graphs : List.Forall₂ (SameGraph (R m.literals m'.literals)) m.graphs m'.graphs
  globals : List.Forall₂ (R m.literals m'.literals) m.globals m'.globals

/-- The instructions are the same but for literals, or a hook puts in one and the same. -/
def SameOrHooked (su : Setup) (L L' : List Literal) (i i' : Instr) : Prop :=
  SameInstr L L' i i' ∨ (i' = i ∧ Hooked su i)

section Forall₂

variable {α β : Type} {R : α → β → Prop} {l : List α} {l' : List β}

theorem forall₂_modify (h : List.Forall₂ R l l') {f : α → α} {f' : β → β}
    (hf : ∀ a b, R a b → R (f a) (f' b)) (k : Nat) :
    List.Forall₂ R (l.modify k f) (l'.modify k f') := by
  induction h generalizing k with
  | nil => cases k <;> exact .nil
  | cons hab _ ih =>
    cases k with
    | zero => exact .cons (hf _ _ hab) ‹_›
    | succ k => exact .cons hab (ih k)

theorem forall₂_concat (h : List.Forall₂ R l l') {a : α} {b : β} (hab : R a b) :
    List.Forall₂ R (l ++ [a]) (l' ++ [b]) := List.rel_append h (.cons hab .nil)

theorem forall₂_getElem? (h : List.Forall₂ R l l') (k : Nat) :
    Option.Rel R l[k]? l'[k]? := by
  induction h generalizing k with
  | nil => exact .none
  | cons hab _ ih =>
    cases k with
    | zero => exact .some hab
    | succ k => exact ih k

end Forall₂

section SameModule

variable {su : Setup} {L L' L₁ L₁' : List Literal} {m m' : Module}

theorem SameInstr.of_literalFree {i : Instr} (h : LiteralFree i) : SameInstr L L' i i := by
  refine ⟨rfl, List.forall₂_same.mpr fun a ha => .same ?_⟩
  rintro k rfl
  exact h k ha

theorem SameInstr.mono (h : L <+: L₁) (h' : L' <+: L₁') {i i' : Instr} (hi : SameInstr L L' i i') :
    SameInstr L₁ L₁' i i' := by
  refine ⟨hi.1, hi.2.imp fun a a' ha => ?_⟩
  cases ha with
  | same hne => exact .same hne
  | literal hl hl' hbytes =>
    obtain ⟨more, rfl⟩ := h
    obtain ⟨more', rfl⟩ := h'
    refine .literal ?_ ?_ hbytes
    · rwa [List.getElem?_append_left (List.getElem?_eq_some_iff.mp hl).1]
    · rwa [List.getElem?_append_left (List.getElem?_eq_some_iff.mp hl').1]

theorem SameOrHooked.of_literalFree {i : Instr} (h : LiteralFree i ∨ Hooked su i) :
    SameOrHooked su L L' i i := h.imp .of_literalFree fun hi => ⟨rfl, hi⟩

theorem SameOrHooked.op {i i' : Instr} (h : SameOrHooked su L L' i i') : i'.op = i.op := by
  rcases h with ⟨hop, -⟩ | ⟨rfl, -⟩
  · exact hop
  · rfl

theorem SameOrHooked.mono (h : L <+: L₁) (h' : L' <+: L₁') {i i' : Instr}
    (hi : SameOrHooked su L L' i i') : SameOrHooked su L₁ L₁' i i' :=
  hi.imp_left (SameInstr.mono h h')

section Weaken

variable {R R' : Instr → Instr → Prop}

theorem SameBlock.imp (h : ∀ i i', R i i' → R' i i') {b b' : Block} (hb : SameBlock R b b') :
    SameBlock R' b b' := { hb with instrs := hb.instrs.imp h }

theorem SameGraph.imp (h : ∀ i i', R i i' → R' i i') {g g' : Graph} (hg : SameGraph R g g') :
    SameGraph R' g g' := { hg with blocks := hg.blocks.imp fun _ _ => SameBlock.imp h }

end Weaken

/-- Where no hook names a literal, the instructions are the same but for literals. -/
theorem SameModule.of_literalFree (hm : SameModule (SameOrHooked su) m m')
    (hooks : HooksEmit su LiteralFree) : SameModule SameInstr m m' := by
  have himp : ∀ i i', SameOrHooked su m.literals m'.literals i i' →
      SameInstr m.literals m'.literals i i' := by
    rintro i i' (hi | ⟨rfl, hi⟩)
    · exact hi
    · exact .of_literalFree (hooks i' hi)
  exact { hm with
    graphs := hm.graphs.imp fun _ _ => SameGraph.imp himp
    globals := hm.globals.imp himp }

theorem SameModule.graph {R : List Literal → List Literal → Instr → Instr → Prop}
    (h : SameModule R m m') (g : Nat) :
    SameGraph (R m.literals m'.literals) (m.graph g) (m'.graph g) := by
  have hrel := forall₂_getElem? h.graphs g
  rw [Module.graph, Module.graph]
  generalize m.graphs[g]? = o at hrel ⊢
  generalize m'.graphs[g]? = o' at hrel ⊢
  cases hrel with
  | none => exact ⟨rfl, .nil⟩
  | some hg => exact hg

theorem SameModule.code {R : List Literal → List Literal → Instr → Instr → Prop}
    (h : SameModule R m m') (r : BlockRef) :
    List.Forall₂ (R m.literals m'.literals) (m.code r) (m'.code r) := by
  have hrel := forall₂_getElem? (h.graph r.graph).blocks r.index
  rw [Module.code, Module.code, Module.block?, Module.block?]
  generalize (m.graph r.graph).blocks[r.index]? = o at hrel ⊢
  generalize (m'.graph r.graph).blocks[r.index]? = o' at hrel ⊢
  cases hrel with
  | none => exact .nil
  | some hb => exact hb.instrs

theorem SameModule.modifyBlock (h : SameModule (SameOrHooked su) m m') (r : BlockRef)
    {f f' : Block → Block}
    (hf : ∀ b b', SameBlock (SameOrHooked su m.literals m'.literals) b b' →
      SameBlock (SameOrHooked su m.literals m'.literals) (f b) (f' b')) :
    SameModule (SameOrHooked su) (m.modifyBlock r f) (m'.modifyBlock r f') where
  functions := h.functions
  namesDrawn := h.namesDrawn
  graphs := by
    refine forall₂_modify h.graphs (fun g g' hg => ?_) r.graph
    exact ⟨hg.ownNames, forall₂_modify hg.blocks hf r.index⟩
  globals := h.globals

theorem SameModule.emit (h : SameModule (SameOrHooked su) m m') (pt : Point) {i i' : Instr}
    (hi : SameOrHooked su m.literals m'.literals i i') :
    SameModule (SameOrHooked su) (pt.emit m i) (pt.emit m' i') := by
  cases pt with
  | globals => exact { h with globals := forall₂_concat h.globals hi }
  | block r =>
    exact h.modifyBlock r fun _ _ hb => { hb with instrs := forall₂_concat hb.instrs hi }

theorem SameModule.connect (h : SameModule (SameOrHooked su) m m') (r : BlockRef)
    (target : Option BlockRef) :
    SameModule (SameOrHooked su) (m.connect r target) (m'.connect r target) :=
  h.modifyBlock r fun _ _ hb => { hb with successors := congrArg (· ++ [target]) hb.successors }

theorem SameModule.any (h : SameModule (SameOrHooked su) m m') (r : BlockRef) {p : Block → Bool}
    (hp : ∀ b b', SameBlock (SameOrHooked su m.literals m'.literals) b b' → p b' = p b) :
    (m'.block? r).any p = (m.block? r).any p := by
  have hrel := forall₂_getElem? (h.graph r.graph).blocks r.index
  rw [Module.block?, Module.block?]
  generalize (m.graph r.graph).blocks[r.index]? = o at hrel ⊢
  generalize (m'.graph r.graph).blocks[r.index]? = o' at hrel ⊢
  cases hrel with
  | none => rfl
  | some hb => exact hp _ _ hb

theorem map_op_eq {is is' : List Instr} (h : List.Forall₂ (SameOrHooked su L L') is is') :
    is'.map Instr.op = is.map Instr.op := by
  induction h with
  | nil => rfl
  | cons hi _ ih => rw [List.map_cons, List.map_cons, hi.op, ih]

theorem SameBlock.any_getLast? {b b' : Block} (h : SameBlock (SameOrHooked su L L') b b')
    (p : Machine.Opcode → Bool) :
    (b'.instrs.getLast?.any fun i => p i.op) = b.instrs.getLast?.any fun i => p i.op := by
  have hlast : ∀ is : List Instr,
      (is.getLast?.any fun i => p i.op) = (is.map Instr.op).getLast?.any p := by
    intro is
    rw [List.getLast?_map, Option.any_map]
  rw [hlast, hlast, map_op_eq h.instrs]

theorem SameModule.count (h : SameModule (SameOrHooked su) m m') (g : Nat) :
    m'.count g = m.count g :=
  (h.graph g).blocks.length_eq.symm

theorem SameModule.drawNameFor (h : SameModule (SameOrHooked su) m m') (g : Nat) :
    SameModule (SameOrHooked su) (m.drawNameFor g).1 (m'.drawNameFor g).1 ∧
      (m'.drawNameFor g).2 = (m.drawNameFor g).2 := by
  rw [Module.drawNameFor, Module.drawNameFor, (h.graph g).ownNames]
  cases (m.graph g).ownNames with
  | none =>
    refine ⟨{ h with namesDrawn := congrArg (· + 1) h.namesDrawn }, ?_⟩
    exact congrArg generatedName h.namesDrawn
  | some n =>
    refine ⟨{ h with graphs := forall₂_modify h.graphs (fun _ _ hg => ?_) g }, rfl⟩
    exact ⟨rfl, hg.blocks⟩

theorem SameModule.addBlock (h : SameModule (SameOrHooked su) m m') (g : Nat) :
    SameModule (SameOrHooked su) (m.addBlock g "" []).1 (m'.addBlock g "" []).1 := by
  obtain ⟨hdrawn, hname⟩ := h.drawNameFor g
  rw [Module.addBlock_eq, Module.addBlock_eq, hname]
  refine { hdrawn with graphs := forall₂_modify hdrawn.graphs (fun _ _ hg => ?_) g }
  exact ⟨hg.ownNames, forall₂_concat hg.blocks ⟨rfl, rfl, .nil⟩⟩

theorem SameModule.opened (h : SameModule (SameOrHooked su) m m') (r : BlockRef) :
    SameModule (SameOrHooked su) (openedModule m r) (openedModule m' r) := by
  have hadd := h.addBlock r.graph
  have hnext : (m'.addBlock r.graph "" []).2 = (m.addBlock r.graph "" []).2 := by
    rw [Module.addBlock_eq, Module.addBlock_eq, h.count]
  have hends : ((m'.addBlock r.graph "" []).1.block? r).any Block.isTerminated =
      ((m.addBlock r.graph "" []).1.block? r).any Block.isTerminated :=
    hadd.any r fun b b' hb => hb.any_getLast? Machine.Opcode.isTerminator
  simp only [openedModule, hnext, hends]
  split
  · exact hadd
  · exact hadd.connect r _

theorem SameModule.jumped (h : SameModule (SameOrHooked su) m m') (r target : BlockRef) :
    SameModule (SameOrHooked su)
    (if (m.block? r).any fun b => b.endsInRet || b.hasSuccessor (some target) then
      m.emit r (jumpTo target) else (m.emit r (jumpTo target)).connect r (some target))
    (if (m'.block? r).any fun b => b.endsInRet || b.hasSuccessor (some target) then
      m'.emit r (jumpTo target) else (m'.emit r (jumpTo target)).connect r (some target)) := by
  have hemit : SameModule (SameOrHooked su) (m.emit r (jumpTo target))
      (m'.emit r (jumpTo target)) :=
    h.emit (.block r) (.of_literalFree (.inl (by simp [LiteralFree, jumpTo])))
  have hskip : ((m'.block? r).any fun b => b.endsInRet || b.hasSuccessor (some target)) =
      (m.block? r).any fun b => b.endsInRet || b.hasSuccessor (some target) := by
    refine h.any r fun b b' hb => ?_
    have hret : b'.endsInRet = b.endsInRet := hb.any_getLast? (· == .ret)
    rw [hret, Block.hasSuccessor, Block.hasSuccessor, hb.successors]
  rw [hskip]
  split
  · exact hemit
  · exact hemit.connect r _

theorem SameModule.entry? (h : SameModule (SameOrHooked su) m m') (g : Nat) :
    m'.entry? g = m.entry? g := by
  have hempty : ∀ m : Module, (m.graph g).blocks.isEmpty = decide (m.count g = 0) := by
    intro m
    rw [Module.count]
    cases (m.graph g).blocks <;> rfl
  rw [Module.entry?, Module.entry?, hempty, hempty, h.count]

theorem SameModule.declared (h : SameModule (SameOrHooked su) m m') (name : String) :
    SameModule (SameOrHooked su) (declaredModule m name) (declaredModule m' name) := by
  have hlength : m'.graphs.length = m.graphs.length := h.graphs.length_eq.symm
  have hgraph : SameModule (SameOrHooked su) (m.addGraph false).1 (m'.addGraph false).1 :=
    { h with graphs := forall₂_concat h.graphs ⟨rfl, .nil⟩ }
  have hreserved : SameModule (SameOrHooked su) (reservedModule m) (reservedModule m') := by
    rw [reservedModule, reservedModule, hlength]
    exact hgraph.addBlock m.graphs.length
  refine { hreserved with functions := ?_ }
  rw [declaredModule, declaredModule, h.functions, hlength]

end SameModule

/-! ## Selections with and without sharing -/

/-- The modules are the same but for literals, and the tables are made of the same strings and can
be searched by digest. -/
structure Sharing (su : Setup) (b b' : Bool) (s t : State) : Prop where
  module : SameModule (SameOrHooked su) s.module t.module
  tables : ∃ strings, s.module.literals = tableOf (namedStrings (kept b strings)) ∧
    t.module.literals = tableOf (namedStrings (kept b' strings))
  indexed : s.module.Indexed su.digest ∧ t.module.Indexed su.digest
  slots : t.slots = s.slots
  signatures : t.signatures = s.signatures
  remarks : t.remarks = s.remarks
  served : t.served = s.served

section Sharing

variable {su : Setup} {b b' : Bool} {s t : State}

def LiteralsKept (m m' : Module) : Prop := m'.literals = m.literals ∧ m'.interned = m.interned

theorem Sharing.withModule (h : Sharing su b b' s t) {m m' : Module}
    (hm : SameModule (SameOrHooked su) m m') (hl : LiteralsKept s.module m)
    (hl' : LiteralsKept t.module m') :
    Sharing su b b' { s with module := m } { t with module := m' } where
  module := hm
  tables := by
    obtain ⟨strings, hs, ht⟩ := h.tables
    exact ⟨strings, hl.1.trans hs, hl'.1.trans ht⟩
  indexed := ⟨h.indexed.1.congr hl.1 hl.2, h.indexed.2.congr hl'.1 hl'.2⟩
  slots := h.slots
  signatures := h.signatures
  remarks := h.remarks
  served := h.served

theorem literalsKept_emit (m : Module) (pt : Point) (i : Instr) : LiteralsKept m (pt.emit m i) :=
  ⟨(pt.emit_rest m i).2.2, pt.interned_emit m i⟩

theorem Sharing.emit (h : Sharing su b b' s t) (pt : Point) {i i' : Instr}
    (hi : SameOrHooked su s.module.literals t.module.literals i i') :
    Sharing su b b' (s.emit pt i) (t.emit pt i') :=
  h.withModule (h.module.emit pt hi) (literalsKept_emit s.module pt i)
    (literalsKept_emit t.module pt i')

/-- All strings have the same digest. -/
def collidingSetup (t : Scope.Table) (b : Scope.Bindings) : Setup :=
  { stackSetup t b with digest := fun _ => 0 }

end Sharing

end Isel.Select
