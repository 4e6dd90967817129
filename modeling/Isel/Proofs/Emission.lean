import Isel.Proofs.Outcome
import Isel.Select.Program

/-!
# What the steps of a selection leave behind

Of a module, the proofs about control look at two things only: the instructions of a
block (`Module.code`) and how many blocks a graph has (`Module.count`).  A block that
is not there has no instructions, so a new block changes the count and no code.

`Emitted pt code s s'` says that the steps from `s` to `s'` appended `code` at the
point `pt` and left the code everywhere else, the blocks and the functions alone.
-/

namespace Isel.Flow.Module

/-! ## Code and blocks of a module -/

/-- The instructions of a block; a block that is not there has none. -/
def code (m : Module) (r : BlockRef) : List Instr := (m.block? r).elim [] Block.instrs

def count (m : Module) (g : Nat) : Nat := (m.graph g).blocks.length

theorem code_of_count_le {m : Module} {g k : Nat} (h : m.count g ≤ k) : m.code ⟨g, k⟩ = [] := by
  rw [code, block?, List.getElem?_eq_none h]
  rfl

theorem lt_of_count_pos {m : Module} {g : Nat} (h : 0 < m.count g) : g < m.graphs.length := by
  rcases Nat.lt_or_ge g m.graphs.length with hlt | hge
  · exact hlt
  · rw [count, graph, List.getElem?_eq_none hge] at h
    simp at h

@[simp] theorem count_modifyBlock (m : Module) (r : BlockRef) (f : Block → Block) (g : Nat) :
    (m.modifyBlock r f).count g = m.count g := by
  rw [count, graph_modifyBlock]
  split
  · simp [count]
  · rfl

theorem code_emit {m : Module} {r : BlockRef} (h : r.index < m.count r.graph) (i : Instr)
    (q : BlockRef) :
    (m.emit r i).code q = if q = r then m.code q ++ [i] else m.code q := by
  rw [code, emit, block?_modifyBlock]
  by_cases hq : q = r
  · subst hq
    have hblock : m.block? q = some ((m.graph q.graph).blocks[q.index]) :=
      List.getElem?_eq_getElem h
    rw [if_pos rfl, if_pos rfl, code, hblock]
    rfl
  · rw [if_neg hq, if_neg hq]
    rfl

@[simp] theorem code_connect (m : Module) (r : BlockRef) (t : Option BlockRef) (q : BlockRef) :
    (m.connect r t).code q = m.code q := by
  rw [code, connect, block?_modifyBlock, code]
  by_cases hq : q = r
  · subst hq
    rw [if_pos rfl]
    cases m.block? q <;> rfl
  · rw [if_neg hq]

theorem graph_modify (m : Module) (f : Graph → Graph) (g q : Nat) (h : g < m.graphs.length) :
    ({ m with graphs := m.graphs.modify g f } : Module).graph q =
      if q = g then f (m.graph q) else m.graph q := by
  simp only [graph, List.getElem?_modify]
  by_cases hq : g = q
  · subst hq
    rw [List.getElem?_eq_getElem h]
    simp
  · simp [hq, Ne.symm hq]

theorem blocks_drawNameFor (m : Module) (g q : Nat) :
    ((m.drawNameFor g).1.graph q).blocks = (m.graph q).blocks := by
  rw [drawNameFor]
  split
  · rfl
  · simp only [graph, List.getElem?_modify]
    by_cases hq : g = q
    · subst hq
      cases m.graphs[g]? <;> simp
    · simp [hq]

theorem drawNameFor_rest (m : Module) (g : Nat) :
    (m.drawNameFor g).1.graphs.length = m.graphs.length ∧
      (m.drawNameFor g).1.functions = m.functions ∧ (m.drawNameFor g).1.globals = m.globals ∧
        (m.drawNameFor g).1.literals = m.literals := by
  rw [drawNameFor]
  split <;> simp [drawName]

theorem addBlock_eq (m : Module) (g : Nat) :
    m.addBlock g "" [] =
      ({ (m.drawNameFor g).1 with
          graphs := (m.drawNameFor g).1.graphs.modify g fun gr =>
            { gr with blocks := gr.blocks ++ [{ name := (m.drawNameFor g).2, instrs := [] }] } },
        ⟨g, m.count g⟩) := by
  simp only [addBlock, if_true, blocks_drawNameFor, count]

theorem blocks_addBlock {m : Module} {g : Nat} (h : g < m.graphs.length) (q : Nat) :
    ((m.addBlock g "" []).1.graph q).blocks =
      if q = g then (m.graph q).blocks ++ [{ name := (m.drawNameFor g).2, instrs := [] }]
      else (m.graph q).blocks := by
  have hlen : g < (m.drawNameFor g).1.graphs.length := by rwa [(m.drawNameFor_rest g).1]
  rw [addBlock_eq]
  simp only [graph_modify _ _ _ _ hlen]
  split
  · simp only [blocks_drawNameFor]
  · exact blocks_drawNameFor m g q

theorem count_addBlock {m : Module} {g : Nat} (h : g < m.graphs.length) (q : Nat) :
    (m.addBlock g "" []).1.count q = if q = g then m.count q + 1 else m.count q := by
  rw [count, blocks_addBlock h]
  split <;> simp [count]

theorem code_addBlock {m : Module} {g : Nat} (h : g < m.graphs.length) (q : BlockRef) :
    (m.addBlock g "" []).1.code q = m.code q := by
  rw [code, block?, blocks_addBlock h, code, block?]
  split
  · rcases Nat.lt_trichotomy q.index (m.graph q.graph).blocks.length with hlt | heq | hgt
    · rw [List.getElem?_append_left hlt]
    · rw [heq, List.getElem?_concat_length, List.getElem?_eq_none (Nat.le_refl _)]
      rfl
    · rw [List.getElem?_eq_none (by simp; omega), List.getElem?_eq_none (by omega)]
  · rfl

theorem addBlock_rest (m : Module) (g : Nat) :
    (m.addBlock g "" []).1.graphs.length = m.graphs.length ∧
      (m.addBlock g "" []).1.functions = m.functions ∧
        (m.addBlock g "" []).1.globals = m.globals ∧
          (m.addBlock g "" []).1.literals = m.literals := by
  rw [addBlock_eq]
  simpa using m.drawNameFor_rest g

theorem interned_addBlock (m : Module) (g : Nat) :
    (m.addBlock g "" []).1.interned = m.interned := by
  rw [addBlock_eq, drawNameFor]
  split <;> rfl

end Isel.Flow.Module

namespace Isel.Select

open Isel.Flow Isel.Syntax Isel.Proofs

/-! ## Points -/

def Point.code (m : Module) : Point → List Instr
  | .globals => m.globals
  | .block r => m.code r

/-- The point is the global sequence or a block that is there. -/
def Point.Valid (m : Module) : Point → Prop
  | .globals => True
  | .block r => r.index < m.count r.graph

theorem Point.code_emit {m : Module} {pt : Point} (h : pt.Valid m) (i : Instr) (q : Point) :
    q.code (pt.emit m i) = if q = pt then q.code m ++ [i] else q.code m := by
  cases pt with
  | globals =>
    cases q with
    | globals => rfl
    | block r => simp [Point.code, Point.emit, Module.emitGlobal, Module.code, Module.block?,
        Module.graph]
  | block r =>
    cases q with
    | globals => rfl
    | block r' => simpa [Point.code, Point.emit] using Module.code_emit h i r'

theorem Point.count_emit (m : Module) (pt : Point) (i : Instr) (g : Nat) :
    (pt.emit m i).count g = m.count g := by
  cases pt with
  | globals => rfl
  | block r => exact m.count_modifyBlock r _ g

theorem Point.emit_rest (m : Module) (pt : Point) (i : Instr) :
    (pt.emit m i).graphs.length = m.graphs.length ∧ (pt.emit m i).functions = m.functions ∧
      (pt.emit m i).literals = m.literals := by
  cases pt <;> simp [Point.emit, Module.emitGlobal, Module.emit, Module.modifyBlock]

theorem Point.interned_emit (m : Module) (pt : Point) (i : Instr) :
    (pt.emit m i).interned = m.interned := by cases pt <;> rfl

theorem Point.Valid.of_count {m m' : Module} {pt : Point} (h : pt.Valid m)
    (hcount : ∀ g, m'.count g = m.count g) : pt.Valid m' := by
  cases pt with
  | globals => trivial
  | block r =>
    show r.index < m'.count r.graph
    rw [hcount]
    exact h

/-! ## Growth -/

/-- What is handed out stays: slots, literals, functions and their signatures. -/
structure Grows (s s' : State) : Prop where
  owners : s.slots.owners <+: s'.slots.owners
  literals : s.module.literals <+: s'.module.literals
  functions : s.module.functions <+: s'.module.functions
  signatures : s.signatures <+: s'.signatures

theorem Grows.refl (s : State) : Grows s s :=
  ⟨List.prefix_rfl, List.prefix_rfl, List.prefix_rfl, List.prefix_rfl⟩

theorem Grows.trans {s s₁ s₂ : State} (h₁ : Grows s s₁) (h₂ : Grows s₁ s₂) : Grows s s₂ :=
  ⟨h₁.owners.trans h₂.owners, h₁.literals.trans h₂.literals, h₁.functions.trans h₂.functions,
    h₁.signatures.trans h₂.signatures⟩

theorem Grows.slot? {s s' : State} (h : Grows s s') {owner : Option Label} {slot : Slot}
    (hs : s.slots.slot? owner = some slot) : s'.slots.slot? owner = some slot := by
  obtain ⟨rest, hrest⟩ := h.owners
  rw [Slots.slot?] at hs ⊢
  rw [← hrest, List.findIdx?_append, hs]
  rfl

theorem Grows.literal {s s' : State} (h : Grows s s') {k : Nat} {l : Literal}
    (hs : s.module.literals[k]? = some l) : s'.module.literals[k]? = some l := by
  obtain ⟨rest, hrest⟩ := h.literals
  have hlt : k < s.module.literals.length := (List.getElem?_eq_some_iff.mp hs).1
  rw [← hrest, List.getElem?_append_left hlt, hs]

theorem Grows.function? {s s' : State} (h : Grows s s') {name : String} {f : Function}
    (hf : s.module.function? name = some f) : s'.module.function? name = some f := by
  obtain ⟨rest, hrest⟩ := h.functions
  rw [Module.function?] at hf ⊢
  rw [← hrest, List.find?_append, hf]
  rfl

/-! ## Emission -/

/-- The steps from `s` to `s'` appended `code` at the point, and left alone the code
everywhere else, the blocks and the functions. -/
structure Emitted (pt : Point) (code : List Instr) (s s' : State) : Prop where
  here : pt.code s'.module = pt.code s.module ++ code
  elsewhere : ∀ q, q ≠ pt → q.code s'.module = q.code s.module
  count : ∀ g, s'.module.count g = s.module.count g
  graphs : s'.module.graphs.length = s.module.graphs.length
  functions : s'.module.functions = s.module.functions
  signatures : s'.signatures = s.signatures
  owners : s.slots.owners <+: s'.slots.owners
  literals : s.module.literals <+: s'.module.literals

theorem Emitted.grows {pt : Point} {code : List Instr} {s s' : State} (h : Emitted pt code s s') :
    Grows s s' :=
  ⟨h.owners, h.literals, h.functions ▸ List.prefix_rfl, h.signatures ▸ List.prefix_rfl⟩

theorem Emitted.valid {pt q : Point} {code : List Instr} {s s' : State}
    (h : Emitted pt code s s') (hq : q.Valid s.module) : q.Valid s'.module :=
  hq.of_count h.count

theorem Emitted.trans {pt : Point} {c d : List Instr} {s s₁ s₂ : State} (h₁ : Emitted pt c s s₁)
    (h₂ : Emitted pt d s₁ s₂) : Emitted pt (c ++ d) s s₂ where
  here := by rw [h₂.here, h₁.here, List.append_assoc]
  elsewhere q hq := (h₂.elsewhere q hq).trans (h₁.elsewhere q hq)
  count g := (h₂.count g).trans (h₁.count g)
  graphs := h₂.graphs.trans h₁.graphs
  functions := h₂.functions.trans h₁.functions
  signatures := h₂.signatures.trans h₁.signatures
  owners := h₁.owners.trans h₂.owners
  literals := h₁.literals.trans h₂.literals

theorem emitted_same {pt : Point} {s s' : State} (hm : s'.module = s.module)
    (hsig : s'.signatures = s.signatures) (ho : s.slots.owners <+: s'.slots.owners) :
    Emitted pt [] s s' := by
  constructor <;> first | assumption | simp [hm]

def State.emit (s : State) (pt : Point) (i : Instr) : State :=
  { s with module := pt.emit s.module i }

@[simp] theorem emit_apply (pt : Point) (op : Machine.Opcode) (args : List Operand) (s : State) :
    emit pt op args s = .ok ⟨⟩ (s.emit pt ⟨op, args⟩) := rfl

@[simp] theorem emit_bind_apply {α : Type} (pt : Point) (op : Machine.Opcode)
    (args : List Operand) (f : Unit → Selection α) (s : State) :
    (emit pt op args >>= f) s = f ⟨⟩ (s.emit pt ⟨op, args⟩) := rfl

theorem emitted_emit {pt : Point} {s : State} (h : pt.Valid s.module) (i : Instr) :
    Emitted pt [i] s (s.emit pt i) where
  here := by simp [State.emit, Point.code_emit h]
  elsewhere q hq := by simp [State.emit, Point.code_emit h, hq]
  count g := pt.count_emit s.module i g
  graphs := (pt.emit_rest s.module i).1
  functions := (pt.emit_rest s.module i).2.1
  signatures := rfl
  owners := List.prefix_rfl
  literals := by simp [State.emit, (pt.emit_rest s.module i).2.2]

theorem emitted_foldl {pt : Point} : ∀ (out : List Instr) (s : State), pt.Valid s.module →
    Emitted pt out s { s with module := out.foldl (fun m i => pt.emit m i) s.module } := by
  intro out
  induction out with
  | nil =>
    intro s _
    exact emitted_same rfl rfl List.prefix_rfl
  | cons i out ih =>
    intro s h
    have hfirst := emitted_emit h i
    exact hfirst.trans (ih _ (hfirst.valid h))

/-! ## The steps one by one -/

def State.withOwner (s : State) (l : Label) : State :=
  { s with slots := (s.slots.add (some l)).2 }

theorem allocate_of_none {tag : Tag} {s : State} (h : s.slots.slot? (some tag.label) = none) :
    allocate tag s = .ok s.slots.count (s.withOwner tag.label) := by
  simp [allocate, Slots.allocate, h]
  rfl

theorem allocate_eq_ok {tag : Tag} {s s' : State} {slot : Slot} :
    allocate tag s = .ok slot s' ↔
      s.slots.slot? (some tag.label) = none ∧ slot = s.slots.count ∧
        s' = s.withOwner tag.label := by
  cases h : s.slots.slot? (some tag.label) with
  | none =>
    rw [allocate_of_none h]
    constructor
    · intro he
      cases he
      exact ⟨rfl, rfl, rfl⟩
    · rintro ⟨-, rfl, rfl⟩
      rfl
  | some other => simp [allocate, Slots.allocate, h, failSlot, fail]

theorem emitted_withOwner (pt : Point) (s : State) (l : Label) :
    Emitted pt [] s (s.withOwner l) :=
  emitted_same rfl rfl (List.prefix_append _ _)

theorem slot?_withOwner {s : State} {l : Label} (h : s.slots.slot? (some l) = none) :
    (s.withOwner l).slots.slot? (some l) = some s.slots.count :=
  Slots.slot?_add_self h

theorem slot?_inj {s : Slots} {l l' : Label} {k : Slot} (h : s.slot? (some l) = some k)
    (h' : s.slot? (some l') = some k) : l = l' := by
  rw [Slots.slot?, List.findIdx?_eq_some_iff_getElem] at h h'
  obtain ⟨hk, hl, -⟩ := h
  obtain ⟨_, hl', -⟩ := h'
  rw [beq_iff_eq] at hl hl'
  exact Option.some.inj (hl.symm.trans hl')

theorem claimSlot_eq_ok {tag : Tag} {s s' : State} {slot : Slot} :
    claimSlot tag s = .ok slot s' ↔ tag.kind.isExpr = true ∧ allocate tag s = .ok slot s' := by
  rw [claimSlot]
  split
  · next h => simp [h]
  · next h => simp [h, fail]

theorem lookup_eq_ok {pos : Source.Position} {decl : Decl} {s s' : State} {slot : Slot} :
    lookup pos decl s = .ok slot s' ↔ s.slots.slot? (some decl.label) = some slot ∧ s' = s := by
  cases h : s.slots.slot? (some decl.label) with
  | none => simp [lookup, Slots.lookup, h, failSlot, fail]
  | some other =>
    simp only [lookup, get_bind_apply, Slots.lookup, Option.map_some, h, pure_apply,
      EStateM.Result.ok.injEq, Option.some.injEq]
    exact and_congr_right fun _ => eq_comm

theorem serve_eq_ok {su : Setup} {pos : Source.Position} {pt : Point} {request : Request}
    {s s' : State} {u : Unit} :
    serve su pos pt request s = .ok u s' ↔
      ∃ out, su.hooks.answer s.served request = .ok out ∧
        s' = { s with
          module := out.foldl (fun m i => pt.emit m i) s.module
          served := s.served ++ [request] } := by
  cases h : su.hooks.answer s.served request with
  | error f => simp [serve, h, fail]
  | ok out =>
    simp only [serve, get_bind_apply, h, modify_apply, EStateM.Result.ok.injEq, true_and,
      Except.ok.injEq, exists_eq_left']
    exact eq_comm

theorem emitted_serve {su : Setup} {pos : Source.Position} {pt : Point} {request : Request}
    {s s' : State} {u : Unit} (hv : pt.Valid s.module)
    (h : serve su pos pt request s = .ok u s') :
    ∃ out, su.hooks.answer s.served request = .ok out ∧ Emitted pt out s s' ∧
      s'.slots = s.slots := by
  obtain ⟨out, hout, rfl⟩ := serve_eq_ok.mp h
  have hemit := emitted_foldl out s hv
  exact ⟨out, hout, ⟨hemit.here, hemit.elsewhere, hemit.count, hemit.graphs, hemit.functions,
    hemit.signatures, hemit.owners, hemit.literals⟩, rfl⟩

/-- The state behind a remark, which is made only if its warning is on. -/
def State.remarked (su : Setup) (w : Settings.Warning) (pos : Source.Position)
    (message : String) (s : State) : State :=
  if su.config.warns w then { s with remarks := s.remarks ++ [⟨w, pos, message⟩] } else s

section Remark

variable (su : Setup) (w : Settings.Warning) (pos : Source.Position) (message : String) (s : State)

@[simp] theorem remark_apply :
    remark su w pos message s = .ok ⟨⟩ (s.remarked su w pos message) := by
  rw [remark, State.remarked]
  split <;> rfl

@[simp] theorem remark_bind_apply {α : Type} (f : Unit → Selection α) :
    (remark su w pos message >>= f) s = f ⟨⟩ (s.remarked su w pos message) :=
  bind_of_ok (remark_apply su w pos message s)

@[simp] theorem remarked_module : (s.remarked su w pos message).module = s.module := by
  rw [State.remarked]
  split <;> rfl

@[simp] theorem remarked_slots : (s.remarked su w pos message).slots = s.slots := by
  rw [State.remarked]
  split <;> rfl

@[simp] theorem remarked_signatures :
    (s.remarked su w pos message).signatures = s.signatures := by
  rw [State.remarked]
  split <;> rfl

@[simp] theorem remarked_served : (s.remarked su w pos message).served = s.served := by
  rw [State.remarked]
  split <;> rfl

theorem emitted_remarked (pt : Point) : Emitted pt [] s (s.remarked su w pos message) :=
  emitted_same (by simp) (by simp) (by simp)

end Remark

/-- The module and the slot that a string leads to. -/
def literalEntry (su : Setup) (bytes : List UInt8) (m : Module) : Module × Nat :=
  (if su.config.uses .dedupLiterals then m.internLiteral else m.addLiteral) su.digest
    (literalName m.literals.length) bytes

theorem literalFor_apply (su : Setup) (bytes : List UInt8) (s : State) :
    literalFor su bytes s =
      .ok (literalEntry su bytes s.module).2
        { s with module := (literalEntry su bytes s.module).1 } := rfl

/-- A string leads to an entry with its bytes, and the module changes in its literals only. -/
theorem literalEntry_spec (su : Setup) (bytes : List UInt8) (m : Module) :
    (∃ l, (literalEntry su bytes m).1.literals[(literalEntry su bytes m).2]? = some l ∧
        l.bytes = bytes) ∧
      ∃ more index, (literalEntry su bytes m).1 =
        { m with literals := m.literals ++ more, interned := index } := by
  have hadd : ∀ (digest : Digest) (name : String),
      (∃ l, (m.addLiteral digest name bytes).1.literals[(m.addLiteral digest name bytes).2]? =
          some l ∧ l.bytes = bytes) ∧
        ∃ more index, (m.addLiteral digest name bytes).1 =
          { m with literals := m.literals ++ more, interned := index } := by
    intro digest name
    refine ⟨⟨⟨m.literals.length, name, bytes⟩, ?_, rfl⟩, _, _, rfl⟩
    exact List.getElem?_concat_length
  rw [literalEntry]
  split
  · rw [Module.internLiteral]
    cases hfound : m.literalSlot? su.digest bytes with
    | none => exact hadd su.digest _
    | some slot =>
      rw [Module.literalSlot?] at hfound
      have hmatch := List.find?_some hfound
      rw [Option.any_eq_true] at hmatch
      obtain ⟨l, hl, hmatch⟩ := hmatch
      exact ⟨⟨l, hl, eq_of_beq hmatch⟩, [], m.interned, by simp⟩
  · exact hadd su.digest _

theorem emitted_literalFor {su : Setup} {bytes : List UInt8} {s s' : State} {k : Nat} (pt : Point)
    (h : literalFor su bytes s = .ok k s') :
    Emitted pt [] s s' ∧ s'.slots = s.slots ∧
      ∃ l, s'.module.literals[k]? = some l ∧ l.bytes = bytes := by
  obtain ⟨hentry, more, index, hmore⟩ := literalEntry_spec su bytes s.module
  rw [literalFor_apply] at h
  cases h
  refine ⟨?_, rfl, hentry⟩
  have hpoint : ∀ q : Point, q.code (literalEntry su bytes s.module).1 = q.code s.module := by
    intro q
    rw [hmore]
    cases q <;> rfl
  constructor
  case here => simpa using hpoint pt
  case elsewhere => exact fun q _ => hpoint q
  case literals => simp [hmore]
  all_goals simp [hmore, Module.count, Module.graph]

/-! ## Blocks and jumps -/

/-- The steps from `s` to `s'` added an empty block to a graph. -/
structure Opened (g : Nat) (s s' : State) : Prop where
  code : ∀ q : Point, q.code s'.module = q.code s.module
  count : ∀ q, s'.module.count q = if q = g then s.module.count q + 1 else s.module.count q
  graphs : s'.module.graphs.length = s.module.graphs.length
  functions : s'.module.functions = s.module.functions
  signatures : s'.signatures = s.signatures
  slots : s'.slots = s.slots
  literals : s'.module.literals = s.module.literals

theorem Opened.grows {g : Nat} {s s' : State} (h : Opened g s s') : Grows s s' :=
  ⟨h.slots ▸ List.prefix_rfl, h.literals ▸ List.prefix_rfl, h.functions ▸ List.prefix_rfl,
    h.signatures ▸ List.prefix_rfl⟩

theorem Point.code_connect (m : Module) (r : BlockRef) (t : Option BlockRef) (q : Point) :
    q.code (m.connect r t) = q.code m := by
  cases q with
  | globals => rfl
  | block r' => exact m.code_connect r t r'

/-- The module with a block behind `current`, and an edge if control falls through. -/
def openedModule (m : Module) (current : BlockRef) : Module :=
  let (m, r) := m.addBlock current.graph "" []
  if (m.block? current).any Block.isTerminated then m else m.connect current (some r)

theorem openBlock_apply (current : BlockRef) (s : State) :
    openBlock current s =
      .ok ⟨current.graph, s.module.count current.graph⟩
        { s with module := openedModule s.module current } := by
  have hr : (s.module.addBlock current.graph "" []).2 =
      ⟨current.graph, s.module.count current.graph⟩ := by rw [Module.addBlock_eq]
  rw [← hr]
  rfl

theorem opened_openedModule {r : BlockRef} {s : State} (h : 0 < s.module.count r.graph) :
    Opened r.graph s { s with module := openedModule s.module r } := by
  have hlt := Module.lt_of_count_pos h
  obtain ⟨hgraphs, hfun, hglob, hlit⟩ := s.module.addBlock_rest r.graph
  constructor
  case code =>
    intro q
    have hadd : q.code (s.module.addBlock r.graph "" []).1 = q.code s.module := by
      cases q with
      | globals => exact hglob
      | block q => exact Module.code_addBlock hlt q
    simp only [openedModule]
    split
    · exact hadd
    · rw [Point.code_connect, hadd]
  case count =>
    intro q
    simp only [openedModule]
    split
    · exact Module.count_addBlock hlt q
    · rw [Module.connect, Module.count_modifyBlock]
      exact Module.count_addBlock hlt q
  case graphs | functions | literals =>
    simp only [openedModule]
    split <;> simp [Module.connect, Module.modifyBlock, hgraphs, hfun, hlit]
  all_goals rfl

theorem openBlock_spec {g i : Nat} {s : State} (h : s.module.count g = i + 1) :
    ∃ s', openBlock ⟨g, i⟩ s = .ok ⟨g, i + 1⟩ s' ∧ Opened g s s' := by
  have hpos : 0 < s.module.count g := by omega
  refine ⟨_, ?_, opened_openedModule (r := ⟨g, i⟩) hpos⟩
  rw [openBlock_apply]
  simp only [h]

def jumpTo (target : BlockRef) : Instr := ⟨.jump, [.block (some target)]⟩

theorem jump_spec {r : BlockRef} {s : State}
    (h : (Point.block r).Valid s.module) (target : BlockRef) :
    ∃ s', jump r target s = .ok ⟨⟩ s' ∧ Emitted (.block r) [jumpTo target] s s' ∧
      s'.slots = s.slots := by
  have hemit := emitted_emit h (jumpTo target)
  refine ⟨_, rfl, ?_, rfl⟩
  simp only
  split
  · exact hemit
  · constructor
    case here => exact (Point.code_connect ..).trans hemit.here
    case elsewhere => exact fun q hq => (Point.code_connect ..).trans (hemit.elsewhere q hq)
    case count => exact fun g => (Module.count_modifyBlock ..).trans (hemit.count g)
    case graphs => exact (by simp [Module.connect, Module.modifyBlock, Module.emit])
    case functions | signatures => rfl
    case owners | literals => exact List.prefix_rfl

/-- The end of a block that goes on at `yes` or `no`. -/
def branchTo (cond : Slot) (yes no : BlockRef) : List Instr :=
  [⟨.tst, [.slot cond, .imm 1]⟩, jumpTo yes, jumpTo no]

theorem emitBranch_spec {r : BlockRef} {s : State}
    (h : (Point.block r).Valid s.module) (cond : Slot) (yes no : BlockRef) :
    ∃ s', emitBranch r cond yes no s = .ok ⟨⟩ s' ∧
      Emitted (.block r) (branchTo cond yes no) s s' ∧ s'.slots = s.slots := by
  have htest := emitted_emit h ⟨.tst, [.slot cond, .imm 1]⟩
  obtain ⟨s₁, hs₁, hyes, hslots₁⟩ := jump_spec (htest.valid h) yes
  obtain ⟨s₂, hs₂, hno, hslots₂⟩ := jump_spec (hyes.valid (htest.valid h)) no
  refine ⟨s₂, ?_, (htest.trans hyes).trans hno, hslots₂.trans hslots₁⟩
  rw [emitBranch, bind_of_ok (emit_apply ..), bind_of_ok hs₁, hs₂]

end Isel.Select
